import MakarnaX.Memory.Kmalloc.Run
import MakarnaX.Memory.Paging.TmpPages

/-!
# The allocator on the temporary pages

`Kmalloc` leaves open what `tmp_page_alloc_map` answers.  Here it is answered by
the memory of `Paging`: the slot is the lowest free one and the frame the first of
the free list, and a page that `kfree` gives up goes back through `tmp_page_free`.
The rest of the kernel may take and release temporary pages and frames between
the calls.

Two results need both sides.  A `kfree` right behind a `kmalloc` leads back to the
heap before it, so that the same request is answered in the same way; and when
everything is freed, nothing is left of the pages, in whatever order it was freed.
-/

namespace MakarnaX.KernelHeap

open Library Kmalloc
open Library.Buddy Function List
open Kmalloc (Layout State TmpPage Heap Clear Settled Allocated Picks Bare Undoes)

/-- `kmalloc`, where `contents f` is what frame `f` holds.  Without a page the
allocator returns 0 for a size that is not too large just when it asked for one. -/
def kmalloc (K : Layout) (contents : Nat → Nat → UInt8) (n : Nat) (st : State) (vm : Vm) :
    Exec (Nat × State × Vm) := do
  let (p, st') ← Kmalloc.kmalloc K none st n
  if p ≠ 0 ∨ 2044 < n then return (p, st', vm)
  else
    let (r, vm') ← tmpPageAllocMap (PTE_P ||| PTE_W) vm
    let src := r.map fun x => ⟨(x.2 - MMAP_KERNEL_TMP_PAGE_BASE) / 0x1000, contents x.1⟩
    let (p, st') ← Kmalloc.kmalloc K src st n
    return (p, st', vm')

/-- `kfree`, with the call of `tmp_page_free` on the page the allocator gave up. -/
def kfree (K : Layout) (p : Nat) (st : State) (vm : Vm) : Exec (State × Vm) := do
  let st' ← Kmalloc.kfree K st p
  match (range 1024).find? fun i => i ∈ st.tmpPages ∧ i ∉ st'.tmpPages with
  | none => return (st', vm)
  | some i =>
    let (_, vm') ← tmpPageFree (tmpVa i) vm
    return (st', vm')

structure Machine where
  st : State
  vm : Vm
  /-- The pointers that are held, with the sizes that were asked for. -/
  live : Nat → Option Nat
  /-- The temporary pages that somebody else holds. -/
  others : Nat → Bool
  /-- The frames `kmalloc` ever obtained. -/
  got : Finset Nat
  /-- The frames that left the free list in somebody else's call and are not back. -/
  elsewhere : Finset Nat

def Machine.config (m : Machine) : Kmalloc.Config := ⟨m.st, m.live⟩

variable {K : Layout} {S : Setup} {ty : Nat → PageType} {holds : Nat → Nat} {m : Machine} {st st' : State}
  {k : Nat} {vm : Vm}

/-- The frames on the free list. -/
def freeFrames (S : Setup) (vm : Vm) : Finset Nat := (vm.phys.freeFrames S.pagesNr).toFinset

/-- Somebody else's call went on to the memory `vm`. -/
def Machine.elsewhereAfter (S : Setup) (m : Machine) (vm : Vm) : Finset Nat :=
  (m.elsewhere ∪ freeFrames S m.vm) \ freeFrames S vm

inductive Step (K : Layout) (S : Setup) : Machine → Machine → Prop
  | kmalloc {m : Machine} {contents : Nat → Nat → UInt8} {n p : Nat} {st : State} {vm : Vm} :
      kmalloc K contents n m.st m.vm = .ok (p, st, vm) →
      Step K S m { m with
        st := st
        vm := vm
        live := if p = 0 then m.live else update m.live p (some n)
        got := m.got ∪ (freeFrames S m.vm \ freeFrames S vm) }
  | kfree {m : Machine} {p : Nat} {st : State} {vm : Vm} : m.live p ≠ none →
      kfree K p m.st m.vm = .ok (st, vm) →
      Step K S m { m with st := st, vm := vm, live := update m.live p none }
  | client {m : Machine} {mem : Mem} {cpu : Cpu} :
      (∀ x, mem x ≠ m.st.mem x → m.config.Requested x ∨ m.config.Foreign K x) → 0 ≤ cpu.nCli →
      Step K S m { m with st := { m.st with mem := mem, cpu := cpu } }
  | alloc {m : Machine} {perm : Perm} {r : Option (Nat × Nat)} {vm : Vm} : perm.getLsbD 0 = true →
      tmpPageAllocMap perm m.vm = .ok (r, vm) →
      Step K S m { m with
        vm := vm
        others := fun k => m.others k || r.any fun x => x.2 = tmpVa k
        elsewhere := m.elsewhereAfter S vm }
  | free {m : Machine} {k : Nat} {r : Int} {vm : Vm} : k < 1024 → m.others k = true →
      tmpPageFree (tmpVa k) m.vm = .ok (r, vm) →
      Step K S m { m with
        vm := vm
        others := fun j => m.others j && j ≠ k
        elsewhere := m.elsewhereAfter S vm }
  | take {m : Machine} {r : Option Nat} {vm : Vm} : onPhys pageAlloc m.vm = .ok (r, vm) →
      Step K S m { m with vm := vm, elsewhere := m.elsewhereAfter S vm }
  | give {m : Machine} {p : Nat} {vm : Vm} : p < S.pagesNr → p ≠ 0 → onPhys (pageFree p) m.vm = .ok ((), vm) →
      Step K S m { m with vm := vm, elsewhere := m.elsewhereAfter S vm }

/-- After `kmalloc_init` and `tmp_page_init`; the counters are zero as in the image. -/
structure Start (K : Layout) (S : Setup) (ty : Nat → PageType) (holds : Nat → Nat) (m : Machine) : Prop where
  heap : Kmalloc.Boot K m.config
  headers : ∀ i, m.st.pageHeaders i = .zero
  pages : TmpPages.Start S ty holds ⟨m.vm, m.others⟩
  got : m.got = ∅
  elsewhere : m.elsewhere = ∅

def system (K : Layout) (S : Setup) (ty : Nat → PageType) (holds : Nat → Nat) : System Machine where
  init := Start K S ty holds
  step := Step K S

/-! ## The invariant -/

structure Invariant (K : Layout) (S : Setup) (ty : Nat → PageType) (holds : Nat → Nat) (m : Machine) (H : Heap)
    (L : Ledger Nat) (c : Cpu) : Prop where
  heap : Kmalloc.Invariant K m.config H
  clear : Clear m.st
  pages : TmpPages.Invariant S ty holds ⟨m.vm, m.vm.tmpPages.test⟩ L c
  slots : ∀ k < 1024, m.vm.tmpPages.test k = true ↔ m.others k = true ∨ k ∈ m.st.tmpPages
  apart : ∀ k < 1024, m.others k = true → k ∉ m.st.tmpPages
  got : ∀ f ∈ m.got, f ∈ L.free ∨ f ∈ m.elsewhere ∨ ∃ k ∈ m.st.tmpPages, m.vm.target (S.tmpTable, k) = some f

theorem Start.invariant (h : Start K S ty holds m) : ∃ L c, Invariant K S ty holds m Heap.empty L c := by
  obtain ⟨L, c, I⟩ := h.pages.invariant
  have hnone : m.st.tmpPages = ∅ := by
    obtain ⟨s, hs, -, he⟩ := h.heap
    rw [show m.st = kmallocInit K s from congrArg Kmalloc.Config.st he]
    exact hs
  have hbit : ∀ k, m.vm.tmpPages.test k = false := fun k => by
    have h0 : m.vm.tmpPages (k / 32) = 0 := h.pages.bits _
    rw [Bitmap.test, h0]
    exact BitVec.getLsbD_zero
  refine ⟨L, c, .boot h.heap, fun i _ => h.headers i, I.bits, fun k _ => ?_, fun k _ _ => ?_, fun f hf => ?_⟩
  · have hother : m.others k = false := h.pages.held k
    simp [hbit, hother, hnone]
  · simp [hnone]
  · rw [h.got] at hf
    exact absurd hf (Finset.notMem_empty f)

section Calls

variable {H : Heap} {L : Ledger Nat} {c : Cpu} {contents : Nat → Nat → UInt8} {n p : Nat}

theorem Invariant.settled (I : Invariant K S ty holds m H L c) : Settled K m.st H := I.heap.settled

theorem Invariant.freeFrames_eq (I : Invariant K S ty holds m H L c) : freeFrames S m.vm = L.free.toFinset :=
  congrArg toFinset I.pages.ready.owned.rep.freeFrames

theorem index_tmpVa (k : Nat) : (tmpVa k - MMAP_KERNEL_TMP_PAGE_BASE) / 0x1000 = k := by
  unfold tmpVa
  omega

/-- How a call of `kmalloc` goes on the allocator's side: it needs no page, or it
takes the one it is given. -/
theorem kmalloc_none_cases {st : State} (hs : Settled K st H) (n : Nat) :
    ∃ p st', Kmalloc.kmalloc K none st n = .ok (p, st') ∧ st'.tmpPages = st.tmpPages ∧ (Clear st → Clear st') ∧
      ((p = 0 ∧ 2044 < n) ∨ (p = 0 ∧ n ≤ 2044 ∧ ∃ u, Bare H n u) ∨
        ∃ b H', p ≠ 0 ∧ n ≤ 2044 ∧ Allocated K st H n none p st' b H' ∧ H'.pages = H.pages) := by
  rcases Kmalloc.kmalloc_spec (n := n) hs (show Kmalloc.Unused st none from fun _ h => by cases h) with
    ⟨hn, hk⟩ | ⟨-, s', u, hk, hs', -, hph, hn, hb⟩ | ⟨p, s', b, H', hk, ha⟩
  · exact ⟨0, st, hk, rfl, id, .inl ⟨rfl, hn⟩⟩
  · have hpages : s'.tmpPages = st.tmpPages := hs'.rep.pages.trans hs.rep.pages.symm
    refine ⟨0, s', hk, hpages, fun hc i hi => ?_, .inr (.inl ⟨rfl, hn, u, hb⟩)⟩
    rw [hph]
    exact hc i (hpages ▸ hi)
  · have hpages : H'.pages = H.pages := ha.picks.pages_none
    have hptr := ha.ptr
    exact ⟨p, s', hk, ha.settled.rep.pages.trans (hpages.trans hs.rep.pages.symm), ha.clear,
      .inr (.inr ⟨b, H', by omega, ha.le, ha, hpages⟩)⟩

/-- A call of `kmalloc` that maps the frame `f` at slot `k`. -/
structure TakesPage (K : Layout) (S : Setup) (ty : Nat → PageType) (holds : Nat → Nat) (contents : Nat → Nat → UInt8)
    (n : Nat) (st : State) (vm : Vm) (H : Heap) (L : Ledger Nat) (c : Cpu) (p : Nat) (st' : State) (vm' : Vm)
    (k f : Nat) (rest : List Nat) : Prop where
  can : CanMap vm L k f rest
  call : kmalloc K contents n st vm = .ok (p, st', vm')
  page : Kmalloc.kmalloc K (some ⟨k, contents f⟩) st n = .ok (p, st')
  bare : ∃ u, Bare H n u
  allocated : ∃ b H', Allocated K st H n (some k) p st' b H'
  memory : ∃ q, vm' = { vm.mapTmp k f (PTE_P ||| PTE_W) with phys := q }
  pages : TmpPages.Invariant S ty holds ⟨vm', vm'.tmpPages.test⟩ can.ledger c

/-- A call of `kmalloc` takes a page, or it leaves the memory as it is. -/
theorem kmalloc_outcome {st : State} (hs : Settled K st H)
    (P : TmpPages.Invariant S ty holds ⟨vm, vm.tmpPages.test⟩ L c) (hsub : ∀ k ∈ st.tmpPages, vm.tmpPages.test k = true)
    (contents : Nat → Nat → UInt8) (n : Nat) :
    (∃ p st', kmalloc K contents n st vm = .ok (p, st', vm) ∧ Kmalloc.kmalloc K none st n = .ok (p, st') ∧
      (n ≤ 2044 → ∀ u, Bare H n u → Exhausted vm L)) ∨
    ∃ p st' vm' k f rest, TakesPage K S ty holds contents n st vm H L c p st' vm' k f rest := by
  obtain ⟨p, st', hk, -, -, hcases⟩ := kmalloc_none_cases hs n
  unfold kmalloc
  rw [hk, ok_bind]
  dsimp only
  rcases hcases with ⟨hp, hn⟩ | ⟨hp, hn, u, hb⟩ | ⟨b, H', hp, -, ha, -⟩
  · rw [if_pos (.inr hn)]
    exact .inl ⟨p, st', rfl, rfl, fun hn' => by omega⟩
  · rw [if_neg (by omega)]
    by_cases hex : Exhausted vm L
    · left
      rw [tmpPageAllocMap_exhausted P.ready.account P.ifl hex, ok_bind]
      dsimp only [Option.map_none]
      rw [hk]
      exact ⟨p, st', rfl, rfl, fun _ _ _ => hex⟩
    · right
      obtain ⟨k, f, rest, M⟩ := P.ready.canMap hex
      obtain ⟨q, hcall, P'⟩ := P.alloc (show (PTE_P ||| PTE_W).getLsbD 0 = true by decide) M
      have hfree : k ∉ st.tmpPages := fun h => by
        have := hsub k h
        rw [M.bit] at this
        cases this
      have hsrc : Kmalloc.Unused st (some ⟨k, contents f⟩) := fun _ h => by
        cases h
        exact ⟨M.lt, hfree⟩
      rcases Kmalloc.kmalloc_spec (n := n) hs hsrc with ⟨hbig, -⟩ | ⟨hnone, -⟩ | ⟨p', s', b, H', hk', ha⟩
      · omega
      · cases hnone
      · refine ⟨p', s', _, k, f, rest, M, ?_, hk', ⟨u, hb⟩, ⟨b, H', ha⟩, ⟨q, rfl⟩, P'.bits⟩
        unfold kmalloc
        rw [hk, ok_bind]
        dsimp only
        rw [if_neg (by omega), hcall, ok_bind]
        dsimp only [Option.map_some]
        rw [index_tmpVa, hk']
        rfl
  · rw [if_pos (.inl hp)]
    exact .inl ⟨p, st', rfl, rfl, fun _ _ hb => (ha.picks.not_bare hb).elim⟩

theorem kfree_keeps (hcall : Kmalloc.kfree K st p = .ok st') (h : st'.tmpPages = st.tmpPages) :
    kfree K p st vm = .ok (st', vm) := by
  have hnone : ((range 1024).find? fun i => i ∈ st.tmpPages ∧ i ∉ st'.tmpPages) = none := by
    refine find?_eq_none.mpr fun i _ => ?_
    rw [h]
    simp
  unfold kfree
  rw [hcall, ok_bind, hnone]
  rfl

theorem kfree_gives {i f : Nat} (P : TmpPages.Invariant S ty holds ⟨vm, vm.tmpPages.test⟩ L c)
    (hcall : Kmalloc.kfree K st p = .ok st') (hi : i ∈ st.tmpPages) (hlt : i < 1024)
    (h : st'.tmpPages = st.tmpPages.erase i) (hf : vm.target (S.tmpTable, i) = some f) :
    ∃ vm', ∃ hfree : f ∉ L.free, kfree K p st vm = .ok (st', vm') ∧ (∃ q, vm' = { vm.unmapTmp i with phys := q }) ∧
      TmpPages.Invariant S ty holds ⟨vm', vm'.tmpPages.test⟩ (L.drop f hfree) c := by
  have hsome : ((range 1024).find? fun j => j ∈ st.tmpPages ∧ j ∉ st'.tmpPages) = some i := by
    refine find?_range_eq_some.mpr ⟨?_, mem_range.mpr hlt, fun j hj => ?_⟩
    · simp [h, hi]
    · have hne : j ≠ i := Nat.ne_of_lt hj
      simp [h, hne]
  obtain ⟨q, hfree, hfreeCall, P'⟩ := P.free hlt hf
  refine ⟨_, hfree, ?_, ⟨q, rfl⟩, P'.bits⟩
  unfold kfree
  rw [hcall, ok_bind, hsome]
  dsimp only
  rw [hfreeCall]
  rfl

end Calls

/-! ## Steps -/

section Steps

variable {H : Heap} {L : Ledger Nat} {c : Cpu} {contents : Nat → Nat → UInt8} {n p : Nat} {st : State} {vm : Vm}

section

variable (I : Invariant K S ty holds m H L c)

include I

theorem Invariant.lt (hk : k ∈ m.st.tmpPages) : k < 1024 :=
  I.settled.rep.wf.pages k (I.settled.rep.pages ▸ hk)

theorem Invariant.bit (hk : k ∈ m.st.tmpPages) :
    m.vm.tmpPages.test k = true := (I.slots k (I.lt hk)).mpr (.inr hk)

theorem Invariant.kmalloc (hcall : KernelHeap.kmalloc K contents n m.st m.vm = .ok (p, st, vm)) :
    ∃ H' L', Invariant K S ty holds { m with
      st := st
      vm := vm
      live := if p = 0 then m.live else update m.live p (some n)
      got := m.got ∪ (freeFrames S m.vm \ freeFrames S vm) } H' L' c := by
  rcases kmalloc_outcome I.settled I.pages (fun k hk => I.bit hk) contents n with
    ⟨p', st', hk, hnone, -⟩ | ⟨p', st', vm', k, f, rest, hT⟩
  · rw [hcall] at hk
    cases hk
    obtain ⟨H', hI, -⟩ := I.heap.kmalloc (fun _ h => by cases h) hnone
    obtain ⟨p', st', hnone', hpages, hclear, -⟩ := kmalloc_none_cases I.settled n
    rw [hnone] at hnone'
    cases hnone'
    refine ⟨H', L, hI, hclear I.clear, I.pages, fun k hk => ?_, fun k hk => ?_, fun f hf => ?_⟩
    · rw [I.slots k hk, hpages]
    · rw [hpages]
      exact I.apart k hk
    · rw [Finset.sdiff_self, Finset.union_empty] at hf
      rw [hpages]
      exact I.got f hf
  · rw [hT.call] at hcall
    cases hcall
    have hk := hT.can.lt
    have hbit := hT.can.bit
    obtain ⟨u, hb⟩ := hT.bare
    obtain ⟨b, H₁, ha⟩ := hT.allocated
    obtain ⟨q, rfl⟩ := hT.memory
    have hfree : k ∉ m.st.tmpPages := fun h => by
      rw [I.bit h] at hbit
      cases hbit
    obtain ⟨H', hI, -⟩ := I.heap.kmalloc
      (fun _ h => by cases h; exact ⟨hk, hfree⟩) hT.page
    have hpages : st.tmpPages = insert k m.st.tmpPages := by
      rw [ha.settled.rep.pages, ha.picks.pages_of_bare hb, ← I.settled.rep.pages]
    have htgt : ∀ j, ({ m.vm.mapTmp k f (PTE_P ||| PTE_W) with phys := q } : Vm).target (S.tmpTable, j) =
        if j = k then some f else m.vm.target (S.tmpTable, j) :=
      I.pages.target_mapTmp hk (I.pages.ready.canMap_mappable hT.can).lt (by decide)
    refine ⟨H', hT.can.ledger, hI, ha.clear I.clear, hT.pages, fun j hj => ?_, fun j hj hother => ?_, fun g hg => ?_⟩
    · show (m.vm.tmpPages.set k).test j = true ↔ m.others j = true ∨ j ∈ st.tmpPages
      rw [Bitmap.test_set, hpages, Finset.mem_insert, Bool.or_eq_true, I.slots j hj, decide_eq_true_eq, eq_comm]
      tauto
    · show j ∉ st.tmpPages
      rw [hpages, Finset.mem_insert, not_or]
      refine ⟨fun h => ?_, I.apart j hj hother⟩
      rw [(I.slots k hk).mpr (.inl (h ▸ hother))] at hbit
      cases hbit
    · -- `f` is at slot `k` now, the other frames are where they were
      have hwas : g ∈ L.free → g ∈ rest ∨ g = f := fun h => by
        rw [hT.can.free] at h
        exact (mem_cons.mp h).symm
      have hslot : g = f → ∃ j ∈ st.tmpPages,
          ({ m.vm.mapTmp k f (PTE_P ||| PTE_W) with phys := q } : Vm).target (S.tmpTable, j) = some g := fun h => by
        refine ⟨k, hpages ▸ Finset.mem_insert_self .., ?_⟩
        rw [htgt, if_pos rfl, h]
      rcases Finset.mem_union.mp hg with hg | hg
      · rcases I.got g hg with h | h | ⟨j, hj, hjt⟩
        · exact (hwas h).imp id fun h => .inr (hslot h)
        · exact .inr (.inl h)
        · refine .inr (.inr ⟨j, hpages ▸ Finset.mem_insert_of_mem hj, ?_⟩)
          rw [htgt, if_neg fun h : j = k => hfree (h ▸ hj)]
          exact hjt
      · have hg' := (Finset.mem_sdiff.mp hg).1
        rw [I.freeFrames_eq, mem_toFinset] at hg'
        exact (hwas hg').imp id fun h => .inr (hslot h)

/-- The frame behind a page of the allocator. -/
theorem Invariant.target (hk : k ∈ m.st.tmpPages) :
    ∃ f, m.vm.target (S.tmpTable, k) = some f :=
  Option.ne_none_iff_exists'.mp ((I.pages.ready.slots k (I.lt hk)).mp (I.bit hk))

theorem Invariant.kfree (hp : m.live p ≠ none) (hcall : KernelHeap.kfree K p m.st m.vm = .ok (st, vm)) :
    ∃ H' L', Invariant K S ty holds
      { m with st := st, vm := vm, live := update m.live p none } H' L' c := by
  obtain ⟨sz, hsz⟩ := Option.ne_none_iff_exists'.mp hp
  obtain ⟨b, hb, rfl, -⟩ := I.heap.live p sz hsz
  obtain ⟨st', H₁, hk, hf⟩ := Kmalloc.kfree_spec I.settled hb
  obtain ⟨H', -, hI, -⟩ := I.heap.kfree hp hk
  rcases hf.pages with hsame | ⟨i, hi, hdrop⟩
  · have hpages : st'.tmpPages = m.st.tmpPages := by
      rw [hf.settled.rep.pages, hsame, I.settled.rep.pages]
    rw [kfree_keeps hk hpages] at hcall
    cases hcall
    refine ⟨H', L, hI, hf.clear I.clear, I.pages, fun k hk => ?_, fun k hk => ?_, fun f hf => ?_⟩
    · rw [I.slots k hk, hpages]
    · rw [hpages]
      exact I.apart k hk
    · rw [hpages]
      exact I.got f hf
  · have hi' : i ∈ m.st.tmpPages := I.settled.rep.pages ▸ hi
    have hpages : st'.tmpPages = m.st.tmpPages.erase i := by
      rw [hf.settled.rep.pages, hdrop, I.settled.rep.pages]
    have hlt := I.lt hi'
    obtain ⟨f, htf⟩ := I.target hi'
    obtain ⟨vm', hfree, hk', ⟨q, rfl⟩, P⟩ := kfree_gives I.pages hk hi' hlt hpages htf
    rw [hk'] at hcall
    cases hcall
    have hone := I.pages.once i hlt f htf
    have hdrops : (L.drop f hfree).free = L.free ++ [f] := if_pos hone
    have htgt : ∀ j, ({ m.vm.unmapTmp i with phys := q } : Vm).target (S.tmpTable, j) =
        if j = i then none else m.vm.target (S.tmpTable, j) := I.pages.target_unmapTmp hlt
    refine ⟨H', _, hI, hf.clear I.clear, P, fun j hj => ?_, fun j hj hother => ?_, fun g hg => ?_⟩
    · show (m.vm.tmpPages.reset i).test j = true ↔ m.others j = true ∨ j ∈ st.tmpPages
      have hne : m.others j = true → j ≠ i := fun h he => I.apart j hj h (he ▸ hi')
      rw [Bitmap.test_reset, hpages, Finset.mem_erase, Bool.and_eq_true, I.slots j hj]
      simp only [Bool.not_eq_true', decide_eq_false_iff_not]
      tauto
    · show j ∉ st.tmpPages
      rw [hpages]
      exact fun h => I.apart j hj hother (Finset.mem_of_mem_erase h)
    · show g ∈ (L.drop f hfree).free ∨ _
      rw [hdrops, mem_append, mem_singleton]
      rcases I.got g hg with h | h | ⟨j, hj, hjt⟩
      · exact .inl (.inl h)
      · exact .inr (.inl h)
      · by_cases hji : j = i
        · rw [hji, htf] at hjt
          exact .inl (.inr (Option.some.inj hjt).symm)
        · refine .inr (.inr ⟨j, hpages ▸ Finset.mem_erase.mpr ⟨hji, hj⟩, ?_⟩)
          rw [htgt, if_neg hji]
          exact hjt

theorem Invariant.client {mem : Mem} {cpu : Cpu}
    (hmem : ∀ x, mem x ≠ m.st.mem x → m.config.Requested x ∨ m.config.Foreign K x) (hcli : 0 ≤ cpu.nCli) :
    Invariant K S ty holds { m with st := { m.st with mem := mem, cpu := cpu } } H L c :=
  ⟨I.heap.client hmem hcli, I.clear, I.pages, I.slots, I.apart, I.got⟩

/-- Somebody else's call, which leaves the pages of the allocator. -/
theorem Invariant.other {L' : Ledger Nat} {others : Nat → Bool}
    (P : TmpPages.Invariant S ty holds ⟨vm, vm.tmpPages.test⟩ L' c)
    (hslots : ∀ k < 1024, vm.tmpPages.test k = true ↔ others k = true ∨ k ∈ m.st.tmpPages)
    (hapart : ∀ k < 1024, others k = true → k ∉ m.st.tmpPages)
    (htgt : ∀ k ∈ m.st.tmpPages, vm.target (S.tmpTable, k) = m.vm.target (S.tmpTable, k)) :
    Invariant K S ty holds { m with vm := vm, others := others, elsewhere := m.elsewhereAfter S vm } H L' c := by
  refine ⟨I.heap, I.clear, P, hslots, hapart, fun f hf => ?_⟩
  have hafter : freeFrames S vm = L'.free.toFinset := congrArg toFinset P.ready.owned.rep.freeFrames
  have helse : f ∈ m.elsewhereAfter S vm ↔ (f ∈ m.elsewhere ∨ f ∈ L.free) ∧ f ∉ L'.free := by
    rw [Machine.elsewhereAfter, Finset.mem_sdiff, Finset.mem_union, I.freeFrames_eq, hafter, mem_toFinset,
      mem_toFinset]
  show f ∈ L'.free ∨ f ∈ m.elsewhereAfter S vm ∨ _
  rw [helse]
  rcases I.got f hf with h | h | ⟨k, hk, hkt⟩
  · tauto
  · tauto
  · exact .inr (.inr ⟨k, hk, (htgt k hk).trans hkt⟩)

end

theorem tmpVa_inj {j k : Nat} : tmpVa j = tmpVa k ↔ j = k := by
  unfold tmpVa
  omega

section

variable (I : Invariant K S ty holds m H L c)

include I

theorem Invariant.alloc {perm : Perm} (hperm : perm.getLsbD 0 = true)
    {r : Option (Nat × Nat)} (hcall : tmpPageAllocMap perm m.vm = .ok (r, vm)) :
    ∃ L', Invariant K S ty holds { m with
      vm := vm
      others := fun k => m.others k || r.any fun x => x.2 = tmpVa k
      elsewhere := m.elsewhereAfter S vm } H L' c := by
  by_cases hex : Exhausted m.vm L
  · rw [tmpPageAllocMap_exhausted I.pages.ready.account I.pages.ifl hex] at hcall
    cases hcall
    refine ⟨L, I.other I.pages (fun k hk => ?_) (fun k hk => ?_) fun _ _ => rfl⟩
    · simpa using I.slots k hk
    · simpa using I.apart k hk
  · obtain ⟨k, f, rest, M⟩ := I.pages.ready.canMap hex
    obtain ⟨q, hcall', P⟩ := I.pages.alloc hperm M
    rw [hcall] at hcall'
    cases hcall'
    have hk := M.lt
    have hfree : k ∉ m.st.tmpPages := fun h => by
      have hbit := M.bit
      rw [I.bit h] at hbit
      cases hbit
    refine ⟨M.ledger, I.other P.bits (fun j hj => ?_) (fun j hj hother => ?_) fun j hj => ?_⟩
    · show (m.vm.tmpPages.set k).test j = true ↔ _
      rw [Bitmap.test_set, Bool.or_eq_true, I.slots j hj, Option.any_some, Bool.or_eq_true, decide_eq_true_eq,
        decide_eq_true_eq, tmpVa_inj]
      tauto
    · simp only [Option.any_some, Bool.or_eq_true, decide_eq_true_eq, tmpVa_inj] at hother
      rcases hother with h | rfl
      · exact I.apart j hj h
      · exact hfree
    · exact (I.pages.target_mapTmp hk (I.pages.ready.canMap_mappable M).lt hperm j).trans
        (if_neg fun h : j = k => hfree (h ▸ hj))

theorem Invariant.free (hk : k < 1024) (hother : m.others k = true)
    {r : Int} (hcall : tmpPageFree (tmpVa k) m.vm = .ok (r, vm)) :
    ∃ L', Invariant K S ty holds { m with
      vm := vm
      others := fun j => m.others j && j ≠ k
      elsewhere := m.elsewhereAfter S vm } H L' c := by
  obtain ⟨f, hf⟩ := Option.ne_none_iff_exists'.mp
    ((I.pages.ready.slots k hk).mp ((I.slots k hk).mpr (.inl hother)))
  obtain ⟨q, hfree, hcall', P⟩ := I.pages.free hk hf
  rw [hcall] at hcall'
  cases hcall'
  have hnot : ∀ j ∈ m.st.tmpPages, j ≠ k := fun j hj he => I.apart k hk hother (he ▸ hj)
  refine ⟨_, I.other P.bits (fun j hj => ?_) (fun j hj h => ?_) fun j hj => ?_⟩
  · show (m.vm.tmpPages.reset k).test j = true ↔ _
    have := hnot j
    rw [Bitmap.test_reset, Bool.and_eq_true, I.slots j hj]
    simp only [Bool.not_eq_true', decide_eq_false_iff_not, Bool.and_eq_true, decide_eq_true_eq]
    tauto
  · simp only [Bool.and_eq_true] at h
    exact I.apart j hj h.1
  · exact (I.pages.target_unmapTmp hk j).trans (if_neg (hnot j hj))

/-- Somebody else's call that only moves frames. -/
theorem Invariant.frames {L' : Ledger Nat} {q : Phys}
    (P : TmpPages.Invariant S ty holds ⟨{ m.vm with phys := q }, m.vm.tmpPages.test⟩ L' c) :
    Invariant K S ty holds { m with
      vm := { m.vm with phys := q }
      elsewhere := m.elsewhereAfter S { m.vm with phys := q } } H L' c :=
  I.other P.bits I.slots I.apart fun _ _ => rfl

theorem Invariant.step {m' : Machine} (h : Step K S m m') :
    ∃ H' L', Invariant K S ty holds m' H' L' c := by
  cases h with
  | kmalloc hcall => exact I.kmalloc hcall
  | kfree hp hcall => exact I.kfree hp hcall
  | client hmem hcli => exact ⟨H, L, I.client hmem hcli⟩
  | alloc hperm hcall => exact ⟨H, I.alloc hperm hcall⟩
  | free hk hother hcall => exact ⟨H, I.free hk hother hcall⟩
  | take hcall =>
    obtain ⟨L', q, rfl, P⟩ := I.pages.take hcall
    exact ⟨H, L', I.frames P⟩
  | give hN h0 hcall =>
    obtain ⟨L', q, rfl, P⟩ := I.pages.give hN h0 hcall
    exact ⟨H, L', I.frames P⟩

end

end Steps

theorem invariant_of_reachable (h : (system K S ty holds).Reachable m) : ∃ H L c, Invariant K S ty holds m H L c := by
  refine h.invariant (I := fun m => ∃ H L c, Invariant K S ty holds m H L c)
    (fun _ (hs : Start K S ty holds _) => ⟨_, hs.invariant⟩) ?_
  rintro m m' ⟨H, L, c, I⟩ hstep
  obtain ⟨H', L', I'⟩ := I.step hstep
  exact ⟨H', L', c, I'⟩

/-! ## `kfree` undoes `kmalloc` -/

/-- The free lists, the counters and the pages of two states of the allocator agree. -/
structure SameHeap (K : Layout) (st st' : State) : Prop where
  lists : ∀ k < 7, List2.elements st'.mem (K.list k) = List2.elements st.mem (K.list k)
  headers : ∀ i, st'.pageHeaders i = st.pageHeaders i
  pages : st'.tmpPages = st.tmpPages

theorem sameHeap {H : Heap} (h : Settled K st H) (h' : Settled K st' H) (hc : Clear st)
    (hc' : Clear st') : SameHeap K st st' := by
  have hpages : st'.tmpPages = st.tmpPages := h'.rep.pages.trans h.rep.pages.symm
  refine ⟨fun k hk => ?_, fun i => ?_, hpages⟩
  · exact (h'.rep.image.lists.elements ⟨k, hk⟩).trans (h.rep.image.lists.elements ⟨k, hk⟩).symm
  · by_cases hi : i ∈ H.pages
    · exact Kmalloc.PageHeader.ext_get
        (fun k hk => (h'.rep.counters.count i hi k hk).trans (h.rep.counters.count i hi k hk).symm)
        fun k hk => (h'.rep.counters.countUsed i hi k hk).trans (h.rep.counters.countUsed i hi k hk).symm
    · rw [hc i (h.rep.pages ▸ hi), hc' i (h'.rep.pages ▸ hi)]

section Undo

variable {H H' : Heap} {L : Ledger Nat} {c : Cpu} {contents : Nat → Nat → UInt8} {n p : Nat} {st st' : State}
  {vm vm' : Vm} {b : Block}

/-- The heap decides the answer to a request that needs no page. -/
theorem kmalloc_again {s : State} (ha : Allocated K s H n none p st b H') (hs : Settled K st' H)
    (P : TmpPages.Invariant S ty holds ⟨vm, vm.tmpPages.test⟩ L c) (hsub : ∀ k ∈ st'.tmpPages, vm.tmpPages.test k = true) :
    ∃ st'' vm'', kmalloc K contents n st' vm = .ok (p, st'', vm'') := by
  rcases kmalloc_outcome hs P hsub contents n with ⟨p', st'', hk, hnone, -⟩ | ⟨p', st'', vm'', k, f, rest, hT⟩
  · obtain ⟨q, t, hnone', -, -, hcases⟩ := kmalloc_none_cases hs n
    rw [hnone] at hnone'
    cases hnone'
    rcases hcases with ⟨-, hn⟩ | ⟨-, -, u, hb⟩ | ⟨b', H'', -, -, ha', -⟩
    · have := ha.le
      omega
    · exact (ha.picks.not_bare hb).elim
    · have hb := (ha.picks.unique ha'.picks).1
      have hp : p' = p := by rw [ha.ptr, ha'.ptr, hb]
      exact ⟨st'', vm, hp ▸ hk⟩
  · obtain ⟨u, hb⟩ := hT.bare
    exact (ha.picks.not_bare hb).elim

/-- So do the heap and the next free slot, when the request needs a page. -/
theorem kmalloc_again_page {s : State} {k u : Nat} (ha : Allocated K s H n (some k) p st b H') (hb : Bare H n u)
    (hs : Settled K st' H) (P : TmpPages.Invariant S ty holds ⟨vm, vm.tmpPages.test⟩ L c)
    (hsub : ∀ k ∈ st'.tmpPages, vm.tmpPages.test k = true)
    (hslot : vm.tmpPages.findFirstZero (TMP_PAGE_COUNT / 32 * 4) = some k) (hfree : L.free ≠ []) :
    ∃ st'' vm'', kmalloc K contents n st' vm = .ok (p, st'', vm'') := by
  rcases kmalloc_outcome hs P hsub contents n with ⟨p', st'', -, -, hex⟩ | ⟨p', st'', vm'', k', f, rest, hT⟩
  · rcases hex ha.le u hb with h | h
    · rw [hslot] at h
      cases h
    · exact absurd h hfree
  · obtain ⟨b', H'', ha'⟩ := hT.allocated
    have hk : k' = k := Option.some.inj (hT.can.slot.symm.trans hslot)
    subst hk
    have hp : p' = p := by rw [ha.ptr, ha'.ptr, (ha.picks.unique ha'.picks).1]
    exact ⟨st'', vm'', hp ▸ hT.call⟩

end Undo

/-- A `kfree` behind a `kmalloc` that succeeded leads back to the free lists, the
counters and the slots before it, and the same request gets the same pointer. -/
theorem kfree_undoes_kmalloc (h : (system K S ty holds).Reachable m) {contents : Nat → Nat → UInt8} {n p : Nat}
    {st : State} {vm : Vm} (hcall : kmalloc K contents n m.st m.vm = .ok (p, st, vm)) (hp : p ≠ 0) :
    ∃ st' vm', kfree K p st vm = .ok (st', vm') ∧ SameHeap K m.st st' ∧ vm'.tmpPages = m.vm.tmpPages ∧
      ∀ contents', ∃ st'' vm'', kmalloc K contents' n st' vm' = .ok (p, st'', vm'') := by
  obtain ⟨H, L, c, I⟩ := invariant_of_reachable h
  have hpagesOf : ∀ {t : State}, Settled K t H → t.tmpPages = m.st.tmpPages := fun ht =>
    ht.rep.pages.trans I.settled.rep.pages.symm
  rcases kmalloc_outcome I.settled I.pages (fun k hk => I.bit hk) contents n with
    ⟨p', s', hk, hnone, -⟩ | ⟨p', s', vm', k, f, rest, hT⟩
  · rw [hcall] at hk
    cases hk
    obtain ⟨q, t, hnone', -, -, hcases⟩ := kmalloc_none_cases I.settled n
    rw [hnone] at hnone'
    cases hnone'
    rcases hcases with ⟨h0, -⟩ | ⟨h0, -⟩ | ⟨b, H', -, -, ha, hpages⟩
    · exact absurd h0 hp
    · exact absurd h0 hp
    · obtain ⟨t, hfree, ht, hclear⟩ := ha.undoes st ha.settled
      have hsame := sameHeap I.settled ht I.clear (hclear (ha.clear I.clear))
      refine ⟨t, m.vm, kfree_keeps hfree ?_, hsame, rfl, fun contents' => ?_⟩
      · rw [ht.rep.pages, ha.settled.rep.pages, hpages]
      · exact kmalloc_again ha ht I.pages fun k hk => I.bit (hsame.pages ▸ hk)
  · rw [hT.call] at hcall
    cases hcall
    obtain ⟨u, hb⟩ := hT.bare
    obtain ⟨b, H', ha⟩ := hT.allocated
    obtain ⟨q, rfl⟩ := hT.memory
    obtain ⟨t, hfree, ht, hclear⟩ := ha.undoes st ha.settled
    have hsame := sameHeap I.settled ht I.clear (hclear (ha.clear I.clear))
    have hk := hT.can.lt
    have hnot : k ∉ H.pages := fun h => by
      have hbit := hT.can.bit
      rw [I.bit (I.settled.rep.pages ▸ h)] at hbit
      cases hbit
    have hpages : st.tmpPages = insert k H.pages := ha.settled.rep.pages.trans (ha.picks.pages_of_bare hb)
    have htgt : ({ m.vm.mapTmp k f (PTE_P ||| PTE_W) with phys := q } : Vm).target (S.tmpTable, k) = some f :=
      (I.pages.target_mapTmp hk (I.pages.ready.canMap_mappable hT.can).lt (by decide) k).trans (if_pos rfl)
    obtain ⟨vm', hf, hcall', ⟨q', rfl⟩, P⟩ := kfree_gives hT.pages hfree
      (hpages ▸ Finset.mem_insert_self ..) hk
      (by rw [ht.rep.pages, hpages, Finset.erase_insert hnot]) htgt
    have hbits : (m.vm.tmpPages.set k).reset k = m.vm.tmpPages := Bitmap.reset_set hT.can.bit
    refine ⟨t, _, hcall', hsame, hbits, fun contents' => ?_⟩
    refine kmalloc_again_page ha hb ht P (fun j hj => ?_) ?_ ?_
    · show ((m.vm.tmpPages.set k).reset k).test j = true
      rw [hbits]
      exact I.bit (hsame.pages ▸ hj)
    · show ((m.vm.tmpPages.set k).reset k).findFirstZero _ = some k
      rw [hbits]
      exact hT.can.slot
    · have hone := hT.pages.once k hk f htgt
      have hdrop : (hT.can.ledger.drop f hf).free = hT.can.ledger.free ++ [f] := if_pos hone
      rw [hdrop]
      exact append_ne_nil_of_right_ne_nil _ (cons_ne_nil f [])

/-- A machine with two free frames, just booted. -/
def bootMachine : Machine where
  st := bootConfig.st
  vm := TmpPages.smallStart.vm
  live := bootConfig.live
  others := TmpPages.smallStart.held
  got := ∅
  elsewhere := ∅

theorem bootMachine_start :
    Start bootLayout Frames.smallSetup (fun f => (Frames.smallPhys.pages f).type) Frames.smallBoot.holds
      bootMachine where
  heap := ⟨bootState, rfl, by decide, rfl⟩
  headers _ := rfl
  pages := TmpPages.smallStart_start
  got := rfl
  elsewhere := rfl

/-- A request and its release on the new machine; the request takes frame 0x100. -/
theorem bootMachine_calls : ∃ st vm st' vm',
    kmalloc Kmalloc.bootLayout (fun _ _ => 0) 2000 bootMachine.st bootMachine.vm = .ok (0x10000004, st, vm) ∧
      kfree Kmalloc.bootLayout 0x10000004 st vm = .ok (st', vm') ∧
      0x100 ∈ freeFrames Frames.smallSetup bootMachine.vm ∧ 0x100 ∉ freeFrames Frames.smallSetup vm := by
  have hrun : (kmalloc Kmalloc.bootLayout (fun _ _ => 0) 2000 bootMachine.st bootMachine.vm).toOption.map
      (fun r => (r.1, r.2.2.phys.freeFrames Frames.smallSetup.pagesNr,
        (kfree Kmalloc.bootLayout 0x10000004 r.2.1 r.2.2).toOption.isSome)) = some (0x10000004, [0x101], true) := by
    decide +kernel
  have hbefore : bootMachine.vm.phys.freeFrames Frames.smallSetup.pagesNr = [0x100, 0x101] := by decide +kernel
  obtain ⟨⟨p, st, vm⟩, hok, hv⟩ := Option.map_eq_some_iff.mp hrun
  simp only [Prod.mk.injEq] at hv
  obtain ⟨rfl, hafter, hfree⟩ := hv
  obtain ⟨⟨st', vm'⟩, hfree⟩ := Option.isSome_iff_exists.mp hfree
  refine ⟨st, vm, st', vm', of_toOption hok, of_toOption hfree, ?_, ?_⟩
  · rw [freeFrames, hbefore]
    decide
  · rw [freeFrames, hafter]
    decide

theorem kfree_undoes_kmalloc_boot : ∃ st vm st' vm',
    kmalloc bootLayout (fun _ _ => 0) 2000 bootMachine.st bootMachine.vm = .ok (0x10000004, st, vm) ∧
      kfree bootLayout 0x10000004 st vm = .ok (st', vm') ∧
      SameHeap bootLayout bootMachine.st st' := by
  obtain ⟨st, vm, -, -, hcall, -⟩ := bootMachine_calls
  obtain ⟨st', vm', hfree, hsame, -⟩ := kfree_undoes_kmalloc (.init bootMachine_start) hcall (by decide)
  exact ⟨st, vm, st', vm', hcall, hfree, hsame⟩

/-! ## Freeing everything -/

/-- When every pointer was freed, the free lists are empty, every counter is zero,
the allocator holds no slot, and each frame it ever obtained went back to the free
list, where it is unless somebody else took it since. -/
theorem all_freed_returns_pages (h : (system K S ty holds).Reachable m) (hfreed : ∀ p, m.live p = none) :
    (∀ k < 7, List2.size m.st.mem (K.list k) = 0 ∧ List2.elements m.st.mem (K.list k) = []) ∧
    (∀ i, m.st.pageHeaders i = .zero) ∧ m.st.tmpPages = ∅ ∧
    (∀ k < 1024, m.vm.tmpPages.test k = true → m.others k = true) ∧
    ∀ f ∈ m.got, f ∈ freeFrames S m.vm ∨ f ∈ m.elsewhere := by
  obtain ⟨H, L, c, I⟩ := invariant_of_reachable h
  have hwf := I.settled.rep.wf
  have hused : H.used = ∅ := Finset.eq_empty_of_forall_notMem fun b hb => by
    obtain ⟨n, hn⟩ := I.heap.used b hb
    have hnone : m.config.live (b.addr + 4) = none := hfreed _
    rw [hnone] at hn
    cases hn
  have htiles := hwf.tiles_eq_empty I.settled.held hused I.settled.buddies
  have hpages : m.st.tmpPages = ∅ := I.settled.rep.pages.trans (hwf.pages_eq_empty htiles)
  have hlists : ∀ k, H.lists k = [] := fun k => eq_nil_iff_forall_not_mem.mpr fun a ha => by
    have hmem := ((hwf.lists k a).1 ha).1
    rw [htiles] at hmem
    exact Finset.notMem_empty _ hmem
  refine ⟨fun k hk => ⟨?_, ?_⟩, fun i => ?_, hpages, fun k hk hbit => ?_, fun f hf => ?_⟩
  · refine (size_eq_length I.settled.rep.image.lists ⟨k, hk⟩).trans ?_
    rw [hlists]
    rfl
  · refine (I.settled.rep.image.lists.elements ⟨k, hk⟩).trans ?_
    unfold listNodes
    rw [hlists]
    rfl
  · exact I.clear i (hpages ▸ Finset.notMem_empty i)
  · refine ((I.slots k hk).mp hbit).resolve_right fun h => ?_
    rw [hpages] at h
    exact Finset.notMem_empty k h
  · rw [I.freeFrames_eq, mem_toFinset]
    rcases I.got f hf with h | h | ⟨k, hk, -⟩
    · exact .inl h
    · exact .inr h
    · rw [hpages] at hk
      exact absurd hk (Finset.notMem_empty k)

theorem all_freed_returns_pages_boot : ∃ m : Machine, 0x100 ∈ m.got ∧ m.st.tmpPages = ∅ ∧
    0x100 ∈ freeFrames Frames.smallSetup m.vm := by
  obtain ⟨st, vm, st', vm', hcall, hfree, hbefore, hafter⟩ := bootMachine_calls
  have h₀ : (system _ _ _ _).Reachable bootMachine := .init bootMachine_start
  have h₁ := h₀.step (Step.kmalloc hcall)
  have h₂ := h₁.step (Step.kfree (p := 0x10000004) (by simp) hfree)
  have hgot : 0x100 ∈ bootMachine.got ∪ (freeFrames Frames.smallSetup bootMachine.vm \ freeFrames Frames.smallSetup vm) :=
    Finset.mem_union_right _ (Finset.mem_sdiff.mpr ⟨hbefore, hafter⟩)
  obtain ⟨-, -, hpages, -, hback⟩ := all_freed_returns_pages h₂ fun p => by
    dsimp only
    by_cases hp : p = 0x10000004
    · rw [hp, update_self]
    · rw [update_of_ne hp, if_neg (by decide), update_of_ne hp]
      rfl
  exact ⟨_, hgot, hpages, (hback 0x100 hgot).resolve_right (Finset.notMem_empty _)⟩

/-! ## Requests that fail -/

end MakarnaX.KernelHeap
