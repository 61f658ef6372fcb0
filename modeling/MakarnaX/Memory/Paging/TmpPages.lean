import MakarnaX.Library.System
import MakarnaX.Memory.Frames.Run
import MakarnaX.Memory.Paging.Ready

/-!
# The temporary pages of the kernel

A run starts after `tmp_page_init`, when no temporary address is in use, and
calls `tmp_page_alloc_map` and `tmp_page_free` in any order, the latter on
addresses that the former returned.  In between the rest of the kernel takes
frames and gives some of them back, so that either resource may run out at any
point.  All calls are made with interrupts off, as the functions require.
-/

namespace MakarnaX.TmpPages

open Option Function

open Library (Ledger System)

/-- The memory, and the temporary addresses that were returned and not freed since. -/
structure Config where
  vm : Vm
  held : Nat → Bool

variable {S : Setup} {ty : Nat → PageType} {holds : Nat → Nat} {s : Config} {L : Ledger Nat} {c : Cpu}

/-- The page at `va` is present in the directory `d`. -/
def Present (s : Vm) (d va : Nat) : Prop := ∃ e, pageGet s d va = some e ∧ (s.pte e).present = true

/-- After `tmp_page_init`. -/
structure Start (S : Setup) (ty : Nat → PageType) (holds : Nat → Nat) (s : Config) : Prop where
  owned : ∃ L c, Owned S s.vm L holds ∧ s.vm.phys.Account S.pagesNr ty L c ∧ c.Sane ∧ c.ifl = false
  typed : ∀ f, 0 < mapped S s.vm f → f ≠ 0 ∧ (ty f = .available ∨ 0 < holds f)
  bits : ∀ w, s.vm.tmpPages w = 0
  empty : ∀ k, s.vm.tables S.tmpTable k = ⟨0, 0⟩
  held : ∀ k, s.held k = false

inductive Step (S : Setup) : Config → Config → Prop
  | alloc {s : Config} {perm : Perm} {r : Option (Nat × Nat)} {vm : Vm} : perm.getLsbD 0 = true →
      tmpPageAllocMap perm s.vm = .ok (r, vm) →
      Step S s ⟨vm, fun k => s.held k || r.any fun x => x.2 = tmpVa k⟩
  | free {s : Config} {k : Nat} {r : Int} {vm : Vm} : k < 1024 → s.held k = true →
      tmpPageFree (tmpVa k) s.vm = .ok (r, vm) → Step S s ⟨vm, fun j => s.held j && j ≠ k⟩
  /-- Someone else takes a frame. -/
  | take {s : Config} {r : Option Nat} {vm : Vm} : onPhys pageAlloc s.vm = .ok (r, vm) → Step S s { s with vm := vm }
  /-- Someone else gives a frame back. -/
  | give {s : Config} {p : Nat} {vm : Vm} : p < S.pagesNr → p ≠ 0 → onPhys (pageFree p) s.vm = .ok ((), vm) →
      Step S s { s with vm := vm }

def system (S : Setup) (ty : Nat → PageType) (holds : Nat → Nat) : System Config where
  init := Start S ty holds
  step := Step S

/-! ## The invariant -/

structure Invariant (S : Setup) (ty : Nat → PageType) (holds : Nat → Nat) (s : Config) (L : Ledger Nat) (c : Cpu) : Prop where
  ready : Ready S ty s.vm L holds c
  ifl : c.ifl = false
  tables : ∀ k < 1024, tmpKaddr k ∉ liveTables S s.vm
  held : ∀ k < 1024, s.held k = true → s.vm.tmpPages.test k = true
  /-- A frame at a temporary address has no other reference. -/
  once : ∀ k < 1024, ∀ f, s.vm.target (S.tmpTable, k) = some f → L.refs f = 1
  apart : ∀ j k, j < 1024 → k < 1024 → ∀ f, s.vm.target (S.tmpTable, j) = some f →
    s.vm.target (S.tmpTable, k) = some f → j = k

/-- The addresses that are taken, whoever holds them. -/
theorem Invariant.bits (I : Invariant S ty holds s L c) :
    Invariant S ty holds ⟨s.vm, s.vm.tmpPages.test⟩ L c :=
  ⟨I.ready, I.ifl, I.tables, fun _ _ h => h, I.once, I.apart⟩

theorem Start.target (h : Start S ty holds s) (k : Nat) : s.vm.target (S.tmpTable, k) = none := by
  refine target_of_absent ?_
  rw [Vm.pte, h.empty]
  rfl

theorem Start.invariant (h : Start S ty holds s) : ∃ L c, Invariant S ty holds s L c := by
  obtain ⟨L, c, O, A, hc, hif⟩ := h.owned
  have hbit : ∀ k, s.vm.tmpPages.test k = false := fun k => by
    rw [Bitmap.test, h.bits]
    exact BitVec.getLsbD_zero
  have hslots : ∀ k < 1024, s.vm.tmpPages.test k = true ↔ s.vm.target (S.tmpTable, k) ≠ none := fun k _ => by
    rw [hbit, h.target]
    simp
  refine ⟨L, c, ⟨O, A, hc, hslots, h.typed⟩, hif, fun k hk hlive => ?_, fun k _ hheld => ?_, fun k _ f hf => ?_,
    fun j k _ _ f hf => ?_⟩
  · exact absurd (O.taken k hk hlive) (by simp [hbit])
  · rw [h.held] at hheld
    cases hheld
  · rw [h.target] at hf
    cases hf
  · rw [h.target] at hf
    cases hf

theorem liveTables_congr {s t : Vm} (hn : t.dirsNr = s.dirsNr)
    (hp : ∀ d i, (t.dirs d).pgtables i = (s.dirs d).pgtables i) : liveTables S t = liveTables S s :=
  SameTables.liveTables ⟨hn, hp⟩

section Steps

variable {L : Ledger Nat} {c : Cpu} {k p f : Nat} {perm : Perm} {rest : List Nat}

section

variable (I : Invariant S ty holds s L c)

include I

theorem Invariant.target_mapTmp (hk : k < 1024) (hp : p < S.pagesNr) (hperm : perm.getLsbD 0 = true) (j : Nat) :
    (s.vm.mapTmp k p perm).target (S.tmpTable, j) = if j = k then some p else s.vm.target (S.tmpTable, j) := by
  rw [Vm.target, I.ready.mapTmp_pte hk]
  by_cases hjk : j = k
  · subst hjk
    rw [if_pos rfl, if_pos rfl, ofAddr_present hperm, if_pos rfl, ofAddr_physPgno hp]
  · rw [if_neg fun h => hjk (congrArg Prod.snd h), if_neg hjk]
    rfl

theorem Invariant.target_unmapTmp (hk : k < 1024) (j : Nat) :
    (s.vm.unmapTmp k).target (S.tmpTable, j) = if j = k then none else s.vm.target (S.tmpTable, j) := by
  rw [Vm.target, I.ready.unmapTmp_pte hk]
  by_cases hjk : j = k
  · subst hjk
    rw [if_pos rfl, if_pos rfl, present_ofAddr_zero, if_neg Bool.false_ne_true]
  · rw [if_neg fun h => hjk (congrArg Prod.snd h), if_neg hjk]
    rfl

theorem Invariant.alloc (hperm : perm.getLsbD 0 = true) (M : CanMap s.vm L k p rest) :
    ∃ q, tmpPageAllocMap perm s.vm = .ok (some (p, tmpVa k), { s.vm.mapTmp k p perm with phys := q }) ∧
      Invariant S ty holds ⟨{ s.vm.mapTmp k p perm with phys := q }, fun j => s.held j || (some (p, tmpVa k)).any
        fun x => x.2 = tmpVa j⟩ M.ledger c := by
  obtain ⟨q, hcall, R⟩ := I.ready.tmpAlloc I.ifl hperm M
  have hp := (I.ready.canMap_mappable M).lt
  have hfree : p ∈ L.free := M.free ▸ List.mem_cons_self
  have htgt : ∀ j, ({ s.vm.mapTmp k p perm with phys := q } : Vm).target (S.tmpTable, j) =
      if j = k then some p else s.vm.target (S.tmpTable, j) := I.target_mapTmp M.lt hp hperm
  -- a frame that is mapped at another temporary address is not the new one
  have hother : ∀ j < 1024, ∀ f, s.vm.target (S.tmpTable, j) = some f → f ≠ p := fun j hj f hf hfp => by
    have hone := I.once j hj f hf
    rw [hfp, L.unreferenced p hfree] at hone
    cases hone
  refine ⟨q, hcall, R, I.ifl, fun j hj => ?_, fun j hj hheld => ?_, fun j hj f hf => ?_, fun i j hi hj f hf hf' => ?_⟩
  · have hlive : liveTables S ({ s.vm.mapTmp k p perm with phys := q } : Vm) = liveTables S s.vm :=
      liveTables_congr rfl fun e i => Vm.mapTmp_pgtables e i
    rw [hlive]
    exact I.tables j hj
  · show (s.vm.tmpPages.set k).test j = true
    rw [Bitmap.test_set]
    by_cases hjk : j = k
    · simp [hjk]
    · simp only [any_some, Bool.or_eq_true, decide_eq_true_eq] at hheld
      rcases hheld with hheld | hva
      · rw [I.held j hj hheld, Bool.or_true]
      · unfold tmpVa at hva
        omega
  · rw [htgt] at hf
    split at hf
    · cases hf
      exact update_self ..
    · have hne := hother j hj f hf
      exact (update_of_ne hne ..).trans (I.once j hj f hf)
  · rw [htgt] at hf hf'
    split at hf
    · next hik =>
      cases hf
      split at hf'
      · next hjk => rw [hik, hjk]
      · exact absurd rfl (hother j hj p hf')
    · split at hf'
      · cases hf'
        exact absurd rfl (hother i hi p hf)
      · exact I.apart i j hi hj f hf hf'

theorem Invariant.free (hk : k < 1024) (hf : s.vm.target (S.tmpTable, k) = some f) :
    ∃ q, ∃ hfree : f ∉ L.free, tmpPageFree (tmpVa k) s.vm = .ok (0, { s.vm.unmapTmp k with phys := q }) ∧
      Invariant S ty holds ⟨{ s.vm.unmapTmp k with phys := q }, fun j => s.held j && j ≠ k⟩ (L.drop f hfree) c := by
  have hone := I.once k hk f hf
  obtain ⟨q, hfree, hcall, R⟩ := I.ready.tmpFree I.ifl hk hf (I.tables k hk)
  have htgt : ∀ j, ({ s.vm.unmapTmp k with phys := q } : Vm).target (S.tmpTable, j) =
      if j = k then none else s.vm.target (S.tmpTable, j) := I.target_unmapTmp hk
  have hzero : ((L.refs f - 1 : Nat) : Int) = 0 := by
    rw [hone]
    rfl
  refine ⟨q, hfree, hzero ▸ hcall, R, I.ifl, fun j hj => ?_, fun j hj hheld => ?_, fun j hj g hg => ?_,
    fun i j hi hj g hg hg' => ?_⟩
  · have hlive : liveTables S ({ s.vm.unmapTmp k with phys := q } : Vm) = liveTables S s.vm :=
      liveTables_congr rfl fun e i => Vm.unmap_pgtables e i
    rw [hlive]
    exact I.tables j hj
  · show (s.vm.tmpPages.reset k).test j = true
    simp only [Bool.and_eq_true, decide_eq_true_eq] at hheld
    rw [Bitmap.test_reset, I.held j hj hheld.1]
    simpa using hheld.2
  · rw [htgt] at hg
    split at hg
    · cases hg
    · next hjk =>
      have hgf : g ≠ f := fun h => hjk (I.apart j k hj hk f (h ▸ hg) hf)
      exact (update_of_ne hgf ..).trans (I.once j hj g hg)
  · rw [htgt] at hg hg'
    split at hg
    · cases hg
    · split at hg'
      · cases hg'
      · exact I.apart i j hi hj g hg hg'

/-- A call that only moves frames. -/
theorem Invariant.frames {L' : Ledger Nat} {q : Phys}
    (R : Ready S ty { s.vm with phys := q } L' holds c) (hrefs : L'.refs = L.refs) :
    Invariant S ty holds ⟨{ s.vm with phys := q }, s.held⟩ L' c :=
  ⟨R, I.ifl, I.tables, I.held, fun k hk f hf => hrefs ▸ I.once k hk f hf, I.apart⟩

theorem Invariant.take {r : Option Nat} {vm : Vm} (hcall : onPhys pageAlloc s.vm = .ok (r, vm)) :
    ∃ L' q, vm = { s.vm with phys := q } ∧ Invariant S ty holds ⟨vm, s.held⟩ L' c := by
  cases hL : L.free with
  | nil =>
    rw [I.ready.alloc_none I.ifl hL] at hcall
    cases hcall
    exact ⟨L, _, rfl, I⟩
  | cons p rest =>
    obtain ⟨q, hcall', R⟩ := I.ready.alloc I.ifl hL
    rw [hcall] at hcall'
    cases hcall'
    exact ⟨_, q, rfl, I.frames R rfl⟩

theorem Invariant.give {vm : Vm} (hN : p < S.pagesNr) (h0 : p ≠ 0) (hcall : onPhys (pageFree p) s.vm = .ok ((), vm)) :
    ∃ L' q, vm = { s.vm with phys := q } ∧ Invariant S ty holds ⟨vm, s.held⟩ L' c := by
  obtain ⟨q, hq, rfl⟩ := onPhys_ok.mp hcall
  obtain ⟨hf, hrefs, -⟩ := pageFree_spec I.ready.owned.rep hN hq
  have hty : ty p = .available := by
    simp [pageFree, ASSERT] at hq
    rw [← I.ready.account.types, hq.2.1]
  obtain ⟨q', hcall', R⟩ := I.ready.free I.ifl ⟨hN, h0, .inl hty⟩ hf hrefs
  rw [hcall] at hcall'
  obtain rfl : q = q' := congrArg (fun r : Unit × Vm => r.2.phys) (Except.ok.inj hcall')
  exact ⟨_, q, rfl, I.frames R rfl⟩

theorem Invariant.step {s' : Config} (h : Step S s s') :
    ∃ L', Invariant S ty holds s' L' c := by
  cases h with
  | alloc hperm hcall =>
    by_cases hex : Exhausted s.vm L
    · rw [tmpPageAllocMap_exhausted I.ready.account I.ifl hex] at hcall
      cases hcall
      refine ⟨L, ?_⟩
      simpa using I
    · obtain ⟨k, p, rest, M⟩ := I.ready.canMap hex
      obtain ⟨q, hcall', I'⟩ := I.alloc hperm M
      rw [hcall] at hcall'
      cases hcall'
      exact ⟨_, I'⟩
  | @free k r vm hk hheld hcall =>
    obtain ⟨f, hf⟩ := ne_none_iff_exists'.mp ((I.ready.slots k hk).mp (I.held k hk hheld))
    obtain ⟨q, hfree, hcall', I'⟩ := I.free hk hf
    rw [hcall] at hcall'
    cases hcall'
    exact ⟨_, I'⟩
  | take hcall =>
    obtain ⟨L', q, -, I'⟩ := I.take hcall
    exact ⟨L', I'⟩
  | give hN h0 hcall =>
    obtain ⟨L', q, -, I'⟩ := I.give hN h0 hcall
    exact ⟨L', I'⟩

end

end Steps

theorem invariant_of_reachable (h : (system S ty holds).Reachable s) : ∃ L c, Invariant S ty holds s L c := by
  refine h.invariant (I := fun s => ∃ L c, Invariant S ty holds s L c) (fun _ (hs : Start S ty holds _) => hs.invariant) ?_
  rintro s s' ⟨L, c, I⟩ hstep
  obtain ⟨L', I'⟩ := I.step hstep
  exact ⟨L', c, I'⟩

/-! ## Main result -/

theorem Invariant.present_iff (I : Invariant S ty holds s L c) {k : Nat} (hk : k < 1024) :
    s.vm.tmpPages.test k = true ↔ Present s.vm 0 (MMAP_KERNEL_TMP_PAGE_BASE + k * 0x1000) := by
  have htab := I.ready.owned.tmpTable
  have hget : pageGet s.vm 0 (tmpVa k) = some (S.tmpTable, k) := by
    rw [pageGet_table (by rw [pdx_tmpVa hk, htab]; exact S.tmpTable_ne), entry_tmpVa hk, htab]
  have hpres : Present s.vm 0 (tmpVa k) ↔ (s.vm.pte (S.tmpTable, k)).present = true := by
    unfold Present
    rw [hget]
    simp
  refine (I.ready.slots k hk).trans (Iff.trans ?_ hpres.symm)
  cases hp : (s.vm.pte (S.tmpTable, k)).present with
  | true => simp [target_of_present hp]
  | false => simp [target_of_absent hp]

/-- What a call of `tmp_page_alloc_map` does: it fails and changes nothing, or it
returns the lowest free address and maps a free frame there, and nowhere else. -/
structure Allocates (S : Setup) (s : Vm) (perm : Perm) (r : Option (Nat × Nat)) (s' : Vm) : Prop where
  fails : r = none → s' = s ∧ ((∀ k < 1024, s.tmpPages.test k = true) ∨ s.phys.freeFrames S.pagesNr = [])
  maps : ∀ p va, r = some (p, va) → ∃ k < 1024, va = MMAP_KERNEL_TMP_PAGE_BASE + k * 0x1000 ∧
    s.tmpPages.test k = false ∧ (∀ j < k, s.tmpPages.test j = true) ∧ p ∈ s.phys.freeFrames S.pagesNr ∧
    mapped S s p = 0 ∧ mapped S s' p = 1 ∧ (pageGet s' 0 va).map s'.pte = some (.ofAddr (p * 0x1000) perm)

theorem Invariant.allocates (I : Invariant S ty holds s L c) {perm : Perm} (hperm : perm.getLsbD 0 = true) :
    ∃ r vm, tmpPageAllocMap perm s.vm = .ok (r, vm) ∧ Allocates S s.vm perm r vm := by
  have hfrees := I.ready.owned.rep.freeFrames
  by_cases hex : Exhausted s.vm L
  · refine ⟨_, _, tmpPageAllocMap_exhausted I.ready.account I.ifl hex, fun _ => ⟨rfl, ?_⟩, fun _ _ h => (by cases h)⟩
    exact hex.imp (fun h => Bitmap.findFirstZero_eq_none.mp h) fun h => hfrees.trans h
  · obtain ⟨k, p, rest, M⟩ := I.ready.canMap hex
    obtain ⟨q, hcall, I'⟩ := I.alloc hperm M
    refine ⟨_, _, hcall, fun h => (by cases h), fun p' va h => ?_⟩
    cases h
    have hfree : p ∈ L.free := M.free ▸ List.mem_cons_self
    have hbefore := I.ready.refs_eq p
    rw [L.unreferenced p hfree] at hbefore
    have hafter : M.ledger.refs p = mapped S ({ s.vm.mapTmp k p perm with phys := q } : Vm) p + holds p :=
      I'.ready.refs_eq p
    have hone : M.ledger.refs p = 1 := update_self ..
    have htab := I'.ready.owned.tmpTable
    have hget : pageGet ({ s.vm.mapTmp k p perm with phys := q } : Vm) 0 (tmpVa k) = some (S.tmpTable, k) := by
      rw [pageGet_table (by rw [pdx_tmpVa M.lt, htab]; exact S.tmpTable_ne), entry_tmpVa M.lt, htab]
    refine ⟨k, M.lt, rfl, M.bit, fun j hj => Bitmap.test_of_lt_findFirstZero M.slot hj, hfrees ▸ hfree, by omega,
      by omega, ?_⟩
    have hpte : ({ s.vm.mapTmp k p perm with phys := q } : Vm).pte (S.tmpTable, k) = .ofAddr (p * 0x1000) perm :=
      (I.ready.mapTmp_pte M.lt _).trans (if_pos rfl)
    rw [hget, map_some, hpte]

/-- The machine with two free frames. -/
def smallStart : Config := ⟨Frames.smallBoot.vm, fun _ => false⟩

theorem smallStart_start :
    Start Frames.smallSetup (fun f => (Frames.smallPhys.pages f).type) Frames.smallBoot.holds smallStart := by
  obtain ⟨L, O⟩ := Frames.smallBoot_boot.invariant.owned
  have hfree : L.free = [0x100, 0x101] := by
    rw [← O.rep.freeFrames]
    decide +kernel
  have hphys : smallStart.vm.phys = Frames.smallPhys := by
    unfold smallStart Frames.smallBoot
    rfl
  refine ⟨⟨L, ⟨false, 0, false⟩, O, ⟨O.rep, fun f => by rw [hphys], fun f hf => ?_, ?_⟩, ⟨by decide, by decide⟩, rfl⟩,
    fun f hf => ?_, fun _ => rfl, fun _ => rfl, fun _ => rfl⟩
  · rw [hfree] at hf
    rcases List.mem_cons.mp hf with rfl | hf
    · decide +kernel
    · obtain rfl := List.mem_singleton.mp hf
      decide +kernel
  · have hcpu : Frames.smallPhys.cpu = ⟨false, 0, false⟩ := by decide +kernel
    rw [hphys, hcpu]
    exact .refl _
  · obtain ⟨e, -, he⟩ := exists_of_mapped_pos hf
    have habs : (smallStart.vm.pte e).present = false := by
      have hpte : smallStart.vm.pte e = ⟨0, 0⟩ := rfl
      rw [hpte]
      decide
    rw [target_of_absent habs] at he
    cases he

end MakarnaX.TmpPages
