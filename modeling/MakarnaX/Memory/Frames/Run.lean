import MakarnaX.Library.System
import MakarnaX.Memory.Frames.Ranges

/-!
# Who owns a frame

A configuration is the memory of the kernel, the explicit holds its parts have
on frames, and the temporary addresses they were given.  A run starts after
`pm_init` and takes any of the calls, on any of the directories, that return.

The callers keep to three rules that the functions do not check.  Mappings are
made with `PTE_P`, and outside the direct map and the temporary addresses; what
`tmp_page_free` is given came from `tmp_page_alloc_map`; and `refcount_dec` drops
a hold that is there.  The pages that the kernel maps for itself while it boots,
the direct map, carry no references and are not counted.
-/

namespace MakarnaX.Frames

open Library (Ledger)

/-- The memory; the explicit references to each frame; and the temporary pages
that `tmp_page_alloc_map` gave to its callers. -/
structure Config where
  vm : Vm
  holds : Nat → Nat
  held : Nat → Bool

variable {S : Setup} {c c' : Config} {vm : Vm} {src start stop pa : Nat} {r : Int} {holds : Nat → Nat}

/-! ## Runs -/

/-- One more explicit reference to `p`. -/
def Config.hold (c : Config) (p : Nat) : Nat → Nat := fun g => c.holds g + if p = g then 1 else 0

/-- A directory as `task_setup_vm` starts it, before it is linked to others. -/
def addDir (s : Vm) (pgdirPa : Nat) : Vm :=
  { s with
    dirs := Function.update s.dirs s.dirsNr { PageDirInfo.zero with pgdirPa := pgdirPa }
    dirsNr := s.dirsNr + 1 }

inductive Step (S : Setup) : Config → Config → Prop
  | pageAlloc {c : Config} {r : Option Nat} {vm : Vm} :
      onPhys pageAlloc c.vm = .ok (r, vm) → Step S c { c with vm := vm }
  | pageFree {c : Config} {p : Nat} {vm : Vm} : p < S.pagesNr →
      onPhys (pageFree p) c.vm = .ok ((), vm) → Step S c { c with vm := vm }
  | refcountInc {c : Config} {p : Nat} {r : Int} {vm : Vm} : p < S.pagesNr →
      onPhys (refcountInc p) c.vm = .ok (r, vm) → Step S c { c with vm := vm, holds := c.hold p }
  | refcountDec {c c' : Config} {p : Nat} {r : Int} : p < S.pagesNr → c.holds = c'.hold p →
      onPhys (refcountDec p) c.vm = .ok (r, c'.vm) → c'.held = c.held → Step S c c'
  | pageInsert {c : Config} {d p va : Nat} {perm : Perm} {r : Int} {vm : Vm} :
      Outside S c.vm d va → p < S.pagesNr → perm.getLsbD 0 = true →
      pageInsert d p va perm c.vm = .ok (r, vm) → Step S c { c with vm := vm }
  | pageRemove {c : Config} {d va : Nat} {r : Int} {vm : Vm} :
      Outside S c.vm d va → pageRemove d va c.vm = .ok (r, vm) → Step S c { c with vm := vm }
  | pageAllocInsert {c : Config} {d va : Nat} {perm : Perm} {r : Int} {vm : Vm} :
      Outside S c.vm d va → perm.getLsbD 0 = true →
      pageAllocInsert d va perm c.vm = .ok (r, vm) → Step S c { c with vm := vm }
  | tmpPageAllocMap {c : Config} {perm : Perm} {r : Option (Nat × Nat)} {vm : Vm} :
      perm.getLsbD 0 = true → tmpPageAllocMap perm c.vm = .ok (r, vm) →
      Step S c { c with vm := vm, held := fun k => c.held k || r.any fun x => x.2 = tmpVa k }
  | tmpPageFree {c : Config} {k : Nat} {r : Int} {vm : Vm} : k < 1024 → c.held k = true →
      tmpPageFree (tmpVa k) c.vm = .ok (r, vm) →
      Step S c { c with vm := vm, held := fun j => c.held j && (j ≠ k || r < 0) }
  | segmentAlloc {c : Config} {d va len : Nat} {perm : Perm} {vm : Vm} :
      (∀ i ∈ pageSteps (roundDown va) (roundUp (add32 va len)), Outside S c.vm d i) →
      perm.getLsbD 0 = true → segmentAlloc d va len perm c.vm = .ok (0, vm) →
      Step S c { c with vm := vm }
  | linkPages {c : Config} {d src start stop : Nat} {perm : Perm} {vm : Vm} :
      (∀ i ∈ pageSteps start stop, Outside S c.vm d i) →
      (∀ i ∈ pageSteps start stop, Readable S c.vm src i) → perm.getLsbD 0 = true →
      linkPages d src start stop perm c.vm = .ok (0, vm) → Step S c { c with vm := vm }
  | copyPages {c : Config} {d src start stop : Nat} {r : Int} {vm : Vm} :
      (∀ i ∈ pageSteps start stop, Outside S c.vm d i) →
      copyPages d src start stop c.vm = .ok (r, vm) → Step S c { c with vm := vm }
  | newDir {c : Config} {src start stop pgdirPa : Nat} {r : Int} {vm : Vm} : src < c.vm.dirsNr →
      linkPgtables c.vm.dirsNr src start stop (addDir c.vm pgdirPa) = .ok (r, vm) →
      Step S c { c with vm := vm }
  /-- The rest of the kernel, which leaves page tables and frames to these functions. -/
  | other {c : Config} {vm : Vm} : Silent c.vm vm → Step S c { c with vm := vm }

/-- After `pm_init`, with the tables of `vm_init` in place.  The frames that are
not free are held by the kernel itself. -/
structure Boot (S : Setup) (c : Config) : Prop where
  phys : ∃ cpu memoryEnd mmap,
    ((mmap.flatMap MemoryMapEntry.frames).map pageIndex).Nodup ∧
      (∀ i ∈ mmap.flatMap MemoryMapEntry.frames, pageIndex i < S.pagesNr) ∧
      pmInit memoryEnd mmap (detectMemory cpu) = .ok ((), c.vm.phys)
  holds : ∀ f, c.holds f = (c.vm.phys.pages f).refcountGet
  dirs : c.vm.dirsNr = 1
  tmpTable : (c.vm.dirs 0).pgtables 832 = S.tmpTable
  tables : ∀ i, i ≠ 832 → (c.vm.dirs 0).pgtables i = 0 ∨ (c.vm.dirs 0).pgtables i ∈ S.direct
  empty : ∀ i, c.vm.tables S.tmpTable i = ⟨0, 0⟩
  held : ∀ k, c.held k = false

def system (S : Setup) : Library.System Config where
  init := Boot S
  step := Step S

/-! ## The invariant -/

structure Invariant (S : Setup) (c : Config) : Prop where
  owned : ∃ L, Owned S c.vm L c.holds
  held : ∀ k < 1024, c.held k = true → c.vm.tmpPages.test k = true ∧ tmpKaddr k ∉ liveTables S c.vm

theorem Boot.invariant (B : Boot S c) : Invariant S c := by
  obtain ⟨cpu, memoryEnd, mmap, hnd, hN, hinit⟩ := B.phys
  obtain ⟨L, R⟩ := pmInit_spec hnd hN hinit
  have hlive : ∀ t ∈ liveTables S c.vm, t = S.tmpTable := by
    intro t ht
    obtain ⟨⟨d, i, hd, -, rfl⟩, h0, hdir⟩ := mem_liveTables.mp ht
    obtain rfl : d = 0 := by
      rw [B.dirs] at hd
      omega
    by_cases hi : i = 832
    · rw [hi, B.tmpTable]
    · exact absurd (B.tables i hi) (by simp [h0, hdir])
  have htgt : ∀ e ∈ entries S c.vm, c.vm.target e = none := by
    intro e he
    have hpte : c.vm.pte e = ⟨0, 0⟩ := by
      rw [Vm.pte, hlive _ (mem_entries.mp he).1]
      exact B.empty e.2
    rw [Vm.target, hpte]
    rfl
  have hslot : ∀ k < 1024, tmpKaddr k ∉ liveTables S c.vm := fun k hk h => S.tmpTable_slot k hk (hlive _ h)
  refine ⟨⟨L, R, fun f => ?_, fun e he f hf => ?_, B.dirs ▸ Nat.one_pos, B.tmpTable,
    fun k hk h => absurd h (hslot k hk), fun k hk h => absurd h (hslot k hk)⟩, fun k _ h => ?_⟩
  · have hzero : mapped S c.vm f = 0 := by
      refine Finset.card_eq_zero.mpr (Finset.filter_eq_empty_iff.mpr fun e he => ?_)
      rw [htgt e he]
      exact Option.some_ne_none f ∘ Eq.symm
    rw [hzero, B.holds, Nat.zero_add, Page.refcountGet]
    split
    · rename_i hfree
      exact L.unreferenced f ((R.free f).mp hfree)
    · rename_i hfree
      exact (R.refs f fun hmem => hfree ((R.free f).mpr hmem)).symm
  · rw [htgt e he] at hf
    cases hf
  · rw [B.held k] at h
    cases h

/-- Calls that keep the account and only add page tables. -/
theorem Invariant.kept (I : Invariant S c)
    (h : Kept S c.vm vm holds) : Invariant S { c with vm := vm, holds := holds } where
  owned := h.owned
  held k hk hheld := by
    obtain ⟨hbit, hlive⟩ := I.held k hk hheld
    exact ⟨h.grows.bits k hbit, h.grows.notMem_live hbit hlive⟩

theorem SameTables.kept {s s' : Vm} (T : SameTables s s')
    (hb : s'.tmpPages = s.tmpPages) (hO : ∃ L, Owned S s' L holds) : Kept S s s' holds :=
  ⟨hO, T.dirsNr, fun d i => .inl (T.pgtables d i), fun _ hk => hb ▸ hk⟩

theorem Invariant.tmpMapped (I : Invariant S c) {r : Option (Nat × Nat)} (T : TmpMapped S c.vm vm c.holds r) :
    Invariant S { c with vm := vm, held := fun k => c.held k || r.any fun x => x.2 = tmpVa k } where
  owned := T.owned
  held j hj h := by
    have hlive := T.tables.liveTables (S := S)
    rcases r with _ | ⟨p, va⟩
    · simp only [Option.any_none, Bool.or_false] at h
      rw [hlive, T.fail rfl]
      exact I.held j hj h
    · obtain ⟨-, k, hk, rfl, hclear, hfresh, hbits, -⟩ := T.slot p va rfl
      simp only [Option.any_some, Bool.or_eq_true, decide_eq_true_eq] at h
      rw [hlive, hbits]
      rcases h with h | h
      · obtain ⟨hbit, hl⟩ := I.held j hj h
        exact ⟨by rw [hbit, Bool.or_true], hl⟩
      · obtain rfl : k = j := by
          unfold tmpVa at h
          omega
        exact ⟨by simp, hfresh⟩

theorem Invariant.tmpFreed (I : Invariant S c) {k : Nat}
    (F : TmpFreed S c.vm vm k c.holds) (hr : r < 0 → vm.tmpPages = c.vm.tmpPages) :
    Invariant S { c with vm := vm, held := fun j => c.held j && (j ≠ k || r < 0) } where
  owned := F.owned
  held j hj h := by
    simp only [Bool.and_eq_true, Bool.or_eq_true, decide_eq_true_eq] at h
    obtain ⟨hheld, hor⟩ := h
    obtain ⟨hbit, hl⟩ := I.held j hj hheld
    rw [F.tables.liveTables]
    rcases hor with hne | hneg
    · exact ⟨by rw [F.bits j (by simpa using hne)]; exact hbit, hl⟩
    · exact ⟨by rw [hr hneg]; exact hbit, hl⟩

/-- A new directory has no page tables of its own. -/
theorem linkPgtables_live {s s' : Vm} (hsrc : src < s.dirsNr)
    (h : linkPgtables s.dirsNr src start stop (addDir s pa) = .ok (r, s')) :
    (∀ d < s.dirsNr, s'.dirs d = s.dirs d) ∧ s'.dirsNr = s.dirsNr + 1 ∧ s'.tables = s.tables ∧
      s'.tmpPages = s.tmpPages ∧ s'.phys = s.phys ∧
      ∀ i, (s'.dirs s.dirsNr).pgtables i = 0 ∨ (s'.dirs s.dirsNr).pgtables i = (s.dirs src).pgtables i := by
  simp [linkPgtables, addDir] at h
  obtain ⟨-, h, -⟩ := h
  subst h
  refine ⟨fun d hd => ?_, rfl, rfl, rfl, rfl, fun i => ?_⟩
  · have hne : d ≠ s.dirsNr := by omega
    simp [Vm.setDir, hne]
  · have hne : src ≠ s.dirsNr := by omega
    simp only [Vm.setDir, Function.update_self, Function.update_of_ne hne, PageDirInfo.zero]
    split
    · exact .inr rfl
    · exact .inl rfl

theorem Invariant.newDir (I : Invariant S c) (hsrc : src < c.vm.dirsNr)
    (h : linkPgtables c.vm.dirsNr src start stop (addDir c.vm pa) = .ok (r, vm)) :
    Invariant S { c with vm := vm } := by
  obtain ⟨hdirs, hn, htab, htmp, hphys, hnew⟩ := linkPgtables_live hsrc h
  have hlive : liveTables S vm = liveTables S c.vm := by
    ext t
    simp only [mem_liveTables, hn]
    refine and_congr_left fun ht => ?_
    constructor
    · rintro ⟨d, i, hd, hi, rfl⟩
      by_cases hdn : d = c.vm.dirsNr
      · subst hdn
        rcases hnew i with h0 | hsame
        · exact absurd h0 ht.1
        · exact ⟨src, i, hsrc, hi, hsame.symm⟩
      · exact ⟨d, i, by omega, hi, by rw [hdirs d (by omega)]⟩
    · rintro ⟨d, i, hd, hi, rfl⟩
      exact ⟨d, i, by omega, hi, by rw [hdirs d hd]⟩
  have htgt : vm.target = c.vm.target := by
    funext e
    have hpte : vm.pte e = c.vm.pte e := by rw [Vm.pte, htab]; rfl
    rw [Vm.target, Vm.target, hpte]
  have hent : entries S vm = entries S c.vm := by rw [entries, entries, hlive]
  obtain ⟨L, O⟩ := I.owned
  refine ⟨⟨L, hphys ▸ O.rep, fun f => ?_, ?_, hn ▸ Nat.succ_pos _, ?_, ?_, ?_⟩, ?_⟩
  · rw [mapped, hent, htgt]
    exact O.refs f
  · rw [hent, htgt]
    exact O.frames
  · rw [hdirs 0 O.dirs]
    exact O.tmpTable
  · rw [hlive, htmp]
    exact O.taken
  · rw [hlive, htgt]
    exact O.backed
  · intro k hk hheld
    show vm.tmpPages.test k = true ∧ tmpKaddr k ∉ liveTables S vm
    rw [htmp, hlive]
    exact I.held k hk hheld

theorem Invariant.step (I : Invariant S c) (h : Step S c c') : Invariant S c' := by
  obtain ⟨L, O⟩ := I.owned
  cases h with
  | pageAlloc h =>
    rcases O.pageAlloc h with ⟨-, rfl⟩ | ⟨f, -, -, -, M, hO⟩
    · exact I
    · exact I.kept ⟨hO, M.grows⟩
  | pageFree hp h =>
    obtain ⟨M, hO⟩ := O.pageFree hp h
    exact I.kept ⟨hO, M.grows⟩
  | refcountInc hp h =>
    obtain ⟨p, hinc, rfl⟩ := onPhys_ok.mp h
    exact I.kept ⟨(O.hold hinc).2, (sameMaps_phys p).grows⟩
  | refcountDec hp hholds h hheld =>
    obtain ⟨p, hdec, hvm⟩ := onPhys_ok.mp h
    rw [hholds] at O
    obtain ⟨-, hO⟩ := O.drop hp hdec
    have hI := I.kept ⟨hO, (sameMaps_phys p).grows⟩
    rw [hvm] at hI
    exact ⟨hI.owned, fun k hk hk' => hI.held k hk (hheld ▸ hk')⟩
  | pageInsert hU hp hperm h => exact I.kept (allocInsert_spec O hU hperm hp h).1
  | pageRemove hU h =>
    have R := pageRemove_spec O hU.usable h
    exact I.kept (SameTables.kept R.tables R.tmpPages R.owned)
  | pageAllocInsert hU hperm h => exact I.kept (pageAllocInsert_spec O hU hperm h)
  | tmpPageAllocMap hperm h => exact I.tmpMapped (tmpPageAllocMap_spec O hperm h)
  | tmpPageFree hk hheld h =>
    obtain ⟨F, hr⟩ := tmpPageFree_spec hk O (I.held _ hk hheld).2 h
    exact I.tmpFreed F hr
  | segmentAlloc hU hperm h => exact I.kept (segmentAlloc_spec hperm O hU h)
  | linkPages hU hV hperm h => exact I.kept (linkPages_spec hperm O hU hV h)
  | copyPages hU h => exact I.kept (copyPages_spec O hU h)
  | newDir hsrc h => exact I.newDir hsrc h
  | other h => exact I.kept ⟨⟨L, O.silent h⟩, h.grows⟩

theorem invariant_of_reachable (h : (system S).Reachable c) : Invariant S c :=
  h.invariant (I := Invariant S) (fun _ B => Boot.invariant B) fun _ _ I hs => I.step hs

/-! ## Ownership -/

/-- The frame `f` is free, once on the list and not mapped; or it is in use, not
on the list, and its count is the number of its mappings and holds. -/
def FrameOwned (S : Setup) (c : Config) (f : Nat) : Prop :=
  ((c.vm.phys.pages f).free = true ∧ (c.vm.phys.freeFrames S.pagesNr).count f = 1 ∧
      mapped S c.vm f = 0 ∧ c.holds f = 0) ∨
    ((c.vm.phys.pages f).free = false ∧ (c.vm.phys.freeFrames S.pagesNr).count f = 0 ∧
      (c.vm.phys.pages f).nextFreeIndexOrRefCount = mapped S c.vm f + c.holds f)

theorem Invariant.frameOwned (I : Invariant S c) (f : Nat) : FrameOwned S c f := by
  obtain ⟨L, O⟩ := I.owned
  have hcount : (c.vm.phys.freeFrames S.pagesNr).count f = if f ∈ L.free then 1 else 0 := by
    rw [O.rep.freeFrames]
    exact L.nodup.count
  unfold FrameOwned
  by_cases hf : f ∈ L.free
  · have href := O.refs f
    rw [L.unreferenced f hf] at href
    exact .inl ⟨(O.rep.free f).mpr hf, by rw [hcount, if_pos hf], by omega, by omega⟩
  · have hfree : (c.vm.phys.pages f).free = false := by
      rw [Bool.eq_false_iff, Ne, O.rep.free f]
      exact hf
    exact .inr ⟨hfree, by rw [hcount, if_neg hf], by rw [O.rep.refs f hf, O.refs f]⟩

/-- A machine with two free frames above the first megabyte. -/
def smallSetup : Setup where
  pagesNr := 0x102
  direct := ∅
  tmpTable := 0x1000
  pagesNr_le := by decide
  tmpTable_ne := by decide
  direct_ne := by simp
  tmpTable_direct := by simp
  tmpTable_slot k _ := by
    unfold tmpKaddr
    omega
  direct_slot _ _ := by simp

/-- The memory map of that machine. -/
def smallMap : List MemoryMapEntry := [⟨0x100000, 0, 0x2000, true⟩]

/-- Its frames after `pm_init`. -/
def smallPhys : Phys :=
  match pmInit 0x100000 smallMap (detectMemory ⟨false, 0, false⟩) with
  | .ok (_, p) => p
  | .error _ => detectMemory ⟨false, 0, false⟩

def smallBoot : Config where
  vm :=
    { Vm.empty with
      phys := smallPhys
      dirs := fun _ => { PageDirInfo.zero with pgtables := fun i => if i = 832 then 0x1000 else 0 } }
  holds := fun f => (smallPhys.pages f).refcountGet
  held := fun _ => false

theorem smallBoot_boot : Boot smallSetup smallBoot where
  phys := ⟨⟨false, 0, false⟩, 0x100000, smallMap, by decide, by decide, rfl⟩
  holds _ := rfl
  dirs := rfl
  tmpTable := rfl
  tables i hi := .inl (if_neg hi)
  empty _ := rfl
  held _ := rfl

end MakarnaX.Frames
