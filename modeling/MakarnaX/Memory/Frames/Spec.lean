import MakarnaX.Memory.Frames.Virtual

/-!
# Mapping and unmapping

What the functions of `virtual.h` and `virtual.cpp` do to the account of frames.
All statements are about calls that return.  The functions that call each other
are taken in a circle: `InsertSpec` of the `page_insert` one level down gives
`tmp_page_alloc_map`, that gives `pde_alloc`, that gives `page_insert`.
-/

namespace MakarnaX

open Library Function
open Vm (pushcli popif assertIntDisable)

variable {S : Setup} {s s' s'' : Vm} {L : Ledger Nat} {holds : Nat → Nat} {d va f k : Nat} {u : Unit} {r : Int}
  {pdeAlloc : Nat → Nat → VmM Int} {e : Nat × Nat}

/-! ## Steps that the account does not see -/

/-- Neither the page tables nor the frames change. -/
structure Silent (s s' : Vm) : Prop extends SameMaps s s' where
  pages : s'.phys.pages = s.phys.pages
  freePageList : s'.phys.freePageList = s.phys.freePageList

theorem Silent.trans (h : Silent s s') (h' : Silent s' s'') : Silent s s'' where
  toSameMaps := h.toSameMaps.trans h'.toSameMaps
  pages := h'.pages.trans h.pages
  freePageList := h'.freePageList.trans h.freePageList

theorem Owned.silent (O : Owned S s L holds) (h : Silent s s') : Owned S s' L holds :=
  O.congr h.toSameMaps h.pages h.freePageList

@[simp] theorem onPhys_ok {α : Type} {x : PhysM α} {a : α} :
    onPhys x s = .ok (a, s') ↔ ∃ p, x s.phys = .ok (a, p) ∧ { s with phys := p } = s' := by
  unfold onPhys
  cases x s.phys with
  | error e => exact ⟨fun h => (by cases h), fun ⟨_, h, _⟩ => (by cases h)⟩
  | ok r =>
    obtain ⟨b, p⟩ := r
    constructor
    · intro h
      cases h
      exact ⟨p, rfl, rfl⟩
    · rintro ⟨q, h, rfl⟩
      cases h
      rfl

theorem sameMaps_phys (p : Phys) : SameMaps s { s with phys := p } := ⟨⟨rfl, fun _ _ => rfl⟩, rfl, rfl⟩

namespace Vm

theorem pushcli_ok (h : pushcli s = .ok (u, s')) : Silent s s' := by
  simp [pushcli] at h
  subst h
  exact ⟨sameMaps_phys _, rfl, rfl⟩

theorem popif_ok (h : popif s = .ok (u, s')) : Silent s s' := by
  simp only [popif, onPhys_ok] at h
  obtain ⟨p, hp, rfl⟩ := h
  obtain ⟨hpages, hlist⟩ := Phys.popif_ok hp
  exact ⟨sameMaps_phys _, hpages, hlist⟩

@[simp] theorem assertIntDisable_ok {u : Unit} :
    assertIntDisable s = .ok (u, s') ↔ s.phys.cpu.ifl = false ∧ s = s' := by
  simp only [assertIntDisable, onPhys_ok, Phys.assertIntDisable_ok]
  constructor
  · rintro ⟨p, ⟨hif, rfl⟩, rfl⟩
    exact ⟨hif, rfl⟩
  · rintro ⟨hif, rfl⟩
    exact ⟨s.phys, ⟨hif, rfl⟩, rfl⟩

end Vm

/-- Changing a directory but for its page tables. -/
theorem silent_setDir (d : Nat) {f : PageDirInfo → PageDirInfo}
    (hf : ∀ pd, (f pd).pgtables = pd.pgtables) : Silent s (s.setDir d f) where
  dirsNr := rfl
  pgtables d' i := by
    by_cases h : d' = d
    · subst h
      simp [Vm.setDir, hf]
    · simp [Vm.setDir, h]
  tables := rfl
  tmpPages := rfl
  pages := rfl
  freePageList := rfl

theorem count_ok {f : Nat → Nat} (h : count d va f s = .ok (u, s')) :
    Silent s s' := by
  unfold count at h
  split at h
  · simp at h
    subst h
    exact silent_setDir d fun _ => rfl
  · split at h
    · simp at h
      subst h
      exact silent_setDir d fun _ => rfl
    · simp [PANIC] at h

/-! ## Entries that may be changed -/

/-- The entry for `va` in the directory `d` is not one of the direct map, and not
one that keeps a page table mapped. -/
structure Usable (S : Setup) (s : Vm) (d va : Nat) : Prop where
  dir : d < s.dirsNr
  direct : (s.dirs d).pgtables (pdx va) ∉ S.direct
  pinned : (s.dirs d).pgtables (pdx va) = S.tmpTable → tmpKaddr (ptx va) ∉ liveTables S s

theorem Usable.congr (U : Usable S s d va) (h : SameTables s s') : Usable S s' d va where
  dir := by rw [h.dirsNr]; exact U.dir
  direct := by rw [h.pgtables]; exact U.direct
  pinned := by rw [h.pgtables, h.liveTables]; exact U.pinned

theorem Usable.mem_entries (U : Usable S s d va)
    (h : (s.dirs d).pgtables (pdx va) ≠ 0) : ((s.dirs d).pgtables (pdx va), ptx va) ∈ entries S s :=
  MakarnaX.mem_entries.mpr
    ⟨mem_liveTables.mpr ⟨⟨d, pdx va, U.dir, pdx_lt va, rfl⟩, h, U.direct⟩, ptx_lt va⟩

theorem pageGet_eq_some :
    pageGet s d va = some e ↔
      (s.dirs d).pgtables (pdx va) ≠ 0 ∧ e = ((s.dirs d).pgtables (pdx va), ptx va) := by
  unfold pageGet
  split
  · simp_all
  · rename_i h
    simp [h, eq_comm]

theorem target_of_present (h : (s.pte e).present = true) :
    s.target e = some (s.pte e).physPgno := if_pos h

theorem target_of_absent (h : (s.pte e).present = false) : s.target e = none :=
  if_neg (by simp [h])

/-! ## Unmapping -/

/-- After `page_remove` the entry is empty, and the reference it held is gone. -/
structure Removed (S : Setup) (s s' : Vm) (d va : Nat) (holds : Nat → Nat) : Prop where
  owned : ∃ L', Owned S s' L' holds
  tables : SameTables s s'
  tmpPages : s'.tmpPages = s.tmpPages
  empty : (s.dirs d).pgtables (pdx va) ≠ 0 → s'.target ((s.dirs d).pgtables (pdx va), ptx va) = none

theorem Removed.ofSilent (O : Owned S s L holds) (h : Silent s s')
    (hempty : (s.dirs d).pgtables (pdx va) ≠ 0 → s.target ((s.dirs d).pgtables (pdx va), ptx va) = none) :
    Removed S s s' d va holds where
  owned := ⟨L, O.silent h⟩
  tables := h.toSameTables
  tmpPages := h.tmpPages
  empty hne := by rw [h.target]; exact hempty hne

/-- Dropping one reference to `f`, held or in an entry that was just cleared. -/
theorem Owned.drop (O : Owned S s L fun g => holds g + if f = g then 1 else 0)
    (hf : f < S.pagesNr) {p : Phys} (h : refcountDec f s.phys = .ok (r, p)) :
    r = (L.refs f - 1 : Nat) ∧ ∃ L', Owned S { s with phys := p } L' holds := by
  have hpos : 0 < L.refs f := by
    rw [O.refs f, if_pos rfl]
    omega
  obtain ⟨hr, L', hrefs, R⟩ := refcountDec_spec O.rep hf hpos h
  refine ⟨hr, L', O.ofRep (sameMaps_phys p) R fun g => ?_⟩
  rw [hrefs]
  by_cases hg : g = f
  · subst hg
    rw [update_self, O.refs g, if_pos rfl]
    omega
  · rw [update_of_ne hg, O.refs g, if_neg fun h => hg h.symm]
    omega

theorem pageDecRefCount_ok {p p' : Phys}
    (h : pageDecRefCount (f * 0x1000) p = .ok (r, p')) : refcountDec f p = .ok (r, p') := by
  have hidx : pageIndex (f * 0x1000) = f := by
    unfold pageIndex
    omega
  simp [pageDecRefCount, ASSERT, hidx] at h
  exact h.2.2

theorem present_ofAddr_zero : (PTE.ofAddr 0 0).present = false := by decide

theorem pageRemove_spec (O : Owned S s L holds) (U : Usable S s d va)
    (h : pageRemove d va s = .ok (r, s')) : Removed S s s' d va holds := by
  simp only [pageRemove, bind_apply_ok, get_run] at h
  obtain ⟨_, s0, hcli, h⟩ := h
  have hs0 := Vm.pushcli_ok hcli
  have O0 := O.silent hs0
  have U0 := U.congr hs0.toSameTables
  have hpg := hs0.pgtables d (pdx va)
  cases hget : pageGet s0 d va with
  | none =>
    simp [hget] at h
    obtain ⟨⟨_, hpop⟩, -⟩ := h
    refine .ofSilent O (hs0.trans (Vm.popif_ok hpop)) fun hne => absurd hget ?_
    rw [← hpg] at hne
    simp [pageGet, hne]
  | some e =>
    obtain ⟨hne0, rfl⟩ := pageGet_eq_some.mp hget
    have he := U0.mem_entries hne0
    simp only [hget] at h
    cases hpres : (s0.pte ((s0.dirs d).pgtables (pdx va), ptx va)).present with
    | false =>
      simp [hpres] at h
      obtain ⟨⟨_, hpop⟩, -⟩ := h
      refine .ofSilent O (hs0.trans (Vm.popif_ok hpop)) fun _ => ?_
      rw [← hs0.target, ← hpg]
      exact target_of_absent hpres
    | true =>
      rw [hpres, if_pos rfl] at h
      simp only [bind_apply_ok, onPhys_ok, modify_apply, pure_apply,
        Except.ok.injEq, Prod.mk.injEq] at h
      obtain ⟨rc, s1, ⟨p, hdec, rfl⟩, _, s2, ⟨-, rfl⟩, _, s3, hcount, _, s4, hpop, -, rfl⟩ := h
      -- clearing the entry first makes no difference to the frames
      have Ou := O0.unmap he (target_of_present hpres) U0.pinned present_ofAddr_zero
      obtain ⟨-, L', O2⟩ := Ou.drop (O0.frames _ he _ (target_of_present hpres)) (pageDecRefCount_ok hdec)
      have hsil := (count_ok hcount).trans (Vm.popif_ok hpop)
      refine ⟨⟨L', O2.silent hsil⟩, ⟨?_, fun d' i => ?_⟩, ?_, fun _ => ?_⟩
      · rw [hsil.dirsNr]
        exact hs0.dirsNr
      · rw [hsil.pgtables]
        exact hs0.pgtables d' i
      · rw [hsil.tmpPages]
        exact hs0.tmpPages
      · rw [hsil.target, ← hpg, Owned.target_setPte, if_pos rfl, present_ofAddr_zero]
        rfl

/-! ## Mapping -/

/-- After `page_insert` the frame is mapped, unless there was no frame or no
temporary address for a page table. -/
structure Inserted (S : Setup) (s s' : Vm) (d va : Nat) (holds : Nat → Nat) (r : Int) : Prop where
  owned : ∃ L', Owned S s' L' holds
  grows : Grows s s'
  same : (s.dirs d).pgtables (pdx va) ≠ 0 → SameTables s s' ∧ s'.tmpPages = s.tmpPages
  present : 0 ≤ r → s'.target ((s'.dirs d).pgtables (pdx va), ptx va) ≠ none

def InsertSpec (S : Setup) (pageInsert : Nat → Nat → Nat → Perm → VmM Int) : Prop :=
  ∀ {s s' : Vm} {L : Ledger Nat} {holds : Nat → Nat} {d p va : Nat} {perm : Perm} {r : Int},
    Owned S s L holds → Usable S s d va → p < S.pagesNr → perm.getLsbD 0 = true →
      pageInsert d p va perm s = .ok (r, s') → Inserted S s s' d va holds r

/-- What `tmp_page_alloc_map` does: nothing, or it takes a free temporary address
and maps a frame there. -/
structure TmpMapped (S : Setup) (s s' : Vm) (holds : Nat → Nat) (r : Option (Nat × Nat)) : Prop where
  owned : ∃ L', Owned S s' L' holds
  tables : SameTables s s'
  fail : r = none → ∀ j, s'.tmpPages.test j = s.tmpPages.test j
  slot : ∀ p va, r = some (p, va) → p < S.pagesNr ∧ ∃ k < 1024, va = tmpVa k ∧
    s.tmpPages.test k = false ∧ tmpKaddr k ∉ liveTables S s ∧
    (∀ j, s'.tmpPages.test j = (decide (j = k) || s.tmpPages.test j)) ∧
    s'.target (S.tmpTable, k) ≠ none

def TmpSpec (S : Setup) (tmpPageAllocMap : Perm → VmM (Option (Nat × Nat))) : Prop :=
  ∀ {s s' : Vm} {L : Ledger Nat} {holds : Nat → Nat} {perm : Perm} {r : Option (Nat × Nat)},
    Owned S s L holds → perm.getLsbD 0 = true → tmpPageAllocMap perm s = .ok (r, s') →
      TmpMapped S s s' holds r

theorem Owned.pageAlloc (O : Owned S s L holds) {r : Option Nat} (h : onPhys pageAlloc s = .ok (r, s')) :
    (r = none ∧ s' = s) ∨
      ∃ f, r = some f ∧ f < S.pagesNr ∧ L.refs f = 0 ∧ SameMaps s s' ∧
        ∃ L', Owned S s' L' holds := by
  rw [onPhys_ok] at h
  obtain ⟨p, hp, rfl⟩ := h
  rcases pageAlloc_spec O.rep hp with ⟨rfl, -, rfl⟩ | ⟨f, rest, hf, rfl, R⟩
  · exact .inl ⟨rfl, rfl⟩
  · have hmem : f ∈ L.free := hf ▸ List.mem_cons_self
    exact .inr ⟨f, rfl, (O.rep.bound f hmem).2, L.unreferenced f hmem, sameMaps_phys p, _,
      O.ofRep (sameMaps_phys p) R O.refs⟩

theorem Owned.pageFree (O : Owned S s L holds) (hf : f < S.pagesNr)
    (h : onPhys (pageFree f) s = .ok (u, s')) : SameMaps s s' ∧ ∃ L', Owned S s' L' holds := by
  rw [onPhys_ok] at h
  obtain ⟨p, hp, rfl⟩ := h
  obtain ⟨_, _, R⟩ := pageFree_spec O.rep hf hp
  exact ⟨sameMaps_phys p, _, O.ofRep (sameMaps_phys p) R O.refs⟩

/-- Adding a hold on `f`. -/
theorem Owned.hold (O : Owned S s L holds) {p : Phys} (h : refcountInc f s.phys = .ok (r, p)) :
    0 ≤ r ∧ ∃ L', Owned S { s with phys := p } L' fun g => holds g + if f = g then 1 else 0 := by
  obtain ⟨hf, hr, R⟩ := refcountInc_spec O.rep h
  refine ⟨by omega, _, O.ofRep (sameMaps_phys p) R fun g => ?_⟩
  by_cases hg : g = f
  · subst hg
    simp only [Ledger.setRefs, update_self, O.refs g, if_true]
    omega
  · have hfg : f ≠ g := fun h => hg h.symm
    simp only [Ledger.setRefs, update_of_ne hg, O.refs g, if_neg hfg]
    omega

/-! ### Temporary addresses -/

theorem tmpPageGet_ok {va : Nat} (h : tmpPageGet s = .ok (va, s')) :
    (va = 0 ∧ s' = s) ∨ ∃ k < 1024, va = tmpVa k ∧ s.tmpPages.test k = false ∧
      s' = { s with tmpPages := s.tmpPages.set k } := by
  simp only [tmpPageGet, bind_apply_ok, Vm.assertIntDisable_ok, get_run] at h
  obtain ⟨_, _, ⟨-, rfl⟩, h⟩ := h
  cases hf : s.tmpPages.findFirstZero (TMP_PAGE_COUNT / 32 * 4) with
  | none =>
    simp [hf] at h
    exact .inl ⟨h.1.symm, h.2.symm⟩
  | some k =>
    obtain ⟨hk, hclear⟩ := Bitmap.findFirstZero_some hf
    simp [hf] at h
    exact .inr ⟨k, hk, h.1.symm, hclear, h.2.symm⟩

theorem tmpPagePut_ok (hk : k < 1024) (h : tmpPagePut (tmpVa k) s = .ok (u, s')) :
    s' = { s with tmpPages := s.tmpPages.reset k } := by
  simp [tmpPagePut, tmpVa_index hk, ASSERT] at h
  exact h.2.2.symm

/-- A free temporary address holds no page table. -/
theorem Owned.notMem_of_clear (O : Owned S s L holds) (hk : k < 1024)
    (h : s.tmpPages.test k = false) : tmpKaddr k ∉ liveTables S s := by
  intro hl
  rw [O.taken k hk hl] at h
  cases h

/-- The address that was taken is released again. -/
theorem TmpMapped.putBack (hk : k < 1024) (hfresh : tmpKaddr k ∉ liveTables S s)
    (hclear : s.tmpPages.test k = false) {s1 s2 : Vm} (O : Owned S s1 L holds) (T : SameTables s s1)
    (hbits : s1.tmpPages = s.tmpPages.set k) (h : tmpPagePut (tmpVa k) s1 = .ok (u, s2)) :
    TmpMapped S s s2 holds none := by
  cases tmpPagePut_ok hk h
  have htest : ∀ j, (s1.tmpPages.reset k).test j = s.tmpPages.test j := by
    intro j
    rw [Bitmap.test_reset, hbits, Bitmap.test_set]
    by_cases hj : j = k
    · simp [hj, hclear]
    · simp [hj]
  refine ⟨⟨L, O.setBits fun j hj hl => ?_⟩, ⟨T.dirsNr, T.pgtables⟩, fun _ => htest, fun _ _ h => (by cases h)⟩
  have hjk : j ≠ k := by
    rintro rfl
    rw [T.liveTables] at hl
    exact hfresh hl
  rw [Bitmap.test_reset, O.taken j hj hl]
  simp [hjk]

theorem tmpPageAllocMapWith_spec {pageInsert : Nat → Nat → Nat → Perm → VmM Int}
    (H : InsertSpec S pageInsert) : TmpSpec S (tmpPageAllocMapWith pageInsert) := by
  intro s s' L holds perm r O hperm h
  simp only [tmpPageAllocMapWith, bind_apply_ok, Vm.assertIntDisable_ok] at h
  obtain ⟨_, _, ⟨-, rfl⟩, va, s1, hget, h⟩ := h
  rcases tmpPageGet_ok hget with ⟨rfl, rfl⟩ | ⟨k, hk, rfl, hclear, rfl⟩
  · simp at h
    obtain ⟨rfl, rfl⟩ := h
    exact ⟨⟨L, O⟩, ⟨rfl, fun _ _ => rfl⟩, fun _ _ => rfl, fun _ _ h => (by cases h)⟩
  have hva : tmpVa k ≠ 0 := by
    unfold tmpVa MMAP_KERNEL_TMP_PAGE_BASE
    omega
  have hfresh := O.notMem_of_clear hk hclear
  have O1 : Owned S { s with tmpPages := s.tmpPages.set k } L holds :=
    O.setBits fun j hj hl => by rw [Bitmap.test_set, O.taken j hj hl, Bool.or_true]
  have T1 : SameTables s { s with tmpPages := s.tmpPages.set k } := ⟨rfl, fun _ _ => rfl⟩
  rw [if_neg hva, bind_apply_ok] at h
  obtain ⟨pg, s2, halloc, h⟩ := h
  rcases O1.pageAlloc halloc with ⟨rfl, rfl⟩ | ⟨f, rfl, hf, -, M2, L2, O2⟩
  · simp at h
    obtain ⟨⟨_, hput⟩, rfl⟩ := h
    exact .putBack hk hfresh hclear O1 T1 rfl hput
  have T2 : SameTables s s2 := ⟨M2.dirsNr, M2.pgtables⟩
  have htab : (s2.dirs 0).pgtables (pdx (tmpVa k)) = S.tmpTable := by
    rw [pdx_tmpVa hk]
    exact O2.tmpTable
  have U2 : Usable S s2 0 (tmpVa k) := by
    refine ⟨O2.dirs, htab ▸ S.tmpTable_direct, fun _ => ?_⟩
    rw [ptx_tmpVa hk, T2.liveTables]
    exact hfresh
  simp only [bind_apply_ok] at h
  obtain ⟨err, s3, hins, h⟩ := h
  have I := H O2 U2 hf hperm hins
  obtain ⟨T3, hbits⟩ := I.same (htab ▸ S.tmpTable_ne)
  have T := T2.trans T3
  have hset : s3.tmpPages = s.tmpPages.set k := hbits.trans M2.tmpPages
  obtain ⟨L3, O3⟩ := I.owned
  split at h
  · simp only [bind_apply_ok, pure_apply, Except.ok.injEq, Prod.mk.injEq] at h
    obtain ⟨_, s4, hfree, _, s5, hput, rfl, rfl⟩ := h
    obtain ⟨M4, L4, O4⟩ := O3.pageFree hf hfree
    exact .putBack hk hfresh hclear O4 (T.trans M4.toSameTables) (M4.tmpPages.trans hset) hput
  · rename_i herr
    simp at h
    obtain ⟨rfl, rfl⟩ := h
    refine ⟨⟨L3, O3⟩, T, fun h => (by cases h), fun p va hr => ?_⟩
    cases hr
    refine ⟨hf, k, hk, rfl, hclear, hfresh, fun j => ?_, ?_⟩
    · rw [hset, Bitmap.test_set]
    · have hp := I.present (by omega)
      rw [T3.pgtables, htab, ptx_tmpVa hk] at hp
      exact hp

/-! ### Page tables -/

theorem perm_PW : (PTE_P ||| PTE_W).getLsbD 0 = true := by decide

/-- What `pde_alloc` does: nothing, or it adds a page table. -/
structure PdeAllocated (S : Setup) (s s' : Vm) (d i : Nat) (holds : Nat → Nat) (r : Int) : Prop where
  owned : ∃ L', Owned S s' L' holds
  grows : Grows s s'
  table : 0 ≤ r → ∃ k < 1024, (s'.dirs d).pgtables i = tmpKaddr k

theorem pdeAllocWith_spec {tmpPageAllocMap : Perm → VmM (Option (Nat × Nat))}
    (H : TmpSpec S tmpPageAllocMap) (O : Owned S s L holds) {d i : Nat} (hd : d < s.dirsNr)
    (hi : i < 1024) (h0 : (s.dirs d).pgtables i = 0)
    (h : pdeAllocWith tmpPageAllocMap d i s = .ok (r, s')) : PdeAllocated S s s' d i holds r := by
  simp only [pdeAllocWith, bind_apply_ok] at h
  obtain ⟨pg, s1, hmap, h⟩ := h
  have T := H O perm_PW hmap
  obtain ⟨L1, O1⟩ := T.owned
  rcases pg with _ | ⟨p, va⟩
  · simp at h
    obtain ⟨rfl, rfl⟩ := h
    refine ⟨⟨L1, O1⟩, ⟨T.tables.dirsNr, fun d i => .inl (T.tables.pgtables d i), fun k hk => ?_⟩,
      fun h => absurd h (by decide)⟩
    rw [T.fail rfl]
    exact hk
  obtain ⟨-, k, hk, rfl, hclear, hfresh, hbits, hback⟩ := T.slot p va rfl
  simp only [bind_apply_ok, modify_apply, pure_apply, Except.ok.injEq,
    Prod.mk.injEq] at h
  obtain ⟨_, s2, ⟨-, hs2⟩, _, s3, hcli, _, s4, ⟨-, hs4⟩, _, s5, hpop, rfl, rfl⟩ := h
  have M3 := Vm.pushcli_ok hcli
  have M5 := Vm.popif_ok hpop
  rw [va2kaddr_tmpVa hk] at hs2 hs4
  -- the page table in place, seen from the state in which its frame was mapped
  have hpg : ∀ d' i', (s4.dirs d').pgtables i' =
      if d' = d ∧ i' = i then tmpKaddr k else (s1.dirs d').pgtables i' := by
    intro d' i'
    have h3 : (s3.dirs d').pgtables i' = (s1.dirs d').pgtables i' := by
      rw [M3.pgtables, ← hs2]
    rw [← hs4]
    by_cases hdd : d' = d
    · subst hdd
      by_cases hii : i' = i
      · subst hii
        simp [Vm.setDir]
      · simp [Vm.setDir, hii, h3]
    · simp [Vm.setDir, hdd, h3]
  have hn : s4.dirsNr = s1.dirsNr := by
    rw [← hs4]
    show s3.dirsNr = _
    rw [M3.dirsNr, ← hs2]
  have htmp : s4.tmpPages = s1.tmpPages := by
    rw [← hs4]
    show s3.tmpPages = _
    rw [M3.tmpPages, ← hs2]
  have htab : s4.tables = update s1.tables (tmpKaddr k) fun _ => ⟨0, 0⟩ := by
    rw [← hs4]
    show s3.tables = _
    rw [M3.tables, ← hs2]
  have R4 : s4.phys.Rep S.pagesNr L1 := by
    have hp : s4.phys = s3.phys := by rw [← hs4]; rfl
    have hp2 : s2.phys = s1.phys := by rw [← hs2]
    rw [hp]
    exact O1.rep.congr (by rw [M3.pages, hp2]) (by rw [M3.freePageList, hp2])
  have O4 : Owned S s4 L1 holds := by
    have Oa : Owned S { s4 with phys := s1.phys } L1 holds := O1.addTable (T.tables.dirsNr ▸ hd) hi
      ((T.tables.pgtables d i).trans h0) hk (T.tables.liveTables ▸ hfresh)
      (by rw [hbits]; simp) hback hn hpg htab htmp rfl
    exact Oa.ofRep (sameMaps_phys s4.phys) R4 Oa.refs
  refine ⟨⟨L1, O4.silent M5⟩, ⟨?_, fun d' i' => ?_, fun j hj => ?_⟩, fun _ => ⟨k, hk, ?_⟩⟩
  · rw [M5.dirsNr, hn, T.tables.dirsNr]
  · rw [M5.pgtables, hpg]
    split
    · exact .inr ⟨k, hk, rfl, hclear⟩
    · exact .inl (T.tables.pgtables d' i')
  · rw [M5.tmpPages, htmp, hbits, hj, Bool.or_true]
  · rw [M5.pgtables, hpg, if_pos ⟨rfl, rfl⟩]

/-- The specification of a `pde_alloc`. -/
def PdeSpec (S : Setup) (pdeAlloc : Nat → Nat → VmM Int) : Prop :=
  ∀ {s s' : Vm} {L : Ledger Nat} {holds : Nat → Nat} {d i : Nat} {r : Int},
    Owned S s L holds → d < s.dirsNr → i < 1024 → (s.dirs d).pgtables i = 0 →
      pdeAlloc d i s = .ok (r, s') → PdeAllocated S s s' d i holds r

/-- What `page_get_c` does: the page table is there, or it adds one. -/
structure Found (S : Setup) (s s' : Vm) (d va : Nat) (holds : Nat → Nat) (r : Option (Nat × Nat)) :
    Prop where
  owned : ∃ L', Owned S s' L' holds
  grows : Grows s s'
  same : (s.dirs d).pgtables (pdx va) ≠ 0 → s' = s
  usable : Usable S s' d va
  entry : ∀ e, r = some e → (s'.dirs d).pgtables (pdx va) ≠ 0 ∧ e = ((s'.dirs d).pgtables (pdx va), ptx va)

theorem Usable.grows (U : Usable S s d va) (G : Grows s s')
    (h : (s.dirs d).pgtables (pdx va) = 0) : Usable S s' d va := by
  have hdir : d < s'.dirsNr := G.dirsNr ▸ U.dir
  rcases G.pgtables d (pdx va) with hp | ⟨k, hk, hp, -⟩
  · refine ⟨hdir, hp ▸ U.direct, fun ht => ?_⟩
    rw [hp, h] at ht
    exact absurd ht.symm S.tmpTable_ne
  · refine ⟨hdir, hp ▸ S.direct_slot k hk, fun ht => ?_⟩
    rw [hp] at ht
    exact absurd ht (S.tmpTable_slot k hk)

theorem pageGetCWith_spec (H : PdeSpec S pdeAlloc)
    (O : Owned S s L holds) (U : Usable S s d va) {r : Option (Nat × Nat)}
    (h : pageGetCWith pdeAlloc d va s = .ok (r, s')) : Found S s s' d va holds r := by
  simp only [pageGetCWith, get_run] at h
  split at h
  · rename_i h0
    simp only [bind_apply_ok] at h
    obtain ⟨r0, s1, hpde, h⟩ := h
    have P := H O U.dir (pdx_lt va) h0 hpde
    have U1 := U.grows P.grows h0
    split at h
    · simp at h
      obtain ⟨rfl, rfl⟩ := h
      exact ⟨P.owned, P.grows, fun hne => absurd h0 hne, U1, fun _ he => (by cases he)⟩
    · simp [ASSERT] at h
      obtain ⟨⟨hne, rfl⟩, rfl⟩ := h
      exact ⟨P.owned, P.grows, fun hne => absurd h0 hne, U1, fun e he => ⟨hne, (Option.some.inj he).symm⟩⟩
  · simp [ASSERT] at h
    obtain ⟨⟨hne, rfl⟩, rfl⟩ := h
    exact ⟨⟨L, O⟩, (SameMaps.refl s).grows, fun _ => rfl, U, fun e he => ⟨hne, (Option.some.inj he).symm⟩⟩

/-! ### `page_insert` -/

theorem ofAddr_present {a : Nat} {perm : Perm} (h : perm.getLsbD 0 = true) :
    (PTE.ofAddr a perm).present = true := by
  simpa [PTE.ofAddr, PTE.present] using h

theorem ofAddr_physPgno {p : Nat} {perm : Perm} (h : p < S.pagesNr) :
    (PTE.ofAddr (p * 0x1000) perm).physPgno = p := by
  have := S.pagesNr_le
  simp only [PTE.ofAddr]
  omega

theorem pageInsertWith_spec (H : PdeSpec S pdeAlloc) :
    InsertSpec S (pageInsertWith pdeAlloc) := by
  intro s s' L holds d p va perm r O U hp hperm h
  simp only [pageInsertWith, bind_apply_ok] at h
  obtain ⟨_, s0, hcli, e, s1, hget, h⟩ := h
  have M0 := Vm.pushcli_ok hcli
  have F := pageGetCWith_spec H (O.silent M0) (U.congr M0.toSameTables) hget
  have G1 : Grows s s1 := M0.grows.trans F.grows
  have hsame : (s.dirs d).pgtables (pdx va) ≠ 0 → SameTables s s1 ∧ s1.tmpPages = s.tmpPages := by
    intro hne
    rw [← M0.pgtables] at hne
    rw [F.same hne]
    exact ⟨M0.toSameTables, M0.tmpPages⟩
  cases e with
  | none =>
    simp at h
    obtain ⟨⟨_, hpop⟩, rfl⟩ := h
    have M2 := Vm.popif_ok hpop
    obtain ⟨L1, O1⟩ := F.owned
    refine ⟨⟨L1, O1.silent M2⟩, G1.trans M2.grows, fun hne => ?_, fun h => absurd h (by decide)⟩
    obtain ⟨T, hb⟩ := hsame hne
    exact ⟨T.trans M2.toSameTables, M2.tmpPages.trans hb⟩
  | some e =>
    obtain ⟨hne, rfl⟩ := F.entry e rfl
    -- an entry in use is emptied first
    obtain ⟨s2, hR, h⟩ : ∃ s2, Removed S s1 s2 d va holds ∧
        (do let rc ← onPhys (refcountInc p)
            modify fun s => s.setPte ((s1.dirs d).pgtables (pdx va), ptx va) (.ofAddr (p * 0x1000) perm)
            count d va (add32 · 1)
            popif
            return rc : VmM Int) s2 = .ok (r, s') := by
      obtain ⟨L1, O1⟩ := F.owned
      simp only [get_run] at h
      split at h
      · simp only [bind_apply_ok, lift_apply_ok, ASSERT, check_ok] at h
        obtain ⟨rm, s2, hrm, _, _, ⟨-, rfl⟩, h⟩ := h
        exact ⟨s2, pageRemove_spec O1 F.usable hrm, by simp only [bind_apply_ok]; exact h⟩
      · rename_i habs
        refine ⟨s1, ⟨⟨L1, O1⟩, ⟨rfl, fun _ _ => rfl⟩, rfl, fun _ => ?_⟩, h⟩
        exact target_of_absent (by simpa using habs)
    simp only [bind_apply_ok, onPhys_ok, modify_apply, pure_apply,
      Except.ok.injEq, Prod.mk.injEq] at h
    obtain ⟨rc, _, ⟨q, hinc, rfl⟩, _, _, ⟨-, rfl⟩, _, s4, hcount, _, s5, hpop, rfl, rfl⟩ := h
    obtain ⟨L2, O2⟩ := hR.owned
    obtain ⟨-, L3, O3⟩ := O2.hold hinc
    have U2 := F.usable.congr hR.tables
    have htab := hR.tables.pgtables d (pdx va)
    have he : ((s1.dirs d).pgtables (pdx va), ptx va) ∈ entries S s2 := by
      rw [hR.tables.entries]
      exact F.usable.mem_entries hne
    have O4 : Owned S _ L3 holds := O3.map (e := ((s1.dirs d).pgtables (pdx va), ptx va))
      (v := .ofAddr (p * 0x1000) perm) he (hR.empty hne) (ofAddr_present hperm) (by rw [ofAddr_physPgno hp]; exact hp)
      (fun g => by rw [ofAddr_physPgno hp])
    have M5 := (count_ok hcount).trans (Vm.popif_ok hpop)
    have T5 : SameTables s1 s5 := hR.tables.trans ⟨M5.dirsNr, M5.pgtables⟩
    have hb5 : s5.tmpPages = s1.tmpPages := M5.tmpPages.trans hR.tmpPages
    refine ⟨⟨L3, O4.silent M5⟩, G1.trans ⟨T5.dirsNr, fun d i => .inl (T5.pgtables d i), fun k hk => hb5 ▸ hk⟩,
      fun hne => ?_, fun _ => ?_⟩
    · obtain ⟨T, hb⟩ := hsame hne
      exact ⟨T.trans T5, hb5.trans hb⟩
    · rw [T5.pgtables, M5.target, Owned.target_setPte, if_pos rfl, if_pos (ofAddr_present hperm)]
      exact Option.some_ne_none _

theorem pageInsertDepth_spec (depth : Nat) : InsertSpec S (pageInsertDepth depth) := by
  induction depth with
  | zero =>
    intro s s' L holds d p va perm r _ _ _ _ h
    cases h
  | succ depth ih =>
    refine pageInsertWith_spec ?_
    intro s s' L holds d i r O hd hi h0 h
    exact pdeAllocWith_spec (tmpPageAllocMapWith_spec ih) O hd hi h0 h

theorem tmpPageAllocMap_spec : TmpSpec S tmpPageAllocMap :=
  tmpPageAllocMapWith_spec (pageInsertDepth_spec 2)

theorem pageInsert_spec : InsertSpec S pageInsert := pageInsertDepth_spec 3

end MakarnaX
