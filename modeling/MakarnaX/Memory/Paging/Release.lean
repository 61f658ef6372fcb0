import MakarnaX.Memory.Paging.Insert

/-!
# Releasing a page table

`pde_free` unmaps the temporary page that holds a page table and clears its place
in the directory.  The frames are accounted for afterwards if no other directory
has the table and no page is left in it.
-/

namespace MakarnaX

open Library (Ledger)

variable {S : Setup} {ty : Nat → PageType} {s s' : Vm} {L L' : Ledger Nat} {holds : Nat → Nat} {c : Cpu}
  {d i k f : Nat}

/-- The page table of `d` at `i`, at the temporary address `k`, is in no other
place and has no page. -/
structure Vm.LastUse (s : Vm) (d i k : Nat) : Prop where
  slot : k < 1024
  table : (s.dirs d).pgtables i = tmpKaddr k
  alone : ∀ e j, e < s.dirsNr → j < 1024 → (s.dirs e).pgtables j = tmpKaddr k → e = d ∧ j = i
  empty : ∀ x < 1024, s.target (tmpKaddr k, x) = none

theorem Vm.clearTable_pgtables (e j : Nat) :
    ((s.clearTable d i).dirs e).pgtables j = if e = d ∧ j = i then 0 else (s.dirs e).pgtables j := by
  by_cases he : e = d
  · subst he
    by_cases hj : j = i
    · subst hj
      simp [Vm.clearTable, Vm.setDir]
    · simp [Vm.clearTable, Vm.setDir, hj]
  · simp [Vm.clearTable, Vm.setDir, he]

theorem Vm.LastUse.mem_liveTables (U : s.LastUse d i k) {t : Nat} :
    t ∈ liveTables S (s.clearTable d i) ↔ t ∈ liveTables S s ∧ t ≠ tmpKaddr k := by
  have hn : (s.clearTable d i).dirsNr = s.dirsNr := rfl
  simp only [MakarnaX.mem_liveTables, hn]
  constructor
  · rintro ⟨⟨e, j, he, hj, rfl⟩, hne, hdir⟩
    rw [Vm.clearTable_pgtables] at hne hdir ⊢
    by_cases hcase : e = d ∧ j = i
    · rw [if_pos hcase] at hne
      exact absurd rfl hne
    · rw [if_neg hcase] at hne hdir ⊢
      exact ⟨⟨⟨e, j, he, hj, rfl⟩, hne, hdir⟩, fun h => hcase (U.alone e j he hj h)⟩
  · rintro ⟨⟨⟨e, j, he, hj, rfl⟩, hne, hdir⟩, hk⟩
    refine ⟨⟨e, j, he, hj, ?_⟩, hne, hdir⟩
    rw [Vm.clearTable_pgtables, if_neg]
    rintro ⟨rfl, rfl⟩
    exact hk U.table

theorem Vm.LastUse.mapped (U : s.LastUse d i k) (f : Nat) : mapped S (s.clearTable d i) f = mapped S s f := by
  have hsub : entries S (s.clearTable d i) ⊆ entries S s := fun e he =>
    mem_entries.mpr ⟨(U.mem_liveTables.mp (mem_entries.mp he).1).1, (mem_entries.mp he).2⟩
  refine (Library.refCount_of_subset hsub (fun e he hne => ?_) f).symm
  have hlive : e.1 ∉ liveTables S (s.clearTable d i) := fun h => hne (mem_entries.mpr ⟨h, (mem_entries.mp he).2⟩)
  have hk : e.1 = tmpKaddr k := Classical.byContradiction fun h =>
    hlive (U.mem_liveTables.mpr ⟨(mem_entries.mp he).1, h⟩)
  obtain ⟨e1, e2⟩ := e
  subst hk
  exact U.empty e2 (mem_entries.mp he).2

/-- The table is no longer in the directory; its frame is still at the temporary address. -/
theorem Owned.clearTable (O : Owned S s L holds) (U : s.LastUse d i k) : Owned S (s.clearTable d i) L holds where
  rep := O.rep
  refs f := by
    rw [U.mapped]
    exact O.refs f
  frames e he := O.frames e (mem_entries.mpr ⟨(U.mem_liveTables.mp (mem_entries.mp he).1).1, (mem_entries.mp he).2⟩)
  dirs := O.dirs
  tmpTable := by
    rw [Vm.clearTable_pgtables, if_neg]
    · exact O.tmpTable
    · rintro ⟨rfl, rfl⟩
      exact S.tmpTable_slot k U.slot (U.table.symm.trans O.tmpTable)
  taken j hj h := O.taken j hj (U.mem_liveTables.mp h).1
  backed j hj h := O.backed j hj (U.mem_liveTables.mp h).1

theorem TmpHolds.entered (T : TmpHolds s k f) : TmpHolds s.entered k f := ⟨T.lt, T.bit, T.table, T.present, T.frame⟩

namespace Ready

theorem clearTable (R : Ready S ty s L holds c) (U : s.LastUse d i k) : Ready S ty (s.clearTable d i) L holds c where
  owned := R.owned.clearTable U
  account := R.account
  sane := R.sane
  slots := R.slots
  typed f hf := R.typed f (by rwa [U.mapped] at hf)

/-- `pde_free` where the frame of the table has no other use. -/
theorem pdeFree (R : Ready S ty s L holds c) (U : s.LastUse d i k) (hf : s.target (S.tmpTable, k) = some f)
    (hrefs : L.refs f = 1) :
    ∃ q, ∃ hfree : f ∉ L.free, pdeFree d i s = .ok (0, { (s.unmapTmp k).clearTable d i with phys := q }) ∧
      Ready S ty { (s.unmapTmp k).clearTable d i with phys := q } (L.drop f hfree) holds c := by
  have he := R.tmp_mem_entries U.slot
  have D := R.droppable (R.owned.frames _ he f hf) (mapped_pos he hf)
  obtain ⟨q, hcall, A⟩ := pdeFree_maps (d := d) R.account R.sane (R.tmpHolds U.slot hf) D hrefs U.table
  refine ⟨q, D.notMem, hcall, R.ofCall ?_ A (fun j hj => R.unmapTmp_slots U.slot hj) fun g =>
    .inl (drop_refs_le D.notMem g)⟩
  -- the same frames as if the directory gave up the table before it is unmapped
  have hlive : tmpKaddr k ∉ liveTables S (s.clearTable d i) := fun h => (U.mem_liveTables.mp h).2 rfl
  obtain ⟨q1, hfree, A1⟩ := tmpPageFree_maps (s := (s.clearTable d i).entered)
    (R.account.entered R.sane) R.sane.pushcli rfl ((R.clearTable U).tmpHolds U.slot hf).entered D
  obtain ⟨L1, O1⟩ := (tmpPageFree_spec U.slot ((R.clearTable U).owned.silent (Vm.pushcli_ok rfl)) hlive hfree).1.owned
  obtain rfl : L1 = L.drop f D.notMem := O1.rep.unique A1.rep
  have hsame : SameMaps { (s.clearTable d i).entered.unmapTmp k with phys := q1 }
      { (s.unmapTmp k).clearTable d i with phys := q } := by
    refine ⟨⟨rfl, fun e j => ?_⟩, ?_, rfl⟩
    · refine (Vm.clearTable_pgtables (s := s.unmapTmp k) e j).trans ?_
      refine Eq.trans ?_ (Vm.unmap_pgtables (s := (s.clearTable d i).entered) e j).symm
      rw [show ((s.unmapTmp k).dirs e).pgtables j = (s.dirs e).pgtables j from Vm.unmap_pgtables e j]
      exact (Vm.clearTable_pgtables (s := s) e j).symm
    · have hent : (s.clearTable d i).entry 0 (tmpVa k) = s.entry 0 (tmpVa k) := by
        rw [entry_tmpVa U.slot, entry_tmpVa U.slot, (R.clearTable U).owned.tmpTable, R.owned.tmpTable]
      show (s.setPte (s.entry 0 (tmpVa k)) (.ofAddr 0 0)).tables =
        (s.setPte ((s.clearTable d i).entry 0 (tmpVa k)) (.ofAddr 0 0)).tables
      rw [hent]
  exact ⟨_, O1.ofRep hsame A.rep O1.refs⟩

end Ready

end MakarnaX
