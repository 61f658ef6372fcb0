import MakarnaX.Memory.Paging.Pages

/-!
# Temporary pages and page tables

`tmp_page_alloc_map` takes the lowest free temporary address and the first free
frame, and fails where one of them is missing, leaving the state as it was.  It is
the only source of page tables, so `pde_alloc` and `page_insert` fail for the same
reason and no other.
-/

namespace MakarnaX

open Library Vm
open Vm (pushcli popif assertIntDisable)

variable {N : Nat} {ty : Nat → PageType} {s : Vm} {L : Ledger Nat} {c : Cpu} {d i va p f k t : Nat} {perm : Perm}
  {rest : List Nat}

/-- There is no temporary address or no frame left. -/
def Exhausted (s : Vm) (L : Ledger Nat) : Prop :=
  s.tmpPages.findFirstZero (TMP_PAGE_COUNT / 32 * 4) = none ∨ L.free = []

/-- `tmp_page_alloc_map` will map the frame `p` at the temporary address `k`. -/
structure CanMap (s : Vm) (L : Ledger Nat) (k p : Nat) (rest : List Nat) : Prop where
  slot : s.tmpPages.findFirstZero (TMP_PAGE_COUNT / 32 * 4) = some k
  free : L.free = p :: rest
  table : (s.dirs 0).pgtables 832 ≠ 0
  clear : (s.tables ((s.dirs 0).pgtables 832) k).present = false

theorem CanMap.lt (h : CanMap s L k p rest) : k < 1024 := (Bitmap.findFirstZero_some h.slot).1

theorem CanMap.bit (h : CanMap s L k p rest) : s.tmpPages.test k = false := (Bitmap.findFirstZero_some h.slot).2

theorem CanMap.notMem (h : CanMap s L k p rest) : p ∉ (L.take h.free).free :=
  (List.nodup_cons.mp (h.free ▸ L.nodup)).1

/-- The account when the frame is mapped. -/
def CanMap.ledger (h : CanMap s L k p rest) : Ledger Nat := (L.take h.free).setRefs p 1 h.notMem

/-! ## `tmp_page_alloc_map` -/

section

variable (A : s.phys.Account N ty L c) (hif : c.ifl = false)

include A hif

theorem tmpPageGet_slot (h : s.tmpPages.findFirstZero (TMP_PAGE_COUNT / 32 * 4) = some k) :
    tmpPageGet s = .ok (tmpVa k, { s with tmpPages := s.tmpPages.set k }) := by
  unfold tmpPageGet
  rw [bind_run (A.assertVm hif), get_run, h]
  rfl

theorem tmpPageGet_full
    (h : s.tmpPages.findFirstZero (TMP_PAGE_COUNT / 32 * 4) = none) : tmpPageGet s = .ok (0, s) := by
  unfold tmpPageGet
  rw [bind_run (A.assertVm hif), get_run, h]
  rfl

theorem tmpPagePut_apply (hk : k < 1024)
    (h : s.tmpPages.test k = true) : tmpPagePut (tmpVa k) s = .ok ((), { s with tmpPages := s.tmpPages.reset k }) := by
  unfold tmpPagePut
  rw [bind_run (A.assertVm hif), tmpVa_index hk, get_run, ASSERT_lift h]
  rfl

end

theorem tmpVa_ne_zero (k : Nat) : tmpVa k ≠ 0 := by
  unfold tmpVa MMAP_KERNEL_TMP_PAGE_BASE
  omega

theorem vaAddr_tmpVa (hk : k < 1024) : vaAddr (tmpVa k) = tmpVa k := by
  rw [vaAddr, pdx_tmpVa hk, ptx_tmpVa hk]
  unfold tmpVa MMAP_KERNEL_TMP_PAGE_BASE
  omega

theorem vaAddr_tmpVa_lt (hk : k < 1024) : vaAddr (tmpVa k) < MMAP_KERNEL_TOP := by
  rw [vaAddr_tmpVa hk]
  unfold tmpVa MMAP_KERNEL_TMP_PAGE_BASE MMAP_KERNEL_TOP
  omega

theorem entry_tmpVa (hk : k < 1024) : s.entry 0 (tmpVa k) = ((s.dirs 0).pgtables 832, k) := by
  rw [entry, pdx_tmpVa hk, ptx_tmpVa hk]

section

variable (A : s.phys.Account N ty L c)

include A

/-- Without an address or a frame nothing happens. -/
theorem tmpPageAllocMapWith_exhausted {ins : Nat → Nat → Nat → Perm → VmM Int}
    (hif : c.ifl = false) (h : Exhausted s L) : tmpPageAllocMapWith ins perm s = .ok (none, s) := by
  unfold tmpPageAllocMapWith
  rw [bind_run (A.assertVm hif)]
  cases hslot : s.tmpPages.findFirstZero (TMP_PAGE_COUNT / 32 * 4) with
  | none =>
    rw [bind_run (tmpPageGet_full A hif hslot)]
    rfl
  | some k =>
    have hfree : L.free = [] := h.resolve_left fun hn => by rw [hslot] at hn; cases hn
    obtain ⟨hk, hclear⟩ := Bitmap.findFirstZero_some hslot
    have hset : (s.tmpPages.set k).test k = true := by rw [Bitmap.test_set]; simp
    have halloc : onPhys pageAlloc { s with tmpPages := s.tmpPages.set k } =
        .ok (none, { s with tmpPages := s.tmpPages.set k }) :=
      onPhys_of_ok (s := { s with tmpPages := s.tmpPages.set k }) (A.pageAlloc_none hif hfree)
    rw [bind_run (tmpPageGet_slot A hif hslot), if_neg (tmpVa_ne_zero k),
      bind_run halloc]
    dsimp only
    rw [bind_run
      (tmpPagePut_apply (s := { s with tmpPages := s.tmpPages.set k }) A hif hk hset)]
    dsimp only
    rw [Bitmap.reset_set hclear]
    rfl

theorem tmpPageAllocMapWith_maps {pde : Nat → Nat → VmM Int} (hc : c.Sane)
    (hif : c.ifl = false) (M : CanMap s L k p rest) :
    ∃ q, tmpPageAllocMapWith (pageInsertWith pde) perm s =
        .ok (some (p, tmpVa k), { s.mapTmp k p perm with phys := q }) ∧ q.Account N ty M.ledger c := by
  have hrefs : L.refs p = 0 := L.unreferenced p (M.free ▸ List.mem_cons_self)
  obtain ⟨q1, halloc, A1⟩ := A.pageAlloc_some hif M.free
  have Sh : Sharable (L.take M.free) p := ⟨M.notMem, by show L.refs p + 1 < 2 ^ 20; omega⟩
  have ht : (s.dirs 0).pgtables (pdx (tmpVa k)) ≠ 0 := by
    rw [pdx_tmpVa M.lt]
    exact M.table
  have habs : (s.pte (s.entry 0 (tmpVa k))).present = false := by
    rw [entry_tmpVa M.lt]
    exact M.clear
  obtain ⟨q, hins, Aq⟩ := pageInsertWith_absent
    (s := { s with tmpPages := s.tmpPages.set k, phys := q1 }) A1 hc (vaAddr_tmpVa_lt M.lt) ht habs Sh
  have hone : (L.take M.free).refs p + 1 = 1 := congrArg (· + 1) hrefs
  have hledger : (L.take M.free).setRefs p ((L.take M.free).refs p + 1) Sh.notMem = M.ledger := by
    simp only [hone]
    rfl
  refine ⟨q, ?_, hledger ▸ Aq⟩
  unfold tmpPageAllocMapWith
  rw [bind_run (A.assertVm hif), bind_run (tmpPageGet_slot A hif M.slot),
    if_neg (tmpVa_ne_zero k),
    bind_run (onPhys_of_ok (s := { s with tmpPages := s.tmpPages.set k }) halloc)]
  dsimp only
  rw [bind_run hins, if_neg (by omega)]
  rfl

theorem tmpPageAllocMap_exhausted (hif : c.ifl = false) (h : Exhausted s L) :
    tmpPageAllocMap perm s = .ok (none, s) := tmpPageAllocMapWith_exhausted A hif h

theorem tmpPageAllocMap_maps (hc : c.Sane) (hif : c.ifl = false) (M : CanMap s L k p rest) :
    ∃ q, tmpPageAllocMap perm s = .ok (some (p, tmpVa k), { s.mapTmp k p perm with phys := q }) ∧
      q.Account N ty M.ledger c := tmpPageAllocMapWith_maps A hc hif M

end

/-! ## `pde_alloc` -/

theorem pdeAlloc_exhausted (A : s.phys.Account N ty L c) (hif : c.ifl = false) (h : Exhausted s L) :
    pdeAlloc d i s = .ok (-ENOMEM, s) := by
  unfold pdeAlloc pdeAllocWith
  rw [bind_run (tmpPageAllocMap_exhausted A hif h)]
  rfl

theorem pdeAlloc_maps (A : s.phys.Account N ty L c) (hc : c.Sane) (hif : c.ifl = false) (M : CanMap s L k t rest) :
    ∃ q, pdeAlloc d i s = .ok (0, { (s.mapTmp k t (PTE_P ||| PTE_W)).setTable d i k t with phys := q }) ∧
      q.Account N ty M.ledger c := by
  obtain ⟨q1, hmap, A1⟩ := tmpPageAllocMap_maps A hc hif M
  obtain ⟨q, hpop, Aq⟩ := Phys.Account.popifVm
    (s := { (s.mapTmp k t (PTE_P ||| PTE_W)).setTable d i k t with phys := { q1 with cpu := q1.cpu.pushcli } })
    (A1.pushcli hc) hc
  refine ⟨q, ?_, Aq⟩
  unfold pdeAlloc pdeAllocWith
  rw [bind_run hmap]
  dsimp only
  rw [va2kaddr_tmpVa M.lt, modify_run, bind_run pushcli_apply,
    modify_run]
  exact (bind_run hpop).trans rfl

/-! ## `page_insert` where there is no page table -/

theorem Exhausted.entered (h : Exhausted s L) : Exhausted s.entered L := h

theorem CanMap.entered (M : CanMap s L k p rest) : CanMap s.entered L k p rest := ⟨M.slot, M.free, M.table, M.clear⟩

theorem pageInsert_exhausted (A : s.phys.Account N ty L c) (hc : c.Sane) (h0 : (s.dirs d).pgtables (pdx va) = 0)
    (h : Exhausted s L) :
    ∃ q, pageInsert d p va perm s = .ok (-ENOMEM, { s with phys := q }) ∧ q.Account N ty L c ∧
      q.pages = s.phys.pages ∧ q.freePageList = s.phys.freePageList := by
  obtain ⟨q, hpop, Aq⟩ := (A.entered hc).popifVm hc
  have hsilent := popif_ok hpop
  refine ⟨q, ?_, Aq, hsilent.pages, hsilent.freePageList⟩
  have hget : pageGetCWith pdeAlloc d va s.entered = .ok (none, s.entered) := by
    have h0' : (s.entered.dirs d).pgtables (pdx va) = 0 := h0
    unfold pageGetCWith
    rw [get_run, if_pos h0', bind_run (pdeAlloc_exhausted (A.entered hc) rfl h.entered),
      if_pos (by decide)]
    rfl
  unfold pageInsert pageInsertWith
  rw [bind_run pushcli_apply, bind_run hget]
  dsimp only
  rw [bind_run hpop]
  rfl

/-- The state in which a page table for `va` has been made. -/
def Vm.withTable (s : Vm) (d va k t : Nat) : Vm := (s.mapTmp k t (PTE_P ||| PTE_W)).setTable d (pdx va) k t

theorem tmpKaddr_ne_zero (k : Nat) : tmpKaddr k ≠ 0 := by
  unfold tmpKaddr
  omega

theorem Vm.setTable_pgtables (e j : Nat) :
    ((s.setTable d i k t).dirs e).pgtables j = if e = d ∧ j = i then tmpKaddr k else (s.dirs e).pgtables j := by
  by_cases he : e = d
  · subst he
    by_cases hj : j = i
    · subst hj
      simp [setTable, setDir]
    · simp [setTable, setDir, hj]
  · simp [setTable, setDir, he]

theorem Vm.mapTmp_pgtables (e j : Nat) : ((s.mapTmp k t perm).dirs e).pgtables j = (s.dirs e).pgtables j :=
  map_pgtables (s := { s with tmpPages := s.tmpPages.set k }) e j

theorem Vm.withTable_pgtables (e j : Nat) :
    ((s.withTable d va k t).dirs e).pgtables j = if e = d ∧ j = pdx va then tmpKaddr k else (s.dirs e).pgtables j := by
  rw [withTable, setTable_pgtables, mapTmp_pgtables]

theorem Vm.withTable_entry : (s.withTable d va k t).entry d va = (tmpKaddr k, ptx va) := by
  rw [entry, withTable_pgtables, if_pos ⟨rfl, rfl⟩]

theorem Vm.withTable_pte_new (j : Nat) : (s.withTable d va k t).pte (tmpKaddr k, j) = ⟨0, 0⟩ := by
  have htab : (s.withTable d va k t).tables (tmpKaddr k) = fun _ => ⟨0, 0⟩ := Function.update_self ..
  rw [pte, htab]

/-- `page_get_c` makes the page table. -/
theorem pageGetC_newTable (A : s.phys.Account N ty L c) (hc : c.Sane) (h0 : (s.dirs d).pgtables (pdx va) = 0)
    (M : CanMap s L k t rest) :
    ∃ q, pageGetCWith pdeAlloc d va s.entered =
        .ok (some ((s.withTable d va k t).entry d va), { s.withTable d va k t with phys := q }) ∧
      q.Account N ty M.ledger c.pushcli := by
  obtain ⟨q, hpde, Aq⟩ := pdeAlloc_maps (d := d) (i := pdx va) (A.entered hc) hc.pushcli rfl M.entered
  have hstate : ({ (s.entered.mapTmp k t (PTE_P ||| PTE_W)).setTable d (pdx va) k t with phys := q } : Vm) =
      { s.withTable d va k t with phys := q } := rfl
  rw [hstate] at hpde
  have hne : (({ s.withTable d va k t with phys := q } : Vm).dirs d).pgtables (pdx va) ≠ 0 := by
    have hkaddr : ((s.withTable d va k t).dirs d).pgtables (pdx va) = tmpKaddr k := congrArg Prod.fst withTable_entry
    show ((s.withTable d va k t).dirs d).pgtables (pdx va) ≠ 0
    rw [hkaddr]
    exact tmpKaddr_ne_zero k
  have h0' : (s.entered.dirs d).pgtables (pdx va) = 0 := h0
  refine ⟨q, ?_, Aq⟩
  unfold pageGetCWith
  rw [get_run, if_pos h0', bind_run hpde, if_neg (by decide)]
  dsimp only
  rw [get_run, ASSERT_lift hne]
  rfl

theorem Vm.withTable_absent : ¬ ((s.withTable d va k t).pte ((s.withTable d va k t).entry d va)).present = true := by
  rw [withTable_entry, withTable_pte_new]
  decide

theorem pageInsert_newTable (A : s.phys.Account N ty L c) (hc : c.Sane) (hva : vaAddr va < MMAP_KERNEL_TOP)
    (h0 : (s.dirs d).pgtables (pdx va) = 0) (M : CanMap s L k t rest) (Sh : Sharable M.ledger p) :
    ∃ q, pageInsert d p va perm s =
        .ok ((M.ledger.refs p + 1 : Nat), { (s.withTable d va k t).map d p va perm with phys := q }) ∧
      q.Account N ty (M.ledger.setRefs p (M.ledger.refs p + 1) Sh.notMem) c := by
  obtain ⟨q1, hget, A1⟩ := pageGetC_newTable A hc h0 M
  obtain ⟨q, htail, Aq⟩ := insertTail (s := { s.withTable d va k t with phys := q1 }) (d := d) A1 hc hva Sh
  refine ⟨q, ?_, Aq⟩
  have hpte : ¬ (({ s.withTable d va k t with phys := q1 } : Vm).pte ((s.withTable d va k t).entry d va)).present = true :=
    withTable_absent
  unfold pageInsert pageInsertWith
  rw [bind_run pushcli_apply, bind_run hget]
  dsimp only
  rw [get_run, if_neg hpte]
  exact htail

/-! ## `tmp_page_free` and `pde_free` -/

/-- The temporary address `k` holds the frame `f`. -/
structure TmpHolds (s : Vm) (k f : Nat) : Prop where
  lt : k < 1024
  bit : s.tmpPages.test k = true
  table : (s.dirs 0).pgtables 832 ≠ 0
  present : (s.tables ((s.dirs 0).pgtables 832) k).present = true
  frame : (s.tables ((s.dirs 0).pgtables 832) k).physPgno = f

theorem TmpHolds.maps (T : TmpHolds s k f) : s.Maps 0 (tmpVa k) f := by
  refine ⟨?_, ?_, ?_⟩
  · rw [pdx_tmpVa T.lt]
    exact T.table
  · rw [entry_tmpVa T.lt]
    exact T.present
  · rw [entry_tmpVa T.lt]
    exact T.frame

theorem tmpPageFree_maps (A : s.phys.Account N ty L c) (hc : c.Sane) (hif : c.ifl = false) (T : TmpHolds s k f)
    (D : Droppable N ty L f) :
    ∃ q, tmpPageFree (tmpVa k) s = .ok ((L.refs f - 1 : Nat), { s.unmapTmp k with phys := q }) ∧
      q.Account N ty (L.drop f D.notMem) c := by
  obtain ⟨q, hrm, Aq⟩ := pageRemove_maps A hc (vaAddr_tmpVa_lt T.lt) T.maps D
  refine ⟨q, ?_, Aq⟩
  have hrange : MMAP_KERNEL_TMP_PAGE_BASE ≤ tmpVa k ∧ tmpVa k < MMAP_KERNEL_TOP :=
    ⟨Nat.le_add_right _ _, vaAddr_tmpVa T.lt ▸ vaAddr_tmpVa_lt T.lt⟩
  unfold tmpPageFree
  rw [bind_run (A.assertVm hif), ASSERT_lift hrange, bind_run hrm, if_pos (by omega),
    bind_run (tmpPagePut_apply (s := { s.unmap 0 (tmpVa k) with phys := q }) Aq hif T.lt T.bit)]
  rfl

/-- `pde_free` of a page table nobody else holds. -/
theorem pdeFree_maps (A : s.phys.Account N ty L c) (hc : c.Sane) (T : TmpHolds s k f) (D : Droppable N ty L f)
    (hrefs : L.refs f = 1) (htab : (s.dirs d).pgtables i = tmpKaddr k) :
    ∃ q, pdeFree d i s = .ok (0, { (s.unmapTmp k).clearTable d i with phys := q }) ∧
      q.Account N ty (L.drop f D.notMem) c := by
  obtain ⟨q1, hfree, A1⟩ := tmpPageFree_maps (s := s.entered) (A.entered hc) hc.pushcli rfl
    ⟨T.lt, T.bit, T.table, T.present, T.frame⟩ D
  obtain ⟨q, hpop, Aq⟩ := Phys.Account.popifVm (s := { (s.unmapTmp k).clearTable d i with phys := q1 }) A1 hc
  refine ⟨q, ?_, Aq⟩
  have hva : kaddr2va ((s.entered.dirs d).pgtables i) = tmpVa k := by
    have hk := T.lt
    show kaddr2va ((s.dirs d).pgtables i) = tmpVa k
    rw [htab]
    unfold kaddr2va add32 tmpKaddr tmpVa MMAP_KERNEL_BASE MMAP_KERNEL_TMP_PAGE_BASE
    omega
  unfold pdeFree
  rw [bind_run pushcli_apply, get_run]
  dsimp only
  rw [hva, bind_run hfree, ASSERT_lift (by omega), modify_run]
  exact (bind_run hpop).trans rfl

end MakarnaX
