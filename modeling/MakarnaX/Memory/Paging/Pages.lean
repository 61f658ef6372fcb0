import MakarnaX.Memory.Frames.Ranges
import MakarnaX.Memory.Paging.Frames

/-!
# What the page functions compute

For each function of `virtual.h` and `virtual.cpp` that maps or unmaps pages, the
state it leaves, written out: `Vm.unmap` and `Vm.map` change one entry of a page
table and one counter, `Vm.newTable` puts an empty page table in place.  The
lemmas say under which conditions a call runs through and that it leaves just
that.  The frames are followed by their ledger.
-/

namespace MakarnaX

open Function Vm

open Library
open Vm (pushcli popif assertIntDisable)

/-! ## Changes of one page -/

/-- The entry for `va`, where there is a page table. -/
def Vm.entry (s : Vm) (d va : Nat) : Nat × Nat := ((s.dirs d).pgtables (pdx va), ptx va)

/-- The counter of the window `va` is in, changed by `f`. -/
def PageDirInfo.countAt (pd : PageDirInfo) (va : Nat) (f : Nat → Nat) : PageDirInfo :=
  { pd with
    countUser := if vaAddr va < MMAP_USER_TOP then f pd.countUser else pd.countUser
    countKernel := if vaAddr va < MMAP_USER_TOP then pd.countKernel else f pd.countKernel }

/-- `va` is no longer mapped. -/
def Vm.unmap (s : Vm) (d va : Nat) : Vm :=
  (s.setPte (s.entry d va) (.ofAddr 0 0)).setDir d (·.countAt va (sub32 · 1))

/-- `va` is mapped to the frame `p`. -/
def Vm.map (s : Vm) (d p va : Nat) (perm : Perm) : Vm :=
  (s.setPte (s.entry d va) (.ofAddr (p * 0x1000) perm)).setDir d (·.countAt va (add32 · 1))

/-- The temporary page `k` holds the frame `p`. -/
def Vm.mapTmp (s : Vm) (k p : Nat) (perm : Perm) : Vm :=
  { s with tmpPages := s.tmpPages.set k }.map 0 p (tmpVa k) perm

/-- The temporary page `k` is free again. -/
def Vm.unmapTmp (s : Vm) (k : Nat) : Vm := { s.unmap 0 (tmpVa k) with tmpPages := s.tmpPages.reset k }

/-- The temporary page `k`, on the frame `p`, becomes a page table of `d`. -/
def Vm.setTable (s : Vm) (d i k p : Nat) : Vm :=
  { s with
    tables := update s.tables (tmpKaddr k) fun _ => ⟨0, 0⟩
    bytes := update s.bytes p fun _ => 0 }.setDir d fun pd =>
    { pd with
      pgdir := update pd.pgdir i (.ofAddr (p * 0x1000) (PTE_P ||| PTE_U ||| PTE_W))
      pgtables := update pd.pgtables i (tmpKaddr k)
      countKernel := add32 pd.countKernel 1 }

/-- The page table of `d` at `i` is gone. -/
def Vm.clearTable (s : Vm) (d i : Nat) : Vm :=
  s.setDir d fun pd =>
    { pd with
      countKernel := sub32 pd.countKernel 1
      pgdir := update pd.pgdir i (pd.pgdir i).setAbsent
      pgtables := update pd.pgtables i 0 }

variable {N : Nat} {ty : Nat → PageType} {s : Vm} {L : Ledger Nat} {c : Cpu} {d va p f k : Nat} {perm : Perm}
  {pde : Nat → Nat → VmM Int}

/-- A reference to the frame can be dropped. -/
structure Droppable (N : Nat) (ty : Nat → PageType) (L : Ledger Nat) (f : Nat) : Prop where
  lt : f < N
  ne : f ≠ 0
  notMem : f ∉ L.free
  pos : 0 < L.refs f
  avail : L.refs f = 1 → ty f = .available

/-- A reference to the frame can be added. -/
structure Sharable (L : Ledger Nat) (p : Nat) : Prop where
  notMem : p ∉ L.free
  small : L.refs p + 1 < 2 ^ 20

theorem onPhys_of_ok {α : Type} {x : PhysM α} {a : α} {q : Phys} (h : x s.phys = .ok (a, q)) :
    onPhys x s = .ok (a, { s with phys := q }) := onPhys_ok.mpr ⟨q, h, rfl⟩

/-- After `pushcli`. -/
def Vm.entered (s : Vm) : Vm := { s with phys := { s.phys with cpu := s.phys.cpu.pushcli } }

theorem Vm.pushcli_apply : pushcli s = .ok ((), s.entered) := rfl

theorem Phys.Account.popifVm (A : s.phys.Account N ty L c.pushcli) (hc : c.Sane) :
    ∃ q : Phys, Vm.popif s = .ok ((), { s with phys := q }) ∧ q.Account N ty L c := by
  obtain ⟨q, hq, Aq⟩ := A.popif hc
  exact ⟨q, onPhys_of_ok hq, Aq⟩

theorem Phys.Account.assertVm (A : s.phys.Account N ty L c) (h : c.ifl = false) : Vm.assertIntDisable s = .ok ((), s) :=
  Vm.assertIntDisable_ok.mpr ⟨A.ifl h, rfl⟩

theorem count_apply {g : Nat → Nat} (h : vaAddr va < MMAP_KERNEL_TOP) :
    count d va g s = .ok ((), s.setDir d (·.countAt va g)) := by
  have hbase : MMAP_USER_BASE ≤ vaAddr va := Nat.zero_le _
  unfold count
  by_cases hu : vaAddr va < MMAP_USER_TOP
  · rw [if_pos ⟨hbase, hu⟩]
    simp [PageDirInfo.countAt, hu]
  · have hk : MMAP_KERNEL_BASE ≤ vaAddr va := Nat.le_of_not_lt hu
    rw [if_neg fun h => hu h.2, if_pos ⟨hk, h⟩]
    simp [PageDirInfo.countAt, hu]

/-! ## `page_remove` -/

/-- Nothing is mapped at `va`. -/
def Vm.Absent (s : Vm) (d va : Nat) : Prop :=
  (s.dirs d).pgtables (pdx va) = 0 ∨ (s.pte (s.entry d va)).present = false

/-- The frame `f` is mapped at `va`. -/
structure Vm.Maps (s : Vm) (d va f : Nat) : Prop where
  table : (s.dirs d).pgtables (pdx va) ≠ 0
  present : (s.pte (s.entry d va)).present = true
  frame : (s.pte (s.entry d va)).physPgno = f

theorem pageGet_table (h : (s.dirs d).pgtables (pdx va) ≠ 0) : pageGet s d va = some (s.entry d va) := if_neg h

theorem pageGet_none (h : (s.dirs d).pgtables (pdx va) = 0) : pageGet s d va = none := if_pos h

section

variable (A : s.phys.Account N ty L c) (hc : c.Sane)

include A hc

theorem Phys.Account.entered : s.entered.phys.Account N ty L c.pushcli :=
  A.pushcli hc

theorem pageRemove_absent (h : s.Absent d va) :
    ∃ q, pageRemove d va s = .ok (-ENOMEM, { s with phys := q }) ∧ q.Account N ty L c := by
  obtain ⟨q, hpop, Aq⟩ := (A.entered hc).popifVm hc
  refine ⟨q, ?_, Aq⟩
  unfold pageRemove
  rw [bind_run pushcli_apply, get_run]
  by_cases h0 : (s.dirs d).pgtables (pdx va) = 0
  · rw [pageGet_none (s := s.entered) h0]
    dsimp only
    rw [bind_run hpop]
    rfl
  · have habs : ¬ (s.entered.pte (s.entered.entry d va)).present = true := by
      show ¬ (s.pte (s.entry d va)).present = true
      rw [h.resolve_left h0]
      exact Bool.false_ne_true
    rw [pageGet_table (s := s.entered) h0]
    dsimp only
    rw [if_neg habs, bind_run hpop]
    rfl

theorem pageDecRefCount_maps (hif : c.ifl = false) (D : Droppable N ty L f) :
    ∃ q, onPhys (pageDecRefCount (f * 0x1000)) s = .ok ((L.refs f - 1 : Nat), { s with phys := q }) ∧
      q.Account N ty (L.drop f D.notMem) c := by
  obtain ⟨q, hdec, Aq⟩ := A.refcountDec hc D.lt D.ne D.notMem D.pos D.avail
  have hidx : pageIndex (f * 0x1000) = f := Nat.mul_div_cancel f (by decide)
  have hround : isRounded (f * 0x1000) := Nat.mul_mod_left f 0x1000
  refine ⟨q, onPhys_of_ok ?_, Aq⟩
  unfold pageDecRefCount
  rw [bind_run (A.assertIntDisable hif), ASSERT_lift hround, hidx]
  exact hdec

theorem pageRemove_maps (hva : vaAddr va < MMAP_KERNEL_TOP) (hm : s.Maps d va f) (D : Droppable N ty L f) :
    ∃ q, pageRemove d va s = .ok ((L.refs f - 1 : Nat), { s.unmap d va with phys := q }) ∧
      q.Account N ty (L.drop f D.notMem) c := by
  obtain ⟨q1, hdec, A1⟩ := pageDecRefCount_maps (A.entered hc) hc.pushcli rfl D
  obtain ⟨q, hpop, Aq⟩ := Phys.Account.popifVm (s := { s.unmap d va with phys := q1 }) A1 hc
  refine ⟨q, ?_, Aq⟩
  have hpres : (s.entered.pte (s.entered.entry d va)).present = true := hm.present
  have haddr : (s.entered.pte (s.entered.entry d va)).physAddr = f * 0x1000 := congrArg (· * 0x1000) hm.frame
  unfold pageRemove
  rw [bind_run pushcli_apply, get_run, pageGet_table (s := s.entered) hm.table]
  dsimp only
  rw [if_pos hpres, haddr, bind_run hdec, modify_run,
    bind_run (count_apply hva)]
  exact (bind_run hpop).trans rfl

end

/-! ## `page_insert` where there is a page table -/

theorem Vm.count_pgtables {g : Nat → Nat} (e i : Nat) :
    ((s.setDir d (·.countAt va g)).dirs e).pgtables i = (s.dirs e).pgtables i := by
  by_cases h : e = d
  · subst h
    simp [setDir, PageDirInfo.countAt]
  · simp [setDir, h]

theorem Vm.unmap_pgtables (e i : Nat) : ((s.unmap d va).dirs e).pgtables i = (s.dirs e).pgtables i :=
  count_pgtables e i

theorem Vm.map_pgtables (e i : Nat) : ((s.map d p va perm).dirs e).pgtables i = (s.dirs e).pgtables i :=
  count_pgtables e i

theorem Vm.unmap_entry (e w : Nat) : (s.unmap d va).entry e w = s.entry e w :=
  congrArg (·, ptx w) (unmap_pgtables e (pdx w))

theorem pageGetCWith_table (h : (s.dirs d).pgtables (pdx va) ≠ 0) :
    pageGetCWith pde d va s = .ok (some (s.entry d va), s) := by
  unfold pageGetCWith
  rw [get_run, if_neg h]
  dsimp only
  rw [get_run, ASSERT_lift h]
  rfl

/-- The end of `page_insert`, when the entry is empty. -/
theorem insertTail (A : s.phys.Account N ty L c.pushcli) (hc : c.Sane) (hva : vaAddr va < MMAP_KERNEL_TOP)
    (Sh : Sharable L p) :
    ∃ q, (do
        let rc ← onPhys (refcountInc p)
        modify fun t => t.setPte (s.entry d va) (.ofAddr (p * 0x1000) perm)
        count d va (add32 · 1)
        popif
        return rc : VmM Int) s = .ok ((L.refs p + 1 : Nat), { s.map d p va perm with phys := q }) ∧
      q.Account N ty (L.setRefs p (L.refs p + 1) Sh.notMem) c := by
  obtain ⟨q1, hinc, A1⟩ := A.refcountInc Sh.notMem Sh.small
  obtain ⟨q, hpop, Aq⟩ := Phys.Account.popifVm (s := { s.map d p va perm with phys := q1 }) A1 hc
  refine ⟨q, ?_, Aq⟩
  rw [bind_run (onPhys_of_ok hinc), modify_run, bind_run (count_apply hva)]
  exact (bind_run hpop).trans rfl

section

variable (A : s.phys.Account N ty L c) (hc : c.Sane) (hva : vaAddr va < MMAP_KERNEL_TOP)

include A hc hva

theorem pageInsertWith_absent (ht : (s.dirs d).pgtables (pdx va) ≠ 0)
    (habs : (s.pte (s.entry d va)).present = false) (Sh : Sharable L p) :
    ∃ q, pageInsertWith pde d p va perm s = .ok ((L.refs p + 1 : Nat), { s.map d p va perm with phys := q }) ∧
      q.Account N ty (L.setRefs p (L.refs p + 1) Sh.notMem) c := by
  obtain ⟨q, htail, Aq⟩ := insertTail (d := d) (A.entered hc) hc hva Sh
  refine ⟨q, ?_, Aq⟩
  have hpte : ¬ (s.entered.pte (s.entered.entry d va)).present = true := by
    show ¬ (s.pte (s.entry d va)).present = true
    rw [habs]
    exact Bool.false_ne_true
  unfold pageInsertWith
  rw [bind_run pushcli_apply, bind_run (pageGetCWith_table (s := s.entered) ht)]
  dsimp only
  rw [get_run, if_neg hpte]
  exact htail

theorem pageInsertWith_maps (hm : s.Maps d va f) (D : Droppable N ty L f) (Sh : Sharable (L.drop f D.notMem) p) :
    ∃ q, pageInsertWith pde d p va perm s =
        .ok (((L.drop f D.notMem).refs p + 1 : Nat), { (s.unmap d va).map d p va perm with phys := q }) ∧
      q.Account N ty ((L.drop f D.notMem).setRefs p ((L.drop f D.notMem).refs p + 1) Sh.notMem) c := by
  obtain ⟨q1, hrm, A1⟩ := pageRemove_maps (s := s.entered) (A.entered hc) hc.pushcli hva
    ⟨hm.table, hm.present, hm.frame⟩ D
  obtain ⟨q, htail, Aq⟩ := insertTail (s := { s.unmap d va with phys := q1 }) (d := d) A1 hc hva Sh
  refine ⟨q, ?_, Aq⟩
  have hent : ({ s.unmap d va with phys := q1 } : Vm).entry d va = s.entered.entry d va := unmap_entry d va
  rw [hent] at htail
  have hpte : (s.entered.pte (s.entered.entry d va)).present = true := hm.present
  unfold pageInsertWith
  rw [bind_run pushcli_apply,
    bind_run (pageGetCWith_table (s := s.entered) hm.table)]
  dsimp only
  rw [get_run, if_pos hpte, bind_run hrm, ASSERT_lift (by omega)]
  exact htail

end

/-! ## Reading the changed state -/

theorem Vm.unmap_pte (e : Nat × Nat) : (s.unmap d va).pte e = if e = s.entry d va then .ofAddr 0 0 else s.pte e :=
  Owned.setPte_pte ..

theorem Vm.map_pte (e : Nat × Nat) :
    (s.map d p va perm).pte e = if e = s.entry d va then .ofAddr (p * 0x1000) perm else s.pte e :=
  Owned.setPte_pte ..

theorem Vm.map_entry (e w : Nat) : (s.map d p va perm).entry e w = s.entry e w :=
  congrArg (·, ptx w) (map_pgtables e (pdx w))

theorem Vm.unmap_dirs (e : Nat) :
    (s.unmap d va).dirs e = if e = d then (s.dirs d).countAt va (sub32 · 1) else s.dirs e := by
  unfold unmap setDir
  by_cases h : e = d
  · simp [h, setPte]
  · simp [h, setPte]

theorem Vm.map_dirs (e : Nat) :
    (s.map d p va perm).dirs e = if e = d then (s.dirs d).countAt va (add32 · 1) else s.dirs e := by
  unfold map setDir
  by_cases h : e = d
  · simp [h, setPte]
  · simp [h, setPte]

end MakarnaX
