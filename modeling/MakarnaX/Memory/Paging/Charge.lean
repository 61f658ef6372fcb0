import Mathlib.Data.ZMod.Basic
import MakarnaX.Memory.Paging.Release
import MakarnaX.Memory.Paging.SegmentFree

/-!
# What the counters are charged

The counters of a directory are words.  As elements of the integers modulo `2 ^ 32`
they change by the same amount when a page or a page table is added and when it is
taken away again, whatever they were before.
-/

namespace MakarnaX

open Function

variable {s : Vm} {d va p k t i e : Nat} {perm : Perm} {q : Phys}

def wordSize : Nat := 2 ^ 32

/-- `count_user` and `count_kernel`. -/
abbrev Counters : Type := ZMod wordSize × ZMod wordSize

/-- The counters of `e`. -/
def Vm.charge (s : Vm) (e : Nat) : Counters := ((s.dirs e).countUser, (s.dirs e).countKernel)

/-- What a page at `va` is counted as. -/
def pageCharge (va : Nat) : Counters := if vaAddr va < MMAP_USER_TOP then (1, 0) else (0, 1)

/-- What a page table of `d` is counted as in `e`: it is a page of the directory,
and a temporary page of `kernel_dir`. -/
def tableCharge (d e : Nat) : Counters := (if e = 0 then (0, 1) else 0) + if e = d then (0, 1) else 0

theorem cast_add32_one (n : Nat) : ((add32 n 1 : Nat) : ZMod wordSize) = n + 1 := by
  have h : add32 n 1 = (n + 1) % wordSize := rfl
  rw [h, ZMod.natCast_mod, Nat.cast_add, Nat.cast_one]

theorem cast_sub32_one (n : Nat) : ((sub32 n 1 : Nat) : ZMod wordSize) = n - 1 := by
  have h : ((sub32 n 1 + 1 : Nat) : ZMod wordSize) = (n : Nat) := (ZMod.natCast_eq_natCast_iff' ..).mpr (sub32_add_one n)
  rw [Nat.cast_add, Nat.cast_one] at h
  exact eq_sub_of_add_eq h

namespace Vm

theorem charge_map (d p va : Nat) (perm : Perm) (e : Nat) :
    (s.map d p va perm).charge e = s.charge e + if e = d then pageCharge va else 0 := by
  unfold charge
  rw [map_dirs]
  by_cases h : e = d
  · subst h
    unfold PageDirInfo.countAt pageCharge
    by_cases hu : vaAddr va < MMAP_USER_TOP
    · simp [hu, cast_add32_one]
    · simp [hu, cast_add32_one]
  · simp [h]

theorem charge_unmap (d va e : Nat) : (s.unmap d va).charge e = s.charge e - if e = d then pageCharge va else 0 := by
  unfold charge
  rw [unmap_dirs]
  by_cases h : e = d
  · subst h
    unfold PageDirInfo.countAt pageCharge
    by_cases hu : vaAddr va < MMAP_USER_TOP
    · simp only [if_true, hu, cast_sub32_one, Prod.mk_sub_mk, sub_zero]
    · simp only [if_true, if_false, hu, cast_sub32_one, Prod.mk_sub_mk, sub_zero]
  · simp [h]

theorem pageCharge_tmpVa {k : Nat} (hk : k < 1024) : pageCharge (tmpVa k) = (0, 1) := by
  rw [pageCharge, vaAddr_tmpVa hk, if_neg]
  unfold tmpVa MMAP_KERNEL_TMP_PAGE_BASE MMAP_USER_TOP
  omega

theorem charge_withTable (hk : k < 1024) (d va t e : Nat) :
    (s.withTable d va k t).charge e = s.charge e + tableCharge d e := by
  have htmp : (s.mapTmp k t (PTE_P ||| PTE_W)).charge e = s.charge e + if e = 0 then (0, 1) else 0 := by
    have h := charge_map (s := { s with tmpPages := s.tmpPages.set k }) 0 t (tmpVa k) (PTE_P ||| PTE_W) e
    rw [pageCharge_tmpVa hk] at h
    exact h
  have hset : (s.withTable d va k t).charge e =
      (s.mapTmp k t (PTE_P ||| PTE_W)).charge e + if e = d then (0, 1) else 0 := by
    unfold withTable setTable setDir charge
    by_cases h : e = d
    · subst h
      simp [cast_add32_one]
    · simp [h]
  rw [hset, htmp, tableCharge, add_assoc]

theorem charge_clearTable (hk : k < 1024) (d i e : Nat) :
    ((s.unmapTmp k).clearTable d i).charge e = s.charge e - tableCharge d e := by
  have htmp : (s.unmapTmp k).charge e = s.charge e - if e = 0 then (0, 1) else 0 := by
    have h := charge_unmap (s := s) 0 (tmpVa k) e
    rw [pageCharge_tmpVa hk] at h
    exact h
  have hclear : ((s.unmapTmp k).clearTable d i).charge e = (s.unmapTmp k).charge e - if e = d then (0, 1) else 0 := by
    unfold clearTable setDir charge
    by_cases h : e = d
    · subst h
      simp only [if_true, update_self, cast_sub32_one, Prod.mk_sub_mk, sub_zero]
    · simp [h]
  rw [hclear, htmp, tableCharge, sub_sub]

/-- The counters are words. -/
def Words (s : Vm) : Prop := ∀ e, (s.dirs e).countUser < wordSize ∧ (s.dirs e).countKernel < wordSize

theorem Words.eq {s' : Vm} (h : s.Words) (h' : s'.Words) (hc : s'.charge e = s.charge e) :
    (s'.dirs e).countUser = (s.dirs e).countUser ∧ (s'.dirs e).countKernel = (s.dirs e).countKernel := by
  have hu : ((s'.dirs e).countUser : ZMod wordSize) = (s.dirs e).countUser := congrArg Prod.fst hc
  have hk : ((s'.dirs e).countKernel : ZMod wordSize) = (s.dirs e).countKernel := congrArg Prod.snd hc
  rw [ZMod.natCast_eq_natCast_iff'] at hu hk
  rw [Nat.mod_eq_of_lt (h' e).1, Nat.mod_eq_of_lt (h e).1] at hu
  rw [Nat.mod_eq_of_lt (h' e).2, Nat.mod_eq_of_lt (h e).2] at hk
  exact ⟨hu, hk⟩

theorem add32_lt (n m : Nat) : add32 n m < wordSize := Nat.mod_lt _ (Nat.two_pow_pos 32)

theorem sub32_lt (n m : Nat) : sub32 n m < wordSize := Nat.mod_lt _ (Nat.two_pow_pos 32)

/-- A counter that changes is a word. -/
theorem Words.countAt {pd : PageDirInfo} {g : Nat → Nat} (hg : ∀ n, g n < wordSize)
    (h : pd.countUser < wordSize ∧ pd.countKernel < wordSize) :
    (pd.countAt va g).countUser < wordSize ∧ (pd.countAt va g).countKernel < wordSize := by
  unfold PageDirInfo.countAt
  by_cases hu : vaAddr va < MMAP_USER_TOP
  · simp only [if_pos hu]
    exact ⟨hg _, h.2⟩
  · simp only [if_neg hu]
    exact ⟨h.1, hg _⟩

theorem Words.setDir {g : PageDirInfo → PageDirInfo} (h : s.Words)
    (hg : (g (s.dirs d)).countUser < wordSize ∧ (g (s.dirs d)).countKernel < wordSize) : (s.setDir d g).Words := fun e => by
  by_cases he : e = d
  · subst he
    have hdir : (s.setDir e g).dirs e = g (s.dirs e) := update_self ..
    rw [hdir]
    exact hg
  · have hdir : (s.setDir d g).dirs e = s.dirs e := update_of_ne he ..
    rw [hdir]
    exact h e

theorem Words.map (h : s.Words) (p : Nat) (perm : Perm) : (s.map d p va perm).Words :=
  Words.setDir h (Words.countAt (fun n => add32_lt n 1) (h d))

theorem Words.unmap (h : s.Words) : (s.unmap d va).Words :=
  Words.setDir h (Words.countAt (fun n => sub32_lt n 1) (h d))

theorem Words.withTable (h : s.Words) : (s.withTable d va k t).Words := by
  have htmp : (s.mapTmp k t (PTE_P ||| PTE_W)).Words := Words.map (s := { s with tmpPages := s.tmpPages.set k }) h _ _
  unfold Vm.withTable Vm.setTable
  exact Words.setDir (s := { s.mapTmp k t (PTE_P ||| PTE_W) with tables := _, bytes := _ }) htmp ⟨(htmp d).1, add32_lt ..⟩

theorem Words.clearTable (h : s.Words) : ((s.unmapTmp k).clearTable d i).Words := by
  have htmp : (s.unmapTmp k).Words := Words.unmap h
  exact Words.setDir htmp ⟨(htmp d).1, sub32_lt ..⟩

end Vm

end MakarnaX
