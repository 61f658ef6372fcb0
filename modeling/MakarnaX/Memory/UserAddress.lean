import MakarnaX.Memory.Virtual

/-!
# User addresses

System calls check the buffers they are given with `verify_user_addr`, mostly
through `user_to_kernel_check`.  The check walks over the buffer in steps of a
page.  Two things are wrong with it.  The end of the buffer is computed in 32
bits, so that a buffer that runs over the end of the address space can pass.
And its test of the permissions, `perm & !(pte->perm() & perm)`, negates with
`!` where `~` is meant: `verifyPages_eq_zero` says that the check passes for
exactly the present pages, whatever `perm` asks for.
-/

namespace MakarnaX

open Vm

/-! ## The check -/

/-- C's `!`. -/
def lnot (x : Perm) : Perm := if x = 0 then 1 else 0

/-- The loop of `verify_user_addr`. -/
def verifyPages (s : Vm) (d : Nat) (perm : Perm) : List Nat → Int
  | [] => 0
  | i :: rest =>
    match pageGet s d i with
    | none => -1
    | some pte =>
      if ¬ (s.pte pte).present ∨ perm &&& lnot ((s.pte pte).perm &&& perm) ≠ 0 then -1
      else verifyPages s d perm rest

/-- `verify_user_addr`. -/
def verifyUserAddr (s : Vm) (d addr len : Nat) (perm : Perm) : Int :=
  let va := uaddr2va addr
  if va ≥ MMAP_USER_TOP ∨ add32 va len > MMAP_USER_TOP then -1
  else if va < MMAP_USER_BASE ∨ add32 va len < MMAP_USER_BASE then -1
  -- the loop ends at `MMAP_USER_TOP`, long before `i` wraps
  else verifyPages s d perm (pageSteps va (roundUp (add32 va len)))

/-- `user_to_kernel_check` for the directory `d` of the current task: a kernel
address, or `do_exit(111)`. -/
def userToKernelCheck (s : Vm) (d base limit : Nat) (rw : Bool) : Except Nat Nat :=
  let perm := if rw then PTE_W ||| PTE_U else PTE_U
  if verifyUserAddr s d base limit perm < 0 then .error 111
  else .ok (uaddr2kaddr base)

/-! ## What it accepts -/

namespace Vm

/-- The directory `d` maps the page of `va`. -/
def presentAt (s : Vm) (d va : Nat) : Bool := (pageGet s d va).any fun e => (s.pte e).present

/-- The directory `d` maps the page of `va`, with all of `perm`. -/
def allows (s : Vm) (d va : Nat) (perm : Perm) : Bool :=
  (pageGet s d va).any fun e => (s.pte e).present && ((s.pte e).perm &&& perm == perm)

variable {s : Vm} {d x y : Nat} {perm : Perm}

theorem pageGet_congr (h : x / 0x1000 = y / 0x1000) : pageGet s d x = pageGet s d y := by
  have hp : pdx x = pdx y := by unfold pdx; omega
  have ht : ptx x = ptx y := by unfold ptx; omega
  simp only [pageGet, hp, ht]

theorem presentAt_of_allows (h : s.allows d x perm) : s.presentAt d x := by
  unfold allows at h
  unfold presentAt
  cases he : pageGet s d x with
  | none => simp [he] at h
  | some e =>
    simp only [he, Option.any_some, Bool.and_eq_true] at h ⊢
    exact h.1

end Vm

variable {s : Vm} {d addr len : Nat} {perm : Perm}

/-- A present entry has bit 0 set, so `pte->perm() & perm` is 0 only if `perm`
does not have it, and then neither does `perm & 1`. -/
theorem and_lnot_perm {e : PTE} (he : e.present = true) : perm &&& lnot (e.perm &&& perm) = 0 := by
  unfold lnot
  split
  · rename_i hz
    have hbit : (e.perm &&& perm).getLsbD 0 = false := by rw [hz]; simp
    have hflag : e.perm.getLsbD 0 = true := by
      simpa [PTE.perm, PTE.present] using he
    rw [BitVec.getLsbD_and, hflag, Bool.true_and] at hbit
    refine BitVec.eq_of_getLsbD_eq fun i hi => ?_
    cases i with
    | zero =>
      rw [BitVec.getLsbD_and, hbit, Bool.false_and]
      rfl
    | succ i => simp
  · simp

theorem verifyPages_eq_zero {is : List Nat} :
    verifyPages s d perm is = 0 ↔ ∀ i ∈ is, s.presentAt d i = true := by
  induction is with
  | nil => simp [verifyPages]
  | cons i is ih =>
    rw [List.forall_mem_cons, ← ih, verifyPages, presentAt]
    cases pageGet s d i with
    | none => simp
    | some e =>
      cases he : (s.pte e).present with
      | false => simp [he]
      | true => simp [he, and_lnot_perm he]

/-- The check, without its loop. -/
theorem verifyUserAddr_eq_zero :
    verifyUserAddr s d addr len perm = 0 ↔
      uaddr2va addr < MMAP_USER_TOP ∧ add32 (uaddr2va addr) len ≤ MMAP_USER_TOP ∧
        ∀ i ∈ pageSteps (uaddr2va addr) (roundUp (add32 (uaddr2va addr) len)),
          s.presentAt d i = true := by
  have hbase : ¬(uaddr2va addr < MMAP_USER_BASE ∨ add32 (uaddr2va addr) len < MMAP_USER_BASE) := by
    unfold MMAP_USER_BASE
    omega
  rw [← (verifyPages_eq_zero : verifyPages s d perm _ = 0 ↔ _)]
  simp only [verifyUserAddr]
  rw [if_neg hbase]
  split
  · simp only [reduceCtorEq, false_iff]
    omega
  · rename_i h
    exact ⟨fun hv => ⟨by omega, by omega, hv⟩, fun hv => hv.2.2⟩

theorem roundUp_eq {x : Nat} (hx : x ≤ MMAP_USER_TOP) : roundUp x = (x + 0xFFF) / 0x1000 * 0x1000 := by
  unfold MMAP_USER_TOP at hx
  rw [roundUp, roundDown, add32, Nat.mod_eq_of_lt (by omega)]

/-- The loop visits the pages of a buffer that is not empty, and no others. -/
theorem forall_pageSteps {va : Nat} {Q : Nat → Prop} (hlen : 0 < len) (h : va + len ≤ MMAP_USER_TOP)
    (hQ : ∀ x y, x / 0x1000 = y / 0x1000 → Q x → Q y) :
    (∀ i ∈ pageSteps va (roundUp (va + len)), Q i) ↔ ∀ x, va ≤ x → x < va + len → Q x := by
  rw [roundUp_eq h]
  simp only [mem_pageSteps]
  constructor
  · intro hall x hx hx'
    refine hQ (va + (x / 0x1000 - va / 0x1000) * 0x1000) x (by omega) (hall _ ⟨by omega, _, rfl⟩)
  · rintro hall i ⟨hi, k, rfl⟩
    cases k with
    | zero => exact hQ va _ (by omega) (hall va (by omega) (by omega))
    | succ k =>
      exact hQ ((va + (k + 1) * 0x1000) / 0x1000 * 0x1000) _ (by omega)
        (hall _ (by omega) (by omega))

theorem Vm.presentAt_congr {x y : Nat} (h : x / 0x1000 = y / 0x1000) :
    s.presentAt d x = s.presentAt d y := by
  rw [presentAt, presentAt, pageGet_congr h]

theorem uaddr2va_lt : uaddr2va addr < 2 ^ 32 := Nat.mod_lt _ (by decide)

/-- A buffer inside the user window is accepted if its pages are present.  Of an
empty buffer the page of its address is checked, unless it starts there. -/
theorem verifyUserAddr_window (h : uaddr2va addr + len ≤ MMAP_USER_TOP) :
    verifyUserAddr s d addr len perm = 0 ↔
      if 0 < len then ∀ x, uaddr2va addr ≤ x → x < uaddr2va addr + len → s.presentAt d x = true
      else uaddr2va addr < MMAP_USER_TOP ∧
        (uaddr2va addr % 0x1000 = 0 ∨ s.presentAt d (uaddr2va addr) = true) := by
  have hadd : add32 (uaddr2va addr) len = uaddr2va addr + len :=
    Nat.mod_eq_of_lt (by unfold MMAP_USER_TOP at h; omega)
  rw [verifyUserAddr_eq_zero, hadd]
  split
  · rename_i hlen
    have hva : uaddr2va addr < MMAP_USER_TOP := by omega
    rw [forall_pageSteps hlen h fun x y hxy => by rw [presentAt_congr hxy]; exact id]
    exact ⟨fun hv => hv.2.2, fun hv => ⟨hva, h, hv⟩⟩
  · rename_i hlen
    obtain rfl : len = 0 := by omega
    have hsteps : ∀ i, i ∈ pageSteps (uaddr2va addr) (roundUp (uaddr2va addr + 0)) ↔
        i = uaddr2va addr ∧ ¬uaddr2va addr % 0x1000 = 0 := by
      intro i
      rw [roundUp_eq h, mem_pageSteps]
      constructor
      · rintro ⟨hi, k, rfl⟩
        omega
      · rintro ⟨rfl, hm⟩
        exact ⟨by omega, 0, by omega⟩
    simp only [hsteps]
    constructor
    · rintro ⟨hva, -, hall⟩
      by_cases hm : uaddr2va addr % 0x1000 = 0
      · exact ⟨hva, .inl hm⟩
      · exact ⟨hva, .inr (hall _ ⟨rfl, hm⟩)⟩
    · rintro ⟨hva, hor⟩
      refine ⟨hva, by omega, ?_⟩
      rintro i ⟨rfl, hm⟩
      exact hor.resolve_left hm

/-! ## Confinement -/

/-- Every byte of the buffer, counted without wrapping around, is in the user
window and on a page that is present. -/
def Confined (s : Vm) (d addr len : Nat) : Prop :=
  ∀ x, uaddr2va addr ≤ x → x < uaddr2va addr + len →
    MMAP_USER_BASE ≤ x ∧ x < MMAP_USER_TOP ∧ s.presentAt d x = true

/-- Where the buffer wraps around, only the page of its address may be checked. -/
theorem verifyUserAddr_wraps (hlen : len < 2 ^ 32) (hwrap : 2 ^ 32 ≤ uaddr2va addr + len) :
    verifyUserAddr s d addr len perm = 0 ↔
      uaddr2va addr < MMAP_USER_TOP ∧ add32 (uaddr2va addr) len ≤ MMAP_USER_TOP ∧
        (uaddr2va addr < roundUp (add32 (uaddr2va addr) len) →
          s.presentAt d (uaddr2va addr) = true) := by
  have hva : uaddr2va addr < 2 ^ 32 := uaddr2va_lt
  have hend : add32 (uaddr2va addr) len < uaddr2va addr := by
    unfold add32
    omega
  rw [verifyUserAddr_eq_zero]
  refine and_congr_right fun _ => and_congr_right fun htop => ?_
  rw [roundUp_eq htop]
  constructor
  · intro hall hlt
    exact hall _ (mem_pageSteps.mpr ⟨hlt, 0, by omega⟩)
  · intro himp i hi
    obtain ⟨hi, k, rfl⟩ := mem_pageSteps.mp hi
    obtain rfl : k = 0 := by omega
    rw [Nat.zero_mul, Nat.add_zero]
    exact himp (by omega)

/-- `verify_user_addr` confines a buffer exactly if the buffer does not wrap
around the address space, or is refused nevertheless. -/
theorem verify_user_addr_confines_iff (s : Vm) (d addr len : Nat) (perm : Perm) (hlen : len < 2 ^ 32) :
    (verifyUserAddr s d addr len perm = 0 → Confined s d addr len) ↔
      uaddr2va addr + len < 2 ^ 32 ∨ MMAP_USER_TOP ≤ uaddr2va addr ∨
        MMAP_USER_TOP < add32 (uaddr2va addr) len ∨
        (uaddr2va addr < roundUp (add32 (uaddr2va addr) len) ∧
          s.presentAt d (uaddr2va addr) = false) := by
  by_cases hwrap : 2 ^ 32 ≤ uaddr2va addr + len
  · rw [verifyUserAddr_wraps hlen hwrap]
    -- a buffer that wraps around contains the byte at the top of the window
    have hnot : uaddr2va addr < MMAP_USER_TOP → ¬Confined s d addr len := by
      intro hva hc
      have htop := hc MMAP_USER_TOP (by omega) (by unfold MMAP_USER_TOP at *; omega)
      omega
    constructor
    · intro himp
      by_contra hcon
      rw [not_or, not_or, not_or, not_and, Bool.not_eq_false] at hcon
      obtain ⟨-, hva, htop, hpage⟩ := hcon
      exact hnot (by omega) (himp ⟨by omega, by omega, hpage⟩)
    · rintro hor ⟨hva, htop, hpage⟩
      rcases hor with h | h | h | ⟨hlt, habs⟩
      · omega
      · omega
      · omega
      · rw [hpage hlt] at habs
        cases habs
  · refine ⟨fun _ => .inl (by omega), fun _ hv => ?_⟩
    have hadd : add32 (uaddr2va addr) len = uaddr2va addr + len := Nat.mod_eq_of_lt (by omega)
    have hv' := verifyUserAddr_eq_zero.mp hv
    rw [hadd] at hv'
    rw [verifyUserAddr_window hv'.2.1] at hv
    intro x hx hx'
    rw [if_pos (by omega)] at hv
    exact ⟨Nat.zero_le x, by omega, hv x hx hx'⟩

theorem verify_user_addr_confines_iff_small :
    (verifyUserAddr empty 0 0x1000 0x10 PTE_U = 0 → Confined empty 0 0x1000 0x10) ↔
      uaddr2va 0x1000 + 0x10 < 2 ^ 32 ∨ MMAP_USER_TOP ≤ uaddr2va 0x1000 ∨
        MMAP_USER_TOP < add32 (uaddr2va 0x1000) 0x10 ∨
        (uaddr2va 0x1000 < roundUp (add32 (uaddr2va 0x1000) 0x10) ∧
          empty.presentAt 0 (uaddr2va 0x1000) = false) :=
  verify_user_addr_confines_iff empty 0 0x1000 0x10 PTE_U (by decide)

/-- With the length -1 at the second page, the end of the buffer wraps around to
just below its start: no page is checked. -/
theorem verify_user_addr_accepts_wrapped :
    verifyUserAddr empty 0 0x1000 0xFFFFFFFF PTE_U = 0 ∧
      ¬Confined empty 0 0x1000 0xFFFFFFFF := by
  refine ⟨by decide, fun hc => ?_⟩
  have h := hc 0x1000 (by decide) (by decide)
  exact absurd h.2.2 (by decide)

/-! ## Permissions -/

/-- What the check is for: every page of the buffer is present and has all of `perm`. -/
def Permitted (s : Vm) (d addr len : Nat) (perm : Perm) : Prop :=
  ∀ x, uaddr2va addr ≤ x → x < uaddr2va addr + len → s.allows d x perm = true

/-- In the user window `verify_user_addr` decides the permissions exactly if they
do not matter: a page is missing or all of them have the bits of `perm`; and for
an empty buffer, if its address is at a page boundary or on a present page. -/
theorem verify_user_addr_permits_iff (s : Vm) (d addr len : Nat) (perm : Perm)
    (h : uaddr2va addr + len ≤ MMAP_USER_TOP) :
    (verifyUserAddr s d addr len perm = 0 ↔ Permitted s d addr len perm) ↔
      (0 < len ∧
        ((∃ x, uaddr2va addr ≤ x ∧ x < uaddr2va addr + len ∧ s.presentAt d x = false) ∨
          ∀ x, uaddr2va addr ≤ x → x < uaddr2va addr + len → s.allows d x perm = true)) ∨
      (len = 0 ∧ uaddr2va addr < MMAP_USER_TOP ∧
        (uaddr2va addr % 0x1000 = 0 ∨ s.presentAt d (uaddr2va addr) = true)) := by
  rw [verifyUserAddr_window h]
  by_cases hlen : 0 < len
  · rw [if_pos hlen]
    constructor
    · intro hiff
      refine .inl ⟨hlen, ?_⟩
      by_cases hall : ∀ x, uaddr2va addr ≤ x → x < uaddr2va addr + len → s.presentAt d x = true
      · exact .inr (hiff.mp hall)
      · push Not at hall
        obtain ⟨x, hx, hx', hp⟩ := hall
        exact .inl ⟨x, hx, hx', by simpa using hp⟩
    · rintro (⟨-, ⟨x, hx, hx', hp⟩ | hall⟩ | ⟨h0, -⟩)
      · constructor
        · intro hpres
          rw [hpres x hx hx'] at hp
          cases hp
        · intro hperm
          rw [presentAt_of_allows (hperm x hx hx')] at hp
          cases hp
      · exact ⟨fun _ => hall, fun _ x hx hx' => presentAt_of_allows (hall x hx hx')⟩
      · omega
  · rw [if_neg hlen]
    have hperm : Permitted s d addr len perm := fun x hx hx' => by omega
    constructor
    · intro hiff
      exact .inr ⟨by omega, hiff.mpr hperm⟩
    · rintro (⟨hpos, -⟩ | ⟨-, hpage⟩)
      · omega
      · exact ⟨fun _ => hperm, fun _ => hpage⟩

/-- A directory with one page, at address 0, that the user may read but not write. -/
def Vm.readOnly : Vm :=
  { empty with
    dirs := fun _ => { PageDirInfo.zero with pgtables := fun _ => 0x1000 }
    tables := fun _ _ => .ofAddr 0x5000 (PTE_P ||| PTE_U) }

theorem verify_user_addr_permits_iff_read :
    (verifyUserAddr readOnly 0 0 4 PTE_U = 0 ↔ Permitted readOnly 0 0 4 PTE_U) ↔
      (0 < 4 ∧
        ((∃ x, uaddr2va 0 ≤ x ∧ x < uaddr2va 0 + 4 ∧ readOnly.presentAt 0 x = false) ∨
          ∀ x, uaddr2va 0 ≤ x → x < uaddr2va 0 + 4 → readOnly.allows 0 x PTE_U = true)) ∨
      (4 = 0 ∧ uaddr2va 0 < MMAP_USER_TOP ∧
        (uaddr2va 0 % 0x1000 = 0 ∨ readOnly.presentAt 0 (uaddr2va 0) = true)) :=
  verify_user_addr_permits_iff readOnly 0 0 4 PTE_U (by decide)

/-- A page without `PTE_W` is accepted for writing. -/
theorem user_to_kernel_check_accepts_read_only :
    verifyUserAddr readOnly 0 0 4 (PTE_W ||| PTE_U) = 0 ∧
      userToKernelCheck readOnly 0 0 4 true = .ok (uaddr2kaddr 0) ∧
      ¬Permitted readOnly 0 0 4 (PTE_W ||| PTE_U) := by
  refine ⟨by decide, by decide, fun hp => ?_⟩
  exact absurd (hp 0 (by decide) (by decide)) (by decide)

end MakarnaX
