import MakarnaX.Fs.Denemefs.Model

/-!
# What a directory block says

A block is read as `n` slots, each with an inode number and a name.  The struct
has room for 56 slots and each name for 31 bytes; a block that keeps to that is
well formed (`WF`).  On a well-formed block the loops of the source compare names,
`add` appends a slot and `clear` empties one, and neither touches another slot.
-/

namespace MakarnaX.Denemefs.Subdentry

open Library Mem

variable {sd : Mem} {name : CString} {i j ino : Nat}

/-- `name[i]`. -/
def nameOf (sd : Mem) (i : Nat) : CString := sd.cstr (nameAt i) 32

/-- Every slot is one of the struct, and its name ends in it. -/
structure WF (sd : Mem) : Prop where
  count : n sd ≤ denemeSubdentryCount
  ends : ∀ i, i < n sd → sd.Terminated (nameAt i) 32

/-! ## Searching -/

theorem strEq_nameAt (W : WF sd) (hi : i < n sd) (name : CString) :
    sd.strEq (nameAt i) name.bytes = decide (nameOf sd i = name) :=
  strEq_cstr (W.ends i hi)

/-- The loop stops at the first slot with the name. -/
theorem slot_eq_some (W : WF sd) :
    slot sd name = some i ↔ i < n sd ∧ nameOf sd i = name ∧ ∀ j, j < i → nameOf sd j ≠ name := by
  unfold slot
  rw [List.find?_range_eq_some]
  constructor
  · rintro ⟨he, hi, hj⟩
    rw [List.mem_range] at hi
    rw [strEq_nameAt W hi, decide_eq_true_eq] at he
    refine ⟨hi, he, fun j hji hn => ?_⟩
    have := hj j hji
    simp [strEq_nameAt W (Nat.lt_trans hji hi), hn] at this
  · rintro ⟨hi, he, hj⟩
    refine ⟨by simp [strEq_nameAt W hi, he], List.mem_range.mpr hi, fun j hji => ?_⟩
    simp [strEq_nameAt W (Nat.lt_trans hji hi), hj j hji]

theorem slot_eq_none (W : WF sd) : slot sd name = none ↔ ∀ i, i < n sd → nameOf sd i ≠ name := by
  unfold slot
  simp only [List.find?_eq_none, List.mem_range]
  refine forall_congr' fun i => forall_congr' fun hi => ?_
  rw [strEq_nameAt W hi]
  simp

/-! ## Adding -/

theorem n_lt (W : WF sd) : n sd < 2 ^ 32 - 1 := by
  have := W.count
  unfold denemeSubdentryCount at this
  omega

/-- A word of `no` is not the count. -/
theorem n_write32_noAt (sd : Mem) (i v : Nat) : n (sd.write32 (noAt i) v) = n sd :=
  read32_ne _ _ (.inr (by unfold noAt; omega))

/-- The parts of the struct that `add` leaves alone. -/
theorem add_apply {x : Nat} (hx : 4 ≤ x) (hno : x < noAt (n sd) ∨ noAt (n sd) + 4 ≤ x)
    (hname : x < nameAt (n sd) ∨ nameAt (n sd) + name.length < x) : add sd name ino x = sd x := by
  unfold add
  dsimp only
  rw [write32_apply _ _ (.inr hx), n_write32_noAt, strcpy_apply hname, write32_apply _ _ hno]

theorem n_add (W : WF sd) : n (add sd name ino) = n sd + 1 := by
  have hc : n ((sd.write32 (noAt (n sd)) ino).strcpy (nameAt (n sd)) name.bytes) = n sd := by
    refine (read32_congr fun x _ hx => strcpy_apply (.inl ?_)).trans (n_write32_noAt sd _ ino)
    unfold nameAt
    omega
  have := n_lt W
  unfold add
  dsimp only
  rw [n_write32_noAt, hc]
  exact read32_self _ _ (by omega)

theorem no_add_self (hfull : n sd < denemeSubdentryCount) (hino : ino < 2 ^ 32) :
    no (add sd name ino) (n sd) = ino := by
  unfold add no
  dsimp only
  rw [n_write32_noAt]
  -- the word was written first, and nothing behind it reaches it
  have h0 : ∀ x, noAt (n sd) ≤ x → x < noAt (n sd) + 4 →
      ((sd.write32 (noAt (n sd)) ino).strcpy (nameAt (n sd)) name.bytes).write32 0
        (n ((sd.write32 (noAt (n sd)) ino).strcpy (nameAt (n sd)) name.bytes) + 1) x =
      sd.write32 (noAt (n sd)) ino x := by
    intro x hx hx'
    unfold noAt at hx hx'
    unfold denemeSubdentryCount at hfull
    rw [write32_apply _ _ (.inr (by omega)),
      strcpy_apply (.inl (by unfold nameAt denemeSubdentryCount; omega))]
  rw [read32_congr h0]
  exact read32_self _ _ hino

theorem no_add_ne (W : WF sd) (hi : i < n sd) : no (add sd name ino) i = no sd i := by
  have hc := W.count
  unfold denemeSubdentryCount at hc
  refine read32_congr fun x hx hx' => add_apply ?_ ?_ ?_
  all_goals
    unfold noAt at *
    try unfold nameAt denemeSubdentryCount
    omega

/-- The array `name[n]` after `add`: what `strcpy` has put there. -/
theorem nameOf_add_self (hname : name.length < 32) :
    nameOf (add sd name ino) (n sd) = name ∧ (add sd name ino).Terminated (nameAt (n sd)) 32 := by
  have h0 : ∀ x, nameAt (n sd) ≤ x → x < nameAt (n sd) + 32 →
      add sd name ino x = (sd.write32 (noAt (n sd)) ino).strcpy (nameAt (n sd)) name.bytes x := by
    intro x hx _
    unfold add
    dsimp only
    rw [n_write32_noAt]
    exact write32_apply _ _ (.inr (by unfold nameAt denemeSubdentryCount at hx; omega))
  exact ⟨(cstr_congr h0).trans (cstr_strcpy hname), (terminated_strcpy hname).congr h0⟩

theorem nameOf_add_ne (W : WF sd) (hfull : n sd < denemeSubdentryCount) (hi : i < n sd) :
    nameOf (add sd name ino) i = nameOf sd i ∧ (add sd name ino).Terminated (nameAt i) 32 := by
  unfold denemeSubdentryCount at hfull
  have h0 : ∀ x, nameAt i ≤ x → x < nameAt i + 32 → add sd name ino x = sd x := by
    intro x hx hx'
    refine add_apply ?_ ?_ ?_
    all_goals
      unfold nameAt denemeSubdentryCount at *
      try unfold noAt
      omega
  exact ⟨cstr_congr h0, (W.ends i hi).congr h0⟩

theorem WF.add (W : WF sd) (hfull : n sd < denemeSubdentryCount) (hname : name.length < 32) :
    WF (add sd name ino) where
  count := by
    rw [n_add W]
    exact hfull
  ends i hi := by
    rw [n_add W] at hi
    rcases Nat.lt_succ_iff_lt_or_eq.mp hi with hi | rfl
    · exact (nameOf_add_ne W hfull hi).2
    · exact (nameOf_add_self hname).2

/-! ## Clearing -/

theorem clear_apply {x : Nat} (hno : x < noAt i ∨ noAt i + 4 ≤ x) (hname : x ≠ nameAt i) :
    clear sd i x = sd x := by
  unfold clear
  dsimp only
  rw [strcpy_apply (by simp only [List.length_nil]; omega), write32_apply _ _ hno]

theorem n_clear (sd : Mem) (i : Nat) : n (clear sd i) = n sd := by
  refine read32_congr fun x _ hx => clear_apply ?_ ?_
  all_goals
    try unfold noAt
    try unfold nameAt
    omega

theorem no_clear_self (sd : Mem) (i : Nat) : no (clear sd i) i = 0 := by
  have h0 : ∀ x, noAt i ≤ x → x < noAt i + 4 → clear sd i x = sd.write32 (noAt i) 0 x := by
    intro x _ hx
    refine strcpy_apply (.inl ?_)
    unfold nameAt denemeSubdentryCount
    unfold noAt at hx
    omega
  exact (read32_congr h0).trans (read32_self _ _ (by decide))

theorem no_clear_ne (hj : j < denemeSubdentryCount) (h : j ≠ i) : no (clear sd i) j = no sd j := by
  unfold denemeSubdentryCount at hj
  refine read32_congr fun x hx hx' => clear_apply ?_ ?_
  all_goals
    unfold noAt at *
    try unfold nameAt denemeSubdentryCount
    omega

theorem nameOf_clear_self (sd : Mem) (i : Nat) :
    nameOf (clear sd i) i = .empty ∧ (clear sd i).Terminated (nameAt i) 32 :=
  ⟨cstr_strcpy (s := .empty) (by decide), terminated_strcpy (by decide)⟩

theorem nameOf_clear_ne (hi : i < denemeSubdentryCount) (h : j ≠ i) (ht : sd.Terminated (nameAt j) 32) :
    nameOf (clear sd i) j = nameOf sd j ∧ (clear sd i).Terminated (nameAt j) 32 := by
  unfold denemeSubdentryCount at hi
  have h0 : ∀ x, nameAt j ≤ x → x < nameAt j + 32 → clear sd i x = sd x := by
    intro x hx hx'
    unfold nameAt denemeSubdentryCount at hx hx'
    refine clear_apply (.inr ?_) ?_
    · unfold noAt
      omega
    · unfold nameAt denemeSubdentryCount
      omega
  exact ⟨cstr_congr h0, ht.congr h0⟩

theorem WF.clear (W : WF sd) (hi : i < n sd) : WF (clear sd i) where
  count := by
    rw [n_clear]
    exact W.count
  ends j hj := by
    rw [n_clear] at hj
    by_cases h : j = i
    · rw [h]
      exact (nameOf_clear_self sd i).2
    · exact (nameOf_clear_ne (Nat.lt_of_lt_of_le hi W.count) h (W.ends j hj)).2

/-! ## The empty directory -/

theorem WF.of_empty (h : n sd = 0) : WF sd where
  count := by simp [h]
  ends i hi := by
    rw [h] at hi
    cases hi

end MakarnaX.Denemefs.Subdentry
