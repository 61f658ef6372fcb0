import MakarnaX.Library.Bytes

/-!
# Strings in a byte memory

A C string is a list of bytes without a zero.  `strcpy` writes the bytes and a
zero behind them, however much room there is; `strEq` is `strcmp` with result 0.

A fixed-size character array is read as a string with `cstr`.  If the array holds
a zero, `strEq` compares with exactly that string, and this is how comparisons in
memory become equations of strings.
-/

namespace Library

open List

/-- A C string without its final zero. -/
structure CString where
  bytes : List UInt8
  nonzero : 0 ∉ bytes
deriving DecidableEq

namespace CString

@[ext] theorem ext {s t : CString} (h : s.bytes = t.bytes) : s = t := by
  cases s
  cases t
  cases h
  rfl

def length (s : CString) : Nat := s.bytes.length

/-- The empty string. -/
def empty : CString := ⟨[], not_mem_nil⟩

/-- The string of the characters of `text`; characters that are no byte other
than zero are left out. -/
def ofString (text : String) : CString :=
  ⟨(text.toList.map fun c => UInt8.ofNat c.toNat).filter (· ≠ 0), by simp⟩

end CString

namespace Mem

variable {m m' : Mem} {a b k : Nat} {s t : List UInt8}

/-- Store one byte. -/
def write8 (m : Mem) (a : Nat) (v : UInt8) : Mem where
  byte x := if x = a then v else m x

/-- `strcpy(a, s)`. -/
def strcpy (m : Mem) (a : Nat) : List UInt8 → Mem
  | [] => m.write8 a 0
  | v :: s => (m.write8 a v).strcpy (a + 1) s

/-- `strcmp(a, s) == 0`. -/
def strEq (m : Mem) (a : Nat) : List UInt8 → Bool
  | [] => m a = 0
  | v :: s => m a = v && m.strEq (a + 1) s

/-- The bytes in front of the first zero of the `k` bytes at `a`. -/
def cbytes (m : Mem) (a : Nat) : Nat → List UInt8
  | 0 => []
  | k + 1 => if m a = 0 then [] else m a :: m.cbytes (a + 1) k

theorem nonzero_cbytes (m : Mem) (a k : Nat) : 0 ∉ m.cbytes a k := by
  induction k generalizing a with
  | zero => simp [cbytes]
  | succ k ih =>
    unfold cbytes
    split
    · simp
    · next h => simpa [ih] using fun h0 => h h0.symm

/-- The string in the `k` bytes at `a`. -/
def cstr (m : Mem) (a k : Nat) : CString := ⟨m.cbytes a k, m.nonzero_cbytes a k⟩

/-- One of the `k` bytes at `a` is zero. -/
def Terminated (m : Mem) (a k : Nat) : Prop := ∃ j, j < k ∧ m (a + j) = 0

/-! ## Writing -/

@[simp] theorem write8_self (m : Mem) (a : Nat) (v : UInt8) : m.write8 a v a = v := if_pos rfl

theorem write8_ne (m : Mem) {x : Nat} (v : UInt8) (h : x ≠ a) : m.write8 a v x = m x := if_neg h

/-- `strcpy` writes nothing outside the string and its zero. -/
theorem strcpy_apply {x : Nat} (h : x < a ∨ a + s.length < x) : m.strcpy a s x = m x := by
  induction s generalizing m a with
  | nil => exact write8_ne m 0 (by simp at h; omega)
  | cons v s ih =>
    simp only [length_cons] at h
    rw [strcpy, ih (by omega), write8_ne m v (by omega)]

theorem strcpy_zero (m : Mem) (a : Nat) (s : List UInt8) : m.strcpy a s (a + s.length) = 0 := by
  induction s generalizing m a with
  | nil => exact write8_self m a 0
  | cons v s ih =>
    have := ih (m.write8 a v) (a + 1)
    rw [strcpy, length_cons, show a + (s.length + 1) = a + 1 + s.length by omega]
    exact this

theorem terminated_strcpy (h : s.length < k) : (m.strcpy a s).Terminated a k :=
  ⟨s.length, h, strcpy_zero m a s⟩

/-! ## Reading -/

theorem cbytes_congr (h : ∀ x, a ≤ x → x < a + k → m' x = m x) : m'.cbytes a k = m.cbytes a k := by
  induction k generalizing a with
  | zero => rfl
  | succ k ih =>
    rw [cbytes, cbytes, h a (by omega) (by omega), ih fun x hx hk => h x (by omega) (by omega)]

theorem cstr_congr (h : ∀ x, a ≤ x → x < a + k → m' x = m x) : m'.cstr a k = m.cstr a k :=
  CString.ext (cbytes_congr h)

theorem Terminated.congr (ht : m.Terminated a k) (h : ∀ x, a ≤ x → x < a + k → m' x = m x) :
    m'.Terminated a k := by
  obtain ⟨j, hj, h0⟩ := ht
  exact ⟨j, hj, (h (a + j) (by omega) (by omega)).trans h0⟩

theorem Terminated.tail (ht : m.Terminated a (k + 1)) (h0 : m a ≠ 0) : m.Terminated (a + 1) k := by
  obtain ⟨j, hj, hz⟩ := ht
  cases j with
  | zero => exact absurd hz h0
  | succ j => exact ⟨j, by omega, by rw [← hz]; congr 1; omega⟩

/-- A string that ends in the array is read the same from a larger one. -/
theorem cbytes_mono (ht : m.Terminated a k) (h : k ≤ b) : m.cbytes a b = m.cbytes a k ∧ (m.cbytes a k).length < k := by
  induction k generalizing a b with
  | zero =>
    obtain ⟨j, hj, -⟩ := ht
    cases hj
  | succ k ih =>
    cases b with
    | zero => cases h
    | succ b =>
      unfold cbytes
      by_cases h0 : m a = 0
      · simp [h0]
      · obtain ⟨h1, h2⟩ := ih (ht.tail h0) (Nat.le_of_succ_le_succ h)
        simp [h0, h1, h2]

theorem cstr_mono (ht : m.Terminated a k) (h : k ≤ b) : m.cstr a b = m.cstr a k ∧ (m.cstr a k).length < k :=
  ⟨CString.ext (cbytes_mono ht h).1, (cbytes_mono ht h).2⟩

/-- The bytes of a string with a zero behind them. -/
theorem cbytes_eq (hs : 0 ∉ s) (h : s.length < k) (hm : ∀ i, i ≤ s.length → m (a + i) = s.getD i 0) :
    m.cbytes a k = s := by
  induction s generalizing a k with
  | nil =>
    cases k with
    | zero => cases h
    | succ k =>
      have h0 : m a = 0 := hm 0 (Nat.le_refl 0)
      simp [cbytes, h0]
  | cons v s ih =>
    cases k with
    | zero => cases h
    | succ k =>
      simp only [mem_cons, not_or] at hs
      have hv : m a = v := hm 0 (Nat.zero_le _)
      have htail : ∀ i, i ≤ s.length → m (a + 1 + i) = s.getD i 0 := fun i hi => by
        rw [Nat.add_assoc, Nat.add_comm 1 i, hm (i + 1) (Nat.succ_le_succ hi), getD_cons_succ]
      rw [cbytes, hv, if_neg fun h0 => hs.1 h0.symm, ih hs.2 (Nat.lt_of_succ_lt_succ h) htail]

theorem cstr_eq {s : CString} (h : s.length < k) (hm : ∀ i, i ≤ s.length → m (a + i) = s.bytes.getD i 0) :
    m.cstr a k = s :=
  CString.ext (cbytes_eq s.nonzero h hm)

/-- A copy that fits is read back. -/
theorem cbytes_strcpy (hs : 0 ∉ s) (h : s.length < k) : (m.strcpy a s).cbytes a k = s := by
  induction s generalizing m a k with
  | nil =>
    cases k with
    | zero => cases h
    | succ k => simp [strcpy, cbytes]
  | cons v s ih =>
    cases k with
    | zero => cases h
    | succ k =>
      simp only [mem_cons, not_or] at hs
      have hv : (m.write8 a v).strcpy (a + 1) s a = v := by
        rw [strcpy_apply (.inl (by omega)), write8_self]
      rw [strcpy, cbytes, hv, if_neg fun h0 => hs.1 h0.symm,
        ih hs.2 (Nat.lt_of_succ_lt_succ h)]

theorem cstr_strcpy {s : CString} (h : s.length < k) : (m.strcpy a s.bytes).cstr a k = s :=
  CString.ext (cbytes_strcpy s.nonzero h)

/-- In an array that holds a zero, `strcmp` compares with the string in it. -/
theorem strEq_bytes (ht : m.Terminated a k) (hs : 0 ∉ s) : m.strEq a s = true ↔ m.cbytes a k = s := by
  induction k generalizing a s with
  | zero =>
    obtain ⟨j, hj, -⟩ := ht
    cases hj
  | succ k ih =>
    unfold cbytes
    by_cases h0 : m a = 0
    · rw [if_pos h0]
      cases s with
      | nil => simp [strEq, h0]
      | cons v s =>
        have hv : v ≠ 0 := fun h => hs (by simp [h])
        simp [strEq, h0, hv.symm]
    · rw [if_neg h0]
      cases s with
      | nil => simp [strEq, h0]
      | cons v s =>
        simp [strEq, ih (ht.tail h0) fun h => hs (mem_cons_of_mem v h)]

theorem strEq_cstr {s : CString} (ht : m.Terminated a k) : m.strEq a s.bytes = decide (m.cstr a k = s) := by
  rw [Bool.eq_iff_iff, strEq_bytes ht s.nonzero, decide_eq_true_eq, CString.ext_iff]
  rfl

end Mem

end Library
