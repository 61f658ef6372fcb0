import Mathlib.Algebra.Group.Nat.Defs
import Mathlib.Tactic.Common

/-!
# Byte memories

A memory is a total map from addresses to bytes.  Words are read and written
as four bytes, low byte first.  Two facts carry everything above this file: a
word that was just written reads back, and a read sees no write that ends
before it starts or starts after it ends.
-/

namespace Library

/-- A byte memory. -/
structure Mem where
  byte : Nat → UInt8

namespace Mem

instance : CoeFun Mem fun _ => Nat → UInt8 := ⟨Mem.byte⟩

/-- The 32-bit word at address `a`, low byte first. -/
def read32 (m : Mem) (a : Nat) : Nat :=
  (m a).toNat + 2 ^ 8 * (m (a + 1)).toNat + 2 ^ 16 * (m (a + 2)).toNat +
    2 ^ 24 * (m (a + 3)).toNat

/-- Store the low 32 bits of `v` at address `a`, low byte first. -/
def write32 (m : Mem) (a v : Nat) : Mem where
  byte x :=
    if x = a then UInt8.ofNat v
    else if x = a + 1 then UInt8.ofNat (v / 2 ^ 8)
    else if x = a + 2 then UInt8.ofNat (v / 2 ^ 16)
    else if x = a + 3 then UInt8.ofNat (v / 2 ^ 24)
    else m x

theorem read32_lt (m : Mem) (a : Nat) : m.read32 a < 2 ^ 32 := by
  have h0 := (m a).toNat_lt
  have h1 := (m (a + 1)).toNat_lt
  have h2 := (m (a + 2)).toNat_lt
  have h3 := (m (a + 3)).toNat_lt
  unfold read32
  omega

/-- A word reads back modulo 2^32. -/
theorem read32_write32 (m : Mem) (a v : Nat) : (m.write32 a v).read32 a = v % 2 ^ 32 := by
  simp only [read32, write32, UInt8.toNat_ofNat', Nat.reducePow, reduceIte, Nat.add_eq_left,
    Nat.add_left_cancel_iff, Nat.reduceEqDiff, Nat.succ_ne_zero]
  omega

theorem read32_self (m : Mem) (a : Nat) {v : Nat} (hv : v < 2 ^ 32) :
    (m.write32 a v).read32 a = v :=
  (read32_write32 m a v).trans (Nat.mod_eq_of_lt hv)

/-- A write is invisible outside its four bytes. -/
theorem write32_apply (m : Mem) {a x : Nat} (v : Nat) (h : x < a ∨ a + 4 ≤ x) :
    m.write32 a v x = m x := by
  unfold write32
  dsimp only
  rw [if_neg (by omega), if_neg (by omega), if_neg (by omega), if_neg (by omega)]

theorem read32_ne (m : Mem) {a b : Nat} (v : Nat) (h : a + 4 ≤ b ∨ b + 4 ≤ a) :
    (m.write32 a v).read32 b = m.read32 b := by
  unfold read32
  rw [write32_apply m v (by omega), write32_apply m v (by omega),
    write32_apply m v (by omega), write32_apply m v (by omega)]

/-- A word depends on its four bytes only. -/
theorem read32_congr {m m' : Mem} {a : Nat} (h : ∀ x, a ≤ x → x < a + 4 → m' x = m x) :
    m'.read32 a = m.read32 a := by
  unfold read32
  rw [h a (by omega) (by omega), h (a + 1) (by omega) (by omega), h (a + 2) (by omega) (by omega),
    h (a + 3) (by omega) (by omega)]

end Mem

end Library
