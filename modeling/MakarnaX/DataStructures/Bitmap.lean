import Mathlib.Data.Nat.Notation
import Mathlib.Logic.Function.Basic

/-!
# Bitmaps

`data_structures/bitmap.h`: a bitmap is an array of 32-bit words, bit `pos` is
bit `pos % 32` of word `pos / 32`.  The words past the end of the array are what
follows it in memory; the functions do not check the position they are given.
-/

namespace MakarnaX

open Function List

/-- `bit_find_first_zero`: the lowest bit that is clear, 32 if there is none. -/
def bitFindFirstZero (bitArray : BitVec 32) : Nat :=
  ((range 32).find? fun b => !bitArray.getLsbD b).getD 32

/-- The words of a bitmap. -/
abbrev Bitmap := Nat → BitVec 32

namespace Bitmap

variable {bitmap : Bitmap} {pos : Nat}

/-- `bitmap_find_first_zero`, with `size` in bytes; `none` is its -1. -/
def findFirstZero (bitmap : Bitmap) (size : Nat) : Option Nat :=
  ((range (size >>> 2)).find? fun i => bitmap i ≠ 0xffffffff).map fun i =>
    32 * i + bitFindFirstZero (bitmap i)

/-- `bitmap_set`. -/
def set (bitmap : Bitmap) (pos : Nat) : Bitmap :=
  update bitmap (pos / 32) (bitmap (pos / 32) ||| BitVec.twoPow 32 (pos % 32))

/-- `bitmap_reset`. -/
def reset (bitmap : Bitmap) (pos : Nat) : Bitmap :=
  update bitmap (pos / 32) (bitmap (pos / 32) &&& ~~~BitVec.twoPow 32 (pos % 32))

/-- `bitmap_test`. -/
def test (bitmap : Bitmap) (pos : Nat) : Bool := (bitmap (pos / 32)).getLsbD (pos % 32)

theorem test_set (q : Nat) : (bitmap.set pos).test q = (decide (q = pos) || bitmap.test q) := by
  have hq := Nat.mod_lt q (show 0 < 32 by decide)
  have hpos := Nat.mod_lt pos (show 0 < 32 by decide)
  unfold set test
  by_cases hw : q / 32 = pos / 32
  · rw [hw, update_self]
    have hb : (pos % 32 = q % 32) ↔ q = pos := by omega
    simp only [BitVec.getLsbD_or, BitVec.getLsbD_twoPow, hpos, decide_true, Bool.true_and, hb]
    rw [Bool.or_comm]
  · rw [update_of_ne hw]
    have hne : q ≠ pos := fun h => hw (h ▸ rfl)
    simp [hne]

theorem test_reset (q : Nat) :
    (bitmap.reset pos).test q = (!decide (q = pos) && bitmap.test q) := by
  have hq := Nat.mod_lt q (show 0 < 32 by decide)
  have hpos := Nat.mod_lt pos (show 0 < 32 by decide)
  unfold reset test
  by_cases hw : q / 32 = pos / 32
  · rw [hw, update_self]
    have hb : (pos % 32 = q % 32) ↔ q = pos := by omega
    simp only [BitVec.getLsbD_and, BitVec.getLsbD_not, BitVec.getLsbD_twoPow, hpos, hq, decide_true,
      Bool.true_and, hb]
    rw [Bool.and_comm]
  · rw [update_of_ne hw]
    have hne : q ≠ pos := fun h => hw (h ▸ rfl)
    simp [hne]

/-- A word that is not full has a clear bit, and `bit_find_first_zero` finds one. -/
theorem getLsbD_bitFindFirstZero {w : BitVec 32} (hw : w ≠ 0xffffffff) :
    bitFindFirstZero w < 32 ∧ w.getLsbD (bitFindFirstZero w) = false := by
  unfold bitFindFirstZero
  cases hf : (range 32).find? fun b => !w.getLsbD b with
  | none =>
    refine absurd (BitVec.eq_of_getLsbD_eq fun i hi => ?_) hw
    have hset : w.getLsbD i = true := by simpa using find?_eq_none.mp hf i (mem_range.mpr hi)
    have hones : (0xffffffff : BitVec 32) = BitVec.allOnes 32 := by decide
    rw [hset, hones, BitVec.getLsbD_allOnes, decide_eq_true hi]
  | some b =>
    have hb := find?_some hf
    exact ⟨mem_range.mp (mem_of_find?_eq_some hf), by simpa using hb⟩

theorem findFirstZero_some {size r : Nat} (h : bitmap.findFirstZero size = some r) :
    r < 32 * (size >>> 2) ∧ bitmap.test r = false := by
  obtain ⟨i, hf, rfl⟩ := Option.map_eq_some_iff.mp h
  have hw : bitmap i ≠ 0xffffffff := by simpa using find?_some hf
  have hi := mem_range.mp (mem_of_find?_eq_some hf)
  obtain ⟨hlt, hclear⟩ := getLsbD_bitFindFirstZero hw
  have hdiv : (32 * i + bitFindFirstZero (bitmap i)) / 32 = i := by omega
  have hmod : (32 * i + bitFindFirstZero (bitmap i)) % 32 = bitFindFirstZero (bitmap i) := by omega
  refine ⟨by omega, ?_⟩
  rw [test, hdiv, hmod]
  exact hclear

/-- `bit_find_first_zero` finds the lowest clear bit. -/
theorem getLsbD_of_lt_bitFindFirstZero {w : BitVec 32} {b : Nat} (hb : b < bitFindFirstZero w) : w.getLsbD b = true := by
  unfold bitFindFirstZero at hb
  cases hf : (range 32).find? fun b => !w.getLsbD b with
  | none =>
    rw [hf, Option.getD_none] at hb
    simpa using find?_range_eq_none.mp hf b hb
  | some r =>
    rw [hf, Option.getD_some] at hb
    simpa using (find?_range_eq_some.mp hf).2.2 b hb

theorem test_of_full {q : Nat} (h : bitmap (q / 32) = 0xffffffff) : bitmap.test q = true := by
  have hq := Nat.mod_lt q (show 0 < 32 by decide)
  have hones : (0xffffffff : BitVec 32) = BitVec.allOnes 32 := by decide
  rw [test, h, hones, BitVec.getLsbD_allOnes, decide_eq_true hq]

/-- `bitmap_find_first_zero` finds the least clear position. -/
theorem test_of_lt_findFirstZero {size r q : Nat} (h : bitmap.findFirstZero size = some r) (hq : q < r) :
    bitmap.test q = true := by
  obtain ⟨i, hf, rfl⟩ := Option.map_eq_some_iff.mp h
  obtain ⟨hword, -, hbefore⟩ := find?_range_eq_some.mp hf
  have hlt := (getLsbD_bitFindFirstZero (by simpa using hword)).1
  by_cases hqi : q / 32 = i
  · subst hqi
    exact getLsbD_of_lt_bitFindFirstZero (by omega)
  · exact test_of_full (by simpa using hbefore (q / 32) (by omega))

theorem findFirstZero_eq_none {size : Nat} :
    bitmap.findFirstZero size = none ↔ ∀ q < 32 * (size >>> 2), bitmap.test q = true := by
  unfold findFirstZero
  rw [Option.map_eq_none_iff]
  constructor
  · intro h q hq
    exact test_of_full (by simpa using find?_range_eq_none.mp h (q / 32) (by omega))
  · intro h
    cases hf : (range (size >>> 2)).find? fun i => decide (bitmap i ≠ 0xffffffff) with
    | none => rfl
    | some i =>
      have hfound : bitmap.findFirstZero size = some (32 * i + bitFindFirstZero (bitmap i)) := by
        rw [findFirstZero, hf]
        rfl
      obtain ⟨hlt, hclear⟩ := findFirstZero_some hfound
      rw [h _ hlt] at hclear
      cases hclear

theorem reset_set (h : bitmap.test pos = false) : (bitmap.set pos).reset pos = bitmap := by
  have hpos := Nat.mod_lt pos (show 0 < 32 by decide)
  unfold reset set
  rw [update_idem, update_self, update_eq_self_iff]
  refine BitVec.eq_of_getLsbD_eq fun i hi => ?_
  unfold test at h
  by_cases hb : pos % 32 = i
  · subst hb
    simp [BitVec.getLsbD_twoPow, h]
  · have hb' : i ≠ pos % 32 := Ne.symm hb
    simp [hi, hb']

end Bitmap

end MakarnaX
