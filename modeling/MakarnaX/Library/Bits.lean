import Mathlib.Data.Finset.Card
import Mathlib.Data.Fintype.Basic

/-!
# Words as sets of bits

A bit vector is the set of the positions whose bit is set.  Setting a bit is
inserting its position, clearing one is erasing it, so that the number of set
bits is the size of a set.
-/

namespace Library

variable {w : Nat} {x : BitVec w}

/-- The positions of the bits that are set. -/
def bits (x : BitVec w) : Finset (Fin w) := Finset.univ.filter fun i => x.getLsbD i = true

@[simp] theorem mem_bits {i : Fin w} : i ∈ bits x ↔ x.getLsbD i = true := by
  simp [bits]

theorem bits_zero : bits (0#w) = ∅ := by
  ext i
  simp

theorem bits_or_twoPow (k : Fin w) : bits (x ||| BitVec.twoPow w k) = insert k (bits x) := by
  ext i
  rw [mem_bits, BitVec.getLsbD_or, BitVec.getLsbD_twoPow, Finset.mem_insert, mem_bits]
  by_cases hi : i = k
  · simp [hi]
  · have hne : ¬ (k : Nat) = i := fun h => hi (Fin.ext h.symm)
    simp [hi, hne]

theorem bits_and_not_twoPow (k : Fin w) : bits (x &&& ~~~ BitVec.twoPow w k) = (bits x).erase k := by
  ext i
  rw [mem_bits, BitVec.getLsbD_and, BitVec.getLsbD_not, BitVec.getLsbD_twoPow, Finset.mem_erase, mem_bits]
  by_cases hi : i = k
  · simp [hi]
  · have hne : ¬ (k : Nat) = i := fun h => hi (Fin.ext h.symm)
    simp [hi, hne]

end Library
