import Mathlib.Algebra.Group.Nat.Defs
import Mathlib.Data.List.Basic
import Mathlib.Logic.Function.Basic

/-!
# A byte array with cursors

An array of fixed length that any number of users read and write, each at a
cursor of its own.  A cursor is a signed word and may stand in front of the array
or behind it; there is nothing to transfer there.
-/

namespace Library

open Function

/-- The bytes, and for each user the cursor and what it may do. -/
structure Cursors (ι : Type) where
  bytes : List UInt8
  pos : ι → BitVec 32
  reads : ι → Bool
  writes : ι → Bool

namespace Cursors

/-- What a user can ask for. -/
inductive Op
  | read (n : Nat)
  | write (buf : List UInt8)
  | set (p : BitVec 32)
  | move (d : BitVec 32)

inductive Out
  | bytes (l : List UInt8)
  | count (n : Nat)
  | done
  | refused
deriving DecidableEq

variable {ι : Type} [DecidableEq ι] (c : Cursors ι) (i : ι)

/-- How many of `n` bytes there are from the cursor on. -/
def room (n : Nat) : Nat :=
  if (c.pos i).toInt < 0 then 0 else min n (c.bytes.length - (c.pos i).toInt.toNat)

def slice (n : Nat) : List UInt8 := (c.bytes.drop (c.pos i).toNat).take (c.room i n)

def overwrite (buf : List UInt8) : List UInt8 :=
  c.bytes.take (c.pos i).toNat ++ buf.take (c.room i buf.length) ++
    c.bytes.drop ((c.pos i).toNat + c.room i buf.length)

def moveTo (p : BitVec 32) : Cursors ι := { c with pos := update c.pos i p }

def step : Op → Out × Cursors ι
  | .read n =>
    if c.reads i then (.bytes (c.slice i n), c.moveTo i (c.pos i + BitVec.ofNat 32 (c.room i n))) else (.refused, c)
  | .write buf =>
    if c.writes i then
      (.count (c.room i buf.length),
        { c with bytes := c.overwrite i buf }.moveTo i (c.pos i + BitVec.ofNat 32 (c.room i buf.length)))
    else (.refused, c)
  | .set p => (.done, c.moveTo i p)
  | .move d => (.done, c.moveTo i (c.pos i + d))

def run (c : Cursors ι) : List (ι × Op) → List Out × Cursors ι
  | [] => ([], c)
  | (i, op) :: ops => ((c.step i op).1 :: ((c.step i op).2.run ops).1, ((c.step i op).2.run ops).2)

variable {c i}

/-- In an array that a signed word can index, the sign of the cursor is no case of its own. -/
theorem room_eq (h : c.bytes.length < 2 ^ 31) (n : Nat) : c.room i n = min n (c.bytes.length - (c.pos i).toNat) := by
  have hlt := (c.pos i).isLt
  unfold room
  rw [BitVec.toInt_eq_toNat_cond]
  split <;> split <;> omega

/-- What was written is read at the same place by everyone. -/
theorem slice_overwrite {j : ι} {buf : List UInt8} {c' : Cursors ι} (h : c.bytes.length < 2 ^ 31)
    (hb : c'.bytes = c.overwrite i buf) (hp : c'.pos j = c.pos i) :
    c'.slice j (c.room i buf.length) = buf.take (c.room i buf.length) := by
  have hr := room_eq (i := i) h buf.length
  have hl : c'.bytes.length = c.bytes.length := by
    rw [hb]
    simp only [overwrite, List.length_append, List.length_take, List.length_drop]
    omega
  have hroom : c'.room j (c.room i buf.length) = c.room i buf.length := by
    rw [room_eq (hl ▸ h), hl, hp]
    omega
  rw [slice, hroom, hb, hp, overwrite]
  by_cases hle : (c.pos i).toNat ≤ c.bytes.length
  · have htake : (c.bytes.take (c.pos i).toNat).length = (c.pos i).toNat := List.length_take_of_le hle
    rw [List.append_assoc, List.drop_left' htake, List.take_append_of_le_length (by rw [List.length_take]; omega), List.take_take, Nat.min_self]
  · have hzero : c.room i buf.length = 0 := by omega
    simp [hzero]

theorem write_read (j : ι) (buf : List UInt8) (h : c.bytes.length < 2 ^ 31) (hw : c.writes i = true)
    (hr : c.reads j = true) :
    (c.run [(i, .write buf), (j, .set (c.pos i)), (j, .read (c.room i buf.length))]).1 =
      [.count (c.room i buf.length), .done, .bytes (buf.take (c.room i buf.length))] := by
  simp only [run, step, moveTo, hw, hr, if_true]
  rw [slice_overwrite (i := i) h rfl (update_self ..)]

end Cursors

end Library
