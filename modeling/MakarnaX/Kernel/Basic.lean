import MakarnaX.Library.Checked
import Mathlib.Algebra.Group.Nat.Defs

/-!
# Assertions, addresses and the interrupt flag

What every part of the kernel uses.  `ASSERT` and `PANIC` stop the kernel, so
the model runs in `Except Fault`.  Addresses and other `uint32_t` values are
natural numbers below 2^32, and the arithmetic that can wrap says so.

The address map is the one of the higher-half configuration
(`__CONF_segmentation_higher_kernel`): the kernel segment starts at
`MMAP_KERNEL_BASE`, so that a kernel pointer `k` is the virtual address
`kaddr2va k`, and the user segment starts at 0.
-/

namespace MakarnaX

open Library (check)

/-! ## Faults -/

/-- How the kernel stops: a failed `ASSERT` with the text of its condition or a
`PANIC` with its message.  The others end a run where the model does not follow
the code any further: a loop that takes too many turns, a use of a `NULL`
pointer, and a bit field that would wrap around. -/
inductive Fault
  | assert (condition : String)
  | panic (msg : String)
  | loop
  | null
  | overflow
deriving DecidableEq, Repr

abbrev Exec := Except Fault

/-- `ASSERT(b)`. -/
def ASSERT (b : Prop) [Decidable b] (text : String) : Exec Unit := check b (.assert text)

theorem ASSERT_ok {b : Prop} [Decidable b] (h : b) (text : String) : ASSERT b text = .ok () :=
  Library.check_eq_ok h

/-- `PANIC(msg)`. -/
def PANIC {α : Type} (msg : String) : Exec α := .error (.panic msg)

/-! ## Addresses -/

def MMAP_KERNEL_BASE : Nat := 0xC0000000
def MMAP_KERNEL_TOP : Nat := 0xF0000000
def MMAP_KERNEL_TMP_PAGE_BASE : Nat := 0xD0000000
def MMAP_USER_BASE : Nat := 0x00000000
def MMAP_USER_TOP : Nat := 0xC0000000

/-- Addition of `uint32_t`. -/
def add32 (x y : Nat) : Nat := (x + y) % 2 ^ 32

/-- Subtraction of `uint32_t`. -/
def sub32 (x y : Nat) : Nat := (x + 2 ^ 32 - y % 2 ^ 32) % 2 ^ 32

def va2kaddr (addr : Nat) : Nat := sub32 addr MMAP_KERNEL_BASE

def kaddr2va (addr : Nat) : Nat := add32 addr MMAP_KERNEL_BASE

def uaddr2va (addr : Nat) : Nat := add32 addr MMAP_USER_BASE

def va2uaddr (addr : Nat) : Nat := sub32 addr MMAP_USER_BASE

def uaddr2kaddr (addr : Nat) : Nat := va2kaddr (uaddr2va addr)

/-- `x & ~(0x1000-1)`. -/
def roundDown (x : Nat) : Nat := x / 0x1000 * 0x1000

/-- `(x + 0x1000-1) & ~(0x1000-1)`. -/
def roundUp (x : Nat) : Nat := roundDown (add32 x 0xFFF)

def isRounded (x : Nat) : Prop := x % 0x1000 = 0

instance (x : Nat) : Decidable (isRounded x) := inferInstanceAs (Decidable (_ = _))

/-! ## The interrupt flag -/

/-- `EFLAGS.IF`, and the `n_cli` and `before_pushcli` of the current task. -/
structure Cpu where
  ifl : Bool
  nCli : Int
  beforePushcli : Bool
deriving DecidableEq, Repr

namespace Cpu

/-- `pushcli`. -/
def pushcli (c : Cpu) : Cpu :=
  { ifl := false
    nCli := c.nCli + 1
    beforePushcli := if c.nCli = 0 then c.ifl else c.beforePushcli }

/-- `popif`. -/
def popif (c : Cpu) : Exec Cpu :=
  if c.nCli - 1 < 0 then PANIC "popif sayisi, pushdan fazla"
  else
    .ok { c with
      nCli := c.nCli - 1
      ifl := decide (c.nCli - 1 = 0) && c.beforePushcli }

/-- `ASSERT_int_disable()`. -/
def assertIntDisable (c : Cpu) : Exec Unit := ASSERT (c.ifl = false) "!(eflags_read() & FL_IF)"

theorem assertIntDisable_ok {c : Cpu} (h : c.ifl = false) : c.assertIntDisable = .ok () :=
  ASSERT_ok h _

end Cpu

/-! ## Spin locks -/

/-- `spinlock_acquire`: the loop `while (xchg(&l->locked, 1) == 0)` leaves with
`locked = 1` whatever the lock held. -/
def spinlockAcquire (c : Cpu) (_locked : Nat) : Cpu × Nat := (c.pushcli, 1)

/-- `spinlock_release`. -/
def spinlockRelease (c : Cpu) (_locked : Nat) : Exec (Cpu × Nat) := do
  let c ← c.popif
  return (c, 0)

end MakarnaX
