import MakarnaX.Task.Run

/-!
# The time of day

`sys_gettimeofday` computes the seconds and the milliseconds from `jiffies` on two
ways.  The product `jiffies * 1000` of the second one has 32 bits, so the
milliseconds are right for the first 42949 seconds after the boot.
-/

namespace MakarnaX

variable {s : Sched}

/-- `struct timeval`. -/
structure Timeval where
  tvSec : Nat
  tvUsec : Nat
deriving DecidableEq

/-- `struct timezone`. -/
structure Timezone where
  tzMinuteswest : Int
  tzDsttime : Int

/-- `jiffies_to_milliseconds()`. -/
def Sched.milliseconds (s : Sched) : Nat := s.jiffies * 1000 % 2 ^ 32 / 100

/-- `sys_gettimeofday`, once the addresses are checked: what is stored at `tv` and, unless it is `NULL`, at `tz`. -/
def sysGettimeofday (s : Sched) (tz : Bool) : Timeval × Option Timezone :=
  (⟨s.seconds, s.milliseconds % 1000 * 1000⟩, if tz then some ⟨0, 0⟩ else none)

namespace Timeval

/-- The time is that of `jiffies` ticks of 10000 microseconds. -/
def exact (tv : Timeval) (jiffies : Nat) : Prop :=
  tv.tvSec * 1000000 + tv.tvUsec = jiffies * 10000 ∧ tv.tvUsec < 1000000

/-- Not later, by seconds and then by microseconds. -/
def le (tv tv' : Timeval) : Prop := tv.tvSec < tv'.tvSec ∨ tv.tvSec = tv'.tvSec ∧ tv.tvUsec ≤ tv'.tvUsec

/-- Exact times are in the order of the ticks. -/
theorem exact.le {tv tv' : Timeval} {j j' : Nat} (h : tv.exact j) (h' : tv'.exact j') (hj : j ≤ j') : tv.le tv' := by
  unfold exact at h h'
  unfold Timeval.le
  omega

end Timeval

/-- What the product loses is never a whole number of seconds, up to the rounding. -/
theorem wrapped_milliseconds : ∀ k < 1000, (k * 2 ^ 32 + 99) / 100 % 1000 = 0 → k = 0 := by
  decide +kernel

theorem sysGettimeofday_exact_iff {tz : Bool} (h : s.jiffies < 2 ^ 32) :
    (sysGettimeofday s tz).1.exact s.jiffies ↔ s.jiffies * 1000 < 2 ^ 32 := by
  simp only [sysGettimeofday, Timeval.exact, Sched.seconds, Sched.milliseconds]
  constructor
  · rintro ⟨he, -⟩
    have hlost : s.jiffies * 1000 % 2 ^ 32 / 100 + (s.jiffies * 1000 / 2 ^ 32 * 2 ^ 32 + 99) / 100 = s.jiffies * 10 := by
      omega
    have hk := wrapped_milliseconds (s.jiffies * 1000 / 2 ^ 32) (by omega) (by omega)
    omega
  · intro hw
    rw [Nat.mod_eq_of_lt hw]
    omega

/-- The time of day is exact as long as the product does not wrap, and until then
it does not go back. -/
theorem gettimeofday_exact (s s' : Sched) (tz tz' : Bool) (hj : s.jiffies ≤ s'.jiffies) (h : s'.jiffies < 2 ^ 32) :
    ((sysGettimeofday s' tz').1.exact s'.jiffies ↔ s'.jiffies * 1000 < 2 ^ 32) ∧
      (s'.jiffies * 1000 < 2 ^ 32 → (sysGettimeofday s tz).1.le (sysGettimeofday s' tz').1) := by
  refine ⟨sysGettimeofday_exact_iff h, fun hw => ?_⟩
  have hs : s.jiffies < 2 ^ 32 := Nat.lt_of_le_of_lt hj h
  have hws : s.jiffies * 1000 < 2 ^ 32 := Nat.lt_of_le_of_lt (Nat.mul_le_mul_right _ hj) hw
  exact ((sysGettimeofday_exact_iff hs).mpr hws).le ((sysGettimeofday_exact_iff h).mpr hw) hj

/-- The kernel after so many ticks. -/
def ticked (n : Nat) : Sched := { kernelTask 0 with jiffies := n }

theorem gettimeofday_exact_last :
    (ticked 0).jiffies ≤ (ticked 4294967).jiffies ∧
      (sysGettimeofday (ticked 0) true).1.le (sysGettimeofday (ticked 4294967) true).1 :=
  ⟨Nat.zero_le _, (gettimeofday_exact (ticked 0) (ticked 4294967) true true (Nat.zero_le _) (by simp [ticked])).2
    (by simp [ticked])⟩

/-- One tick later the time goes back. -/
theorem gettimeofday_goes_back :
    (sysGettimeofday (ticked 4294967) true).1 = ⟨42949, 670000⟩ ∧
      (sysGettimeofday (ticked 4294968) true).1 = ⟨42949, 7000⟩ ∧
      ¬ (sysGettimeofday (ticked 4294968) true).1.exact (ticked 4294968).jiffies ∧
      ¬ (sysGettimeofday (ticked 4294967) true).1.le (sysGettimeofday (ticked 4294968) true).1 := by
  refine ⟨?_, ?_, ?_, ?_⟩ <;>
    simp [sysGettimeofday, ticked, Sched.seconds, Sched.milliseconds, Timeval.exact, Timeval.le]

end MakarnaX
