import MakarnaX.Kernel.Basic
import MakarnaX.Library.System
import MakarnaX.Library.WaitLists

/-!
# The lock of an inode

`inode_lock` takes the lock if `val` is 1 and else sleeps on the wait list;
`inode_unlock` wakes the first task of the list or, if there is none, sets `val`
back.  A woken task does not look at `val` again: `val` stays 0, and the lock is
its own from the moment it is woken.

Between `pushcli` and `popif` nothing else runs, so a call is one step, or two if
it has to sleep: `inodeLock` up to `schedule()`, `inodeLockTail` behind it.  The
tasks take their steps in any order.
-/

namespace MakarnaX.Inode

open Library Function List

/-- The locks of the inodes and the tasks that sleep on them.  `holders` is a
history: the tasks that are past `inode_lock` and before `inode_unlock`. -/
structure Locks where
  val : Nat → Int
  wait : WaitLists Nat Nat
  holders : Nat → List Nat

abbrev LockM := StateT Locks Exec

/-- The locks as `inode_alloc` leaves them. -/
def initial : Locks where
  val _ := 1
  wait := .empty
  holders _ := []

def setVal (inode : Nat) (v : Int) : LockM Unit := modify fun s => { s with val := update s.val inode v }

/-- `sleep_uninterruptible`, up to `schedule()`. -/
def sleepUninterruptible (inode t : Nat) : LockM Unit := modify fun s => { s with wait := s.wait.sleep inode t }

/-- `wakeup_interruptible`, which takes any task off a list. -/
def wakeupInterruptible (inode : Nat) : LockM Unit :=
  modify fun s =>
    match s.wait.queue inode with
    | [] => s
    | t :: ts => { s with wait := s.wait.wake inode t ts }

/-- `inode_lock` has returned. -/
def enter (inode t : Nat) : LockM Unit :=
  modify fun s => { s with holders := update s.holders inode (t :: s.holders inode) }

/-- `inode_lock` of task `t`, up to `schedule()` if it sleeps. -/
def inodeLock (inode t : Nat) : LockM Unit := do
  if (← get).val inode > 0 then
    setVal inode ((← get).val inode - 1)
    ASSERT ((← get).val inode = 0) "inode->lock.val == 0"
    enter inode t
  else
    sleepUninterruptible inode t

/-- The rest of `inode_lock` of a task that has slept. -/
def inodeLockTail (inode t : Nat) : LockM Unit := do
  modify fun s => { s with wait := s.wait.back inode t }
  ASSERT ((← get).val inode = 0) "inode->lock.val == 0"
  enter inode t

/-- `inode_unlock` of task `t`. -/
def inodeUnlock (inode t : Nat) : LockM Unit := do
  modify fun s => { s with holders := update s.holders inode ((s.holders inode).erase t) }
  ASSERT ((← get).val inode = 0) "inode->lock.val == 0"
  if ((← get).wait.queue inode).length > 0 then
    wakeupInterruptible inode
  else
    setVal inode ((← get).val inode + 1)

/-! ## Runs -/

inductive Op
  | lock (inode t : Nat)
  | resume (inode t : Nat)
  | unlock (inode t : Nat)
deriving DecidableEq, Repr

def Op.run : Op → LockM Unit
  | .lock inode t => inodeLock inode t
  | .resume inode t => inodeLockTail inode t
  | .unlock inode t => inodeUnlock inode t

/-- A task that sleeps or was woken in `inode_lock` does nothing else, and only
the holder unlocks. -/
def Op.enabled (s : Locks) : Op → Prop
  | .lock _ t => s.wait.place t = none
  | .resume inode t => s.wait.place t = some (.woken inode)
  | .unlock inode t => s.wait.place t = none ∧ t ∈ s.holders inode

instance (s : Locks) : (op : Op) → Decidable (op.enabled s)
  | .lock _ _ => inferInstanceAs (Decidable (_ = _))
  | .resume _ _ => inferInstanceAs (Decidable (_ = _))
  | .unlock _ _ => inferInstanceAs (Decidable (_ ∧ _))

def system : System Locks := .ofOps (· = initial) (fun s op => op.enabled s) Op.run

/-! ## The invariant -/

variable {s s' : Locks} {inode t : Nat}

/-- Of each inode: either the lock is free and nobody waits, or it belongs to
one task, which holds it or was woken to have it. -/
structure Inv (s : Locks) : Prop where
  sound : s.wait.Sound
  one : ∀ i, s.val i + (s.holders i).length + (s.wait.woken i).length = 1
  nonneg : ∀ i, 0 ≤ s.val i
  free : ∀ i, s.val i = 1 → s.wait.queue i = []

theorem Inv.initial : Inv initial where
  sound := .empty
  one _ := rfl
  nonneg _ := Int.one_nonneg
  free _ _ := rfl

/-- The state of one inode has changed. -/
theorem Inv.update (I : Inv s) (inode : Nat) (hs : s'.wait.Sound)
    (ho : ∀ i, i ≠ inode → s'.val i = s.val i ∧ s'.holders i = s.holders i ∧
      s'.wait.woken i = s.wait.woken i ∧ s'.wait.queue i = s.wait.queue i)
    (h1 : s'.val inode + (s'.holders inode).length + (s'.wait.woken inode).length = 1)
    (h0 : 0 ≤ s'.val inode) (hf : s'.val inode = 1 → s'.wait.queue inode = []) : Inv s' where
  sound := hs
  one i := by
    by_cases h : i = inode
    · rw [h]
      exact h1
    · obtain ⟨hv, hh, hw, -⟩ := ho i h
      rw [hv, hh, hw]
      exact I.one i
  nonneg i := by
    by_cases h : i = inode
    · rw [h]
      exact h0
    · rw [(ho i h).1]
      exact I.nonneg i
  free i := by
    by_cases h : i = inode
    · rw [h]
      exact hf
    · obtain ⟨hv, -, -, hq⟩ := ho i h
      rw [hv, hq]
      exact I.free i

/-- A task that can unlock is the only one, and nobody was woken. -/
theorem Inv.of_holder (I : Inv s) (ht : t ∈ s.holders inode) :
    s.val inode = 0 ∧ s.holders inode = [t] ∧ s.wait.woken inode = [] := by
  have h1 := I.one inode
  have h0 := I.nonneg inode
  have hpos := length_pos_of_mem ht
  exact ⟨by omega, eq_singleton_of_mem ht (by omega), length_eq_zero_iff.mp (by omega)⟩

/-- A task that was woken is the only one, and nobody holds the lock. -/
theorem Inv.of_woken (I : Inv s) (ht : s.wait.place t = some (.woken inode)) :
    s.val inode = 0 ∧ s.holders inode = [] ∧ s.wait.woken inode = [t] := by
  have h1 := I.one inode
  have h0 := I.nonneg inode
  have hm := I.sound.mem_woken.mpr ht
  have hpos := length_pos_of_mem hm
  exact ⟨by omega, length_eq_zero_iff.mp (by omega), eq_singleton_of_mem hm (by omega)⟩

/-! ## Steps -/

theorem inodeLock_free (h : s.val inode = 1) : inodeLock inode t s =
    .ok ((), { s with val := update s.val inode 0
                      holders := update s.holders inode (t :: s.holders inode) }) := by
  simp [inodeLock, setVal, enter, h, ASSERT, check_run]

theorem inodeLock_taken (h : s.val inode = 0) : inodeLock inode t s =
    .ok ((), { s with wait := s.wait.sleep inode t }) := by
  simp [inodeLock, sleepUninterruptible, h]

theorem inodeLockTail_eq (h : s.val inode = 0) : inodeLockTail inode t s =
    .ok ((), { s with wait := s.wait.back inode t
                      holders := update s.holders inode (t :: s.holders inode) }) := by
  simp [inodeLockTail, enter, h, ASSERT, check_run]

theorem inodeUnlock_nobody (h : s.val inode = 0) (hq : s.wait.queue inode = []) : inodeUnlock inode t s =
    .ok ((), { s with val := update s.val inode 1
                      holders := update s.holders inode ((s.holders inode).erase t) }) := by
  simp [inodeUnlock, setVal, h, hq, ASSERT, check_run]

theorem inodeUnlock_next {u : Nat} {us : List Nat} (h : s.val inode = 0) (hq : s.wait.queue inode = u :: us) :
    inodeUnlock inode t s =
      .ok ((), { s with wait := s.wait.wake inode u us
                        holders := update s.holders inode ((s.holders inode).erase t) }) := by
  simp [inodeUnlock, wakeupInterruptible, h, hq, ASSERT, check_run]

theorem Inv.val_cases (I : Inv s) (inode : Nat) : s.val inode = 0 ∨ s.val inode = 1 := by
  have h1 := I.one inode
  have h0 := I.nonneg inode
  omega

/-- Every call returns, and keeps the invariant. -/
theorem Op.returns {op : Op} (I : Inv s) (he : op.enabled s) : ∃ s', op.run s = .ok ((), s') ∧ Inv s' := by
  cases op with
  | lock inode t =>
    have h1 := I.one inode
    rcases I.val_cases inode with h | h
    · refine ⟨_, inodeLock_taken h, I.update inode (I.sound.sleep he) (fun i hi => ?_) h1 ?_ ?_⟩
      · simp [hi]
      · exact I.nonneg inode
      · simp [h]
    · refine ⟨_, inodeLock_free h, I.update inode I.sound (fun i hi => ?_) ?_ ?_ ?_⟩
      · simp [hi]
      · simp only [update_self, length_cons]
        omega
      · simp
      · simp
  | resume inode t =>
    obtain ⟨hv, hh, hw⟩ := I.of_woken he
    refine ⟨_, inodeLockTail_eq hv, I.update inode (I.sound.back he) (fun i hi => ?_) ?_ ?_ ?_⟩
    · simp [hi]
    · simp [hv, hh, hw]
    · exact I.nonneg inode
    · simp [hv]
  | unlock inode t =>
    obtain ⟨hv, hh, hw⟩ := I.of_holder he.2
    cases hq : s.wait.queue inode with
    | nil =>
      refine ⟨_, inodeUnlock_nobody hv hq, I.update inode I.sound (fun i hi => ?_) ?_ ?_ ?_⟩
      · simp [hi]
      · simp [hh, hw]
      · simp
      · exact fun _ => hq
    | cons u us =>
      refine ⟨_, inodeUnlock_next hv hq, I.update inode (I.sound.wake hq) (fun i hi => ?_) ?_ ?_ ?_⟩
      · simp [hi]
      · simp [hv, hh, hw]
      · exact I.nonneg inode
      · simp [hv]

theorem invariant (h : system.Reachable s) : Inv s := by
  refine System.Reachable.invariant ?_ ?_ h
  · rintro s rfl
    exact .initial
  · rintro s s' I ⟨op, he, hr⟩
    obtain ⟨s1, hr1, I1⟩ := Op.returns I he
    rw [hr] at hr1
    cases hr1
    exact I1

/-- Of every inode, in every state reached: at most one task holds the lock or
was woken to have it; `val` is 1 exactly if there is none, and then nobody waits;
the tasks got the lock in the order in which they blocked; and no assertion fails. -/
theorem inode_lock_exclusive (h : system.Reachable s) :
    (∀ inode, (s.holders inode ++ s.wait.woken inode).length ≤ 1 ∧
      (s.val inode = 1 ↔ s.holders inode ++ s.wait.woken inode = []) ∧
      (s.val inode = 1 → s.wait.queue inode = []) ∧
      s.wait.slept inode = s.wait.served inode ++ s.wait.queue inode) ∧
    ∀ op : Op, op.enabled s → ∃ s', op.run s = .ok ((), s') := by
  have I := invariant h
  refine ⟨fun inode => ?_, fun op he => ?_⟩
  · have h1 := I.one inode
    have h0 := I.nonneg inode
    refine ⟨?_, ?_, I.free inode, I.sound.fifo inode⟩
    · rw [length_append]
      omega
    · rw [← length_eq_zero_iff, length_append]
      constructor <;>
      · intro hv
        omega
  · obtain ⟨s', hr, -⟩ := Op.returns I he
    exact ⟨s', hr⟩

/-- Task 1 holds the lock of inode 0, tasks 2 and 3 block, and task 1 unlocks:
the lock is task 2's, and `val` is 0. -/
theorem inode_lock_exclusive_two :
    ∃ s, system.Reachable s ∧ s.wait.queue 0 = [3] ∧ s.wait.woken 0 = [2] ∧ s.val 0 ≠ 1 := by
  obtain ⟨s, hs, hx⟩ : ∃ s, System.after (fun s op => op.enabled s) Op.run initial [.lock 0 1, .lock 0 2, .lock 0 3,
      .unlock 0 1] = some s ∧ s.wait.queue 0 = [3] ∧ s.wait.woken 0 = [2] := observed (by decide +kernel)
  have hr : system.Reachable s := System.Reachable.after (.init rfl) hs
  refine ⟨s, hr, hx.1, hx.2, fun hv => ?_⟩
  rw [((inode_lock_exclusive hr).1 0).2.2.1 hv] at hx
  cases hx.1

end MakarnaX.Inode
