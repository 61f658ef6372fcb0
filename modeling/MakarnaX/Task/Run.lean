import MakarnaX.Library.System
import MakarnaX.Task.Model

/-!
# Runs of the kernel

What can happen next: the current task, in user mode, makes a system call,
faults or comes back from a signal handler; a timer or keyboard interrupt
arrives; or the current task goes on in the kernel where it stands.

`check_alarm` is taken one turn of its loop at a time, at any task whose alarm
is due.  Nothing runs between two turns in the kernel, so there are more runs
here than there; `checkAlarm_turns` says that none is missing.
-/

namespace MakarnaX

open Library

/-- A system call, or an exception that ends the task (`fault`).  The last three
are the calls that find a resource taken and wait for it. -/
inductive Syscall
  | fork (pgdirPa : Option Nat)
  | exit (errorCode : Nat)
  | fault (code : Nat)
  | pause
  | sleep (seconds : Nat)
  | yield
  | alarm (seconds fuel : Nat)
  | wait (verified : Bool)
  | kill (pid sig : Nat)
  | signal (signum : Int) (handler : Nat)
  | sleepInterruptible (w : Nat)
  | sleepUninterruptible (w : Nat)
  | inodeLock (w : Nat)
deriving DecidableEq, Repr

def Syscall.run : Syscall → SchedM Unit
  | .fork pgdirPa => sysFork pgdirPa
  | .exit errorCode => sysExit errorCode
  | .fault code => doExit code
  | .pause => sysPause
  | .sleep seconds => sysSleep seconds
  | .yield => sysYield
  | .alarm seconds fuel => sysAlarm seconds fuel
  | .wait verified => sysWait verified
  | .kill pid sig => sysKill pid sig
  | .signal signum handler => sysSignal signum handler
  | .sleepInterruptible w => MakarnaX.sleepInterruptible w
  | .sleepUninterruptible w => MakarnaX.sleepUninterruptible w
  | .inodeLock w => MakarnaX.inodeLock w

/-- `trap_handler` before it calls the handler of a trap from user mode. -/
def trapEntry : SchedM Unit := do
  modCurr fun x => { x with poppedKstack := false }
  modify fun s => { s with ifl := true }

/-- The rest of the function of a frame. -/
def Frame.run : Frame → SchedM Unit
  | .schedule => return ()
  | .checkSignals => MakarnaX.checkSignals
  | .waitTail => MakarnaX.waitTail
  | .lockTail => popif
  | .sleepTail => MakarnaX.sleepTail
  | .yieldTail => setReturn 0
  | .dead => throw (.panic "do_exit return")

/-- One step of the kernel. -/
inductive Op
  | syscall (c : Syscall)
  | signalReturn (esp0 : Nat)
  | timer
  | wakeupInterruptible (w : Nat)
  | wakeupUninterruptible (w : Nat)
  | checkAlarmTurn (t : Nat)
  | checkSleepList
  | switchTask
  | resume (f : Frame)
deriving DecidableEq, Repr

def Op.run : Op → SchedM Unit
  | .syscall c => do
    trapEntry
    c.run
  | .signalReturn esp0 => do
    trapEntry
    MakarnaX.signalReturn esp0
  | .timer => doTimer
  | .wakeupInterruptible w => MakarnaX.wakeupInterruptible w
  | .wakeupUninterruptible w => MakarnaX.wakeupUninterruptible w
  | .checkAlarmTurn t => discard (MakarnaX.checkAlarmTurn t)
  | .checkSleepList => MakarnaX.checkSleepList
  | .switchTask => MakarnaX.switchTask
  | .resume f => do
    modCurr fun x => { x with kstack := x.kstack.tail }
    f.run

/-- When a step can happen.  Task 0 runs in the kernel only.  `trap_handler`
would take a timer interrupt on the way out of `pop_stack` for one on the other
kernel stack, so that is left out. -/
def Op.enabled (s : Sched) : Op → Prop
  | .syscall _ => s.curr ≠ 0 ∧ s.currTask.kstack = []
  | .signalReturn _ => s.curr ≠ 0 ∧ s.currTask.kstack = [] ∧ s.currTask.signal.pending ≠ 0#32
  | .timer => s.currTask.kstack = [] ∨ (s.ifl ∧ ¬ s.currTask.poppedKstack)
  | .wakeupInterruptible _ => True
  | .wakeupUninterruptible _ => True
  | .checkAlarmTurn t =>
    s.currTask.kstack.head? = some .schedule ∧ t < s.tasksNr ∧ (s.tasks t).alarm ≤ s.seconds
  | .checkSleepList => s.currTask.kstack.head? = some .schedule
  | .switchTask => s.currTask.kstack.head? = some .schedule
  | .resume f => f ≠ .schedule ∧ s.currTask.kstack.head? = some f

instance (s : Sched) : (op : Op) → Decidable (op.enabled s)
  | .syscall _ => inferInstanceAs (Decidable (_ ∧ _))
  | .signalReturn _ => inferInstanceAs (Decidable (_ ∧ _ ∧ _))
  | .timer => inferInstanceAs (Decidable (_ ∨ (_ ∧ _)))
  | .wakeupInterruptible _ => inferInstanceAs (Decidable True)
  | .wakeupUninterruptible _ => inferInstanceAs (Decidable True)
  | .checkAlarmTurn _ => inferInstanceAs (Decidable (_ ∧ _ ∧ _))
  | .checkSleepList => inferInstanceAs (Decidable (_ = _))
  | .switchTask => inferInstanceAs (Decidable (_ = _))
  | .resume _ => inferInstanceAs (Decidable (_ ∧ _))

/-! ## Boot -/

def blankTask : Task where
  parent := none
  state := .notRunnable
  pgdirPa := 0
  counter := 0
  priority := 0
  listNode := none
  childs := []
  waitingChild := false
  poppedKstack := false
  sigstack := []
  signal := ⟨0, 0, fun _ => 0⟩
  alarm := 0
  alarmListNode := ⟨none, none, false⟩
  sleep := 0
  exitCode := 0
  exitSignal := 0
  waitNotifyNext := none
  nCli := 0
  tf := ⟨0, 0, 0⟩
  kstack := []

/-- `init_kernel_task`, up to `add_to_runnable_list`: `task0` with id 0, and no
other. -/
def kernelTask (pgdirPa : Nat) : Sched where
  tasks := Function.update (fun _ => blankTask) 0 { blankTask with priority := 3, pgdirPa := pgdirPa }
  tasksNr := 1
  lists := fun _ => []
  alarmHead := ⟨some .head, some .head, true⟩
  alarmSize := 0
  curr := 0
  jiffies := 0
  cr3 := pgdirPa
  ifl := true
  accepted := fun _ _ => 0
  entered := fun _ _ => 0
  reported := []

/-- The kernel task is put on a run queue and forks task 1. -/
def bootTasks (pgdirPa1 : Nat) : SchedM Unit := do
  addToRunnableList 0
  discard (doFork (some pgdirPa1))

/-- The kernel, when only steps that `allowed` admits are taken. -/
def kernel (allowed : Sched → Op → Prop) : System Sched where
  init s := ∃ pa pa1, bootTasks pa1 (kernelTask pa) = .ok ((), s)
  step s s' := ∃ op : Op, op.enabled s ∧ allowed s op ∧ op.run s = .ok ((), s')

/-! ## Runs that are computed -/

/-- The state the kernel boots into. -/
def boot (pa pa1 : Nat) : Sched :=
  match bootTasks pa1 (kernelTask pa) with
  | .ok (_, s) => s
  | .error _ => kernelTask pa

/-- The state behind `ops`, if each of them can be taken and returns. -/
def Sched.after (allowed : Sched → Op → Prop) [∀ s op, Decidable (allowed s op)] (s : Sched) :
    List Op → Option Sched
  | [] => some s
  | op :: ops =>
    if op.enabled s ∧ allowed s op then
      match op.run s with
      | .ok (_, s') => s'.after allowed ops
      | .error _ => none
    else none

theorem boot_reachable (allowed : Sched → Op → Prop) (pa pa1 : Nat) :
    (kernel allowed).Reachable (boot pa pa1) := .init ⟨pa, pa1, rfl⟩

theorem reachable_after {allowed : Sched → Op → Prop} [∀ s op, Decidable (allowed s op)] {s s' : Sched}
    {ops : List Op} (h : (kernel allowed).Reachable s) (hs : s.after allowed ops = some s') :
    (kernel allowed).Reachable s' := by
  induction ops generalizing s with
  | nil =>
    cases hs
    exact h
  | cons op ops ih =>
    simp only [Sched.after] at hs
    split at hs
    · next hop =>
      cases hr : op.run s with
      | error e =>
        rw [hr] at hs
        cases hs
      | ok r =>
        rw [hr] at hs
        exact ih (.step h ⟨op, hop.1, hop.2, hr⟩) hs
    · cases hs

/-- The fault a step ends in, if it does not return. -/
def Op.fault (op : Op) (s : Sched) : Option Fault :=
  match op.run s with
  | .ok _ => none
  | .error f => some f

theorem Op.run_of_fault {op : Op} {s : Sched} {f : Fault} (h : op.fault s = some f) : op.run s = .error f := by
  unfold Op.fault at h
  cases hr : op.run s with
  | ok r =>
    rw [hr] at h
    cases h
  | error g =>
    rw [hr] at h
    cases h
    rfl

theorem Op.run_of_not_fault {op : Op} {s : Sched} (h : op.fault s = none) : ∃ s', op.run s = .ok ((), s') := by
  unfold Op.fault at h
  cases hr : op.run s with
  | ok r => exact ⟨r.2, rfl⟩
  | error g =>
    rw [hr] at h
    cases h

/-- After the boot the scheduler takes task 0 once more and then task 1. -/
def toInit : List Op :=
  [.timer, .switchTask, .resume .checkSignals, .timer, .timer, .timer, .timer, .switchTask]

/-- The next task gets the processor by way of task 0. -/
def toNext : List Op := [.switchTask, .resume .checkSignals, .timer, .timer, .timer, .timer, .switchTask]

/-- Task 1 forks task 2, leaves the processor by the call `c`, and task 2 runs. -/
def toChild (c : Syscall) : List Op := toInit ++ [.syscall (.fork (some 0x2000)), .syscall c] ++ toNext

/-- Task 1 sets a handler for signal 10, sends itself the signal, and is in the
handler when it has yielded once. -/
def intoHandler : List Op :=
  toInit ++ [.syscall (.signal 10 0x400), .syscall (.kill 1 10), .syscall .yield] ++ toNext ++
    [.resume .checkSignals, .resume .yieldTail]

end MakarnaX
