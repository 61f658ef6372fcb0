import MakarnaX.Kernel.Basic
import MakarnaX.Library.System
import MakarnaX.Library.WaitLists

/-!
# Semaphores

`sys_semwait` and `sys_sempost` in the two versions that
`__CONF_semaphore_single_cpu_optimization` chooses from.  In the plain one a post
wakes the first task that waits.  In the other, `singleCpu`, a task that still
has time left does not: it raises the value as if nobody waited and leaves a note
for `schedule`, `run_before_switch_f`, to take the value down again and wake the
task when the poster leaves the processor.  Until then the poster can take the
semaphore again without a task switch.

Interrupts are off in both calls, so a call is one step, or two if it sleeps:
`sysSemwait` up to the task switch, `semwaitTail` behind it.  `schedule` may
choose any task that can run.
-/

namespace MakarnaX.Semaphore

open Library Function

/-- `__CONF_semaphore_single_cpu_optimization`, and the time slices. -/
structure Conf where
  singleCpu : Bool
  priority : Nat → Nat

/-- `struct SemInfo`, but for the wait list: the value, and the `sem_t` that it belongs to. -/
structure SemInfo where
  value : Int
  sem : Nat

/-- What semaphores use of a task: its time, the semaphore that `do_sempost` will
be called with, if `run_before_switch_f` is set, and in which branch of
`sys_semwait` it slept last. -/
structure SemTask where
  counter : Int
  runBeforeSwitch : Option Nat
  tested : Bool

/-- The completed waits and the posts of a run. -/
inductive Event
  | enter (t k : Nat)
  | leave (t k : Nat)
deriving DecidableEq, Repr

/-- The last five fields are histories: the initial values, the posts, the waits
that returned, the tasks between such a wait and a post, and all events, the last
one first. -/
structure State where
  sems : Nat → SemInfo
  semsNr : Nat
  tasks : Nat → SemTask
  wait : WaitLists Nat Nat
  curr : Nat
  initial : Nat → Nat
  posts : Nat → Nat
  waits : Nat → Nat
  holders : Nat → List Nat
  trace : List Event

abbrev SemM := StateT State Exec

/-- An `int`. -/
def int32 (x : Int) : Int := x.bmod (2 ^ 32)

namespace State

def currTask (s : State) : SemTask := s.tasks s.curr

def value (s : State) (k : Nat) : Int := (s.sems k).value

def setValue (s : State) (k : Nat) (v : Int) : State :=
  { s with sems := update s.sems k { s.sems k with value := v } }

def setCurr (s : State) (f : SemTask → SemTask) : State :=
  { s with tasks := update s.tasks s.curr (f (s.tasks s.curr)) }

/-- The current task has used up a tick of its time. -/
def tick (s : State) : State := s.setCurr fun x => { x with counter := x.counter - 1 }

/-- `run_before_switch_f` is set, to `do_sempost` of a semaphore, or cleared. -/
def owes (s : State) (o : Option Nat) : State := s.setCurr fun x => { x with runBeforeSwitch := o }

/-- The first task that waits on `k` is woken. -/
def wakeFirst (s : State) (k t : Nat) (ts : List Nat) : State := { s with wait := s.wait.wake k t ts }

/-- The current task goes to sleep on `k`, in one of the two branches. -/
def sleeps (s : State) (k : Nat) (tested : Bool) : State :=
  { s.setCurr fun x => { x with tested := tested } with wait := s.wait.sleep k s.curr }

/-- A new semaphore with the value `n`, for the `sem_t` at `sem`. -/
def allocated (s : State) (n : BitVec 32) (sem : Nat) : State :=
  { s with
    sems := update s.sems s.semsNr ⟨n.toInt, sem⟩
    initial := update s.initial s.semsNr n.toNat
    semsNr := s.semsNr + 1 }

/-- The current task has come back from `sys_semwait`. -/
def entered (s : State) (k : Nat) : State :=
  { s with
    waits := update s.waits k (s.waits k + 1)
    holders := update s.holders k (s.curr :: s.holders k)
    trace := .enter s.curr k :: s.trace }

/-- The current task has posted. -/
def left (s : State) (k : Nat) : State :=
  { s with
    posts := update s.posts k (s.posts k + 1)
    holders := update s.holders k ((s.holders k).erase s.curr)
    trace := .leave s.curr k :: s.trace }

/-- `find_runnable_task` gives `next` its time, and the processor goes to it. -/
def switch (s : State) (conf : Conf) (next : Nat) : State :=
  { s with
    tasks := update s.tasks next { s.tasks next with counter := conf.priority next }
    curr := next }

variable {s : State} {conf : Conf} {k j t next : Nat} {v : Int} {f : SemTask → SemTask}

@[simp] theorem setValue_value_self : (s.setValue k v).value k = v := by simp [setValue, value]
@[simp] theorem setValue_value_ne (h : j ≠ k) : (s.setValue k v).value j = s.value j := by simp [setValue, value, h]
theorem setCurr_tasks_self : (s.setCurr f).tasks s.curr = f (s.tasks s.curr) := by simp [setCurr]
theorem setCurr_tasks_ne (h : t ≠ s.curr) : (s.setCurr f).tasks t = s.tasks t := by simp [setCurr, h]

/-- A part of the tasks that a change leaves alone. -/
theorem setCurr_part {α : Type} (π : SemTask → α) (h : ∀ x, π (f x) = π x) (t : Nat) :
    π ((s.setCurr f).tasks t) = π (s.tasks t) := by
  by_cases ht : t = s.curr
  · subst ht
    rw [setCurr_tasks_self, h]
  · rw [setCurr_tasks_ne ht]

end State

/-! ## The calls -/

/-- `wakeup_uninterruptible`. -/
def wakeupUninterruptible (k : Nat) : SemM Unit := do
  match (← get).wait.queue k with
  | [] => throw (.assert "list->pop_front()")
  | t :: ts => modify fun s => s.wakeFirst k t ts

/-- `do_sempost`. -/
def doSempost (k : Nat) : SemM Unit := do
  modify fun s => s.setValue k (int32 (s.value k - 1))
  ASSERT ((← get).value k = 0) "sem_info->value == 0"
  wakeupUninterruptible k

/-- `schedule`, when `find_runnable_task` finds `next`. -/
def schedule (conf : Conf) (next : Nat) : SemM Unit := do
  match (← get).currTask.runBeforeSwitch with
  | some k =>
    doSempost k
    modify fun s => s.owes none
  | none => pure ()
  modify fun s => s.switch conf next

/-- `sleep_uninterruptible`, called in the branch `value > 0` or in the other. -/
def sleepUninterruptible (conf : Conf) (k next : Nat) (tested : Bool) : SemM Unit := do
  modify fun s => s.sleeps k tested
  schedule conf next

/-- `sys_semget` for a `sem_t` at `sem`. -/
def sysSemget (n : BitVec 32) (sem : Nat) : SemM Unit := modify fun s => s.allocated n sem

/-- `sys_semwait`, up to the task switch if it sleeps. -/
def sysSemwait (conf : Conf) (k sem next : Nat) : SemM Unit := do
  ASSERT (((← get).sems k).sem = sem) "sem->info->sem == sem"
  if (← get).value k > 0 then
    if conf.singleCpu ∧ (← get).currTask.runBeforeSwitch ≠ none ∧ (← get).currTask.counter = 0 then
      sleepUninterruptible conf k next true
    else
      modify fun s => s.setValue k (int32 (s.value k - 1))
      ASSERT ((← get).value k = 0) "sem_info->value == 0"
      modify fun s => s.entered k
  else
    ASSERT ((← get).currTask.runBeforeSwitch = none) "task_curr->run_before_switch_f == NULL"
    sleepUninterruptible conf k next false

/-- The rest of `sys_semwait`. -/
def semwaitTail (k : Nat) : SemM Unit := do
  if (← get).currTask.tested then
    ASSERT ((← get).value k = 0) "sem_info->value == 0"
  modify fun s => { s with wait := s.wait.back k s.curr }.entered k

/-- `sys_sempost`. -/
def sysSempost (conf : Conf) (k sem : Nat) : SemM Unit := do
  ASSERT (((← get).sems k).sem = sem) "sem->info->sem == sem"
  if ((← get).wait.queue k).length > 0 then
    ASSERT ((← get).value k = 0) "sem_info->value == 0"
    if conf.singleCpu then
      if (← get).currTask.counter > 0 then
        modify fun s => s.setValue k (int32 (s.value k + 1))
        modify fun s => s.owes (some k)
      else
        modify fun s => s.owes none
        wakeupUninterruptible k
    else
      wakeupUninterruptible k
  else
    modify fun s => s.setValue k (int32 (s.value k + 1))
  modify fun s => s.left k

/-- `do_timer`. -/
def doTimer (conf : Conf) (next : Nat) : SemM Unit := do
  modify State.tick
  if (← get).currTask.counter < 0 then
    schedule conf next

/-! ## Runs -/

/-- `yield` is every other way to `schedule`: `sys_yield`, `sys_sleep`, `sys_pause`. -/
inductive Op
  | semget (n : BitVec 32) (sem : Nat)
  | semwait (k sem next : Nat)
  | resume (k : Nat)
  | sempost (k sem : Nat)
  | timer (next : Nat)
  | yield (next : Nat)
deriving DecidableEq, Repr

def Op.run (conf : Conf) : Op → SemM Unit
  | .semget n sem => sysSemget n sem
  | .semwait k sem next => sysSemwait conf k sem next
  | .resume k => semwaitTail k
  | .sempost k sem => sysSempost conf k sem
  | .timer next => doTimer conf next
  | .yield next => schedule conf next

/-- The current task makes calls in user mode only. -/
def Op.possible (s : State) : Op → Prop
  | .semget _ _ => s.wait.place s.curr = none
  | .semwait k _ _ => s.wait.place s.curr = none ∧ k < s.semsNr
  | .resume k => s.wait.place s.curr = some (.woken k)
  | .sempost k _ => s.wait.place s.curr = none ∧ k < s.semsNr
  | .timer _ => True
  | .yield _ => s.wait.place s.curr = none

instance (s : State) : (op : Op) → Decidable (op.possible s)
  | .semget _ _ => inferInstanceAs (Decidable (_ = _))
  | .semwait _ _ _ => inferInstanceAs (Decidable (_ ∧ _))
  | .resume _ => inferInstanceAs (Decidable (_ = _))
  | .sempost _ _ => inferInstanceAs (Decidable (_ ∧ _))
  | .timer _ => inferInstanceAs (Decidable True)
  | .yield _ => inferInstanceAs (Decidable (_ = _))

/-- The current task does not sleep. -/
def State.Runs (s : State) : Prop := ∀ k, s.wait.place s.curr ≠ some (.asleep k)

instance (s : State) : Decidable s.Runs :=
  match h : s.wait.place s.curr with
  | some (.asleep k) => isFalse fun hr => hr k h
  | some (.woken k) => isTrue fun j => by rw [h]; simp
  | none => isTrue fun j => by rw [h]; simp

/-- A step, if the task that gets the processor can run. -/
def Op.enabled (conf : Conf) (s : State) (op : Op) : Prop :=
  op.possible s ∧ ∀ s', op.run conf s = .ok ((), s') → s'.Runs

instance (conf : Conf) (s : State) (op : Op) : Decidable (op.enabled conf s) :=
  match h : op.run conf s with
  | .error _ => decidable_of_iff (op.possible s) ⟨fun hp => ⟨hp, fun s' hs => by rw [h] at hs; cases hs⟩, And.left⟩
  | .ok (_, s1) => decidable_of_iff (op.possible s ∧ s1.Runs)
      ⟨fun hp => ⟨hp.1, fun s' hs => by rw [h] at hs; cases hs; exact hp.2⟩, fun hp => ⟨hp.1, hp.2 s1 h⟩⟩

/-- No semaphore yet, and nobody sleeps. -/
structure State.Initial (s : State) : Prop where
  sems : s.sems = fun _ => ⟨0, 0⟩
  semsNr : s.semsNr = 0
  runBeforeSwitch : ∀ t, (s.tasks t).runBeforeSwitch = none
  wait : s.wait = .empty
  initial : s.initial = fun _ => 0
  posts : s.posts = fun _ => 0
  waits : s.waits = fun _ => 0
  holders : s.holders = fun _ => []
  trace : s.trace = []

def system (conf : Conf) (allowed : State → Op → Prop) : System State :=
  .ofOps State.Initial (fun s op => op.enabled conf s ∧ allowed s op) (Op.run conf)

/-- Task `t` runs, with all its time. -/
def start (conf : Conf) (t : Nat) : State where
  sems _ := ⟨0, 0⟩
  semsNr := 0
  tasks u := ⟨conf.priority u, none, false⟩
  wait := .empty
  curr := t
  initial _ := 0
  posts _ := 0
  waits _ := 0
  holders _ := []
  trace := []

theorem start_initial (conf : Conf) (t : Nat) : (start conf t).Initial :=
  ⟨rfl, rfl, fun _ => rfl, rfl, rfl, rfl, rfl, rfl, rfl⟩

end MakarnaX.Semaphore
