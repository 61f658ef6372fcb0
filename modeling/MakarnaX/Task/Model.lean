import MakarnaX.Kernel.Basic
import MakarnaX.Library.Checked
import Mathlib.Logic.Function.Basic

/-!
# Tasks, the scheduler and signals

`sched.cpp`, `signal.cpp`, `task_exit.cpp` and the task part of `task.cpp`.

A task is named by its id: ids are given in the order of the forks and a task
structure is never freed, so `task_id_ht` finds a task exactly if its id has
been given.  A `TaskList_t` is the sequence of the tasks in it (`Wmc.List` shows
that `List_2` implements sequences), and `list_node.__list` is the list a task
is in.  `task_alarm_list` keeps its links: `fork` copies an alarm node without
initialising it, so the alarm list need not be a list.

Every function runs with interrupts off, between `pushcli` and `popif`, so it
is one step; `n_cli` is modelled where such a section stays open while other
tasks run, in `inode_lock`, and in `check_signals`, which leaves through
`return` without `popif`.

A task that has entered the kernel and not left it has a stack of `Frame`s, the
functions that wait for the one above them to return.  `schedule` is about to
choose the next task; `checkSignals` has been switched away from and goes on
after `switch_to_task`.  `push_stack` saves the frames below `check_signals` and
`pop_stack` goes back to them.

The memory of a task is left out.  What the kernel reads from the user stack in
`signal_return` is any word, and allocations in `fork` may fail.
-/

namespace MakarnaX

open Library Function

/-! ## Signals -/

def SIGKILL : Nat := 9
def SIGALRM : Nat := 14
def SIGCHLD : Nat := 17
def SIGCONT : Nat := 18
def SIGSTOP : Nat := 19
def SIGTSTP : Nat := 20
def SIGTTIN : Nat := 21
def SIGTTOU : Nat := 22
def SIGURG : Nat := 23

def EINVAL : Int := 22

/-- `_S(x)`; the processor takes a shift count modulo 32. -/
def signalBit (x : Nat) : BitVec 32 := 1#32 <<< (x % 32)

/-- `SIG_DI & _S(sig)`, for `sig` below 32. -/
def sigDI (sig : Nat) : Bool := sig == SIGCHLD || sig == SIGURG

/-- `SIG_DS & _S(sig)`. -/
def sigDS (sig : Nat) : Bool := sig == SIGSTOP || sig == SIGTSTP || sig == SIGTTIN || sig == SIGTTOU

/-- `SIG_DC & _S(sig)`. -/
def sigDC (sig : Nat) : Bool := sig == SIGCONT

/-- `SIG_DFL`. -/
def SIG_DFL : Nat := 0

/-! ## The state -/

/-- `Task::State`. -/
inductive TaskState
  | notRunnable | running | interruptible | uninterruptible | zombie | stopped
deriving DecidableEq, Repr

/-- The lists a `list_node` can be in: `__task_runnable_queue[priority]`,
`task_sleep_list`, `task_zombie_list` and the wait list of a resource. -/
inductive ListId
  | runnable (priority : Nat)
  | sleep
  | zombie
  | wait (resource : Nat)
deriving DecidableEq, Repr

/-- A node of `task_alarm_list`: the list's own or a task's. -/
inductive AlarmRef
  | head
  | task (t : Nat)
deriving DecidableEq, Repr

/-- `AlarmList_t::node_t`; `none` is `NULL`, and `linked` is `__list != NULL`. -/
structure AlarmNode where
  prev : Option AlarmRef
  next : Option AlarmRef
  linked : Bool
deriving DecidableEq, Repr

structure SignalInfo where
  sig : BitVec 32
  pending : BitVec 32
  action : Nat → Nat

/-- The registers of a task in user mode that the kernel sets. -/
structure Trapframe where
  eip : Nat
  esp : Nat
  eax : Int
deriving DecidableEq, Repr

/-- What a task in the kernel does when the function above returns. -/
inductive Frame
  /-- `schedule()`, before the switch. -/
  | schedule
  /-- `schedule()`, after the switch back: `sti(); check_signals(); ASSERT`. -/
  | checkSignals
  /-- The rest of `sys_wait`. -/
  | waitTail
  /-- The rest of `inode_lock`: `popif()`. -/
  | lockTail
  /-- The rest of `sys_sleep`. -/
  | sleepTail
  /-- The rest of `sys_yield`. -/
  | yieldTail
  /-- `PANIC` after a `schedule()` that must not return. -/
  | dead
deriving DecidableEq, Repr

/-- `SignalState`: the kernel stack `push_stack` copied, that is the loop
variable of `check_signals`, the frames below it and the registers of the user
program. -/
structure SignalState where
  sig : Nat
  frames : List Frame
  tf : Trapframe
  sleep : Nat
deriving DecidableEq, Repr

structure Task where
  parent : Option Nat
  state : TaskState
  pgdirPa : Nat
  counter : Int
  priority : Nat
  listNode : Option ListId
  childs : List Nat
  waitingChild : Bool
  poppedKstack : Bool
  sigstack : List SignalState
  signal : SignalInfo
  alarm : Nat
  alarmListNode : AlarmNode
  sleep : Nat
  exitCode : Nat
  exitSignal : Nat
  waitNotifyNext : Option Nat
  nCli : Int
  tf : Trapframe
  kstack : List Frame

/-- A child that `sys_wait` has returned: to whom, and with which code. -/
structure Report where
  parent : Nat
  child : Nat
  exitCode : Nat
deriving DecidableEq, Repr

/-- The tasks of the kernel.  The last three fields are histories that no
function reads: how often `send_signal` accepted a signal for a task, how often
a handler was entered, and what `sys_wait` returned. -/
@[ext] structure Sched where
  tasks : Nat → Task
  /-- `next_task_id`. -/
  tasksNr : Nat
  lists : ListId → List Nat
  /-- The node `__` of `task_alarm_list`. -/
  alarmHead : AlarmNode
  /-- `__size` of `task_alarm_list`. -/
  alarmSize : Nat
  curr : Nat
  jiffies : Nat
  cr3 : Nat
  ifl : Bool
  accepted : Nat → Nat → Nat
  entered : Nat → Nat → Nat
  reported : List Report

/-- A function of the kernel. -/
abbrev SchedM := StateT Sched Exec

namespace Sched

/-- Change one task. -/
def setTask (s : Sched) (t : Nat) (f : Task → Task) : Sched :=
  { s with tasks := update s.tasks t (f (s.tasks t)) }

/-- `task_curr`. -/
abbrev currTask (s : Sched) : Task := s.tasks s.curr

/-- `jiffies_to_seconds()`, with `HZ` 100. -/
def seconds (s : Sched) : Nat := s.jiffies / 100

/-- `n->__list = l`, and `n` among the elements of `l`. -/
def link (s : Sched) (l : ListId) (t : Nat) (xs : List Nat) : Sched :=
  { s.setTask t fun x => { x with listNode := some l } with lists := update s.lists l xs }

/-- `n->__list = NULL`, and `n` no more among the elements of `l`. -/
def unlink (s : Sched) (l : ListId) (t : Nat) : Sched :=
  { s.setTask t fun x => { x with listNode := none } with
    lists := update s.lists l ((s.lists l).erase t) }

end Sched

def modTask (t : Nat) (f : Task → Task) : SchedM Unit := modify fun s => s.setTask t f

def modCurr (f : Task → Task) : SchedM Unit := modify fun s => s.setTask s.curr f

/-- `SYSCALL_RETURN(v)`. -/
def setReturn (v : Int) : SchedM Unit := modCurr fun x => { x with tf := { x.tf with eax := v } }

/-- Call `fs`, the first of them first. -/
def pushFrames (fs : List Frame) : SchedM Unit := modCurr fun x => { x with kstack := fs ++ x.kstack }

/-! ## Lists -/

/-- `list->push_back(&t->list_node)`. -/
def pushBack (l : ListId) (t : Nat) : SchedM Bool := do
  let s ← get
  if (s.tasks t).listNode ≠ none then return false
  set (s.link l t (s.lists l ++ [t]))
  return true

/-- `xs` with `t` before `pos`, or at the end if `pos` is the list's own node. -/
def insertBefore (pos t : Nat) : List Nat → List Nat
  | [] => [t]
  | x :: xs => if x = pos then t :: x :: xs else x :: insertBefore pos t xs

/-- `list->insert(pos, &t->list_node)`. -/
def insertTask (l : ListId) (pos t : Nat) : SchedM Bool := do
  let s ← get
  if (s.tasks t).listNode ≠ none then return false
  set (s.link l t (insertBefore pos t (s.lists l)))
  return true

/-- `list->erase(&t->list_node)`. -/
def eraseTask (l : ListId) (t : Nat) : SchedM Bool := do
  let s ← get
  if (s.tasks t).listNode ≠ some l then return false
  set (s.unlink l t)
  return true

/-- `list->pop_front()`; the first node of an empty list is the list's own. -/
def popFront (l : ListId) : SchedM Bool := do
  match (← get).lists l with
  | [] => return false
  | t :: _ => eraseTask l t

/-! ## The run queues -/

/-- `add_to_runnable_list`. -/
def addToRunnableList (t : Nat) : SchedM Unit := do
  ASSERT (((← get).tasks t).listNode = none) "t->list_node.is_free()"
  modTask t fun x => { x with state := .running }
  let b ← pushBack (.runnable ((← get).tasks t).priority) t
  ASSERT b "__task_runnable_queue[t->priority].push_back(&t->list_node)"

/-- `remove_from_runnable_list`. -/
def removeFromRunnableList (t : Nat) : SchedM Unit := do
  let q := ListId.runnable ((← get).tasks t).priority
  ASSERT (((← get).tasks t).listNode = some q)
    "t->list_node.__list == &__task_runnable_queue[t->priority]"
  ASSERT (((← get).tasks t).state = .running) "t->state == Task::State_running"
  let b ← eraseTask q t
  ASSERT b "__task_runnable_queue[t->priority].erase(&t->list_node) != error()"
  ASSERT (((← get).tasks t).listNode = none) "t->list_node.is_free()"

/-- The highest of the queues 40 to 1 that holds a task. -/
def firstPriorityLevel (lists : ListId → List Nat) : Nat → Option Nat
  | 0 => none
  | i + 1 => if (lists (.runnable (i + 1))).length > 0 then some (i + 1) else firstPriorityLevel lists i

/-- `find_runnable_task`. -/
def findRunnableTask : SchedM (Option Nat) := do
  match firstPriorityLevel (← get).lists 40 with
  | none => return none
  | some i =>
    match (← get).lists (.runnable i) with
    | [] => return none
    | t :: _ =>
      let b ← popFront (.runnable i)
      ASSERT b "b"
      let b ← pushBack (.runnable i) t
      ASSERT b "b"
      modTask t fun x => { x with counter := x.priority }
      ASSERT (((← get).tasks t).state = .running) "task_next->state == Task::State_running"
      return some t

/-- The switch in `schedule`: `find_runnable_task` and `switch_to_task`.  The
task that is left goes on behind the switch when it is chosen again. -/
def switchTask : SchedM Unit := do
  match ← findRunnableTask with
  | none => throw (.panic "bu durum yok, kernel task beklemeye gecemez.")
  | some next =>
    modCurr fun x => { x with kstack := .checkSignals :: x.kstack.tail }
    modify fun s => { s with curr := next, cr3 := (s.tasks next).pgdirPa }

/-! ## Sending signals -/

/-- `action[sig].handler`; the word behind the 32 actions is `alarm`. -/
def Task.handler (x : Task) (sig : Nat) : Nat := if sig = 32 then x.alarm else x.signal.action sig

/-- `t->signal.sig |= _S(sig)`. -/
def Sched.accept (s : Sched) (sig t : Nat) : Sched :=
  { s.setTask t fun x => { x with signal := { x.signal with sig := x.signal.sig ||| signalBit sig } } with
    accepted := update s.accepted t
      (update (s.accepted t) (sig % 32) (s.accepted t (sig % 32) + 1)) }

/-- `send_signal`, once the bit is set. -/
def wakeForSignal (sig t : Nat) : SchedM Int := do
  let s ← get
  match (s.tasks t).state with
  | .interruptible =>
    if s.currTask.handler sig = SIG_DFL ∧ (sigDI sig || sigDC sig) ∧ ¬ (s.tasks t).waitingChild then
      return 0
    match (s.tasks t).listNode with
    | none => pure ()
    | some l => discard (eraseTask l t)
    addToRunnableList t
    return 0
  | .running => return 0
  | .zombie => return 0
  | _ => throw (.panic "--")

/-- `send_signal`. -/
def sendSignal (sig t : Nat) : SchedM Int := do
  if sig > 32 then return -EINVAL
  if ((← get).tasks t).signal.pending &&& signalBit sig ≠ 0#32 then return 0
  modify fun s => s.accept sig t
  wakeForSignal sig t

/-! ## Exit and wait -/

/-- `notify_parent`. -/
def notifyParent (t : Nat) : SchedM Unit := do
  match ((← get).tasks t).parent with
  | none => throw (.assert "t->parent")
  | some p =>
    ASSERT (p ≠ t) "t->parent != t"
    let r ← sendSignal ((← get).tasks t).exitSignal p
    ASSERT (r > -1) "r > -1"
    if ((← get).tasks p).waitingChild then
      let head := ((← get).tasks p).waitNotifyNext
      modTask t fun x => { x with waitNotifyNext := head }
      modTask p fun x => { x with waitNotifyNext := some t }

/-! ### The alarm list -/

def alarmNode (r : AlarmRef) : SchedM AlarmNode := do
  match r with
  | .head => return (← get).alarmHead
  | .task t => return ((← get).tasks t).alarmListNode

def modAlarmNode (r : AlarmRef) (f : AlarmNode → AlarmNode) : SchedM Unit :=
  match r with
  | .head => modify fun s => { s with alarmHead := f s.alarmHead }
  | .task t => modTask t fun x => { x with alarmListNode := f x.alarmListNode }

/-- Follow a link. -/
def derefAlarm (r : Option AlarmRef) : SchedM AlarmRef :=
  match r with
  | none => throw .null
  | some r => return r

/-- `task_alarm_list.insert(pos, &t->alarm_list_node)`; `false` is `error()`. -/
def alarmInsert (pos : AlarmRef) (t : Nat) : SchedM Bool := do
  let n ← alarmNode (.task t)
  if n.linked then return false
  let prev := (← alarmNode pos).prev
  modAlarmNode (.task t) fun n => { n with linked := true, next := some pos, prev := prev }
  let prev ← derefAlarm prev
  modAlarmNode prev fun n => { n with next := some (.task t) }
  modAlarmNode pos fun n => { n with prev := some (.task t) }
  modify fun s => { s with alarmSize := add32 s.alarmSize 1 }
  return true

/-- `task_alarm_list.erase(pos)`; `false` is `error()`. -/
def alarmErase (pos : AlarmRef) : SchedM Bool := do
  match pos with
  | .head => return false
  | .task t =>
    let n ← alarmNode (.task t)
    if n.linked then
      let prev ← derefAlarm n.prev
      modAlarmNode prev fun m => { m with next := n.next }
      let next ← derefAlarm n.next
      modAlarmNode next fun m => { m with prev := n.prev }
      modAlarmNode (.task t) fun m => { m with linked := false }
      modify fun s => { s with alarmSize := sub32 s.alarmSize 1 }
      return true
    else return false

/-- The end of `task_free`: the task moves from its list to the zombies, and
its alarm node out of the alarm list. -/
def taskFree (t : Nat) : SchedM Unit := do
  match ((← get).tasks t).listNode with
  | none => throw .null
  | some l => discard (eraseTask l t)
  modTask t fun x => { x with state := .zombie }
  discard (pushBack .zombie t)
  if ((← get).tasks t).alarmListNode.linked then discard (alarmErase (.task t))

/-- `do_exit`. -/
def doExit (code : Nat) : SchedM Unit := do
  let t := (← get).curr
  if t = 1 then throw (.panic ">> exit task 1")
  removeFromRunnableList t
  modTask t fun x => { x with state := .zombie }
  discard (pushBack .zombie t)
  taskFree t
  modTask t fun x => { x with exitCode := code }
  modTask t fun x => { x with exitSignal := if x.exitSignal = 0 then SIGCHLD else x.exitSignal }
  notifyParent t
  pushFrames [.schedule, .dead]

/-- `sys_exit`. -/
def sysExit (errorCode : Nat) : SchedM Unit := doExit ((errorCode % 256) * 256)

/-- `sys_kill`. -/
def sysKill (pid sig : Nat) : SchedM Unit := do
  if pid < (← get).tasksNr then
    discard (sendSignal sig pid)
    setReturn 0
  else setReturn (-1)

/-- `sys_wait` up to `schedule()`; `verified` says that `state` is an address of
the task. -/
def sysWait (verified : Bool) : SchedM Unit := do
  if !verified then doExit 111
  else if (← get).currTask.childs.length = 0 then setReturn (-1)
  else
    removeFromRunnableList (← get).curr
    modCurr fun x => { x with state := .interruptible, waitingChild := true }
    pushFrames [.schedule, .waitTail]

/-- `sys_wait` after `schedule()`. -/
def waitTail : SchedM Unit := do
  modCurr fun x => { x with waitingChild := false }
  match (← get).currTask.waitNotifyNext with
  | none => throw (.assert "t")
  | some t =>
    let child := (← get).tasks t
    modCurr fun x => { x with waitNotifyNext := child.waitNotifyNext }
    modify fun s => { s with reported := ⟨s.curr, t, child.exitCode⟩ :: s.reported }
    setReturn t

/-! ## Sleeping and waking -/

/-- `sys_pause` up to `schedule()`. -/
def sysPause : SchedM Unit := do
  if (← get).currTask.sigstack.length > 1 then return ()
  removeFromRunnableList (← get).curr
  modCurr fun x => { x with state := .interruptible }
  setReturn (-1)
  pushFrames [.schedule]

/-- `sys_yield` up to `schedule()`. -/
def sysYield : SchedM Unit := pushFrames [.schedule, .yieldTail]

/-- The loop of `sys_sleep` over `task_sleep_list`: it has no `break`, but a task
that is in a list is not inserted again. -/
def sleepInsert (t seconds : Nat) : List Nat → SchedM Unit
  | [] => return ()
  | i :: is => do
    if ((← get).tasks i).sleep > seconds then discard (insertTask .sleep i t)
    sleepInsert t seconds is

/-- `sys_sleep` up to `schedule()`. -/
def sysSleep (seconds : Nat) : SchedM Unit := do
  if seconds = 0 then setReturn 0
  else
    let t := (← get).curr
    removeFromRunnableList t
    sleepInsert t seconds ((← get).lists .sleep)
    discard (pushBack .sleep t)
    modify fun s => s.setTask t fun x =>
      { x with state := .interruptible, sleep := add32 s.seconds seconds }
    pushFrames [.schedule, .sleepTail]

/-- `sys_sleep` after `schedule()`. -/
def sleepTail : SchedM Unit := do
  let s ← get
  let r : Int := (s.currTask.sleep : Int) - s.seconds
  setReturn (if r < 1 then 0 else r)

/-- `check_sleep_list`, over the tasks that sleep. -/
def checkSleepLoop (seconds : Nat) : List Nat → SchedM Unit
  | [] => return ()
  | t :: ts => do
    if ((← get).tasks t).sleep > seconds then return ()
    discard (eraseTask .sleep t)
    ASSERT (((← get).tasks t).listNode = none) "t->list_node.is_free()"
    modTask t fun x => { x with sleep := 0 }
    addToRunnableList t
    checkSleepLoop seconds ts

def checkSleepList : SchedM Unit := do checkSleepLoop (← get).seconds ((← get).lists .sleep)

/-- `sleep_interruptible` up to `schedule()`. -/
def sleepInterruptible (w : Nat) : SchedM Unit := do
  let t := (← get).curr
  ASSERT (((← get).tasks t).state = .running) "task_curr->state == Task::State_running"
  removeFromRunnableList t
  discard (pushBack (.wait w) t)
  modTask t fun x => { x with state := .interruptible }
  pushFrames [.schedule]

/-- `sleep_uninterruptible` up to `schedule()`. -/
def sleepUninterruptible (w : Nat) : SchedM Unit := do
  let t := (← get).curr
  ASSERT (((← get).tasks t).state = .running) "task_curr->state == Task::State_running"
  removeFromRunnableList t
  modTask t fun x => { x with state := .uninterruptible }
  discard (pushBack (.wait w) t)
  pushFrames [.schedule]

/-- `wakeup_interruptible`. -/
def wakeupInterruptible (w : Nat) : SchedM Unit := do
  match (← get).lists (.wait w) with
  | [] => return ()
  | t :: _ =>
    let b ← popFront (.wait w)
    ASSERT b "list->pop_front()"
    addToRunnableList t

/-- `wakeup_uninterruptible`. -/
def wakeupUninterruptible (w : Nat) : SchedM Unit := do
  match (← get).lists (.wait w) with
  | [] => throw (.assert "list->pop_front()")
  | t :: _ =>
    let b ← popFront (.wait w)
    ASSERT b "list->pop_front()"
    addToRunnableList t

/-! ## Interrupt sections that stay open -/

/-- `pushcli`. -/
def pushcli : SchedM Unit := do
  modCurr fun x => { x with nCli := x.nCli + 1 }
  modify fun s => { s with ifl := false }

/-- `popif`; every section that is still open was entered with interrupts on. -/
def popif : SchedM Unit := do
  modCurr fun x => { x with nCli := x.nCli - 1 }
  let n := (← get).currTask.nCli
  if n < 0 then throw (.panic "popif sayisi, pushdan fazla")
  modify fun s => { s with ifl := decide (n = 0) }

/-- `inode_lock` of an inode that is held, up to `schedule()`. -/
def inodeLock (w : Nat) : SchedM Unit := do
  pushcli
  sleepUninterruptible w
  modCurr fun x => { x with kstack := .schedule :: .lockTail :: x.kstack.tail }

/-! ## Alarms -/

/-- The loop of `sys_alarm`; it has no `break`. -/
def alarmLoop (t seconds : Nat) : Nat → AlarmRef → SchedM Unit
  | 0, _ => throw .loop
  | fuel + 1, i => do
    match i with
    | .head => return ()
    | .task u =>
      if ((← get).tasks u).alarm > seconds then
        let r ← alarmInsert i t
        ASSERT r "r != AlarmList_t::error()"
      let next ← derefAlarm (← alarmNode i).next
      alarmLoop t seconds fuel next

/-- `sys_alarm`, once the task is in the alarm list no more. -/
def setAlarm (t seconds fuel : Nat) : SchedM Unit := do
  if seconds = 0 then setReturn 0
  else
    modify fun s => s.setTask t fun x => { x with alarm := add32 s.seconds seconds }
    let first ← derefAlarm (← get).alarmHead.next
    alarmLoop t seconds fuel first
    discard (alarmInsert .head t)
    setReturn 0

/-- `sys_alarm`. -/
def sysAlarm (seconds fuel : Nat) : SchedM Unit := do
  let t := (← get).curr
  if ((← get).tasks t).alarmListNode.linked then
    let r ← alarmErase (.task t)
    ASSERT r "r != AlarmList_t::error()"
  setAlarm t seconds fuel

/-- One turn of the loop of `check_alarm`, at the node of `t`: the next node. -/
def checkAlarmTurn (t : Nat) : SchedM AlarmRef := do
  discard (sendSignal SIGALRM t)
  let next ← derefAlarm (← alarmNode (.task t)).next
  let prev ← derefAlarm (← alarmNode next).prev
  discard (alarmErase prev)
  return next

/-- The loop of `check_alarm`, from the node `i` on. -/
def checkAlarmLoop (seconds : Nat) : Nat → AlarmRef → SchedM Unit
  | 0, _ => throw .loop
  | fuel + 1, i => do
    match i with
    | .head => return ()
    | .task t =>
      if ((← get).tasks t).alarm > seconds then return ()
      let next ← checkAlarmTurn t
      checkAlarmLoop seconds fuel next

/-- `check_alarm`. -/
def checkAlarm (fuel : Nat) : SchedM Unit := do
  let first ← derefAlarm (← get).alarmHead.next
  checkAlarmLoop (← get).seconds fuel first

/-! ## Delivering signals -/

/-- `push_stack`. -/
def pushStack (sig : Nat) : SchedM Unit := do
  ASSERT (¬ (← get).currTask.poppedKstack) "!task_curr->popped_kstack"
  ASSERT ((← get).currTask.sigstack.length < 32) "task_curr->sigstack.size() < 32"
  modCurr fun x => { x with sigstack := ⟨sig, x.kstack, x.tf, x.sleep⟩ :: x.sigstack }

/-- Make the user program continue in the handler of `sig`: three words on its
stack, and `eip`. -/
def Sched.enterHandler (s : Sched) (sig : Nat) : Sched :=
  { s.setTask s.curr fun x =>
      { x with
        signal := { x.signal with
          sig := x.signal.sig &&& ~~~ signalBit sig
          pending := x.signal.pending ||| signalBit sig }
        tf := { x.tf with esp := sub32 x.tf.esp 12, eip := x.signal.action sig } } with
    entered := update s.entered s.curr
      (update (s.entered s.curr) sig (s.entered s.curr sig + 1)) }

/-- How the loop of `check_signals` ends: at its end, by `return`, or in a call
that does not come back. -/
inductive Control
  | loopEnd | returned | gone
deriving DecidableEq, Repr

/-- `check_signals` from the return of `push_stack` on; `pop_stack` comes here too. -/
def afterPushStack (sig : Nat) (rest : SchedM Control) : SchedM Control := do
  if (← get).currTask.signal.sig = 0#32 then return .returned
  modify fun s => s.enterHandler sig
  rest

/-- A signal `sig` with the default action stops the task. -/
def stopTask (sig : Nat) : SchedM Unit := do
  let t := (← get).curr
  modTask t fun x => { x with state := .stopped }
  removeFromRunnableList t
  modTask t fun x => { x with exitCode := sig * 256 ||| 0x7f }
  notifyParent t
  popif
  pushFrames [.schedule, .dead]

/-- The loop of `check_signals`, from `sig` down to 1. -/
def checkSignalsLoop : Nat → SchedM Control
  | 0 => return .loopEnd
  | n + 1 => do
    let sig := n + 1
    let x := (← get).currTask
    if x.signal.sig = 0#32 then return .loopEnd
    if x.signal.sig &&& signalBit sig = 0#32 then checkSignalsLoop n
    else if x.signal.action sig = SIG_DFL then
      if (← get).curr = 1 then checkSignalsLoop n
      else if sigDI sig then checkSignalsLoop n
      else if sigDS sig then
        stopTask sig
        return .gone
      else if sigDC sig then checkSignalsLoop n
      else
        modCurr fun x => { x with signal := { x.signal with sig := x.signal.sig ||| signalBit sig } }
        popif
        doExit sig
        return .gone
    else
      pushStack sig
      afterPushStack sig (checkSignalsLoop n)

/-- The end of `schedule`. -/
def assertSigstack : SchedM Unit := do
  let x := (← get).currTask
  ASSERT (¬ (x.signal.pending = 0#32 ∧ x.sigstack.length ≠ 0))
    "!(!task_curr->signal.pending && task_curr->sigstack.size() != 0)"

/-- What follows the loop of `check_signals`, in it and in `schedule`. -/
def finishSignals (c : Control) : SchedM Unit := do
  match c with
  | .loopEnd =>
    popif
    assertSigstack
  | .returned => assertSigstack
  | .gone => return ()

/-- `schedule` behind the switch: `sti()`, `check_signals()` and the assertion. -/
def checkSignals : SchedM Unit := do
  modify fun s => { s with ifl := true }
  ASSERT (← get).ifl "eflags_read() & FL_IF"
  ASSERT ((← get).currTask.pgdirPa = (← get).cr3) "task_curr->pgdir.pgdir_pa == cr3"
  pushcli
  if (← get).currTask.signal.sig ≠ 0#32 then
    let c ← checkSignalsLoop 31
    finishSignals c
  else finishSignals .loopEnd

/-- `pop_stack`: the saved state, whose stack becomes the task's. -/
def popStack : SchedM Nat := do
  ASSERT (¬ (← get).currTask.poppedKstack) "!task_curr->popped_kstack"
  match (← get).currTask.sigstack with
  | [] => throw (.assert "task_curr->sigstack.size() > 0")
  | st :: rest =>
    modCurr fun x =>
      { x with sigstack := rest, poppedKstack := true, sleep := st.sleep, kstack := st.frames, tf := st.tf }
    return st.sig

/-- `signal_return`, with the word `esp[0]` of the user stack. -/
def signalReturn (esp0 : Nat) : SchedM Unit := do
  modCurr fun x => { x with signal := { x.signal with pending := x.signal.pending &&& ~~~ signalBit esp0 } }
  let sig ← popStack
  let c ← afterPushStack sig (checkSignalsLoop (sig - 1))
  finishSignals c

/-- `sys_signal`. -/
def sysSignal (signum : Int) (handler : Nat) : SchedM Unit := do
  if signum < 0 ∨ signum > 32 ∨ signum = SIGKILL ∨ signum = SIGSTOP then setReturn (-EINVAL)
  else
    modCurr fun x =>
      if signum = 32 then { x with alarm := handler }
      else { x with signal := { x.signal with action := update x.signal.action signum.toNat handler } }
    setReturn 0

/-! ## Fork -/

/-- `memcpy(t, task_curr, sizeof(Task)); t->init();` and what `do_fork` sets. -/
def Task.copyFor (x : Task) (parent pgdirPa : Nat) : Task :=
  { x with
    parent := some parent
    state := .notRunnable
    pgdirPa := pgdirPa
    counter := 0
    listNode := none
    childs := []
    waitingChild := false
    sigstack := []
    signal := { x.signal with sig := 0, pending := 0 }
    alarm := 0
    waitNotifyNext := none
    nCli := 0
    kstack := [] }

/-- `do_fork`; `none` says that memory ran out. -/
def doFork (pgdirPa : Option Nat) : SchedM Int := do
  match pgdirPa with
  | none => return -1
  | some pa =>
    let t := (← get).tasksNr
    modify fun s => { s with tasks := update s.tasks t (s.currTask.copyFor s.curr pa) }
    modTask t fun x => { x with tf := { x.tf with eax := 0 } }
    modCurr fun x => { x with childs := x.childs ++ [t] }
    modify fun s => { s with tasksNr := t + 1 }
    addToRunnableList t
    return t

/-- `sys_fork`. -/
def sysFork (pgdirPa : Option Nat) : SchedM Unit := do
  let pid ← doFork pgdirPa
  setReturn pid

/-! ## Timer -/

/-- `do_timer` up to `schedule()`. -/
def doTimer : SchedM Unit := do
  modCurr fun x => { x with poppedKstack := false }
  modify fun s => { s with jiffies := add32 s.jiffies 1 }
  modCurr fun x => { x with counter := x.counter - 1 }
  if (← get).currTask.counter < 0 then pushFrames [.schedule]

end MakarnaX
