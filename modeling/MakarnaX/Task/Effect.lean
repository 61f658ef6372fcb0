import MakarnaX.Task.Run
import MakarnaX.Task.Spec
import Mathlib.Logic.Relation

/-!
# The steps of the kernel, as effects

Every step of the kernel is a few effects from one short list: a signal is
accepted, a task wakes up, the current task parks, exits, forks, switches,
enters a handler or comes back from one, and changes that no invariant of the
development looks at (`Quiet`).  `Op.ends` takes a step apart; an invariant is
then proved once per effect.
-/

namespace MakarnaX

open Library Sched

variable {s s' : Sched} {t u sig code pa i : Nat} {l : ListId} {f : Task → Task} {A : Sched → Label → Prop} {α : Type}

/-! ## Alarm links -/

namespace Sched

/-- The node behind a link. -/
def nodeAt (s : Sched) : AlarmRef → AlarmNode
  | .head => s.alarmHead
  | .task t => (s.tasks t).alarmListNode

/-- A link to the list's own node or to a task there is. -/
def ValidRef (s : Sched) : AlarmRef → Prop
  | .head => True
  | .task t => t < s.tasksNr

/-- A node both of whose links, where they are set, lead to nodes. -/
def ValidNode (s : Sched) (n : AlarmNode) : Prop :=
  (∀ r, n.prev = some r → s.ValidRef r) ∧ ∀ r, n.next = some r → s.ValidRef r

/-- Following alarm links from node to node never leaves the tasks there are. -/
def AlarmsValid (s : Sched) : Prop := ∀ r, s.ValidRef r → s.ValidNode (s.nodeAt r)

theorem ValidRef.congr {r : AlarmRef} (h : s.ValidRef r) (hn : s'.tasksNr = s.tasksNr) : s'.ValidRef r := by
  cases r with
  | head => trivial
  | task t =>
    show t < s'.tasksNr
    rw [hn]
    exact h

theorem ValidNode.congr {n : AlarmNode} (h : s.ValidNode n) (hn : s'.tasksNr = s.tasksNr) : s'.ValidNode n :=
  ⟨fun r hr => (h.1 r hr).congr hn, fun r hr => (h.2 r hr).congr hn⟩

/-- The alarm nodes have stayed as they were. -/
theorem AlarmsValid.congr (h : s.AlarmsValid) (hn : s'.tasksNr = s.tasksNr) (hh : s'.alarmHead = s.alarmHead)
    (ht : ∀ t, (s'.tasks t).alarmListNode = (s.tasks t).alarmListNode) : s'.AlarmsValid := by
  intro r hr
  have hnode : s'.nodeAt r = s.nodeAt r := by
    cases r with
    | head => exact hh
    | task t => exact ht t
  rw [hnode]
  exact (h r (hr.congr hn.symm)).congr hn

end Sched

/-! ## Changes nobody looks at -/

/-- Tasks that differ at most in their registers, their time slice, their
alarm and sleep times, their list of children and `popped_kstack`. -/
structure Task.Alike (x y : Task) : Prop where
  parent : y.parent = x.parent
  state : y.state = x.state
  pgdirPa : y.pgdirPa = x.pgdirPa
  priority : y.priority = x.priority
  listNode : y.listNode = x.listNode
  waitingChild : y.waitingChild = x.waitingChild
  sigstack : y.sigstack = x.sigstack
  signal : y.signal = x.signal
  exitCode : y.exitCode = x.exitCode
  exitSignal : y.exitSignal = x.exitSignal
  waitNotifyNext : y.waitNotifyNext = x.waitNotifyNext
  nCli : y.nCli = x.nCli
  kstack : y.kstack = x.kstack

namespace Task.Alike

theorem refl (x : Task) : x.Alike x := by constructor <;> rfl

theorem trans {x y z : Task} (h : x.Alike y) (h' : y.Alike z) : x.Alike z where
  parent := h'.parent.trans h.parent
  state := h'.state.trans h.state
  pgdirPa := h'.pgdirPa.trans h.pgdirPa
  priority := h'.priority.trans h.priority
  listNode := h'.listNode.trans h.listNode
  waitingChild := h'.waitingChild.trans h.waitingChild
  sigstack := h'.sigstack.trans h.sigstack
  signal := h'.signal.trans h.signal
  exitCode := h'.exitCode.trans h.exitCode
  exitSignal := h'.exitSignal.trans h.exitSignal
  waitNotifyNext := h'.waitNotifyNext.trans h.waitNotifyNext
  nCli := h'.nCli.trans h.nCli
  kstack := h'.kstack.trans h.kstack

end Task.Alike

structure Quiet (s s' : Sched) : Prop where
  task : ∀ t, (s.tasks t).Alike (s'.tasks t)
  lists : s'.lists = s.lists
  tasksNr : s'.tasksNr = s.tasksNr
  curr : s'.curr = s.curr
  cr3 : s'.cr3 = s.cr3
  accepted : s'.accepted = s.accepted
  entered : s'.entered = s.entered
  reported : s'.reported = s.reported
  alarms : s.AlarmsValid → s'.AlarmsValid

namespace Quiet

theorem refl (s : Sched) : Quiet s s := ⟨fun _ => .refl _, rfl, rfl, rfl, rfl, rfl, rfl, rfl, id⟩

theorem trans {s1 : Sched} (h : Quiet s s1) (h' : Quiet s1 s') : Quiet s s' where
  task t := (h.task t).trans (h'.task t)
  lists := h'.lists.trans h.lists
  tasksNr := h'.tasksNr.trans h.tasksNr
  curr := h'.curr.trans h.curr
  cr3 := h'.cr3.trans h.cr3
  accepted := h'.accepted.trans h.accepted
  entered := h'.entered.trans h.entered
  reported := h'.reported.trans h.reported
  alarms v := h'.alarms (h.alarms v)

theorem setTask (h : (s.tasks t).Alike (f (s.tasks t)))
    (ha : (f (s.tasks t)).alarmListNode = (s.tasks t).alarmListNode) : Quiet s (s.setTask t f) where
  task u := by
    rw [setTask_apply]
    split
    · next hu => rw [hu]; exact h
    · exact .refl _
  lists := rfl
  tasksNr := rfl
  curr := rfl
  cr3 := rfl
  accepted := rfl
  entered := rfl
  reported := rfl
  alarms v := v.congr rfl rfl fun u => by
    rw [setTask_apply]
    split
    · next hu => rw [ha, hu]
    · rfl

theorem withAlarms {head : AlarmNode} {size : Nat} {nodes : Nat → AlarmNode}
    (hv : s.AlarmsValid → (s.withAlarms head size nodes).AlarmsValid) : Quiet s (s.withAlarms head size nodes) :=
  ⟨fun _ => by constructor <;> rfl,
    rfl, rfl, rfl, rfl, rfl, rfl, rfl, hv⟩

end Quiet

/-! ## Effects -/

/-- How a task stops running: `sys_pause`, `sys_sleep` with the new sleep list,
`sys_wait`, waiting for a resource, and `inode_lock`. -/
inductive Parking
  | pause
  | sleep (xs : List Nat)
  | wait
  | on (w : Nat) (interruptible : Bool)
  | lock (w : Nat)

namespace Parking

@[simp] def state : Parking → TaskState
  | .pause | .sleep _ | .wait | .on _ true => .interruptible
  | .on _ false | .lock _ => .uninterruptible

@[simp] def place : Parking → Option ListId
  | .pause | .wait => none
  | .sleep _ => some .sleep
  | .on w _ | .lock w => some (.wait w)

@[simp] def frames : Parking → List Frame
  | .pause | .on _ _ => [.schedule]
  | .sleep _ => [.schedule, .sleepTail]
  | .wait => [.schedule, .waitTail]
  | .lock _ => [.schedule, .lockTail]

@[simp] def waits : Parking → Bool
  | .wait => true
  | _ => false

@[simp] def sections : Parking → Int
  | .lock _ => 1
  | _ => 0

end Parking

namespace Sched

/-- The list `t` parks in, with `t`. -/
def parked (s : Sched) (t : Nat) : Parking → Sched
  | .pause | .wait => s
  | .sleep xs => s.link .sleep t xs
  | .on w _ | .lock w => s.link (.wait w) t (s.lists (.wait w) ++ [t])

/-- The current task stops running. -/
def park (s : Sched) (p : Parking) : Sched :=
  ((s.dequeue s.curr).parked s.curr p).setTask s.curr fun x =>
    { x with
      state := p.state
      waitingChild := p.waits || x.waitingChild
      nCli := x.nCli + p.sections
      kstack := p.frames ++ x.kstack }

/-- `task_free`, twice into the zombie list. -/
def bury (s : Sched) (t : Nat) : Sched :=
  (s.setTask t fun x => { x with state := .zombie }).link .zombie t (s.lists .zombie ++ [t])

/-- `do_exit` before `notify_parent`, without the alarm. -/
def die (s : Sched) (code : Nat) : Sched :=
  ((((s.dequeue s.curr).bury s.curr).unlink .zombie s.curr).bury s.curr).setTask s.curr fun x =>
    { x with exitCode := code, exitSignal := if x.exitSignal = 0 then SIGCHLD else x.exitSignal }

/-- `notify_parent` behind `send_signal`. -/
def chain (s : Sched) (t p : Nat) : Sched :=
  if (s.tasks p).waitingChild then
    (s.setTask t fun x => { x with waitNotifyNext := (s.tasks p).waitNotifyNext }).setTask p
      fun x => { x with waitNotifyNext := some t }
  else s

def pushFrames (s : Sched) (fs : List Frame) : Sched :=
  s.setTask s.curr fun x => { x with kstack := fs ++ x.kstack }

def popFrame (s : Sched) : Sched := s.setTask s.curr fun x => { x with kstack := x.kstack.tail }

/-- `push_stack` and the handler of `sig`. -/
def deliver (s : Sched) (sig : Nat) : Sched :=
  (s.setTask s.curr fun x => { x with sigstack := ⟨sig, x.kstack, x.tf, x.sleep⟩ :: x.sigstack }).enterHandler sig

/-- `signal_return` up to `pop_stack`. -/
def handlerReturn (s : Sched) (esp0 : Nat) (st : SignalState) (rest : List SignalState) : Sched :=
  s.setTask s.curr fun x =>
    { x with
      signal := { x.signal with pending := x.signal.pending &&& ~~~ signalBit esp0 }
      sigstack := rest
      poppedKstack := true
      sleep := st.sleep
      kstack := st.frames
      tf := st.tf }

/-- The rest of `sys_wait`, when `t` is at the head of the chain. -/
def report (s : Sched) (t : Nat) : Sched :=
  { (s.setTask s.curr fun x =>
      { x with waitingChild := false, waitNotifyNext := (s.tasks t).waitNotifyNext }) with
    reported := ⟨s.curr, t, (s.tasks t).exitCode⟩ :: s.reported }

/-- `do_fork`. -/
def fork (s : Sched) (pgdirPa : Nat) : Sched :=
  { s with
    tasks := Function.update s.tasks s.tasksNr (s.currTask.copyFor s.curr pgdirPa)
    tasksNr := s.tasksNr + 1 }.enqueue s.tasksNr

/-- `schedule` chooses `t`. -/
def switch (s : Sched) (i t : Nat) : Sched :=
  let s1 := (s.rotate i t).setTask s.curr fun x => { x with kstack := .checkSignals :: x.kstack.tail }
  { s1 with curr := t, cr3 := (s1.tasks t).pgdirPa }

end Sched

/-- Which effect. -/
inductive Label
  | quiet
  | push
  | pop
  | action
  | sent (sig t : Nat)
  | wake (t : Nat)
  | park (p : Parking)
  | exit (code : Nat)
  | fork
  | switch
  | deliver (sig : Nat)
  | handlerReturn (esp0 : Nat)
  | report
  | unlock

/-- The current task is on its run queue. -/
structure OnQueue (s : Sched) : Prop where
  state : s.currTask.state = .running
  listNode : s.currTask.listNode = some (.runnable s.currTask.priority)

/-- What an effect does, and where it can happen. -/
inductive Effect (s : Sched) : Label → Sched → Prop
  | quiet {s' : Sched} (q : Quiet s s') : Effect s .quiet s'
  | push {fs : List Frame} (h : fs = [.schedule] ∨ fs = [.schedule, .yieldTail]) :
      Effect s .push (s.pushFrames fs)
  | pop {f : Frame} (hf : s.currTask.kstack.head? = some f)
      (h : f = .checkSignals ∨ f = .sleepTail ∨ f = .yieldTail) : Effect s .pop s.popFrame
  | action (a : Nat → Nat) :
      Effect s .action (s.setTask s.curr fun x => { x with signal := { x.signal with action := a } })
  | sent {sig t : Nat} {r : Int} {s' : Sched} (ht : t < s.tasksNr) (h : Sent s sig t r s') :
      Effect s (.sent sig t) s'
  | wake {t : Nat} {l : ListId} (hn : (s.tasks t).listNode = some l)
      (hl : l = .sleep ∨ ∃ w, l = .wait w) : Effect s (.wake t) (s.wake t)
  | park {p : Parking} (hk : s.currTask.kstack = []) (hq : OnQueue s)
      (hx : ∀ xs, p = .sleep xs → xs.Perm (s.curr :: s.lists .sleep)) : Effect s (.park p) (s.park p)
  | exit {code p : Nat} {s1 : Sched} (h1 : s.curr ≠ 1) (hq : OnQueue s)
      (hp : s.currTask.parent = some p) (hne : p ≠ s.curr)
      (hs : Sent (s.die code) ((s.die code).tasks s.curr).exitSignal p 0 s1) :
      Effect s (.exit code) ((s1.chain s.curr p).pushFrames [.schedule, .dead])
  | fork (pa : Nat) : Effect s .fork (s.fork pa)
  | switch {i t : Nat} (hk : s.currTask.kstack.head? = some .schedule)
      (hn : (s.tasks t).listNode = some (.runnable i)) (hr : (s.tasks t).state = .running) :
      Effect s .switch (s.switch i t)
  | deliver {sig : Nat} (h0 : 0 < sig) (h32 : sig < 32) (hq : OnQueue s)
      (hb : s.currTask.signal.sig &&& signalBit sig ≠ 0#32)
      (ha : s.currTask.signal.action sig ≠ SIG_DFL) : Effect s (.deliver sig) (s.deliver sig)
  | handlerReturn {esp0 : Nat} {st : SignalState} {rest : List SignalState}
      (hk : s.currTask.kstack = []) (hq : OnQueue s) (hst : s.currTask.sigstack = st :: rest)
      (hz : s.currTask.signal.sig = 0#32) :
      Effect s (.handlerReturn esp0) (s.handlerReturn esp0 st rest)
  | report {t : Nat} (hk : s.currTask.kstack.head? = some .waitTail)
      (hn : s.currTask.waitNotifyNext = some t) : Effect s .report (s.popFrame.report t)
  | unlock (hk : s.currTask.kstack.head? = some .lockTail) (hn : 0 < s.currTask.nCli) :
      Effect s .unlock (s.popFrame.setTask s.curr fun x => { x with nCli := x.nCli - 1 })

/-- A sequence of effects that `A` admits. -/
def Effects (A : Sched → Label → Prop) : Sched → Sched → Prop :=
  Relation.ReflTransGen fun a b => ∃ e, A a e ∧ Effect a e b

theorem Effects.single {e : Label} (hA : A s e) (h : Effect s e s') :
    Effects A s s' := Relation.ReflTransGen.single ⟨e, hA, h⟩

theorem Effects.trans {s1 : Sched} (h : Effects A s s1)
    (h' : Effects A s1 s') : Effects A s s' := Relation.ReflTransGen.trans h h'

theorem Effects.mono {A B : Sched → Label → Prop} (h : Effects A s s') (hAB : ∀ a e, A a e → B a e) :
    Effects B s s' := by
  induction h with
  | refl => exact .refl
  | tail _ hab ih =>
    obtain ⟨e, hA, he⟩ := hab
    exact ih.trans (.single (hAB _ e hA) he)

theorem Effects.invariant {I : Sched → Prop} (h : Effects A s s')
    (hI : ∀ a b e, I a → A a e → Effect a e b → I b) (h0 : I s) : I s' := by
  induction h with
  | refl => exact h0
  | tail _ hab ih =>
    obtain ⟨e, hA, he⟩ := hab
    exact hI _ _ e ih hA he

/-! ## The invariant all steps need -/

/-- A state and the list that goes with it. -/
def Task.Legal (x : Task) : Prop :=
  match x.state with
  | .running => x.listNode = some (.runnable x.priority)
  | .zombie => x.listNode = some .zombie
  | .uninterruptible => ∃ w, x.listNode = some (.wait w)
  | .interruptible => x.listNode = none ∨ x.listNode = some .sleep ∨ ∃ w, x.listNode = some (.wait w)
  | .notRunnable | .stopped => False

/-- Lists and states agree, every task but the first has an older parent, no
task has more interrupt sections open than its frames account for, and alarm
links lead to tasks. -/
structure Agree (s : Sched) : Prop where
  placed : s.placed
  legal : ∀ t, t < s.tasksNr → (s.tasks t).Legal
  fresh : ∀ t, s.tasksNr ≤ t → (s.tasks t).listNode = none
  curr : s.curr < s.tasksNr
  parent : ∀ t p, t < s.tasksNr → (s.tasks t).parent = some p → p < t
  orphan : ∀ t, t < s.tasksNr → (s.tasks t).parent = none → t = 0
  sections : ∀ t, t < s.tasksNr → (s.tasks t).nCli ≤ (s.tasks t).kstack.count .lockTail
  alarms : s.AlarmsValid

/-- The current task is running, unless it is about to switch away. -/
structure Inv (s : Sched) : Prop extends Agree s where
  running : s.currTask.kstack.head? ≠ some .schedule → s.currTask.state = .running

/-! ## Moves -/

namespace Sched

@[simp] theorem bury_self :
    (s.bury t).tasks t = { s.tasks t with state := .zombie, listNode := some .zombie } := by
  simp [bury]

@[simp] theorem bury_ne (h : u ≠ t) : (s.bury t).tasks u = s.tasks u := by simp [bury, h]

theorem placed.bury (h : s.placed) (hn : (s.tasks t).listNode = none) : (s.bury t).placed :=
  (h.setTask rfl).link (by simpa using hn) List.perm_append_comm

theorem die_self : (s.die code).tasks s.curr =
    { s.tasks s.curr with
      state := .zombie
      listNode := some .zombie
      exitCode := code
      exitSignal := if (s.tasks s.curr).exitSignal = 0 then SIGCHLD else (s.tasks s.curr).exitSignal } := by
  simp [die]

@[simp] theorem die_ne (h : u ≠ s.curr) : (s.die code).tasks u = s.tasks u := by simp [die, h]

theorem placed.die (h : s.placed) (hn : s.currTask.listNode = some (.runnable s.currTask.priority)) :
    (s.die code).placed := by
  have h1 : (s.dequeue s.curr).placed := h.dequeue hn
  have h2 : ((s.dequeue s.curr).bury s.curr).placed := h1.bury (by simp)
  have h3 : (((s.dequeue s.curr).bury s.curr).unlink .zombie s.curr).placed := h2.unlink (by simp)
  exact (h3.bury (by simp)).setTask rfl

theorem park_self (p : Parking) : (s.park p).tasks s.curr =
    { s.tasks s.curr with
      listNode := p.place
      state := p.state
      waitingChild := p.waits || (s.tasks s.curr).waitingChild
      nCli := (s.tasks s.curr).nCli + p.sections
      kstack := p.frames ++ (s.tasks s.curr).kstack } := by
  cases p <;> simp [park, parked, Parking.place]

@[simp] theorem park_ne (p : Parking) (h : u ≠ s.curr) : (s.park p).tasks u = s.tasks u := by
  cases p <;> simp [park, parked, h]
@[simp] theorem park_tasksNr (p : Parking) : (s.park p).tasksNr = s.tasksNr := by
  cases p <;> rfl
@[simp] theorem park_curr (p : Parking) : (s.park p).curr = s.curr := by
  cases p <;> rfl
theorem park_alarmHead (p : Parking) : (s.park p).alarmHead = s.alarmHead := by
  cases p <;> rfl

theorem placed.park {p : Parking} (h : s.placed) (hq : OnQueue s)
    (hx : ∀ xs, p = .sleep xs → xs.Perm (s.curr :: s.lists .sleep)) : (s.park p).placed := by
  have h1 : (s.dequeue s.curr).placed := h.dequeue hq.listNode
  have hn : ((s.dequeue s.curr).tasks s.curr).listNode = none := by simp
  refine setTask ?_ rfl
  cases p with
  | pause => exact h1
  | wait => exact h1
  | sleep xs => exact h1.link hn (hx xs rfl)
  | on w b => exact h1.link hn List.perm_append_comm
  | lock w => exact h1.link hn List.perm_append_comm

theorem placed.fork (h : s.placed) (hf : (s.tasks s.tasksNr).listNode = none) :
    (s.fork pa).placed := by
  refine placed.enqueue (Placed.congr h fun u => ?_) (by simp [Task.copyFor])
  by_cases hu : u = s.tasksNr
  · subst hu
    simp [hf, Task.copyFor]
  · simp [hu]

theorem fork_new : (s.fork pa).tasks s.tasksNr =
    { s.currTask.copyFor s.curr pa with
      state := .running
      listNode := some (.runnable s.currTask.priority) } := by
  simp [fork, Task.copyFor]

@[simp] theorem fork_ne {pa : Nat} (h : u ≠ s.tasksNr) : (s.fork pa).tasks u = s.tasks u := by
  simp [fork, h]
@[simp] theorem die_tasksNr : (s.die code).tasksNr = s.tasksNr := rfl

@[simp] theorem chain_curr {p : Nat} : (s.chain t p).curr = s.curr := by
  unfold chain
  split <;> rfl

end Sched

/-! ## What a change leaves alone -/

namespace Sched

/-- A part of the tasks that a change leaves alone. -/
theorem setTask_part (π : Task → α)
    (h : π (f (s.tasks t)) = π (s.tasks t)) : π ((s.setTask t f).tasks u) = π (s.tasks u) := by
  rw [setTask_apply]
  split
  · next hu => rw [h, hu]
  · rfl

theorem chain_part (π : Task → α) {p : Nat} (h : ∀ (x : Task) n, π { x with waitNotifyNext := n } = π x) :
    π ((s.chain t p).tasks u) = π (s.tasks u) := by
  unfold chain
  split
  · rw [setTask_part π (h _ _), setTask_part π (h _ _)]
  · rfl

/-- A dead task keeps what is not of its end. -/
theorem die_part (π : Task → α) {code : Nat}
    (h : ∀ (x : Task) st l c k, π { x with state := st, listNode := l, exitCode := c, exitSignal := k } = π x) :
    π ((s.die code).tasks u) = π (s.tasks u) := by
  by_cases hu : u = s.curr
  · rw [hu, die_self]
    exact h ..
  · rw [die_ne hu]

theorem switch_part (π : Task → α)
    (h : ∀ (x : Task) l c k, π { x with listNode := l, counter := c, kstack := k } = π x) :
    π ((s.switch i t).tasks u) = π (s.tasks u) := by
  show π (((s.rotate i t).setTask s.curr fun x => { x with kstack := .checkSignals :: x.kstack.tail }).tasks u) = _
  rw [setTask_part π (h ((s.rotate i t).tasks s.curr) _ _ _)]
  by_cases hu : u = t
  · rw [hu, rotate_self]
    exact h ..
  · rw [rotate_ne hu]

theorem deliver_ne (h : u ≠ s.curr) : (s.deliver sig).tasks u = s.tasks u := by
  simp [deliver, enterHandler, h]

theorem deliver_part (π : Task → α) (h : ∀ (x : Task) i st f, π { x with signal := i, sigstack := st, tf := f } = π x) :
    π ((s.deliver sig).tasks u) = π (s.tasks u) := by
  by_cases hu : u = s.curr
  · subst hu
    simp only [deliver, enterHandler, setTask_curr, setTask_self]
    exact h ..
  · rw [deliver_ne hu]

end Sched

/-! ## Effects keep the invariant -/

theorem Task.Legal.congr {x y : Task} (hx : x.Legal) (hs : y.state = x.state)
    (hn : y.listNode = x.listNode) (hp : y.priority = x.priority) : y.Legal := by
  unfold Task.Legal at *
  rw [hs, hn, hp]
  exact hx

theorem Inv.onQueue (I : Inv s) (h : s.currTask.kstack.head? ≠ some .schedule) : OnQueue s := by
  have hr := I.running h
  have hl := I.legal s.curr I.curr
  unfold Task.Legal at hl
  have hr' : (s.tasks s.curr).state = .running := hr
  rw [hr'] at hl
  exact ⟨hr, hl⟩

theorem Parking.legal (p : Parking) (x : Task) (b : Bool) (k : Int) (fs : List Frame) :
    { x with listNode := p.place, state := p.state, waitingChild := b, nCli := k, kstack := fs : Task }.Legal := by
  cases p with
  | on w b => cases b <;> simp [Task.Legal, Parking.state, Parking.place]
  | _ => simp [Task.Legal, Parking.state, Parking.place]

theorem Agree.quiet (G : Agree s) (q : Quiet s s') : Agree s' where
  placed := by
    show Placed _ _
    rw [q.lists]
    exact Placed.congr G.placed fun u => (q.task u).listNode
  legal t ht := (G.legal t (q.tasksNr ▸ ht)).congr (q.task t).state (q.task t).listNode (q.task t).priority
  fresh t ht := (q.task t).listNode.trans (G.fresh t (q.tasksNr ▸ ht))
  curr := by
    rw [q.curr, q.tasksNr]
    exact G.curr
  parent t p ht hp := G.parent t p (q.tasksNr ▸ ht) ((q.task t).parent ▸ hp)
  orphan t ht hp := G.orphan t (q.tasksNr ▸ ht) ((q.task t).parent ▸ hp)
  sections t ht := by
    rw [(q.task t).nCli, (q.task t).kstack]
    exact G.sections t (q.tasksNr ▸ ht)
  alarms := q.alarms G.alarms

theorem Inv.quiet (I : Inv s) (q : Quiet s s') : Inv s' where
  toAgree := I.toAgree.quiet q
  running := by
    unfold currTask
    rw [q.curr, (q.task _).kstack, (q.task _).state]
    exact I.running

section

variable (G : Agree s)

include G

/-- One task has changed. -/
theorem Agree.update (hp : s'.placed) (hn : s'.tasksNr = s.tasksNr)
    (hc : s'.curr = s.curr) (ho : ∀ u, u ≠ t → s'.tasks u = s.tasks u) (ht : t < s.tasksNr)
    (hl : (s'.tasks t).Legal) (hpar : (s'.tasks t).parent = (s.tasks t).parent)
    (hs : (s'.tasks t).nCli ≤ (s'.tasks t).kstack.count .lockTail)
    (hh : s'.alarmHead = s.alarmHead) (ha : (s'.tasks t).alarmListNode = (s.tasks t).alarmListNode) :
    Agree s' where
  placed := hp
  legal u hu := by
    by_cases h : u = t
    · rw [h]
      exact hl
    · rw [ho u h]
      exact G.legal u (hn ▸ hu)
  fresh u hu := by
    rw [ho u (by omega)]
    exact G.fresh u (hn ▸ hu)
  curr := by
    rw [hc, hn]
    exact G.curr
  parent u p hu hp := by
    refine G.parent u p (hn ▸ hu) ?_
    by_cases h : u = t
    · rw [h, ← hpar, ← h]
      exact hp
    · rw [← ho u h]
      exact hp
  orphan u hu hp := by
    refine G.orphan u (hn ▸ hu) ?_
    by_cases h : u = t
    · rw [h, ← hpar, ← h]
      exact hp
    · rw [← ho u h]
      exact hp
  sections u hu := by
    by_cases h : u = t
    · rw [h]
      exact hs
    · rw [ho u h]
      exact G.sections u (hn ▸ hu)
  alarms := G.alarms.congr hn hh fun u => by
    by_cases h : u = t
    · rw [h, ha]
    · rw [ho u h]

theorem Agree.wake (ht : t < s.tasksNr) : Agree (s.wake t) :=
  G.update (t := t) G.placed.wake wake_tasksNr wake_curr (fun u hu => wake_ne hu) ht
    (by simp [Task.Legal]) (by simp) (by simpa using G.sections t ht) wake_alarmHead (by simp)

theorem Agree.accept (ht : t < s.tasksNr) : Agree (s.accept sig t) :=
  G.update (t := t) G.placed.accept rfl rfl (fun u hu => accept_ne hu) ht
    (by simpa [Task.Legal] using G.legal t ht) (by simp) (by simpa using G.sections t ht) rfl (by simp)

theorem Agree.sent {r : Int} (ht : t < s.tasksNr) (h : Sent s sig t r s') : Agree s' := by
  cases h with
  | invalid => exact G
  | refused => exact G
  | noted => exact G.accept ht
  | woken => exact (G.accept ht).wake ht

theorem Agree.lt_of_listNode (h : (s.tasks t).listNode = some l) : t < s.tasksNr := by
  by_contra hn
  rw [G.fresh t (by omega)] at h
  cases h

/-- A task changes, but not its state or list. -/
theorem Agree.setTask (ht : t < s.tasksNr) (hst : (f (s.tasks t)).state = (s.tasks t).state)
    (hn : (f (s.tasks t)).listNode = (s.tasks t).listNode) (hp : (f (s.tasks t)).priority = (s.tasks t).priority)
    (hpar : (f (s.tasks t)).parent = (s.tasks t).parent)
    (hs : (f (s.tasks t)).nCli ≤ (f (s.tasks t)).kstack.count .lockTail)
    (ha : (f (s.tasks t)).alarmListNode = (s.tasks t).alarmListNode) : Agree (s.setTask t f) := by
  refine G.update (t := t) (G.placed.setTask hn) rfl rfl (fun u hu => setTask_ne f hu) ht ?_ ?_ ?_ rfl ?_
  · rw [setTask_self]
    exact (G.legal t ht).congr hst hn hp
  · rw [setTask_self]
    exact hpar
  · rw [setTask_self]
    exact hs
  · rw [setTask_self]
    exact ha

theorem Agree.die (hq : OnQueue s) : Agree (s.die code) :=
  G.update (t := s.curr) (G.placed.die hq.listNode) rfl rfl (fun u hu => die_ne hu) G.curr
    (by simp [die_self, Task.Legal]) (by simp [die_self])
    (by simpa [die_self] using G.sections s.curr G.curr) rfl (by simp [die_self])

theorem Agree.chain {p : Nat} (ht : t < s.tasksNr) (hp : p < s.tasksNr) : Agree (s.chain t p) := by
  unfold Sched.chain
  split
  · have h1 := G.setTask (f := fun x => { x with waitNotifyNext := (s.tasks p).waitNotifyNext }) ht rfl rfl rfl rfl
      (G.sections t ht) rfl
    exact h1.setTask hp rfl rfl rfl rfl (h1.sections p hp) rfl
  · exact G

theorem Agree.park {p : Parking} (hk : s.currTask.kstack = []) (hq : OnQueue s)
    (hx : ∀ xs, p = .sleep xs → xs.Perm (s.curr :: s.lists .sleep)) : Agree (s.park p) := by
  refine G.update (t := s.curr) (G.placed.park hq hx) (park_tasksNr p) (park_curr p)
    (fun u hu => park_ne p hu) G.curr ?_ ?_ ?_ (park_alarmHead p) ?_
  · rw [park_self]
    exact p.legal ..
  · rw [park_self]
  · have h0 := G.sections s.curr G.curr
    rw [hk] at h0
    rw [park_self, hk]
    cases p <;> simp [Parking.sections, Parking.frames] at * <;> omega
  · rw [park_self]

theorem Agree.fork : Agree (s.fork pa) where
  placed := G.placed.fork (G.fresh _ (Nat.le_refl _))
  legal u hu := by
    have hu' : u < s.tasksNr + 1 := hu
    by_cases h : u = s.tasksNr
    · subst h
      simp [fork_new, Task.Legal, Task.copyFor]
    · rw [fork_ne h]
      exact G.legal u (by omega)
  fresh u hu := by
    have hu' : s.tasksNr + 1 ≤ u := hu
    rw [fork_ne (by omega)]
    exact G.fresh u (by omega)
  curr := Nat.lt_succ_of_lt G.curr
  parent u p hu hp := by
    have hu' : u < s.tasksNr + 1 := hu
    by_cases h : u = s.tasksNr
    · subst h
      simp [fork_new, Task.copyFor] at hp
      rw [← hp]
      exact G.curr
    · rw [fork_ne h] at hp
      exact G.parent u p (by omega) hp
  orphan u hu hp := by
    have hu' : u < s.tasksNr + 1 := hu
    by_cases h : u = s.tasksNr
    · subst h
      simp [fork_new, Task.copyFor] at hp
    · rw [fork_ne h] at hp
      exact G.orphan u (by omega) hp
  sections u hu := by
    have hu' : u < s.tasksNr + 1 := hu
    by_cases h : u = s.tasksNr
    · subst h
      simp [fork_new, Task.copyFor]
    · rw [fork_ne h]
      exact G.sections u (by omega)
  alarms := by
    -- the new node is a copy of the parent's
    have hv : ∀ r, s.ValidRef r → (s.fork pa).ValidRef r := by
      intro r hr
      cases r with
      | head => trivial
      | task t => exact Nat.lt_succ_of_lt hr
    have hnode : ∀ n, s.ValidNode n → (s.fork pa).ValidNode n :=
      fun n hn => ⟨fun r hr => hv r (hn.1 r hr), fun r hr => hv r (hn.2 r hr)⟩
    intro r hr
    cases r with
    | head => exact hnode _ (G.alarms .head trivial)
    | task t =>
      have ht : t < s.tasksNr + 1 := hr
      by_cases h : t = s.tasksNr
      · have hc := hnode _ (G.alarms (.task s.curr) G.curr)
        subst h
        rw [nodeAt, fork_new]
        exact hc
      · rw [nodeAt, fork_ne h]
        exact hnode _ (G.alarms (.task t) (show t < s.tasksNr by omega))

theorem Agree.rotate (hn : (s.tasks t).listNode = some (.runnable i)) :
    Agree (s.rotate i t) := by
  have ht := G.lt_of_listNode hn
  refine G.update (t := t) (G.placed.rotate hn) rfl rfl (fun u hu => rotate_ne hu) ht ?_ ?_ ?_ rfl ?_
  · refine (G.legal t ht).congr ?_ ?_ ?_ <;> simp [hn]
  · simp
  · simpa using G.sections t ht
  · simp

theorem Agree.switch (hk : s.currTask.kstack.head? = some .schedule)
    (hn : (s.tasks t).listNode = some (.runnable i)) : Agree (s.switch i t) := by
  have G1 := G.rotate hn
  have hks : ((s.rotate i t).tasks s.curr).kstack = (s.tasks s.curr).kstack := by
    by_cases h : s.curr = t
    · rw [h]; simp
    · rw [rotate_ne h]
  have G2 : Agree ((s.rotate i t).setTask s.curr fun x => { x with kstack := .checkSignals :: x.kstack.tail }) := by
    refine G1.setTask G.curr rfl rfl rfl rfl ?_ rfl
    have h1 := G1.sections s.curr G.curr
    show ((s.rotate i t).tasks s.curr).nCli ≤ _
    rw [hks] at h1 ⊢
    cases hkc : (s.tasks s.curr).kstack with
    | nil => rw [hkc] at hk; cases hk
    | cons f fs =>
      rw [hkc] at h1 hk
      cases hk
      simpa using h1
  exact ⟨G2.placed, G2.legal, G2.fresh, G.lt_of_listNode hn, G2.parent, G2.orphan, G2.sections, G2.alarms⟩

end

theorem Inv.wake (I : Inv s) (ht : t < s.tasksNr) : Inv (s.wake t) where
  toAgree := I.toAgree.wake ht
  running := by
    rw [currTask, wake_curr]
    by_cases h : s.curr = t
    · simp [h]
    · rw [wake_ne h]
      exact I.running

theorem Inv.sent {r : Int} (I : Inv s) (ht : t < s.tasksNr) (h : Sent s sig t r s') : Inv s' := by
  have hacc : Inv (s.accept sig t) := by
    refine ⟨I.toAgree.accept ht, ?_⟩
    rw [currTask, accept_curr]
    by_cases h : s.curr = t
    · rw [← h, accept_self]
      exact I.running
    · rw [accept_ne h]
      exact I.running
  cases h with
  | invalid => exact I
  | refused => exact I
  | noted => exact hacc
  | woken => exact hacc.wake ht

theorem Agree.onlyTask (G : Agree s) (hl : s'.lists = s.lists) (hn : s'.tasksNr = s.tasksNr)
    (hc : s'.curr = s.curr) (ho : ∀ u, u ≠ t → s'.tasks u = s.tasks u) (ht : t < s.tasksNr)
    (hst : (s'.tasks t).state = (s.tasks t).state) (hln : (s'.tasks t).listNode = (s.tasks t).listNode)
    (hp : (s'.tasks t).priority = (s.tasks t).priority) (hpar : (s'.tasks t).parent = (s.tasks t).parent)
    (hs : (s'.tasks t).nCli ≤ (s'.tasks t).kstack.count .lockTail) (hh : s'.alarmHead = s.alarmHead)
    (ha : (s'.tasks t).alarmListNode = (s.tasks t).alarmListNode) : Agree s' := by
  refine G.update (t := t) ?_ hn hc ho ht ((G.legal t ht).congr hst hln hp) hpar hs hh ha
  show Placed _ _
  rw [hl]
  refine Placed.congr G.placed fun u => ?_
  by_cases h : u = t
  · rw [h, hln]
  · rw [ho u h]

/-- The current task changes and stays on its queue. -/
theorem Inv.setCurr (I : Inv s) (hq : OnQueue s) (hst : (f (s.tasks s.curr)).state = (s.tasks s.curr).state)
    (hn : (f (s.tasks s.curr)).listNode = (s.tasks s.curr).listNode)
    (hp : (f (s.tasks s.curr)).priority = (s.tasks s.curr).priority)
    (hpar : (f (s.tasks s.curr)).parent = (s.tasks s.curr).parent)
    (hs : (f (s.tasks s.curr)).nCli ≤ (f (s.tasks s.curr)).kstack.count .lockTail)
    (ha : (f (s.tasks s.curr)).alarmListNode = (s.tasks s.curr).alarmListNode) :
    Inv (s.setTask s.curr f) where
  toAgree := I.toAgree.setTask I.curr hst hn hp hpar hs ha
  running _ := by
    rw [currTask, setTask_curr, setTask_self, hst]
    exact hq.state

/-- The current task gets frames, the first of which is `schedule`. -/
theorem Agree.pushSchedule {fs : List Frame} (G : Agree s) (hl : (Frame.schedule :: fs).count .lockTail = 0) :
    Inv (s.pushFrames (.schedule :: fs)) where
  toAgree := by
    refine G.setTask G.curr rfl rfl rfl rfl ?_ rfl
    show _ ≤ ((List.count Frame.lockTail (Frame.schedule :: fs ++ (s.tasks s.curr).kstack) : Nat) : Int)
    rw [List.count_append, hl, Nat.zero_add]
    exact G.sections s.curr G.curr
  running h := by simp [Sched.pushFrames, Sched.currTask] at h

theorem Inv.popFrame (I : Inv s) {f : Frame} (hf : s.currTask.kstack.head? = some f)
    (hl : f ≠ .lockTail) (hs : f ≠ .schedule) : Inv s.popFrame := by
  have hq : OnQueue s := I.onQueue (by rw [hf]; simpa using hs)
  refine I.setCurr hq rfl rfl rfl rfl ?_ rfl
  have h0 := I.sections s.curr I.curr
  have hf' : (s.tasks s.curr).kstack.head? = some f := hf
  cases hk : (s.tasks s.curr).kstack with
  | nil => rw [hk] at hf'; cases hf'
  | cons g fs =>
    rw [hk] at hf' h0
    cases hf'
    simpa [hk, List.count_cons_of_ne hl] using h0

theorem Inv.effect {e : Label} (I : Inv s) (h : Effect s e s') : Inv s' := by
  cases h with
  | quiet q => exact I.quiet q
  | push h => rcases h with rfl | rfl <;> exact I.toAgree.pushSchedule rfl
  | pop hf h => rcases h with rfl | rfl | rfl <;> exact I.popFrame hf (by decide) (by decide)
  | action a => 
    refine ⟨I.toAgree.setTask I.curr rfl rfl rfl rfl (I.sections s.curr I.curr) rfl, ?_⟩
    simpa [Sched.currTask] using I.running
  | sent ht h => exact I.sent ht h
  | wake hn _ => exact I.wake (I.lt_of_listNode hn)
  | park hk hq hx =>
    rename_i p
    refine ⟨I.toAgree.park hk hq hx, fun h => ?_⟩
    rw [Sched.currTask, Sched.park_curr, Sched.park_self] at h
    cases p <;> simp [Parking.frames] at h
  | @exit code p s1 h1 hq hp hne hs =>
    have hlt : p < s.tasksNr := Nat.lt_trans (I.parent s.curr p I.curr hp) I.curr
    have G1 : Agree s1 := (I.toAgree.die hq).sent hlt hs
    have hn : s1.tasksNr = s.tasksNr := hs.tasksNr
    exact (G1.chain (hn ▸ I.curr) (hn ▸ hlt)).pushSchedule rfl
  | fork pa =>
    refine ⟨I.toAgree.fork, ?_⟩
    show ((s.fork pa).tasks s.curr).kstack.head? ≠ _ → ((s.fork pa).tasks s.curr).state = _
    rw [Sched.fork_ne (Nat.ne_of_lt I.curr)]
    exact I.running
  | @switch i t hk hn hr =>
    refine ⟨I.toAgree.switch hk hn, fun _ => ?_⟩
    show ((s.switch i t).tasks t).state = _
    by_cases h : t = s.curr
    · subst h
      simpa [Sched.switch] using hr
    · simpa [Sched.switch, h] using hr
  | deliver h0 h32 hq hb ha =>
    refine ⟨I.toAgree.onlyTask (t := s.curr) rfl rfl rfl (fun u hu => by simp [Sched.deliver, Sched.enterHandler, hu]) I.curr ?_ ?_ ?_ ?_ ?_ rfl ?_, fun _ => ?_⟩
    all_goals try simp [Sched.deliver, Sched.enterHandler]
    · exact I.sections s.curr I.curr
    · simpa [Sched.deliver, Sched.enterHandler, Sched.currTask] using hq.state
  | handlerReturn hk hq hst hz => 
    refine I.setCurr hq rfl rfl rfl rfl ?_ rfl
    have h0 := I.sections s.curr I.curr
    rw [show (s.tasks s.curr).kstack = [] from hk] at h0
    simp at h0 ⊢
    omega
  | report hk hn =>
    have I1 : Inv s.popFrame := I.popFrame hk (by decide) (by decide)
    have hq : OnQueue s := I.onQueue (by rw [hk]; simp)
    refine ⟨I1.toAgree.onlyTask (t := s.curr) rfl rfl rfl (fun u hu => by simp [Sched.report, hu, Sched.popFrame])
      I.curr ?_ ?_ ?_ ?_ ?_ rfl ?_, fun _ => ?_⟩
    all_goals try simp [Sched.report, Sched.popFrame]
    · simpa [Sched.popFrame] using I1.sections s.curr I.curr
    · simpa [Sched.report, Sched.popFrame, Sched.currTask] using hq.state
  | unlock hk hn =>
    have hq : OnQueue s := I.onQueue (by rw [hk]; simp)
    rw [Sched.popFrame, Sched.setTask_setTask]
    refine I.setCurr hq rfl rfl rfl rfl ?_ rfl
    have h0 := I.sections s.curr I.curr
    have hk' : (s.tasks s.curr).kstack.head? = some .lockTail := hk
    cases hc : (s.tasks s.curr).kstack with
    | nil => rw [hc] at hk'; cases hk'
    | cons g fs =>
      rw [hc] at hk' h0
      cases hk'
      simp [hc] at h0 ⊢
      omega

end MakarnaX
