import MakarnaX.Task.Model
import MakarnaX.Library.Placement

/-!
# What the task functions do

One equation per function: the state it leaves, under the condition that its
assertions ask for.  A task moves from list to list as a whole, so the states
between are named here and nowhere else: `enqueue` and `dequeue` for the run
queues, `wake` for a task that leaves the list it waits in, `park` for the
current task when it stops running.
-/

namespace MakarnaX

open Library Function Sched

variable {s s' : Sched} {t u w sig k : Nat} {l : ListId} {x : BitVec 32}

/-! ## Signal bits -/

theorem getLsbD_signalBit (k i : Nat) : (signalBit k).getLsbD i = decide (i = k % 32) := by
  have hk : k % 32 < 32 := Nat.mod_lt _ (by decide)
  have h : signalBit k = BitVec.twoPow 32 (k % 32) := (BitVec.twoPow_eq ..).symm
  rw [h, BitVec.getLsbD_twoPow]
  by_cases hi : i = k % 32
  · simp [hi, hk]
  · simp [hi, Ne.symm hi]

theorem getLsbD_and_not_signalBit (x : BitVec 32) (k i : Nat) :
    (x &&& ~~~ signalBit k).getLsbD i = (x.getLsbD i && !decide (i = k % 32)) := by
  rw [BitVec.getLsbD_and, BitVec.getLsbD_not, getLsbD_signalBit]
  by_cases hi : i < 32
  · simp [hi]
  · rw [BitVec.getLsbD_of_ge x i (Nat.le_of_not_lt hi)]
    simp

theorem and_signalBit_eq_zero :
    x &&& signalBit k = 0#32 ↔ x.getLsbD (k % 32) = false := by
  have hk : k % 32 < 32 := Nat.mod_lt _ (by decide)
  constructor
  · intro h
    have hb := congrArg (BitVec.getLsbD · (k % 32)) h
    simpa [getLsbD_signalBit] using hb
  · intro h
    apply BitVec.eq_of_getLsbD_eq
    intro i hi
    by_cases hik : i = k % 32
    · simp [hik, h]
    · simp [getLsbD_signalBit, hik]

theorem and_signalBit_ne_zero :
    x &&& signalBit k ≠ 0#32 ↔ x.getLsbD (k % 32) = true := by
  rw [Ne, and_signalBit_eq_zero]
  simp

theorem or_signalBit_of_and_ne (h : x &&& signalBit k ≠ 0#32) : x ||| signalBit k = x := by
  rw [and_signalBit_ne_zero] at h
  apply BitVec.eq_of_getLsbD_eq
  intro i _
  by_cases hik : i = k % 32
  · simp [hik, h]
  · simp [getLsbD_signalBit, hik]

namespace Sched

/-! ## One task changed -/

@[simp] theorem setTask_self (f : Task → Task) : (s.setTask t f).tasks t = f (s.tasks t) :=
  update_self ..

@[simp] theorem setTask_ne (f : Task → Task) (h : u ≠ t) : (s.setTask t f).tasks u = s.tasks u :=
  update_of_ne h ..

theorem setTask_apply (f : Task → Task) :
    (s.setTask t f).tasks u = if u = t then f (s.tasks t) else s.tasks u := by
  simp [setTask, update_apply]

@[simp] theorem setTask_lists (f : Task → Task) : (s.setTask t f).lists = s.lists := rfl
@[simp] theorem setTask_curr (f : Task → Task) : (s.setTask t f).curr = s.curr := rfl
@[simp] theorem setTask_tasksNr (f : Task → Task) : (s.setTask t f).tasksNr = s.tasksNr := rfl
@[simp] theorem setTask_entered (f : Task → Task) : (s.setTask t f).entered = s.entered := rfl
@[simp] theorem setTask_reported (f : Task → Task) : (s.setTask t f).reported = s.reported := rfl

@[simp] theorem link_self {xs : List Nat} :
    (s.link l t xs).tasks t = { s.tasks t with listNode := some l } := update_self ..
@[simp] theorem link_ne {xs : List Nat} (h : u ≠ t) : (s.link l t xs).tasks u = s.tasks u :=
  update_of_ne h ..
@[simp] theorem link_lists {xs : List Nat} :
    (s.link l t xs).lists = update s.lists l xs := rfl
@[simp] theorem link_curr {xs : List Nat} : (s.link l t xs).curr = s.curr := rfl

@[simp] theorem unlink_self : (s.unlink l t).tasks t = { s.tasks t with listNode := none } :=
  update_self ..
@[simp] theorem unlink_ne (h : u ≠ t) : (s.unlink l t).tasks u = s.tasks u :=
  update_of_ne h ..
@[simp] theorem unlink_lists :
    (s.unlink l t).lists = update s.lists l ((s.lists l).erase t) := rfl
@[simp] theorem unlink_curr : (s.unlink l t).curr = s.curr := rfl

/-! ## Moves -/

/-- `add_to_runnable_list`. -/
def enqueue (s : Sched) (t : Nat) : Sched :=
  (s.setTask t fun x => { x with state := .running }).link (.runnable (s.tasks t).priority) t
    (s.lists (.runnable (s.tasks t).priority) ++ [t])

/-- `remove_from_runnable_list`. -/
def dequeue (s : Sched) (t : Nat) : Sched := s.unlink (.runnable (s.tasks t).priority) t

/-- Out of the list `t` is in, if it is in one. -/
def leave (s : Sched) (t : Nat) : Sched :=
  match (s.tasks t).listNode with
  | none => s
  | some l => s.unlink l t

/-- Out of the list `t` waits in and into a run queue. -/
def wake (s : Sched) (t : Nat) : Sched := (s.leave t).enqueue t

/-- The same tasks with other alarm nodes. -/
def withAlarms (s : Sched) (head : AlarmNode) (size : Nat) (nodes : Nat → AlarmNode) : Sched :=
  { s with alarmHead := head, alarmSize := size, tasks := fun t => { s.tasks t with alarmListNode := nodes t } }

/-! ## Lists -/

/-- Every list holds the tasks that say they are in it. -/
def placed (s : Sched) : Prop := Placed s.lists fun t => (s.tasks t).listNode

theorem placed.setTask (h : s.placed) {f : Task → Task}
    (hf : (f (s.tasks t)).listNode = (s.tasks t).listNode) : (s.setTask t f).placed := by
  refine Placed.congr h fun u => ?_
  rw [setTask_apply]
  split
  · next hu => rw [hf, hu]
  · rfl

theorem placed.link (h : s.placed) {xs : List Nat} (hn : (s.tasks t).listNode = none)
    (hx : xs.Perm (t :: s.lists l)) : (s.link l t xs).placed :=
  Placed.insert h hn hx (by simp) fun u hu => by simp [hu]

theorem placed.unlink (h : s.placed) (hn : (s.tasks t).listNode = some l) : (s.unlink l t).placed :=
  Placed.remove h hn (by simp) fun u hu => by simp [hu]

theorem setTask_setTask (f g : Task → Task) : (s.setTask t f).setTask t g = s.setTask t (g ∘ f) := by
  simp [setTask]

@[simp] theorem enqueue_self : (s.enqueue t).tasks t =
    { s.tasks t with state := .running, listNode := some (.runnable (s.tasks t).priority) } := by
  simp [enqueue]

@[simp] theorem enqueue_ne (h : u ≠ t) : (s.enqueue t).tasks u = s.tasks u := by simp [enqueue, h]
@[simp] theorem enqueue_curr : (s.enqueue t).curr = s.curr := rfl
@[simp] theorem enqueue_accepted : (s.enqueue t).accepted = s.accepted := rfl
@[simp] theorem enqueue_entered : (s.enqueue t).entered = s.entered := rfl

theorem placed.enqueue (h : s.placed) (hn : (s.tasks t).listNode = none) : (s.enqueue t).placed :=
  (h.setTask rfl).link (by simpa using hn) List.perm_append_comm

@[simp] theorem wake_self : (s.wake t).tasks t =
    { s.tasks t with state := .running, listNode := some (.runnable (s.tasks t).priority) } := by
  unfold wake leave
  split <;> simp

@[simp] theorem wake_ne (h : u ≠ t) : (s.wake t).tasks u = s.tasks u := by
  unfold wake leave
  split <;> simp [h]

@[simp] theorem wake_curr : (s.wake t).curr = s.curr := by
  unfold wake leave
  split <;> rfl

@[simp] theorem wake_tasksNr : (s.wake t).tasksNr = s.tasksNr := by
  unfold wake leave
  split <;> rfl

theorem wake_alarmHead : (s.wake t).alarmHead = s.alarmHead := by
  unfold wake leave
  split <;> rfl

theorem placed.wake (h : s.placed) : (s.wake t).placed := by
  unfold Sched.wake leave
  split
  · next hn => exact h.enqueue hn
  · next l hn => exact (h.unlink hn).enqueue (by simp)

@[simp] theorem dequeue_self : (s.dequeue t).tasks t = { s.tasks t with listNode := none } := unlink_self
@[simp] theorem dequeue_ne (h : u ≠ t) : (s.dequeue t).tasks u = s.tasks u := unlink_ne h

theorem placed.dequeue (h : s.placed) (hn : (s.tasks t).listNode = some (.runnable (s.tasks t).priority)) :
    (s.dequeue t).placed := h.unlink hn

@[simp] theorem accept_self : (s.accept sig t).tasks t =
    { s.tasks t with signal := { (s.tasks t).signal with sig := (s.tasks t).signal.sig ||| signalBit sig } } :=
  update_self ..

@[simp] theorem accept_ne (h : u ≠ t) : (s.accept sig t).tasks u = s.tasks u :=
  update_of_ne h ..
@[simp] theorem accept_curr : (s.accept sig t).curr = s.curr := rfl

theorem placed.accept (h : s.placed) : (s.accept sig t).placed := by
  refine Placed.congr h fun u => ?_
  by_cases hu : u = t
  · rw [hu, accept_self]
  · rw [accept_ne hu]

end Sched

/-! ## Lists -/

theorem pushBack_eq (h : (s.tasks t).listNode = none) :
    pushBack l t s = .ok (true, s.link l t (s.lists l ++ [t])) := by
  simp [pushBack, h]

theorem pushBack_busy (h : (s.tasks t).listNode ≠ none) : pushBack l t s = .ok (false, s) := by
  simp [pushBack, h]

theorem eraseTask_eq (h : (s.tasks t).listNode = some l) :
    eraseTask l t s = .ok (true, s.unlink l t) := by
  simp [eraseTask, h]

/-! ## The run queues -/

theorem addToRunnableList_eq (h : (s.tasks t).listNode = none) :
    addToRunnableList t s = .ok ((), s.enqueue t) := by
  simp [addToRunnableList, ASSERT, check_run, h, modTask, pushBack]
  rfl

theorem removeFromRunnableList_eq (h : (s.tasks t).listNode = some (.runnable (s.tasks t).priority))
    (hr : (s.tasks t).state = .running) : removeFromRunnableList t s = .ok ((), s.dequeue t) := by
  simp [removeFromRunnableList, ASSERT, check_run, h, hr, eraseTask]
  rfl

theorem firstPriorityLevel_some {lists : ListId → List Nat} {n i : Nat}
    (h : firstPriorityLevel lists n = some i) : lists (.runnable i) ≠ [] := by
  induction n with
  | zero => cases h
  | succ n ih =>
    rw [firstPriorityLevel] at h
    split at h
    · next hl =>
      cases h
      exact List.ne_nil_of_length_pos hl
    · exact ih h

/-- The first of queue `i` goes to the end and gets a new time slice. -/
def Sched.rotate (s : Sched) (i t : Nat) : Sched :=
  ((s.unlink (.runnable i) t).link (.runnable i) t ((s.lists (.runnable i)).erase t ++ [t])).setTask t
    fun x => { x with counter := x.priority }

theorem findRunnableTask_cases (hp : s.placed) :
    findRunnableTask s = .ok (none, s) ∨
      ∃ i t, (s.tasks t).listNode = some (.runnable i) ∧
        findRunnableTask s =
          if (s.tasks t).state = .running then .ok (some t, s.rotate i t)
          else .error (.assert "task_next->state == Task::State_running") := by
  cases hf : firstPriorityLevel s.lists 40 with
  | none => exact .inl (by simp [findRunnableTask, hf])
  | some i =>
    cases hl : s.lists (.runnable i) with
    | nil => exact absurd hl (firstPriorityLevel_some hf)
    | cons t ts =>
      have hn : (s.tasks t).listNode = some (.runnable i) :=
        (hp.mem t (.runnable i)).mp (by rw [hl]; exact List.mem_cons_self)
      refine .inr ⟨i, t, hn, ?_⟩
      simp [findRunnableTask, hf, hl, popFront, eraseTask, hn, ASSERT, check_run, check_map_apply,
        pushBack, modTask, rotate]

namespace Sched

@[simp] theorem rotate_self {i : Nat} : (s.rotate i t).tasks t =
    { s.tasks t with listNode := some (.runnable i), counter := (s.tasks t).priority } := by
  simp [rotate]

@[simp] theorem rotate_ne {i : Nat} (h : u ≠ t) : (s.rotate i t).tasks u = s.tasks u := by
  simp [rotate, h]

theorem placed.rotate {i : Nat} (h : s.placed) (hn : (s.tasks t).listNode = some (.runnable i)) :
    (s.rotate i t).placed := by
  have h1 : (s.unlink (.runnable i) t).placed := h.unlink hn
  refine setTask (h1.link (by simp) ?_) rfl
  simp

end Sched

/-! ## Sending signals -/

/-- The four ways `send_signal` returns. -/
inductive Sent (s : Sched) (sig t : Nat) : Int → Sched → Prop
  | invalid (h : 32 < sig) : Sent s sig t (-EINVAL) s
  | refused (h : sig ≤ 32) (hp : (s.tasks t).signal.pending &&& signalBit sig ≠ 0#32) : Sent s sig t 0 s
  | noted (h : sig ≤ 32) (hp : (s.tasks t).signal.pending &&& signalBit sig = 0#32)
      (hs : (s.tasks t).state = .running ∨ (s.tasks t).state = .zombie ∨
        (s.tasks t).state = .interruptible ∧ (s.tasks t).waitingChild = false) :
      Sent s sig t 0 (s.accept sig t)
  | woken (h : sig ≤ 32) (hp : (s.tasks t).signal.pending &&& signalBit sig = 0#32)
      (hs : (s.tasks t).state = .interruptible) : Sent s sig t 0 ((s.accept sig t).wake t)

theorem Sched.wake_seconds : (s.wake t).seconds = s.seconds := by
  unfold wake leave
  split <;> rfl

namespace Sent

variable {r : Int}

section

variable (h : Sent s sig t r s')

include h

theorem curr : s'.curr = s.curr := by
  cases h with
  | invalid => rfl
  | refused => rfl
  | noted => rfl
  | woken => exact wake_curr

theorem tasksNr : s'.tasksNr = s.tasksNr := by
  cases h with
  | invalid => rfl
  | refused => rfl
  | noted => rfl
  | woken => exact wake_tasksNr

theorem seconds : s'.seconds = s.seconds := by
  cases h with
  | invalid => rfl
  | refused => rfl
  | noted => rfl
  | woken => exact wake_seconds

theorem tasks_ne (hu : u ≠ t) : s'.tasks u = s.tasks u := by
  cases h with
  | invalid => rfl
  | refused => rfl
  | noted => exact accept_ne hu
  | woken => rw [wake_ne hu, accept_ne hu]

/-- A signal changes its target only, and there only what it has to. -/
theorem task (u : Nat) : ∃ b st l, s'.tasks u =
    { s.tasks u with signal := { (s.tasks u).signal with sig := b }, state := st, listNode := l } := by
  by_cases hu : u = t
  · subst hu
    cases h with
    | invalid => exact ⟨_, _, _, rfl⟩
    | refused => exact ⟨_, _, _, rfl⟩
    | noted => exact ⟨_, _, _, accept_self⟩
    | woken => exact ⟨_, _, _, by rw [wake_self, accept_self]⟩
  · exact ⟨(s.tasks u).signal.sig, (s.tasks u).state, (s.tasks u).listNode, h.tasks_ne hu⟩

theorem kstack (u : Nat) : (s'.tasks u).kstack = (s.tasks u).kstack := by
  obtain ⟨b, st, l, hu⟩ := h.task u
  rw [hu]

end

end Sent

theorem wakeForSignal_interruptible (h : (s.tasks t).state = .interruptible) :
    wakeForSignal sig t s =
      if s.currTask.handler sig = SIG_DFL ∧ (sigDI sig || sigDC sig) ∧ ¬ (s.tasks t).waitingChild then
        .ok (0, s) else .ok (0, s.wake t) := by
  simp only [wakeForSignal, get_run, h]
  split
  · rfl
  · cases hl : (s.tasks t).listNode with
    | none =>
      have hw : s.leave t = s := by simp [leave, hl]
      simp [addToRunnableList_eq hl, wake, hw]
    | some l =>
      have hw : s.leave t = s.unlink l t := by simp [leave, hl]
      have hn : ((s.unlink l t).tasks t).listNode = none := by simp
      simp [eraseTask_eq hl, addToRunnableList_eq hn, wake, hw]

/-- `send_signal` returns or, for a task in a state it has no case for, panics. -/
theorem sendSignal_cases (s : Sched) (sig t : Nat) :
    (∃ r s', sendSignal sig t s = .ok (r, s') ∧ Sent s sig t r s') ∨
      (sendSignal sig t s = .error (.panic "--") ∧ sig ≤ 32 ∧
        (s.tasks t).signal.pending &&& signalBit sig = 0#32 ∧
        ((s.tasks t).state = .notRunnable ∨ (s.tasks t).state = .uninterruptible ∨
          (s.tasks t).state = .stopped)) := by
  by_cases hsig : sig > 32
  · exact .inl ⟨_, _, by simp [sendSignal, hsig], .invalid hsig⟩
  have hle : sig ≤ 32 := Nat.le_of_not_lt hsig
  by_cases hp : (s.tasks t).signal.pending &&& signalBit sig = 0#32
  · have heq : sendSignal sig t s = wakeForSignal sig t (s.accept sig t) := by
      simp [sendSignal, hsig, hp]
    have hst : ((s.accept sig t).tasks t).state = (s.tasks t).state := by simp [accept]
    have hw : ((s.accept sig t).tasks t).waitingChild = (s.tasks t).waitingChild := by
      simp [accept]
    rw [heq]
    cases hs : (s.tasks t).state with
    | interruptible =>
      rw [wakeForSignal_interruptible (hst.trans hs)]
      split
      · next hc =>
        refine .inl ⟨_, _, rfl, .noted hle hp (.inr (.inr ⟨hs, ?_⟩))⟩
        rw [← hw]
        simpa using hc.2.2
      · exact .inl ⟨_, _, rfl, .woken hle hp hs⟩
    | running => exact .inl ⟨_, _, by simp [wakeForSignal, hs], .noted hle hp (.inl hs)⟩
    | zombie => exact .inl ⟨_, _, by simp [wakeForSignal, hs], .noted hle hp (.inr (.inl hs))⟩
    | notRunnable | uninterruptible | stopped => exact .inr (by simp [wakeForSignal, hs, hle, hp])
  · exact .inl ⟨_, _, by simp [sendSignal, hsig, hp], .refused hle hp⟩

end MakarnaX
