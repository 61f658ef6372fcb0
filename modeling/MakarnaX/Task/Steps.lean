import MakarnaX.Library.Timers
import MakarnaX.Task.Effect

/-!
# The functions of the kernel, as effects

For every function that is a step, or the part of one up to `schedule()`: a run
of it that returns is a sequence of effects.  `Occurs` keeps what a later proof
has to know about the step an effect belongs to.  `check_signals` and
`signal_return` have a module of their own.
-/

namespace MakarnaX

open Library Sched Function

variable {s s' s₀ : Sched} {op : Op} {t u sig code w n seconds fuel : Nat} {l : ListId} {a : Unit} {ts : List Nat}
  {b : Bool} {E : Fault → Prop}

/-- The current task has only entered handlers since `s`. -/
structure Checking (s s1 : Sched) : Prop where
  curr : s1.curr = s.curr
  waitingChild : (s1.tasks s.curr).waitingChild = (s.tasks s.curr).waitingChild
  action : (s1.tasks s.curr).signal.action = (s.tasks s.curr).signal.action
  bits : ∀ k, (s1.tasks s.curr).signal.sig &&& signalBit k ≠ 0#32 →
    (s.tasks s.curr).signal.sig &&& signalBit k ≠ 0#32

/-- In which steps from `s`, and in which state `s1` on the way, an effect happens. -/
def Occurs (s : Sched) (op : Op) (s1 : Sched) : Label → Prop
  | .sent sig t => Quiet s s1 ∧ (op = .syscall (.kill t sig) ∨ op = .checkAlarmTurn t ∧ sig = SIGALRM)
  | .park .wait => Quiet s s1 ∧ op = .syscall (.wait true)
  | .park _ => s1.curr ≠ 0
  | .exit code =>
    Quiet s s1 ∧ s.currTask.kstack = [] ∨
      op = .resume .checkSignals ∧ Checking s s1 ∧ s1.currTask.signal.sig &&& signalBit code ≠ 0#32 ∧
        s1.currTask.signal.action code = SIG_DFL ∧ sigDI code = false ∧ sigDC code = false ∧
        0 < code ∧ code < 32
  | .deliver _ => op = .resume .checkSignals ∧ Checking s s1
  | .handlerReturn esp0 => op = .signalReturn esp0 ∧ Quiet s s1
  | _ => True

/-- A function that is run from `s`: effects of the step, or a fault of `E`. -/
abbrev Performs (s₀ : Sched) (op : Op) (x : SchedM Unit) (s : Sched) (E : Fault → Prop) : Prop :=
  Ends x s E fun _ s' => Effects (Occurs s₀ op) s s'

/-! ## Alarm nodes -/

/-- Only alarm nodes have changed, and no link leads astray. -/
def AlarmsMoved (s s' : Sched) : Prop := ∃ head size nodes, s' = s.withAlarms head size nodes ∧ s'.AlarmsValid

namespace AlarmsMoved

theorem refl (v : s.AlarmsValid) : AlarmsMoved s s := ⟨s.alarmHead, s.alarmSize, fun t => (s.tasks t).alarmListNode, rfl, v⟩

theorem trans {s1 : Sched} (h : AlarmsMoved s s1) (h' : AlarmsMoved s1 s') : AlarmsMoved s s' := by
  obtain ⟨head, size, nodes, rfl, -⟩ := h
  obtain ⟨head', size', nodes', rfl, v⟩ := h'
  exact ⟨head', size', nodes', rfl, v⟩

theorem valid (h : AlarmsMoved s s') : s'.AlarmsValid := by
  obtain ⟨head, size, nodes, -, v⟩ := h
  exact v

theorem quiet (h : AlarmsMoved s s') : Quiet s s' := by
  obtain ⟨head, size, nodes, rfl, v⟩ := h
  exact .withAlarms fun _ => v

theorem tasksNr (h : AlarmsMoved s s') : s'.tasksNr = s.tasksNr := h.quiet.tasksNr

theorem resize (h : AlarmsMoved s s') (n : Nat) : AlarmsMoved s { s' with alarmSize := n } := by
  obtain ⟨head, size, nodes, rfl, v⟩ := h
  exact ⟨head, n, nodes, rfl, v.congr rfl rfl fun _ => rfl⟩

end AlarmsMoved

theorem modAlarmNode_ends {r : AlarmRef} {f : AlarmNode → AlarmNode} (v : s.AlarmsValid)
    (hf : ∀ n, s.ValidNode n → s.ValidNode (f n)) : Ends (modAlarmNode r f) s E fun _ s' => AlarmsMoved s s' := by
  cases r with
  | head =>
    refine .of_ok rfl ⟨f s.alarmHead, s.alarmSize, fun t => (s.tasks t).alarmListNode, rfl, fun r hr => ?_⟩
    cases r with
    | head => exact hf _ (v .head trivial)
    | task t => exact v (.task t) hr
  | task t =>
    refine .of_ok rfl ⟨s.alarmHead, s.alarmSize,
      update (fun u => (s.tasks u).alarmListNode) t (f (s.tasks t).alarmListNode),
      Sched.ext (funext fun u => ?_) rfl rfl rfl rfl rfl rfl rfl rfl rfl rfl rfl, fun r hr => ?_⟩
    · by_cases hu : u = t
      · subst hu
        simp [withAlarms]
      · simp [withAlarms, hu]
    · cases r with
      | head => exact v .head trivial
      | task u =>
        by_cases hu : u = t
        · subst hu
          have hn := hf _ (v (.task u) hr)
          simpa [nodeAt, Sched.ValidNode, Sched.ValidRef] using hn
        · have hn := v (.task u) hr
          simpa [nodeAt, Sched.ValidNode, Sched.ValidRef, hu] using hn

theorem alarmNode_eq (r : AlarmRef) : alarmNode r s = .ok (s.nodeAt r, s) := by
  cases r <;> rfl

theorem derefAlarm_ok {r : Option AlarmRef} {n : AlarmRef} (h : derefAlarm r s = .ok (n, s')) :
    r = some n ∧ s' = s := by
  cases r with
  | none => cases h
  | some r =>
    cases h
    exact ⟨rfl, rfl⟩

theorem derefAlarm_bind {β : Type} {r : Option AlarmRef} {k : AlarmRef → SchedM β} {P : β → Sched → Prop}
    (hE : E .null) (h : ∀ n, r = some n → Ends (k n) s E P) : Ends (derefAlarm r >>= k) s E P := by
  cases r with
  | none => exact .of_error rfl hE
  | some n => exact .bind_ok rfl (h n rfl)

theorem alarmInsert_ends {pos : AlarmRef} (hE : E .null) (v : s.AlarmsValid) (hpos : s.ValidRef pos)
    (ht : t < s.tasksNr) : Ends (alarmInsert pos t) s E fun _ s' => AlarmsMoved s s' := by
  refine .bind_ok (alarmNode_eq _) ?_
  split
  · exact .pure (.refl v)
  · refine .bind_ok (alarmNode_eq _) (.bind (modAlarmNode_ends v fun n _ =>
      ⟨(v pos hpos).1, fun q hq => by cases hq; exact hpos⟩) fun _ s1 m1 => derefAlarm_bind hE fun r hr => ?_)
    have h1t : t < s1.tasksNr := m1.tasksNr ▸ ht
    refine .bind (modAlarmNode_ends m1.valid fun n hn => ⟨hn.1, fun q hq => by cases hq; exact h1t⟩) fun _ s2 m2 => ?_
    have h2t : t < s2.tasksNr := m2.tasksNr ▸ h1t
    refine .bind (modAlarmNode_ends m2.valid fun n hn => ⟨fun q hq => by cases hq; exact h2t, hn.2⟩) fun _ s3 m3 => ?_
    exact .of_ok rfl (((m1.trans m2).trans m3).resize _)

theorem alarmErase_ends {pos : AlarmRef} (hE : E .null) (v : s.AlarmsValid) (hpos : s.ValidRef pos) :
    Ends (alarmErase pos) s E fun _ s' => AlarmsMoved s s' := by
  cases pos with
  | head => exact .pure (.refl v)
  | task t =>
    refine .bind_ok (alarmNode_eq _) ?_
    split
    · refine derefAlarm_bind hE fun _ _ => .bind (modAlarmNode_ends v fun n hn => ⟨hn.1, (v _ hpos).2⟩) fun _ s1 m1 =>
        derefAlarm_bind hE fun _ _ => .bind (modAlarmNode_ends m1.valid fun n hn =>
          ⟨fun q hq => ((v _ hpos).1 q hq).congr m1.tasksNr, hn.2⟩) fun _ s2 m2 =>
        .bind (modAlarmNode_ends m2.valid fun n hn => hn) fun _ s3 m3 => ?_
      exact .of_ok rfl (((m1.trans m2).trans m3).resize _)
    · exact .pure (.refl v)

/-- The faults of `sys_alarm`. -/
def AlarmFault (e : Fault) : Prop := e = .null ∨ e = .loop ∨ e = .assert "r != AlarmList_t::error()"

theorem alarmLoop_ends {i : AlarmRef} (v : s.AlarmsValid) (hi : s.ValidRef i) (ht : t < s.tasksNr) :
    Ends (alarmLoop t seconds fuel i) s AlarmFault fun _ s' => AlarmsMoved s s' := by
  induction fuel generalizing i s with
  | zero => exact .of_error rfl (.inr (.inl rfl))
  | succ fuel ih =>
    cases i with
    | head => exact .pure (.refl v)
    | task u =>
      refine .bind_ok rfl ?_
      split
      · refine .bind (alarmInsert_ends (.inl rfl) v hi ht) fun r s1 m => .check (fun _ => .inr (.inr rfl)) fun _ =>
          .bind_ok (alarmNode_eq _) (derefAlarm_bind (.inl rfl) fun n hn => ?_)
        exact (ih m.valid ((m.valid _ (hi.congr m.tasksNr)).2 n hn) (m.tasksNr ▸ ht)).mono fun _ _ m' => m.trans m'
      · exact .bind_ok (alarmNode_eq _) (derefAlarm_bind (.inl rfl) fun n hn => ih v ((v _ hi).2 n hn) ht)

theorem setReturn_quiet {v : Int} (h : setReturn v s = .ok (a, s')) : Quiet s s' := by
  cases h
  exact .setTask (by constructor <;> rfl) rfl

theorem setReturn_ends (v : Int) : Ends (setReturn v) s E fun _ s' => Quiet s s' := .of_ok rfl (setReturn_quiet rfl)

theorem setAlarm_ends (v : s.AlarmsValid) (ht : t < s.tasksNr) :
    Ends (setAlarm t seconds fuel) s AlarmFault fun _ s' => Quiet s s' := by
  unfold setAlarm
  split
  · exact setReturn_ends 0
  · have q1 : Quiet s (s.setTask t fun x => { x with alarm := add32 s.seconds seconds }) :=
      .setTask (by constructor <;> rfl) rfl
    have v1 := q1.alarms v
    refine .bind_ok rfl (.bind_ok rfl (derefAlarm_bind (.inl rfl) fun r hr => .bind
      (alarmLoop_ends v1 ((v1 .head trivial).2 r hr) ht) fun _ s1 m => .bind (.discard
        (alarmInsert_ends (.inl rfl) m.valid (show Sched.ValidRef _ .head from trivial) (m.tasksNr ▸ ht))) fun _ s2 m' => ?_))
    exact (setReturn_ends 0).mono fun _ _ q => ((q1.trans m.quiet).trans m'.quiet).trans q

theorem sysAlarm_ends (v : s.AlarmsValid) (hc : s.curr < s.tasksNr) :
    Ends (sysAlarm seconds fuel) s AlarmFault fun _ s' => Quiet s s' := by
  refine .bind_ok rfl (.bind_ok rfl ?_)
  split
  · refine .bind (alarmErase_ends (.inl rfl) v (show s.ValidRef (.task s.curr) from hc)) fun _ s1 m =>
      .check (fun _ => .inr (.inr rfl)) fun _ => ?_
    exact (setAlarm_ends m.valid (m.tasksNr ▸ hc)).mono fun _ _ q => m.quiet.trans q
  · exact setAlarm_ends v hc

theorem Effects.quiet (q : Quiet s s') : Effects (Occurs s₀ op) s s' := .single (e := .quiet) trivial (.quiet q)

theorem sysSignal_ends {signum : Int} {handler : Nat} :
    Performs s₀ op (sysSignal signum handler) s E := by
  unfold sysSignal
  split
  · exact (setReturn_ends _).mono fun _ _ q => .quiet q
  · refine .bind_ok rfl ((setReturn_ends _).mono fun _ _ q => Effects.trans ?_ (.quiet q))
    split
    · exact .quiet (.setTask (by constructor <;> rfl) rfl)
    · exact .single (e := .action) trivial (.action _)

/-! ## The sleep list -/

/-- The list with the caller before the first task whose time is greater than `n`. -/
def sleepOrder (s : Sched) (n t : Nat) : List Nat :=
  Timers.insert (fun u => (s.tasks u).sleep) n t (s.lists .sleep)

theorem insertBefore_first {k : Nat → Nat} {xs : List Nat} {i : Nat}
    (h : xs.find? (fun u => !decide (k u ≤ n)) = some i) : insertBefore i t xs = Timers.insert k n t xs := by
  unfold Timers.insert
  induction xs with
  | nil => cases h
  | cons x xs ih =>
    cases hp : decide (k x ≤ n) with
    | false =>
      rw [List.find?_cons_of_pos (by simp [hp])] at h
      cases h
      simp [insertBefore, hp]
    | true =>
      rw [List.find?_cons_of_neg (by simp [hp])] at h
      have hx : x ≠ i := by
        rintro rfl
        have := List.find?_some h
        simp [hp] at this
      simp [insertBefore, hx, hp, ih h]

/-- Once the task is in a list the loop does nothing. -/
theorem sleepInsert_linked {is : List Nat} (h : (s.tasks t).listNode ≠ none) : sleepInsert t n is s = .ok ((), s) := by
  induction is with
  | nil => rfl
  | cons i is ih =>
    have hi : insertTask .sleep i t s = .ok (false, s) := by simp [insertTask, h]
    simp only [sleepInsert, get_run]
    split
    · rw [bind_run (discard_run hi)]
      exact ih
    · exact ih

theorem sleepInsert_eq {is : List Nat} (h : (s.tasks t).listNode = none) :
    sleepInsert t n is s = .ok ((), match is.find? (fun u => !decide ((s.tasks u).sleep ≤ n)) with
      | none => s
      | some i => s.link .sleep t (insertBefore i t (s.lists .sleep))) := by
  induction is with
  | nil => rfl
  | cons i is ih =>
    simp only [sleepInsert, get_run]
    by_cases hi : (s.tasks i).sleep ≤ n
    · rw [if_neg (Nat.not_lt.mpr hi), List.find?_cons_of_neg (by simpa using hi)]
      exact ih
    · have hins : insertTask .sleep i t s = .ok (true, s.link .sleep t (insertBefore i t (s.lists .sleep))) := by
        simp [insertTask, h]
      rw [if_pos (Nat.lt_of_not_le hi), bind_run (discard_run hins),
        List.find?_cons_of_pos (by simpa using hi)]
      exact sleepInsert_linked (by simp)

/-- The loop and the `push_back` behind it. -/
theorem sleepInsert_pushBack (h : (s.tasks t).listNode = none) :
    ∃ s1, sleepInsert t n (s.lists .sleep) s = .ok ((), s1) ∧
      discard (pushBack .sleep t) s1 = .ok ((), s.link .sleep t (sleepOrder s n t)) := by
  refine ⟨_, sleepInsert_eq h, ?_⟩
  cases hf : (s.lists .sleep).find? (fun u => !decide ((s.tasks u).sleep ≤ n)) with
  | none =>
    have hall : ∀ u ∈ s.lists .sleep, decide ((s.tasks u).sleep ≤ n) = true := by
      intro u hu
      simpa using List.find?_eq_none.mp hf u hu
    have hord : sleepOrder s n t = s.lists .sleep ++ [t] := by
      rw [sleepOrder, Timers.insert, List.takeWhile_eq_self_iff.mpr hall, List.dropWhile_eq_nil_iff.mpr hall]
    rw [hord]
    exact discard_run (pushBack_eq h)
  | some i =>
    rw [sleepOrder, ← insertBefore_first (k := fun u => (s.tasks u).sleep) hf]
    exact discard_run (pushBack_busy (by simp))

theorem sleepOrder_dequeue : sleepOrder (s.dequeue s.curr) n t = sleepOrder s n t := by
  have hlists : (s.dequeue s.curr).lists .sleep = s.lists .sleep := by simp [dequeue]
  have hsleep : ∀ u, ((s.dequeue s.curr).tasks u).sleep = (s.tasks u).sleep := fun u => by
    by_cases hu : u = s.curr <;> simp [hu]
  simp only [sleepOrder, hlists, hsleep]

theorem OnQueue.leaves (hq : OnQueue s) : removeFromRunnableList s.curr s = .ok ((), s.dequeue s.curr) :=
  removeFromRunnableList_eq hq.listNode hq.state

theorem sysSleep_eq (hq : OnQueue s) (hn : n ≠ 0) :
    sysSleep n s = .ok ((), (((s.dequeue s.curr).link .sleep s.curr (sleepOrder s n s.curr)).setTask s.curr fun x =>
      { x with state := .interruptible, sleep := add32 s.seconds n }).pushFrames [.schedule, .sleepTail]) := by
  have hl : ((s.dequeue s.curr).tasks s.curr).listNode = none := by simp
  obtain ⟨s1, h1, h2⟩ := sleepInsert_pushBack (n := n) hl
  rw [sleepOrder_dequeue] at h2
  rw [sysSleep, if_neg hn, get_run, bind_run hq.leaves, get_run, bind_run h1, bind_run h2]
  rfl

/-! ## Parking -/

/-- Nothing has changed but fields of one task that nobody looks at. -/
theorem Quiet.only (ho : ∀ u, u ≠ t → s'.tasks u = s.tasks u) (ht : (s.tasks t).Alike (s'.tasks t))
    (hl : s'.lists = s.lists) (hn : s'.tasksNr = s.tasksNr) (hc : s'.curr = s.curr)
    (h3 : s'.cr3 = s.cr3) (ha : s'.accepted = s.accepted) (he : s'.entered = s.entered)
    (hr : s'.reported = s.reported) (hh : s'.alarmHead = s.alarmHead)
    (hal : (s'.tasks t).alarmListNode = (s.tasks t).alarmListNode) : Quiet s s' where
  task u := by
    by_cases h : u = t
    · rw [h]
      exact ht
    · rw [ho u h]
      exact .refl _
  lists := hl
  tasksNr := hn
  curr := hc
  cr3 := h3
  accepted := ha
  entered := he
  reported := hr
  alarms v := v.congr hn hh fun u => by
    by_cases h : u = t
    · rw [h, hal]
    · rw [ho u h]

section

variable (hk : s.currTask.kstack = []) (hq : OnQueue s)

include hk hq

/-- The current task parks, and fields of it change that nobody looks at. -/
theorem Effects.parked {p : Parking} (hA : Occurs s₀ op s (.park p))
    (hx : ∀ xs, p = .sleep xs → xs.Perm (s.curr :: s.lists .sleep))
    (hs : { s' with tasks := (s.park p).tasks, ifl := (s.park p).ifl } = s.park p) (ho : ∀ u, u ≠ s.curr → s'.tasks u = s.tasks u)
    (ht : ((s.park p).tasks s.curr).Alike (s'.tasks s.curr))
    (hal : (s'.tasks s.curr).alarmListNode = (s.tasks s.curr).alarmListNode) : Effects (Occurs s₀ op) s s' := by
  obtain ⟨-, hn, hl, hh, -, hc, -, h3, -, ha, he, hr⟩ := Sched.ext_iff.mp hs
  refine (Effects.single hA (.park hk hq hx)).trans (.quiet (.only (t := s.curr) (fun u hu => ?_) ht
    hl hn hc h3 ha he hr hh ?_))
  · rw [ho u hu, Sched.park_ne p hu]
  · rw [hal, park_self]

variable (hz : s.curr ≠ 0)

include hz

theorem sysPause_ends : Performs s₀ op sysPause s E := by
  refine .bind_ok rfl ?_
  split
  · exact .pure (.quiet (.refl _))
  · refine .bind_ok rfl (.bind_ok hq.leaves (.of_ok rfl ?_))
    refine .parked hk hq (p := .pause) hz (by simp) rfl (fun u hu => ?_) ?_ ?_
    · simp [hu, dequeue]
    · rw [park_self]
      constructor <;> simp [dequeue]
    · simp [dequeue]

theorem sysSleep_ends : Performs s₀ op (sysSleep n) s E := by
  by_cases hn : n = 0
  · rw [sysSleep, if_pos hn]
    exact (setReturn_ends _).mono fun _ _ q => .quiet q
  · refine .of_ok (sysSleep_eq hq hn) (.parked hk hq (p := .sleep (sleepOrder s n s.curr)) hz ?_ rfl
      (fun u hu => ?_) ?_ ?_)
    · rintro _ ⟨⟩
      exact Timers.insert_perm
    · simp [hu, dequeue, Sched.pushFrames]
    · rw [park_self]
      constructor <;> simp [dequeue, Sched.pushFrames]
    · simp [dequeue, Sched.pushFrames]

theorem sleepInterruptible_ends : Performs s₀ op (sleepInterruptible w) s E := by
  have hst : (s.tasks s.curr).state = .running := hq.state
  have hn : ((s.dequeue s.curr).tasks s.curr).listNode = none := by simp
  refine .bind_ok rfl (.bind_ok rfl (.check (absurd hst) fun _ => .bind_ok
    hq.leaves (.bind_ok (discard_run (pushBack_eq hn)) (.of_ok rfl ?_))))
  refine .parked hk hq (p := .on w true) hz (by simp) rfl (fun u hu => ?_) ?_ ?_
  · simp [hu, dequeue]
  · rw [park_self]
    constructor <;> simp [dequeue]
  · simp [dequeue]

end

theorem sleepUninterruptible_eq (hq : OnQueue s) :
    sleepUninterruptible w s = .ok ((), (((s.dequeue s.curr).setTask s.curr fun x =>
      { x with state := .uninterruptible }).link (.wait w) s.curr (s.lists (.wait w) ++ [s.curr])).pushFrames
        [.schedule]) := by
  have hst : (s.tasks s.curr).state = .running := hq.state
  have hn : (((s.dequeue s.curr).setTask s.curr fun x => { x with state := .uninterruptible }).tasks
      s.curr).listNode = none := by simp
  simp only [sleepUninterruptible, get_run, ASSERT, check_run, hst, if_true,
    bind_run hq.leaves, modTask, modify_run,
    bind_run (discard_run (pushBack_eq hn)), pushFrames, modCurr, modify_apply]
  rfl

theorem sleepUninterruptible_ends (hk : s.currTask.kstack = []) (hq : OnQueue s) (hz : s.curr ≠ 0) :
    Performs s₀ op (sleepUninterruptible w) s E := by
  refine .of_ok (sleepUninterruptible_eq hq) (.parked hk hq (p := .on w false) hz (by simp) rfl
    (fun u hu => ?_) ?_ ?_)
  · simp [hu, dequeue, Sched.pushFrames]
  · rw [park_self]
    constructor <;> simp [dequeue, Sched.pushFrames]
  · simp [dequeue, Sched.pushFrames]

theorem inodeLock_ends (hk : s.currTask.kstack = []) (hq : OnQueue s) (hz : s.curr ≠ 0) :
    Performs s₀ op (inodeLock w) s E := by
  refine .bind_ok rfl (.bind_ok (sleepUninterruptible_eq
    ⟨by simpa [Sched.currTask] using hq.state, by simpa [Sched.currTask] using hq.listNode⟩) (.of_ok rfl ?_))
  refine .parked hk hq (p := .lock w) hz (by simp) ?_ (fun u hu => ?_) ?_ ?_
  · refine Sched.ext rfl rfl ?_ rfl rfl rfl rfl rfl rfl rfl rfl rfl
    simp [dequeue, Sched.pushFrames, Sched.park, Sched.parked]
  · simp [hu, dequeue, Sched.pushFrames]
  · rw [park_self]
    constructor <;> simp [dequeue, Sched.pushFrames]
  · simp [dequeue, Sched.pushFrames]

/-! ## Exit -/

/-- `send_signal` has no case for a task that waits for a resource. -/
structure Unsendable (s : Sched) (sig t : Nat) : Prop where
  valid : sig ≤ 32
  clear : (s.tasks t).signal.pending &&& signalBit sig = 0#32
  state : (s.tasks t).state = .uninterruptible

theorem sendSignal_ends (G : Agree s) (ht : t < s.tasksNr) (hE : Unsendable s sig t → E (.panic "--")) :
    Ends (sendSignal sig t) s E fun r s' => Sent s sig t r s' := by
  rcases sendSignal_cases s sig t with ⟨r, s1, he, hS⟩ | ⟨he, hle, hp, hst⟩
  · exact .of_ok he hS
  · have hl := G.legal t ht
    refine .of_error he (hE ?_)
    rcases hst with hst | hst | hst
    · simp [Task.Legal, hst] at hl
    · exact ⟨hle, hp, hst⟩
    · simp [Task.Legal, hst] at hl

/-- The signal an exiting task sends. -/
def Task.lastSignal (x : Task) : Nat := if x.exitSignal = 0 then SIGCHLD else x.exitSignal

/-- How `do_exit` can fail. -/
inductive ExitFails (s : Sched) : Fault → Prop
  | init (h : s.curr = 1) : ExitFails s (.panic ">> exit task 1")
  | alarm : ExitFails s .null
  | orphan (h : s.currTask.parent = none) : ExitFails s (.assert "t->parent")
  | parent {p : Nat} (hp : s.currTask.parent = some p) (h : Unsendable s s.currTask.lastSignal p) :
      ExitFails s (.panic "--")
  | signal (h : 32 < s.currTask.lastSignal) : ExitFails s (.assert "r > -1")

theorem Unsendable.of_quiet (q : Quiet s s') (h : Unsendable s' sig t) : Unsendable s sig t where
  valid := h.valid
  clear := by
    rw [← (q.task t).signal]
    exact h.clear
  state := by
    rw [← (q.task t).state]
    exact h.state

theorem ExitFails.of_quiet (q : Quiet s s') (h : ExitFails s' e) : ExitFails s e := by
  have hpar : s'.currTask.parent = s.currTask.parent := by
    rw [currTask, q.curr, (q.task _).parent]
  have hsig : s'.currTask.lastSignal = s.currTask.lastSignal := by
    rw [currTask, Task.lastSignal, q.curr, (q.task _).exitSignal]
    rfl
  cases h with
  | init h => exact .init (q.curr ▸ h)
  | alarm => exact .alarm
  | orphan h => exact .orphan (hpar ▸ h)
  | parent hp hu => exact .parent (hpar ▸ hp) (.of_quiet q (hsig ▸ hu))
  | signal h => exact .signal (hsig ▸ h)

theorem notifyParent_ends (G : Agree s) (ht : t < s.tasksNr) (hn : (s.tasks t).parent = none → E (.assert "t->parent"))
    (hu : ∀ p, (s.tasks t).parent = some p → Unsendable s (s.tasks t).exitSignal p → E (.panic "--"))
    (hs : 32 < (s.tasks t).exitSignal → E (.assert "r > -1")) :
    Ends (notifyParent t) s E fun _ s' => ∃ p s1, (s.tasks t).parent = some p ∧ p ≠ t ∧
      Sent s (s.tasks t).exitSignal p 0 s1 ∧ s' = s1.chain t p := by
  refine .bind_ok rfl ?_
  cases hp : (s.tasks t).parent with
  | none => exact .throw (hn hp)
  | some p =>
    have hlt : p < t := G.parent t p ht hp
    have hne : p ≠ t := Nat.ne_of_lt hlt
    refine .check (absurd hne) fun _ => .bind_ok rfl ?_
    refine .bind (sendSignal_ends G (Nat.lt_trans hlt ht) (hu p hp)) fun r s1 hS => .check (fun hr => ?_) fun hr => ?_
    · cases hS with
      | invalid h => exact hs h
      | refused => simp at hr
      | noted => simp at hr
      | woken => simp at hr
    · have hS : Sent s (s.tasks t).exitSignal p 0 s1 := by
        cases hS with
        | invalid => simp [EINVAL] at hr
        | refused hle hp => exact .refused hle hp
        | noted hle hp hst => exact .noted hle hp hst
        | woken hle hp hst => exact .woken hle hp hst
      refine .bind_ok rfl ?_
      split
      · next hw => exact .of_ok rfl ⟨p, s1, rfl, hne, hS, (if_pos hw).symm⟩
      · next hw => exact .of_ok rfl ⟨p, s1, rfl, hne, hS, (if_neg hw).symm⟩

/-- The end of `task_free`. -/
def freeAlarm (t : Nat) : SchedM Unit := do
  if ((← get).tasks t).alarmListNode.linked then discard (alarmErase (.task t))

theorem bury_eq (hn : (s.tasks t).listNode = none) :
    (do modTask t fun x => { x with state := .zombie }; discard (pushBack .zombie t) : SchedM Unit) s =
      .ok ((), s.bury t) := by
  have hn' : ((s.setTask t fun x => { x with state := .zombie }).tasks t).listNode = none := by simpa using hn
  simp only [modTask, modify_run, discard_run (pushBack_eq hn')]
  rfl

theorem taskFree_eq (hn : (s.tasks t).listNode = some l) :
    taskFree t s = freeAlarm t ((s.unlink l t).bury t) := by
  have hn' : ((s.unlink l t).tasks t).listNode = none := by simp
  have hb := bind_run (bury_eq hn') (f := fun _ => freeAlarm t)
  simp only [bind_assoc] at hb
  simp only [taskFree, get_run, hn, bind_run (discard_run (eraseTask_eq hn))]
  exact hb

theorem doExit_eq (h1 : s.curr ≠ 1) (hq : OnQueue s) :
    doExit code s = (do
      freeAlarm s.curr
      modTask s.curr fun x => { x with exitCode := code }
      modTask s.curr fun x => { x with exitSignal := if x.exitSignal = 0 then SIGCHLD else x.exitSignal }
      notifyParent s.curr
      pushFrames [.schedule, .dead] : SchedM Unit)
        ((((s.dequeue s.curr).bury s.curr).unlink .zombie s.curr).bury s.curr) := by
  have hn : ((s.dequeue s.curr).tasks s.curr).listNode = none := by simp
  have hz : (((s.dequeue s.curr).bury s.curr).tasks s.curr).listNode = some .zombie := by simp
  have hb := bind_run (bury_eq hn) (f := fun _ => do
      taskFree s.curr
      modTask s.curr fun x => { x with exitCode := code }
      modTask s.curr fun x => { x with exitSignal := if x.exitSignal = 0 then SIGCHLD else x.exitSignal }
      notifyParent s.curr
      pushFrames [.schedule, .dead])
  simp only [bind_assoc] at hb
  simp only [doExit, get_run, h1, if_false,
    bind_run hq.leaves, hb]
  show (taskFree s.curr _ >>= _) = (freeAlarm s.curr _ >>= _)
  rw [taskFree_eq hz]

theorem freeAlarm_ends (v : s.AlarmsValid) (ht : t < s.tasksNr) :
    Ends (freeAlarm t) s (· = .null) fun _ s' => AlarmsMoved s s' := by
  refine .bind_ok rfl ?_
  split
  · exact .discard (alarmErase_ends rfl v (show s.ValidRef (.task t) from ht))
  · exact .pure (.refl v)

/-- `do_exit` looks at no alarm but to take it out of the alarm list. -/
theorem die_withAlarms (head : AlarmNode) (size : Nat) (nodes : Nat → AlarmNode) :
    ((((((s.dequeue s.curr).bury s.curr).unlink .zombie s.curr).bury s.curr).withAlarms head size nodes).setTask s.curr
      fun x => { x with exitCode := code }).setTask s.curr
        (fun x => { x with exitSignal := if x.exitSignal = 0 then SIGCHLD else x.exitSignal }) =
      (s.withAlarms head size nodes).die code := by
  refine Sched.ext (funext fun u => ?_) rfl rfl rfl rfl rfl rfl rfl rfl rfl rfl rfl
  by_cases hu : u = s.curr
  · subst hu
    refine Eq.trans ?_ (Sched.die_self (s := s.withAlarms head size nodes)).symm
    simp only [Sched.setTask_self, withAlarms, Sched.bury_self, unlink_self, Sched.dequeue_self]
    rfl
  · refine Eq.trans ?_ (Sched.die_ne (s := s.withAlarms head size nodes) hu).symm
    simp [withAlarms, hu, dequeue]

/-- `do_exit` fails at the alarm list, or is `notify_parent` in the state of the dead task. -/
theorem doExit_die (v : s.AlarmsValid) (hc : s.curr < s.tasksNr) (h1 : s.curr ≠ 1) (hq : OnQueue s) :
    doExit code s = .error .null ∨ ∃ s1, AlarmsMoved s s1 ∧
      doExit code s = (do notifyParent s.curr; pushFrames [.schedule, .dead] : SchedM Unit) (s1.die code) := by
  have vb : ((((s.dequeue s.curr).bury s.curr).unlink .zombie s.curr).bury s.curr).AlarmsValid := by
    refine v.congr rfl rfl fun u => ?_
    by_cases hu : u = s.curr
    · simp [hu]
    · simp [hu]
  have hE := freeAlarm_ends vb hc
  rw [doExit_eq h1 hq]
  cases hf : freeAlarm s.curr ((((s.dequeue s.curr).bury s.curr).unlink .zombie s.curr).bury s.curr) with
  | error e => exact .inl (hE.error hf ▸ bind_fail hf)
  | ok r =>
    obtain ⟨head, size, nodes, hs, v1⟩ := hE.ok hf
    refine .inr ⟨s.withAlarms head size nodes, ⟨head, size, nodes, rfl, fun r hr => ?_⟩, ?_⟩
    · rw [hs] at v1
      cases r with
      | head => exact v1 .head hr
      | task u => exact v1 (.task u) hr
    · rw [bind_run hf, hs, ← die_withAlarms]
      rfl

theorem doExit_ends (G : Agree s) (hq : OnQueue s) (hE : ∀ e, ExitFails s e → E e)
    (hA : s.curr ≠ 1 → ∀ s1, Quiet s s1 → Occurs s₀ op s1 (.exit code)) :
    Performs s₀ op (doExit code) s E := by
  by_cases h1 : s.curr = 1
  · refine .of_error ?_ (hE _ (.init h1))
    simp only [doExit, get_run, h1, if_true]
    rfl
  rcases doExit_die G.alarms G.curr h1 hq with he | ⟨s1, m, he⟩
  · exact .of_error he (hE _ .alarm)
  have q := m.quiet
  have hc1 : s1.curr = s.curr := q.curr
  have hq1 : OnQueue s1 := by
    obtain ⟨head, size, nodes, rfl, -⟩ := m
    exact ⟨hq.state, hq.listNode⟩
  have hlt : s.curr < (s1.die code).tasksNr := by
    rw [die_tasksNr, q.tasksNr]
    exact G.curr
  have hpar : ((s1.die code).tasks s.curr).parent = s.currTask.parent := by
    rw [← hc1, die_self, hc1]
    exact (q.task s.curr).parent
  have hsig : ((s1.die code).tasks s.curr).exitSignal = s.currTask.lastSignal := by
    rw [← hc1, die_self, hc1, (q.task s.curr).exitSignal]
    rfl
  refine .of_eq he (.bind (notifyParent_ends ((G.quiet q).die hq1) hlt (fun hn => ?_) (fun p hp hu => ?_) fun hs => ?_) ?_)
  · exact hE _ (.orphan (hpar ▸ hn))
  · have hp' : s.currTask.parent = some p := hpar ▸ hp
    have hne : p ≠ s1.curr := by
      rw [hc1]
      exact Nat.ne_of_lt (G.parent s.curr p G.curr hp')
    rw [hsig] at hu
    refine hE _ (.parent hp' ⟨hu.valid, ?_, ?_⟩)
    · have hcl := hu.clear
      rw [die_ne hne, (q.task p).signal] at hcl
      exact hcl
    · have hst := hu.state
      rw [die_ne hne, (q.task p).state] at hst
      exact hst
  · exact hE _ (.signal (hsig ▸ hs))
  · rintro _ s2 ⟨p, s3, hp, hne, hsent, rfl⟩
    rw [← hc1] at hp hne hsent h1 ⊢
    have hp1 : s1.currTask.parent = some p := by
      rw [die_self] at hp
      exact hp
    refine .of_ok rfl ((Effects.quiet q).trans (.single (e := .exit code) (hA (hc1 ▸ h1) _ q) ?_))
    exact .exit h1 hq1 hp1 hne hsent

/-! ## System calls -/

theorem sysWait_ends (hk : s.currTask.kstack = []) (hq : OnQueue s) (q : Quiet s₀ s)
    (hop : op = .syscall (.wait true)) : Performs s₀ op (sysWait true) s E := by
  refine .bind_ok rfl ?_
  split
  · exact (setReturn_ends _).mono fun _ _ q => .quiet q
  · refine .bind_ok rfl (.bind_ok hq.leaves (.of_ok rfl ?_))
    refine .parked hk hq (p := .wait) ⟨q, hop⟩ (by simp) rfl (fun u hu => ?_) ?_ ?_
    · simp [hu, dequeue]
    · rw [park_self]
      constructor <;> simp [dequeue]
    · simp [dequeue]

theorem sysKill_ends {pid : Nat} (G : Agree s) (q : Quiet s₀ s) (hop : op = .syscall (.kill pid sig))
    (hE : pid < s.tasksNr → Unsendable s sig pid → E (.panic "--")) :
    Performs s₀ op (sysKill pid sig) s E := by
  refine .bind_ok rfl ?_
  split
  · next ht =>
    have hS := (sendSignal_ends G ht (hE ht)).mono fun r s1 h => (⟨r, h⟩ : ∃ r, Sent s sig pid r s1)
    refine .bind hS.discard fun _ s1 ⟨r, hS⟩ => (setReturn_ends _).mono fun _ _ q' => ?_
    exact (Effects.single (e := .sent sig pid) ⟨q, .inl hop⟩ (.sent ht hS)).trans (.quiet q')
  · exact (setReturn_ends _).mono fun _ _ q => .quiet q

theorem doFork_ends {pa : Option Nat} (hc : s.curr < s.tasksNr) :
    Ends (doFork pa) s E fun _ s' => Effects (fun _ e => e = .quiet ∨ e = .fork) s s' := by
  cases pa with
  | none => exact .of_ok rfl (.single (.inl rfl) (.quiet (.refl _)))
  | some pa =>
    have hne : s.curr ≠ s.tasksNr := Nat.ne_of_lt hc
    refine .bind_ok rfl (.bind_ok rfl (.bind_ok rfl (.bind_ok rfl (.bind_ok rfl (.bind_ok (addToRunnableList_eq
      (by simp [setTask, hne.symm, Task.copyFor])) (.of_ok rfl ?_))))))
    refine (Effects.single (.inr rfl) (.fork pa)).trans (.single (.inl rfl) (.quiet ?_))
    refine ⟨fun u => ?_, ?_, rfl, rfl, rfl, rfl, rfl, rfl, fun v => v.congr rfl rfl fun u => ?_⟩
    · by_cases hu : u = s.tasksNr
      · subst hu
        rw [fork_new]
        constructor <;> simp [setTask, hne.symm, Task.copyFor]
      · rw [fork_ne hu, enqueue_ne hu]
        by_cases huc : u = s.curr
        · subst huc
          constructor <;> simp [setTask, hu]
        · constructor <;> simp [setTask, hu, huc]
    · simp [fork, enqueue, setTask, hne.symm, Task.copyFor]
    · by_cases hu : u = s.tasksNr
      · subst hu
        rw [fork_new]
        simp [setTask, hne.symm, Task.copyFor]
      · rw [fork_ne hu, enqueue_ne hu]
        by_cases huc : u = s.curr
        · subst huc
          simp [setTask, hu]
        · simp [setTask, hu, huc]

theorem sysFork_ends {pa : Option Nat} (hc : s.curr < s.tasksNr) :
    Performs s₀ op (sysFork pa) s E := by
  refine .bind (doFork_ends hc) fun r s1 h => (setReturn_ends _).mono fun _ _ q => ?_
  refine (h.mono fun a e he => ?_).trans (.quiet q)
  rcases he with rfl | rfl <;> trivial

theorem sysYield_ends : Performs s₀ op sysYield s E :=
  .of_ok rfl (.single (e := .push) trivial (.push (.inr rfl)))

/-! ## Interrupts -/

theorem doTimer_ends : Performs s₀ op doTimer s E := by
  have q : Quiet s ({ (s.setTask s.curr fun x => { x with poppedKstack := false }) with
      jiffies := add32 s.jiffies 1 }.setTask s.curr fun x => { x with counter := x.counter - 1 }) := by
    refine .only (t := s.curr) (fun u hu => by simp [setTask, hu]) ?_ rfl rfl rfl rfl rfl rfl rfl rfl
      (by simp [setTask])
    constructor <;> simp [setTask]
  refine .bind_ok rfl (.bind_ok rfl (.bind_ok rfl (.bind_ok rfl ?_)))
  split
  · exact .of_ok rfl ((Effects.quiet q).trans (.single (e := .push) trivial (.push (.inl rfl))))
  · exact .pure (.quiet q)

theorem popFront_eq (hp : s.placed) (hl : s.lists l = t :: ts) :
    popFront l s = .ok (true, s.unlink l t) := by
  have hn : (s.tasks t).listNode = some l := (hp.mem t l).mp (by rw [hl]; exact List.mem_cons_self)
  simp only [popFront, get_run, hl]
  exact eraseTask_eq hn

theorem leave_eq (hn : (s.tasks t).listNode = some l) : s.leave t = s.unlink l t := by
  simp [leave, hn]

/-- The first task of a wait list is moved to its run queue. -/
theorem wakeupInterruptible_eq (hp : s.placed) (hl : s.lists (.wait w) = t :: ts) :
    wakeupInterruptible w s = .ok ((), s.wake t) := by
  have hn : (s.tasks t).listNode = some (.wait w) := (hp.mem t _).mp (by rw [hl]; exact List.mem_cons_self)
  have hf : ((s.unlink (.wait w) t).tasks t).listNode = none := by simp
  simp only [wakeupInterruptible, get_run, hl, bind_run (popFront_eq hp hl), ASSERT,
    check_run, if_true, addToRunnableList_eq hf]
  rw [wake, leave_eq hn]

theorem wakeupUninterruptible_eq (hl : s.lists (.wait w) = t :: ts) :
    wakeupUninterruptible w s = wakeupInterruptible w s := by
  simp only [wakeupUninterruptible, wakeupInterruptible, get_run, hl]

theorem wakeupInterruptible_ends (hp : s.placed) :
    Performs s₀ op (wakeupInterruptible w) s E := by
  cases hl : s.lists (.wait w) with
  | nil =>
    refine .bind_ok rfl ?_
    rw [hl]
    exact .pure (.quiet (.refl _))
  | cons t ts =>
    have hn : (s.tasks t).listNode = some (.wait w) := (hp.mem t _).mp (by rw [hl]; exact List.mem_cons_self)
    exact .of_ok (wakeupInterruptible_eq hp hl) (.single (e := .wake t) trivial (.wake hn (.inr ⟨w, rfl⟩)))

theorem wakeupUninterruptible_ends (hp : s.placed)
    (hE : s.lists (.wait w) = [] → E (.assert "list->pop_front()")) :
    Performs s₀ op (wakeupUninterruptible w) s E := by
  cases hl : s.lists (.wait w) with
  | nil => exact .of_error (by simp only [wakeupUninterruptible, get_run, hl]; rfl) (hE hl)
  | cons t ts => exact .of_eq (wakeupUninterruptible_eq hl) (wakeupInterruptible_ends hp)

/-- A turn sends the signal and then only moves alarms. -/
theorem checkAlarmTurn_ends (I : Inv s) (ht : t < s.tasksNr) (hE : E .null)
    (hs : Unsendable s SIGALRM t → E (.panic "--")) :
    Ends (checkAlarmTurn t) s E fun r s' => ∃ c s1, Sent s SIGALRM t c s1 ∧ AlarmsMoved s1 s' ∧ s'.ValidRef r := by
  have hS := (sendSignal_ends I.toAgree ht hs).mono fun r s1 h => (⟨r, h⟩ : ∃ r, Sent s SIGALRM t r s1)
  refine .bind hS.discard fun _ s1 ⟨r, hS⟩ => ?_
  have v1 := (I.sent ht hS).alarms
  refine .bind_ok (alarmNode_eq _) (derefAlarm_bind hE fun next hn =>
    .bind_ok (alarmNode_eq _) (derefAlarm_bind hE fun prev hp => ?_))
  have hnext : s1.ValidRef next := (v1 (.task t) (show t < _ from hS.tasksNr ▸ ht)).2 next hn
  refine .bind (.discard (alarmErase_ends hE v1 ((v1 next hnext).1 prev hp))) fun _ s' m => ?_
  exact .pure ⟨_, _, hS, m, hnext.congr m.tasksNr⟩

theorem wake_lists (hn : (s.tasks t).listNode = some l) (hl : ∀ i, l ≠ .runnable i) :
    (s.wake t).lists l = (s.lists l).erase t := by
  rw [wake, leave_eq hn]
  simp [enqueue, hl]

/-- One turn of `check_sleep_list`, at a task that is due. -/
theorem checkSleepLoop_cons (hn : (s.tasks t).listNode = some .sleep) (hd : (s.tasks t).sleep ≤ seconds) :
    checkSleepLoop seconds (t :: ts) s =
      checkSleepLoop seconds ts ((s.wake t).setTask t fun x => { x with sleep := 0 }) := by
  have hf : (((s.unlink .sleep t).setTask t fun x => { x with sleep := 0 }).tasks t).listNode = none := by simp
  have hd' : ¬ (s.tasks t).sleep > seconds := Nat.not_lt.mpr hd
  have he : ((s.unlink .sleep t).setTask t fun x => { x with sleep := 0 }).enqueue t =
      (s.wake t).setTask t fun x => { x with sleep := 0 } := by
    rw [Sched.wake, leave_eq hn]
    refine Sched.ext (funext fun u => ?_) rfl ?_ rfl rfl rfl rfl rfl rfl rfl rfl rfl
    · by_cases hu : u = t
      · subst hu
        simp
      · simp [hu]
    · simp [Sched.enqueue]
  simp only [checkSleepLoop, get_run, hd', if_false, bind_run (discard_run (eraseTask_eq hn)),
    ASSERT, check_run, unlink_self, if_true, modTask, modify_run,
    bind_run (addToRunnableList_eq hf), he]

theorem checkSleepLoop_ends (hp : s.placed) :
    Performs s₀ op (checkSleepLoop seconds (s.lists .sleep)) s E := by
  -- what the loop has still to visit is the list itself
  generalize hl : s.lists .sleep = ts
  induction ts generalizing s with
  | nil => exact .pure (.quiet (.refl _))
  | cons t ts ih =>
    have hn : (s.tasks t).listNode = some .sleep := (hp.mem t _).mp (by rw [hl]; exact List.mem_cons_self)
    by_cases hd : (s.tasks t).sleep ≤ seconds
    · have hrest : ((s.wake t).setTask t fun x => { x with sleep := 0 }).lists .sleep = ts := by
        rw [setTask_lists, wake_lists hn (by simp), hl]
        simp
      refine .of_eq (checkSleepLoop_cons hn hd) ((ih (hp.wake.setTask rfl) hrest).mono fun _ s' h => ?_)
      exact (Effects.single (e := .wake t) trivial (.wake hn (.inl rfl))).trans (Effects.trans (.quiet
        (.setTask (by constructor <;> rfl) rfl)) h)
    · refine .bind_ok rfl ?_
      rw [if_pos (Nat.lt_of_not_le hd)]
      exact .pure (.quiet (.refl _))

theorem switchTask_ends (I : Inv s) (hk : s.currTask.kstack.head? = some .schedule)
    (hE : E (.panic "bu durum yok, kernel task beklemeye gecemez.")) :
    Performs s₀ op switchTask s E := by
  rcases findRunnableTask_cases I.placed with hf | ⟨i, t, hn, hf⟩
  · exact .bind_ok hf (.of_error rfl hE)
  · have hl := I.legal t (I.lt_of_listNode hn)
    have hr : (s.tasks t).state = .running := by
      unfold Task.Legal at hl
      split at hl <;> simp_all
    rw [if_pos hr] at hf
    exact .bind_ok hf (.of_ok rfl (.single (e := .switch) trivial (.switch hk hn hr)))

/-! ## Behind the switch -/

theorem waitTail_ends (hk : s.currTask.kstack.head? = some .waitTail)
    (hE : s.currTask.waitNotifyNext = none → E (.assert "t")) :
    Ends waitTail s.popFrame E fun _ s' => Effects (Occurs s₀ op) s s' := by
  have hw : (s.popFrame.setTask s.popFrame.curr fun x => { x with waitingChild := false }).currTask.waitNotifyNext =
      s.currTask.waitNotifyNext := by
    simp [currTask, popFrame]
  refine .bind_ok rfl (.bind_ok rfl ?_)
  rw [hw]
  cases hn : s.currTask.waitNotifyNext with
  | none => exact .of_error rfl (hE hn)
  | some t =>
    refine .of_ok rfl ?_
    refine (Effects.single (e := .report) trivial (.report hk hn)).trans (.quiet ?_)
    have hc : ((s.popFrame.setTask s.curr fun x => { x with waitingChild := false }).tasks t).exitCode =
        (s.popFrame.tasks t).exitCode := by
      by_cases ht : t = s.curr
      · simp [ht]
      · simp [ht]
    have hnx : ((s.popFrame.setTask s.curr fun x => { x with waitingChild := false }).tasks t).waitNotifyNext =
        (s.popFrame.tasks t).waitNotifyNext := by
      by_cases ht : t = s.curr
      · simp [ht]
      · simp [ht]
    refine .only (t := s.curr) (fun u hu => ?_) ?_ rfl rfl rfl rfl rfl rfl ?_ rfl ?_
    · simp [report, popFrame, setTask, hu]
    · constructor <;> simp [report, popFrame, setTask]
      simpa [popFrame, setTask] using hnx
    · exact congrArg (fun c => (⟨s.curr, t, c⟩ : Report) :: s.reported) hc
    · simp [report, popFrame, setTask]

end MakarnaX
