import MakarnaX.Task.Reach

/-!
# Signals that stop the kernel

`send_signal` knows tasks that run, wait interruptibly or are dead; for any other
state it panics.  `check_signals` stops a task by a call whose assertion fails,
and `notify_parent` sends a signal of its own when a task ends.

`SafeSignal` names the situations that are left: where every step meets it, no
assertion and no panic of `send_signal`, `check_signals`,
`remove_from_runnable_list` or `notify_parent` is reached.
-/

namespace MakarnaX

open Library Sched

variable {s s' s1 : Sched} {op : Op} {t u sig : Nat} {f : Fault}

/-- The assertions and panics of the four functions. -/
def signalFaults : List Fault :=
  [.panic "--",
   .assert "eflags_read() & FL_IF",
   .assert "task_curr->pgdir.pgdir_pa == cr3",
   .assert "t->list_node.__list == &__task_runnable_queue[t->priority]",
   .assert "t->state == Task::State_running",
   .assert "__task_runnable_queue[t->priority].erase(&t->list_node) != error()",
   .assert "t->list_node.is_free()",
   .assert "t->parent",
   .assert "t->parent != t",
   .assert "r > -1"]

/-- The parent of the current task can be told that it ends. -/
def CanExit (s : Sched) : Prop :=
  s.curr ≠ 0 ∧ ∀ p, s.currTask.parent = some p → ¬ Unsendable s s.currTask.lastSignal p

/-- When a step that sends or delivers signals is safe: the target of a signal
that is accepted does not wait uninterruptibly, no signal that would stop the
task has its default action, a task that ends can tell its parent, and a handler
returns with no signal set. -/
def SafeSignal (s : Sched) : Op → Prop
  | .syscall (.kill pid sig) => pid < s.tasksNr → ¬ Unsendable s sig pid
  | .syscall c => c.exits → CanExit s
  | .checkAlarmTurn t => ¬ Unsendable s SIGALRM t
  | .resume .checkSignals =>
    ∀ sig, DefaultSignal s sig → sigDS sig = false ∧ (sigDI sig = false → sigDC sig = false → CanExit s)
  | .signalReturn _ => s.currTask.signal.sig = 0#32
  | _ => True

/-! ## The cause of each fault -/

theorem ExitFails.safe (I : Inv s) (hS : Steady s) (hc : CanExit s) (h : ExitFails s f) : f ∉ signalFaults := by
  cases h with
  | init => simp [signalFaults]
  | alarm => simp [signalFaults]
  | orphan h => exact absurd (I.orphan s.curr I.curr h) hc.1
  | parent hp hu => exact absurd hu (hc.2 _ hp)
  | signal h =>
    have hl : s.currTask.lastSignal = SIGCHLD := by
      unfold Task.lastSignal
      rcases hS.exitSignal s.curr with h0 | h0 <;> simp [h0]
    rw [hl] at h
    simp [SIGCHLD] at h

theorem Handlers.other (h : Handlers s s1) (hu : u ≠ s.curr) : s1.tasks u = s.tasks u := by
  induction h with
  | refl => rfl
  | @tail a b hab hd ih =>
    obtain ⟨sig, hd⟩ := hd
    have hc : a.curr = s.curr := (Handlers.checking hab).curr
    cases hd
    rw [← ih, deliver_ne (by rw [hc]; exact hu)]

theorem Handlers.part {α : Type} (π : Task → α)
    (hπ : ∀ (x : Task) i st f, π { x with signal := i, sigstack := st, tf := f } = π x) {s1 : Sched}
    (h : Handlers s s1) : π s1.currTask = π s.currTask := by
  induction h with
  | refl => rfl
  | tail _ hd ih =>
    obtain ⟨sig, hd⟩ := hd
    cases hd
    rw [← ih]
    exact deliver_part π hπ

/-- Entering handlers changes nothing for a task that then ends. -/
theorem CanExit.handlers (G : Agree s) (h : Handlers s s1) (hc : CanExit s) : CanExit s1 := by
  have hcurr : s1.curr = s.curr := h.checking.curr
  have hpar : s1.currTask.parent = s.currTask.parent := h.part Task.parent fun _ _ _ _ => rfl
  have hsig : s1.currTask.lastSignal = s.currTask.lastSignal := h.part Task.lastSignal fun _ _ _ _ => rfl
  refine ⟨hcurr ▸ hc.1, fun p hp hu => ?_⟩
  rw [hpar] at hp
  rw [hsig] at hu
  have hne : p ≠ s.curr := Nat.ne_of_lt (G.parent s.curr p G.curr hp)
  have hu1 := hu.clear
  have hu2 := hu.state
  rw [h.other hne] at hu1 hu2
  exact hc.2 p hp ⟨hu.valid, hu1, hu2⟩

theorem DefaultSignal.of_handlers (h : Handlers s s1) (hd : DefaultSignal s1 sig) :
    DefaultSignal s sig := by
  have c := h.checking
  have hx : s1.currTask = s1.tasks s.curr := by rw [currTask, c.curr]
  refine ⟨hd.range, ?_, ?_, c.curr ▸ hd.task⟩
  · have hb := hd.bit
    rw [hx] at hb
    exact c.bits sig hb
  · have ha := hd.action
    rw [hx, c.action] at ha
    exact ha

/-- The panic of a section that is closed once too often. -/
def popifPanic : Fault := .panic "popif sayisi, pushdan fazla"

theorem CheckFails.safe (I : Inv s) (hS : Steady s) (hsafe : ∀ sig, DefaultSignal s sig →
      sigDS sig = false ∧ (sigDI sig = false → sigDC sig = false → CanExit s))
    (h : CheckFails s f) : f ∉ signalFaults ∧ f ≠ popifPanic := by
  cases h with
  | cr3 h => exact absurd hS.pgdir h
  | popped => simp [signalFaults, popifPanic]
  | full => simp [signalFaults, popifPanic]
  | stops hh hd hs =>
    have := (hsafe _ (hd.of_handlers hh)).1
    rw [hs] at this
    cases this
  | exits hh hd hi hc he =>
    have hcan := ((hsafe _ (hd.of_handlers hh)).2 hi hc).handlers I.toAgree hh
    refine ⟨he.safe (hh.inv I) (hh.steady I hS) hcan, ?_⟩
    cases he <;> simp [popifPanic]
  | @unbalanced s1 hh hn => exact absurd ((hh.steady I hS).sections s1.curr) (Int.not_le.mpr hn)
  | sigstack => simp [signalFaults, popifPanic]

/-- `check_signals` and what comes back to it. -/
def Op.delivers : Op → Bool
  | .resume .checkSignals | .signalReturn _ => true
  | _ => false

theorem SafeSignal.popFrame (h : SafeSignal s (.resume .checkSignals)) (d : DefaultSignal s.popFrame sig) :
    sigDS sig = false ∧ (sigDI sig = false → sigDC sig = false → CanExit s.popFrame) := by
  have hx : s.popFrame.currTask = { s.currTask with kstack := s.currTask.kstack.tail } := by
    simp [Sched.popFrame, Sched.currTask]
  have hd : DefaultSignal s sig := by
    refine ⟨d.range, ?_, ?_, d.task⟩
    · have := d.bit
      rwa [hx] at this
    · have := d.action
      rwa [hx] at this
  refine ⟨(h sig hd).1, fun hi hc => ?_⟩
  have hcan := (h sig hd).2 hi hc
  refine ⟨hcan.1, fun p hp hu => ?_⟩
  rw [hx] at hp hu
  refine hcan.2 p hp ⟨hu.valid, ?_, ?_⟩
  · have hcl := hu.clear
    rwa [show (s.popFrame.tasks p).signal = (s.tasks p).signal from Sched.setTask_part Task.signal rfl] at hcl
  · have hst := hu.state
    rwa [show (s.popFrame.tasks p).state = (s.tasks p).state from Sched.setTask_part Task.state rfl] at hst

theorem Fails.safe (I : Inv s) (hS : Steady s) (he : op.enabled s) (hsafe : SafeSignal s op)
    (h : Fails s op f) : f ∉ signalFaults ∧ (op.delivers → f ≠ popifPanic) := by
  cases h with
  | @exit c _ hc h =>
    have hcan : CanExit s := by
      cases c with
      | kill pid sig => cases hc
      | _ => exact hsafe hc
    exact ⟨h.safe I hS hcan, by simp [Op.delivers]⟩
  | kill ht h => exact absurd h (hsafe ht)
  | alarm h => rcases h with rfl | rfl | rfl <;> simp [signalFaults, Op.delivers]
  | handlerReturn h =>
    cases h with
    | again hz => exact absurd hsafe hz
    | _ => simp [signalFaults, popifPanic]
  | alarmSignal h => exact absurd h hsafe
  | check h =>
    have hp := I.popFrame he.2 (by decide) (by decide)
    have hSp : Steady s.popFrame := hS.effect I (by simp) (.pop he.2 (.inl rfl))
    obtain ⟨h1, h2⟩ := h.safe hp hSp fun sig d => hsafe.popFrame d
    exact ⟨h1, fun _ => h2⟩
  | _ => simp [signalFaults, Op.delivers]

theorem Unsendable.panics (h : Unsendable s sig t) : sendSignal sig t s = .error (.panic "--") := by
  rcases sendSignal_cases s sig t with ⟨r, s1, -, hS⟩ | ⟨he, -⟩
  · cases hS with
    | invalid hi => exact absurd h.valid (Nat.not_le.mpr hi)
    | refused _ hp => exact absurd h.clear hp
    | noted _ _ hs =>
      rw [h.state] at hs
      simp at hs
    | woken _ _ hs =>
      rw [h.state] at hs
      cases hs
  · exact he

end MakarnaX
