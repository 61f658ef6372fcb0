import MakarnaX.Task.Reach

/-!
# Whose handler a signal looks at

`send_signal` leaves a sleeping task alone if the signal would be ignored.  Whether
there is a handler it reads from the table of `task_curr`, and not from that of the
task the signal is for.  So what happens to a task can depend on who sends.
-/

namespace MakarnaX

open Library Sched

variable {s s₁ s₂ : Sched} {sig t : Nat}

/-- What `send_signal` does, by the state of the task. -/
theorem sendSignal_eq (s : Sched) (sig t : Nat) : sendSignal sig t s =
    if 32 < sig then .ok (-EINVAL, s)
    else if (s.tasks t).signal.pending &&& signalBit sig ≠ 0#32 then .ok (0, s)
    else match (s.tasks t).state with
      | .interruptible =>
        if s.currTask.handler sig = SIG_DFL ∧ (sigDI sig || sigDC sig) ∧ ¬ (s.tasks t).waitingChild then
          .ok (0, s.accept sig t) else .ok (0, (s.accept sig t).wake t)
      | .running | .zombie => .ok (0, s.accept sig t)
      | _ => .error (.panic "--") := by
  by_cases hsig : 32 < sig
  · simp [sendSignal, hsig]
  by_cases hp : (s.tasks t).signal.pending &&& signalBit sig = 0#32
  · have heq : sendSignal sig t s = wakeForSignal sig t (s.accept sig t) := by simp [sendSignal, hsig, hp]
    have hst : ((s.accept sig t).tasks t).state = (s.tasks t).state := by simp [accept]
    have hw : ((s.accept sig t).tasks t).waitingChild = (s.tasks t).waitingChild := by simp [accept]
    have hh : (s.accept sig t).currTask.handler sig = s.currTask.handler sig := by
      by_cases hc : s.curr = t
      · subst hc
        simp [currTask, Task.handler]
      · simp [currTask, hc]
    rw [heq, if_neg hsig, if_neg (by simpa using hp)]
    cases hs : (s.tasks t).state with
    | interruptible => rw [wakeForSignal_interruptible (hst.trans hs), hh, hw]
    | running | zombie | notRunnable | uninterruptible | stopped => simp [wakeForSignal, hs]
  · simp [sendSignal, hsig, hp]

/-! ## Two states that differ elsewhere -/

/-- The states agree on the task `t`: on what it does, its signals and handlers, and
the list it is in. -/
structure SameTarget (t : Nat) (s₁ s₂ : Sched) : Prop where
  state : (s₁.tasks t).state = (s₂.tasks t).state
  signal : (s₁.tasks t).signal = (s₂.tasks t).signal
  waitingChild : (s₁.tasks t).waitingChild = (s₂.tasks t).waitingChild
  priority : (s₁.tasks t).priority = (s₂.tasks t).priority
  listNode : (s₁.tasks t).listNode = (s₂.tasks t).listNode
  member : ∀ l, t ∈ s₁.lists l ↔ t ∈ s₂.lists l

/-- In both states the signal has the same effect on the task. -/
def SameEffect (sig t : Nat) (s₁ s₂ : Sched) : Prop :=
  match sendSignal sig t s₁, sendSignal sig t s₂ with
  | .ok (_, s₁'), .ok (_, s₂') => SameTarget t s₁' s₂'
  | .error e₁, .error e₂ => e₁ = e₂
  | _, _ => False

/-- A signal that is ignored without a handler, for a task that sleeps and does not
wait for a child: here the handlers of `task_curr` are looked at. -/
structure Consults (s : Sched) (sig t : Nat) : Prop where
  valid : sig ≤ 32
  fresh : (s.tasks t).signal.pending &&& signalBit sig = 0#32
  sleeps : (s.tasks t).state = .interruptible
  ignored : (sigDI sig || sigDC sig) = true
  alone : (s.tasks t).waitingChild = false

theorem SameTarget.accept (h : SameTarget t s₁ s₂) : SameTarget t (s₁.accept sig t) (s₂.accept sig t) where
  state := by simpa using h.state
  signal := by simp [h.signal]
  waitingChild := by simpa using h.waitingChild
  priority := by simpa using h.priority
  listNode := by simpa using h.listNode
  member := h.member

theorem SameTarget.wake (h : SameTarget t s₁ s₂) (h₁ : s₁.placed) (h₂ : s₂.placed) :
    SameTarget t (s₁.wake t) (s₂.wake t) where
  state := by simp
  signal := by simpa using h.signal
  waitingChild := by simpa using h.waitingChild
  priority := by simpa using h.priority
  listNode := by simp [h.priority]
  member l := by
    rw [h₁.wake.mem, h₂.wake.mem]
    simp [h.priority]

/-- A signal has the same effect whoever sends it if the senders' handlers agree
where they are looked at, and only then. -/
theorem signal_effect_of_target (h₁ : s₁.placed) (h₂ : s₂.placed) (h : SameTarget t s₁ s₂) :
    SameEffect sig t s₁ s₂ ↔
      (Consults s₁ sig t → (s₁.currTask.handler sig = SIG_DFL ↔ s₂.currTask.handler sig = SIG_DFL)) := by
  unfold SameEffect
  rw [sendSignal_eq s₁, sendSignal_eq s₂, ← h.signal, ← h.state, ← h.waitingChild]
  by_cases hsig : 32 < sig
  · simp only [if_pos hsig]
    exact iff_of_true h fun C => absurd C.valid (by omega)
  by_cases hp : (s₁.tasks t).signal.pending &&& signalBit sig = 0#32
  · simp only [if_neg hsig, hp, ne_eq, not_true_eq_false, if_false]
    cases hs : (s₁.tasks t).state with
    | running | zombie => exact iff_of_true h.accept fun C => by simp [C.sleeps] at hs
    | notRunnable | uninterruptible | stopped => exact iff_of_true rfl fun C => by simp [C.sleeps] at hs
    | interruptible =>
      by_cases hc : (sigDI sig || sigDC sig) = true ∧ (s₁.tasks t).waitingChild = false
      · have C : Consults s₁ sig t := ⟨Nat.le_of_not_lt hsig, hp, hs, hc.1, hc.2⟩
        -- one of them sleeps on and the other runs, unless both have a handler or none has
        have hne : ∀ {a b : Sched}, (a.tasks t).state = .interruptible → ¬ SameTarget t a (b.wake t) ∧
            ¬ SameTarget t (b.wake t) a := fun ha =>
          ⟨fun h => by simpa [ha] using h.state, fun h => by simpa [ha] using h.state⟩
        have ha₁ : ((s₁.accept sig t).tasks t).state = .interruptible := by simpa using hs
        have ha₂ : ((s₂.accept sig t).tasks t).state = .interruptible := by simpa [← h.state] using hs
        simp only [hc, Bool.false_eq_true, not_false_eq_true, and_true]
        by_cases d₁ : s₁.currTask.handler sig = SIG_DFL
        · by_cases d₂ : s₂.currTask.handler sig = SIG_DFL
          · simp only [if_pos d₁, if_pos d₂]
            exact iff_of_true h.accept fun _ => iff_of_true d₁ d₂
          · simp only [if_pos d₁, if_neg d₂]
            exact iff_of_false (hne ha₁).1 fun hi => d₂ ((hi C).mp d₁)
        · by_cases d₂ : s₂.currTask.handler sig = SIG_DFL
          · simp only [if_neg d₁, if_pos d₂]
            exact iff_of_false (hne ha₂).2 fun hi => d₁ ((hi C).mpr d₂)
          · simp only [if_neg d₁, if_neg d₂]
            exact iff_of_true (h.accept.wake h₁.accept h₂.accept) fun _ => iff_of_false d₁ d₂
      · have hc' : ¬ ((sigDI sig || sigDC sig) = true ∧ ¬ (s₁.tasks t).waitingChild = true) := by
          simpa using hc
        simp only [hc', and_false, if_false]
        exact iff_of_true (h.accept.wake h₁.accept h₂.accept) fun C => absurd ⟨C.ignored, C.alone⟩ hc
  · simp only [if_neg hsig, ne_eq, hp, not_false_eq_true, if_true]
    exact iff_of_true h fun C => absurd C.fresh hp

/-- Without a handler in either sender, task 1 sleeps on. -/
theorem signal_effect_of_target_pause :
    ∃ s, (kernel fun _ _ => True).Reachable s ∧ Consults s 23 1 ∧ SameEffect 23 1 s { s with curr := 0 } := by
  obtain ⟨s, hs, hx⟩ : ∃ s, (boot 0 0x1000).after (fun _ _ => True) (toChild .pause) = some s ∧
      (s.tasks 1).signal.pending = 0#32 ∧ (s.tasks 1).state = .interruptible ∧ (s.tasks 1).waitingChild = false ∧
      s.currTask.handler 23 = 0 ∧ (s.tasks 0).handler 23 = 0 := observed (by decide +kernel)
  obtain ⟨hp, hst, hw, h2, h0⟩ := hx
  have hr := reachable_after (boot_reachable (fun _ _ => True) 0 0x1000) hs
  have C : Consults s 23 1 := ⟨by decide, by rw [hp]; decide, hst, by decide, hw⟩
  have hplaced := (steady_run hr).1.placed
  have hsame : SameTarget 1 s { s with curr := 0 } := ⟨rfl, rfl, rfl, rfl, rfl, fun _ => Iff.rfl⟩
  have hplaced' : ({ s with curr := 0 } : Sched).placed := hplaced
  refine ⟨s, hr, C, (signal_effect_of_target hplaced hplaced' hsame).mpr fun _ => ?_⟩
  exact iff_of_true h2 h0

/-- The state a signal leaves its target in. -/
def stateAfter (sig t : Nat) (s : Sched) : Option TaskState :=
  (sendSignal sig t s).toOption.map fun r => (r.2.tasks t).state

theorem SameEffect.stateAfter (h : SameEffect sig t s₁ s₂) : stateAfter sig t s₁ = stateAfter sig t s₂ := by
  unfold SameEffect at h
  unfold MakarnaX.stateAfter
  cases h₁ : sendSignal sig t s₁ with
  | ok r₁ =>
    cases h₂ : sendSignal sig t s₂ with
    | ok r₂ =>
      rw [h₁, h₂] at h
      exact congrArg some h.state
    | error e₂ =>
      rw [h₁, h₂] at h
      exact h.elim
  | error e₁ =>
    cases h₂ : sendSignal sig t s₂ with
    | ok r₂ =>
      rw [h₁, h₂] at h
      exact h.elim
    | error e₂ => rfl

/-- Task 2 has a handler for `SIGURG`, and tasks 0 and 1 have none.  Task 1, which has
paused, wakes when the signal comes from task 2 and sleeps on when it comes from task 0. -/
theorem signal_effect_of_sender :
    ∃ s, (kernel fun _ _ => True).Reachable s ∧ s.curr = 2 ∧ SameTarget 1 s { s with curr := 0 } ∧
      ¬ SameEffect 23 1 s { s with curr := 0 } := by
  obtain ⟨s, hs, hx⟩ : ∃ s, (boot 0 0x1000).after (fun _ _ => True) (toChild .pause ++
      [.syscall (.signal 23 0x400)]) = some s ∧ s.curr = 2 ∧ stateAfter 23 1 s = some .running ∧
      stateAfter 23 1 { s with curr := 0 } = some .interruptible := observed (by decide +kernel)
  refine ⟨s, reachable_after (boot_reachable _ 0 0x1000) hs, hx.1, ⟨rfl, rfl, rfl, rfl, rfl, fun _ => Iff.rfl⟩, fun h => ?_⟩
  have hst := h.stateAfter
  rw [hx.2.1, hx.2.2] at hst
  cases hst

end MakarnaX
