import MakarnaX.Task.Steps

/-!
# Delivering signals, as effects

The loop of `check_signals` runs in an interrupt section.  `openSection` is the
state inside that section, so that a handler entered inside it is one entered
outside it (`openSection_deliver`) and the loop is a sequence of `deliver`s that
ends in one of five ways (`LoopEnds`).

`signal_return` comes back into the same loop, but outside the section: the
only runs of it that return are those that leave at once.
-/

namespace MakarnaX

open Library Sched

variable {s s' s₀ s1 : Sched} {op : Op} {t u sig code esp0 : Nat} {l : ListId} {rest : List SignalState}
  {st : SignalState} {E : Fault → Prop}

/-! ## Interrupt sections -/

/-- `pushcli`: one more section is open. -/
def Sched.openSection (s : Sched) : Sched :=
  { s.setTask s.curr fun x => { x with nCli := x.nCli + 1 } with ifl := false }

theorem pushcli_eq : pushcli s = .ok ((), s.openSection) := rfl

theorem popif_openSection : popif s.openSection =
    if s.currTask.nCli < 0 then .error (.panic "popif sayisi, pushdan fazla")
    else .ok ((), { s with ifl := decide (s.currTask.nCli = 0) }) := by
  have hback : (s.openSection.setTask s.curr fun x => { x with nCli := x.nCli - 1 }) = { s with ifl := false } := by
    refine Sched.ext (funext fun u => ?_) rfl rfl rfl rfl rfl rfl rfl rfl rfl rfl rfl
    by_cases hu : u = s.curr
    · subst hu
      simp [Sched.openSection, Sched.setTask]
    · simp [Sched.openSection, Sched.setTask]
  have hcurr : s.openSection.curr = s.curr := rfl
  simp only [popif, modCurr, modify_run, get_run, hcurr, hback]
  split
  · rfl
  · rfl

/-! ## `check_signals` -/

theorem openSection_deliver : s.openSection.deliver sig = (s.deliver sig).openSection := by
  refine Sched.ext (funext fun u => ?_) rfl rfl rfl rfl rfl rfl rfl rfl rfl rfl rfl
  by_cases hu : u = s.curr
  · subst hu
    simp [Sched.openSection, Sched.deliver, Sched.enterHandler, Sched.setTask]
  · simp [Sched.openSection, Sched.deliver, Sched.enterHandler, Sched.setTask, hu]

theorem Checking.trans {s1 s2 : Sched} (c : Checking s s1) (c' : Checking s1 s2) : Checking s s2 where
  curr := c'.curr.trans c.curr
  waitingChild := by rw [← c.waitingChild, ← c.curr, c'.waitingChild]
  action := by rw [← c.action, ← c.curr, c'.action]
  bits k hk := c.bits k (by rw [← c.curr] at hk ⊢; exact c'.bits k hk)

theorem Checking.deliver (c : Checking s s1) : Checking s (s1.deliver sig) where
  curr := c.curr
  waitingChild := by
    rw [← c.waitingChild, ← c.curr]
    simp [Sched.deliver, Sched.enterHandler]
  action := by
    rw [← c.action, ← c.curr]
    simp [Sched.deliver, Sched.enterHandler]
  bits k hk := by
    refine c.bits k ?_
    intro h0
    apply hk
    have hd : ((s1.deliver sig).tasks s.curr).signal.sig = (s1.tasks s.curr).signal.sig &&& ~~~ signalBit sig := by
      rw [← c.curr]
      simp [Sched.deliver, Sched.enterHandler]
    rw [hd, BitVec.and_assoc, BitVec.and_comm (~~~ signalBit sig), ← BitVec.and_assoc, h0]
    simp

theorem stopTask_fails (h : s.currTask.listNode = some (.runnable s.currTask.priority)) :
    stopTask sig s = .error (.assert "t->state == Task::State_running") := by
  have h' : (s.tasks s.curr).listNode = some (.runnable (s.tasks s.curr).priority) := h
  simp only [stopTask, get_run, modTask, modify_run]
  apply bind_fail
  simp [removeFromRunnableList, ASSERT, check_run, h']

/-- From one state to another by entering handlers. -/
def Handlers : Sched → Sched → Prop := Relation.ReflTransGen fun a b => ∃ sig, Effect a (.deliver sig) b

theorem Handlers.checking (h : Handlers s s1) : Checking s s1 := by
  induction h with
  | refl => exact ⟨rfl, rfl, rfl, fun _ hk => hk⟩
  | tail _ hd ih =>
    obtain ⟨sig, hd⟩ := hd
    cases hd
    exact ih.deliver

theorem OnQueue.deliver (hq : OnQueue s) : OnQueue (s.deliver sig) := by
  constructor
  · simpa [Sched.deliver, Sched.enterHandler, Sched.currTask] using hq.state
  · simpa [Sched.deliver, Sched.enterHandler, Sched.currTask] using hq.listNode

theorem Handlers.onQueue (h : Handlers s s1) (hq : OnQueue s) : OnQueue s1 := by
  induction h with
  | refl => exact hq
  | tail _ hd ih =>
    obtain ⟨sig, hd⟩ := hd
    cases hd
    exact ih.deliver

theorem Handlers.inv (h : Handlers s s1) (I : Inv s) : Inv s1 := by
  induction h with
  | refl => exact I
  | tail _ hd ih =>
    obtain ⟨sig, hd⟩ := hd
    exact ih.effect hd

/-- A signal that is set and has its default action, for a task that takes it. -/
structure DefaultSignal (s : Sched) (sig : Nat) : Prop where
  range : 0 < sig ∧ sig < 32
  bit : s.currTask.signal.sig &&& signalBit sig ≠ 0#32
  action : s.currTask.signal.action sig = SIG_DFL
  task : s.curr ≠ 1

/-- How the loop of `check_signals` ends, in the open section of `s`. -/
inductive LoopEnds (s : Sched) : Exec (Control × Sched) → Prop
  | done : LoopEnds s (.ok (.loopEnd, s.openSection))
  | popped : LoopEnds s (.error (.assert "!task_curr->popped_kstack"))
  | full {sig : Nat} (h0 : 0 < sig ∧ sig < 32) (hb : s.currTask.signal.sig &&& signalBit sig ≠ 0#32)
      (h : 32 ≤ s.currTask.sigstack.length) :
      LoopEnds s (.error (.assert "task_curr->sigstack.size() < 32"))
  | stops {sig : Nat} (h : DefaultSignal s sig) (hs : sigDS sig) :
      LoopEnds s (.error (.assert "t->state == Task::State_running"))
  | exits {sig : Nat} (h : DefaultSignal s sig) (hi : sigDI sig = false) (hc : sigDC sig = false) :
      LoopEnds s ((do popif; doExit sig; return .gone : SchedM Control) s.openSection)

theorem pushStack_openSection :
    pushStack sig s.openSection =
      if s.currTask.poppedKstack then .error (.assert "!task_curr->popped_kstack")
      else if 32 ≤ s.currTask.sigstack.length then .error (.assert "task_curr->sigstack.size() < 32")
      else .ok ((), s.openSection.setTask s.curr fun x =>
        { x with sigstack := ⟨sig, x.kstack, x.tf, x.sleep⟩ :: x.sigstack }) := by
  have hp : s.openSection.currTask.poppedKstack = s.currTask.poppedKstack := by
    simp [openSection, currTask, setTask]
  have hl : s.openSection.currTask.sigstack = s.currTask.sigstack := by
    simp [openSection, currTask, setTask]
  simp only [pushStack, get_run, ASSERT, check_run, hp, hl, modCurr, modify_apply]
  by_cases h1 : s.currTask.poppedKstack = true
  · simp [h1]
  · by_cases h2 : 32 ≤ s.currTask.sigstack.length
    · simp [h1, h2, Nat.not_lt.mpr h2]
    · simp [h1, h2, Nat.lt_of_not_le h2]
      rfl

theorem setTask_id {f : Task → Task} (h : f (s.tasks t) = s.tasks t) : s.setTask t f = s := by
  refine Sched.ext (funext fun u => ?_) rfl rfl rfl rfl rfl rfl rfl rfl rfl rfl rfl
  by_cases hu : u = t
  · rw [hu, Sched.setTask_self, h]
  · rw [Sched.setTask_ne f hu]

theorem checkSignalsLoop_ends {n : Nat} (hn : n < 32) (hq : OnQueue s) :
    ∃ s1, Handlers s s1 ∧ LoopEnds s1 (checkSignalsLoop n s.openSection) := by
  induction n generalizing s with
  | zero => exact ⟨s, .refl, .done⟩
  | succ n ih =>
    have hn' : n < 32 := Nat.lt_of_succ_lt hn
    have hx : s.openSection.currTask = { s.currTask with nCli := s.currTask.nCli + 1 } := by
      simp [openSection, currTask, setTask]
    simp only [checkSignalsLoop, get_run, hx]
    split
    · exact ⟨s, .refl, .done⟩
    split
    · exact ih hn' hq
    next hz hb =>
    split
    · next ha =>
      rw [get_run]
      split
      · exact ih hn' hq
      next h1 =>
      have hd : DefaultSignal s (n + 1) := ⟨⟨Nat.succ_pos n, hn⟩, hb, ha, h1⟩
      split
      · exact ih hn' hq
      next hi =>
      split
      · next hs =>
        have hl : s.openSection.currTask.listNode = some (.runnable s.openSection.currTask.priority) := by
          rw [hx]
          exact hq.listNode
        rw [bind_fail (stopTask_fails hl)]
        exact ⟨s, .refl, .stops hd hs⟩
      split
      · exact ih hn' hq
      · next hdc =>
        have hor : (s.openSection.setTask s.curr fun x =>
            { x with signal := { x.signal with sig := x.signal.sig ||| signalBit (n + 1) } }) = s.openSection := by
          refine setTask_id ?_
          have hb' : (s.openSection.tasks s.curr).signal.sig &&& signalBit (n + 1) ≠ 0#32 := by
            rw [show s.openSection.tasks s.curr = s.openSection.currTask from rfl, hx]
            exact hb
          rw [or_signalBit_of_and_ne hb']
        refine ⟨s, .refl, ?_⟩
        simp only [modCurr, modify_run]
        rw [show s.openSection.curr = s.curr from rfl, hor]
        exact .exits hd (by simpa using hi) (by simpa using hdc)
    · next ha =>
      by_cases hp : s.currTask.poppedKstack
      · refine ⟨s, .refl, ?_⟩
        rw [bind_fail (by rw [pushStack_openSection, if_pos hp])]
        exact .popped
      by_cases hf : 32 ≤ s.currTask.sigstack.length
      · refine ⟨s, .refl, ?_⟩
        rw [bind_fail (by rw [pushStack_openSection, if_neg hp, if_pos hf])]
        exact .full ⟨Nat.succ_pos n, hn⟩ hb hf
      · have he : Effect s (.deliver (n + 1)) (s.deliver (n + 1)) := .deliver (Nat.succ_pos n) hn hq hb ha
        obtain ⟨s1, hh, hend⟩ := ih hn' (hq.deliver)
        refine ⟨s1, .head ⟨n + 1, he⟩ hh, ?_⟩
        rw [bind_run (by rw [pushStack_openSection, if_neg hp, if_neg hf])]
        rw [← openSection_deliver] at hend
        simp only [afterPushStack, get_run]
        rw [if_neg, modify_run]
        · exact hend
        · simpa [currTask, openSection, setTask] using hz

/-- `check_signals` and the end of `schedule`, in the section it opens. -/
theorem checkSignals_eq (h3 : s.currTask.pgdirPa = s.cr3) :
    checkSignals s = (do let c ← checkSignalsLoop 31; finishSignals c : SchedM Unit) s.openSection := by
  have h3' : (s.tasks s.curr).pgdirPa = s.cr3 := h3
  simp only [checkSignals, modify_run, get_run, ASSERT, check_run, if_true, h3',
    currTask]
  rw [bind_run pushcli_eq, get_run]
  have ho : ({ s with ifl := true } : Sched).openSection = s.openSection := rfl
  rw [ho]
  split
  · rfl
  · next hz =>
    have hz : s.openSection.currTask.signal.sig = 0#32 := by simpa using hz
    have hl : checkSignalsLoop 31 s.openSection = .ok (.loopEnd, s.openSection) := by
      simp only [checkSignalsLoop, get_run]
      rw [if_pos hz]
      rfl
    rw [bind_run hl]

theorem Handlers.effects (h : Handlers s s1) (hop : op = .resume .checkSignals) (hc : Checking s₀ s) :
    Effects (Occurs s₀ op) s s1 := by
  induction h with
  | refl => exact .quiet (.refl _)
  | tail h hd ih =>
    obtain ⟨sig, hd⟩ := hd
    exact ih.trans (.single (e := .deliver sig) ⟨hop, hc.trans (Handlers.checking h)⟩ hd)

theorem Checking.quiet {s1 s2 : Sched} (c : Checking s s1) (q : Quiet s1 s2) : Checking s s2 where
  curr := q.curr.trans c.curr
  waitingChild := (q.task _).waitingChild.trans c.waitingChild
  action := by rw [(q.task _).signal, c.action]
  bits k hk := c.bits k (by rw [← (q.task _).signal]; exact hk)

theorem Quiet.ifl (b : Bool) : Quiet s { s with ifl := b } :=
  ⟨fun _ => .refl _, rfl, rfl, rfl, rfl, rfl, rfl, rfl, fun v => v⟩

theorem assertSigstack_eq : assertSigstack s =
    if s.currTask.signal.pending = 0#32 ∧ s.currTask.sigstack ≠ [] then
      .error (.assert "!(!task_curr->signal.pending && task_curr->sigstack.size() != 0)")
    else .ok ((), s) := by
  simp only [assertSigstack, get_run, ASSERT, check_apply]
  by_cases h : s.currTask.signal.pending = 0#32 ∧ s.currTask.sigstack ≠ []
  · rw [if_pos h, if_neg]
    simpa using h
  · rw [if_neg h, if_pos]
    simpa using h

theorem assertSigstack_ends (hE : s.currTask.signal.pending = 0#32 → s.currTask.sigstack ≠ [] →
      E (.assert "!(!task_curr->signal.pending && task_curr->sigstack.size() != 0)")) :
    Ends assertSigstack s E fun _ s' => s' = s := by
  have h := assertSigstack_eq (s := s)
  split at h
  · next hn => exact .of_error h (hE hn.1 hn.2)
  · exact .of_ok h rfl

theorem popif_openSection_ends (hE : s.currTask.nCli < 0 → E (.panic "popif sayisi, pushdan fazla")) :
    Ends popif s.openSection E fun _ s' => ∃ b, s' = { s with ifl := b } := by
  have h := popif_openSection (s := s)
  split at h
  · next hn => exact .of_error h (hE hn)
  · exact .of_ok h ⟨_, rfl⟩

/-- How `check_signals` and the end of `schedule` can fail. -/
inductive CheckFails (s : Sched) : Fault → Prop
  | cr3 (h : s.currTask.pgdirPa ≠ s.cr3) : CheckFails s (.assert "task_curr->pgdir.pgdir_pa == cr3")
  | popped : CheckFails s (.assert "!task_curr->popped_kstack")
  | full {s1 : Sched} {sig : Nat} (hh : Handlers s s1) (h0 : 0 < sig ∧ sig < 32)
      (hb : s1.currTask.signal.sig &&& signalBit sig ≠ 0#32) (h : 32 ≤ s1.currTask.sigstack.length) :
      CheckFails s (.assert "task_curr->sigstack.size() < 32")
  | stops {s1 : Sched} {sig : Nat} (hh : Handlers s s1) (h : DefaultSignal s1 sig) (hs : sigDS sig) :
      CheckFails s (.assert "t->state == Task::State_running")
  | exits {s1 : Sched} {sig : Nat} {e : Fault} (hh : Handlers s s1) (h : DefaultSignal s1 sig)
      (hi : sigDI sig = false) (hc : sigDC sig = false) (he : ExitFails s1 e) : CheckFails s e
  | unbalanced {s1 : Sched} (hh : Handlers s s1) (h : s1.currTask.nCli < 0) :
      CheckFails s (.panic "popif sayisi, pushdan fazla")
  | sigstack {s1 : Sched} (hh : Handlers s s1) (hp : s1.currTask.signal.pending = 0#32)
      (hs : s1.currTask.sigstack ≠ []) :
      CheckFails s (.assert "!(!task_curr->signal.pending && task_curr->sigstack.size() != 0)")

theorem checkSignals_ends (I : Inv s) (hq : OnQueue s) (hop : op = .resume .checkSignals) (hc : Checking s₀ s)
    (hE : ∀ e, CheckFails s e → E e) : Performs s₀ op checkSignals s E := by
  by_cases h3 : s.currTask.pgdirPa = s.cr3
  · obtain ⟨s1, hh, hend⟩ := checkSignalsLoop_ends (n := 31) (by decide) hq
    have hl : Effects (Occurs s₀ op) s s1 := hh.effects hop hc
    have hun := fun hn => hE _ (.unbalanced hh hn)
    refine .of_eq (checkSignals_eq h3) ?_
    generalize hr : checkSignalsLoop 31 s.openSection = r at hend
    cases hend with
    | popped => exact .of_error (bind_fail hr) (hE _ .popped)
    | full h0 hb hf => exact .of_error (bind_fail hr) (hE _ (.full hh h0 hb hf))
    | stops hd hs => exact .of_error (bind_fail hr) (hE _ (.stops hh hd hs))
    | done =>
      refine .bind_ok hr (.bind (popif_openSection_ends hun) ?_)
      rintro _ _ ⟨b, rfl⟩
      refine (assertSigstack_ends (s := { s1 with ifl := b }) fun hp hs => hE _ (.sigstack hh hp hs)).mono ?_
      rintro _ _ rfl
      exact hl.trans (.quiet (.ifl b))
    | @exits sig hd hi hdc =>
      refine .bind (P := fun c s' => c = .gone ∧ Effects (Occurs s₀ op) s s')
        (.of_eq hr (.bind (popif_openSection_ends hun) ?_)) ?_
      · rintro _ _ ⟨b, rfl⟩
        have hq1 : OnQueue s1 := hh.onQueue hq
        have G1 : Agree { s1 with ifl := b } := (hh.inv I).toAgree.quiet (.ifl b)
        refine .bind (doExit_ends G1 ⟨hq1.state, hq1.listNode⟩ (fun e he => ?_) fun _ s5 q => ?_) fun _ _ h =>
          .pure ⟨rfl, (hl.trans (.quiet (.ifl b))).trans h⟩
        · exact hE e (.exits hh hd hi hdc (he.of_quiet (.ifl b)))
        · have hc5 : Checking s₀ s5 := (hc.trans hh.checking).quiet ((Quiet.ifl b).trans q)
          refine .inr ⟨hop, hc5, ?_, ?_, hi, hdc, hd.range⟩
          · rw [currTask, (q.task _).signal, q.curr]
            exact hd.bit
          · rw [currTask, (q.task _).signal, q.curr]
            exact hd.action
      · rintro _ _ ⟨rfl, h⟩
        exact .pure h
  · have h3' : ¬ (s.tasks s.curr).pgdirPa = s.cr3 := h3
    refine .of_error ?_ (hE _ (.cr3 h3))
    simp [checkSignals, ASSERT, check_run, h3']

/-! ## `signal_return` -/

section

variable (hp : s.currTask.poppedKstack = false) (hst : s.currTask.sigstack = st :: rest)

include hp hst

theorem signalReturn_eq :
    signalReturn esp0 s =
      (do let c ← afterPushStack st.sig (checkSignalsLoop (st.sig - 1)); finishSignals c : SchedM Unit)
        (s.handlerReturn esp0 st rest) := by
  have hp' : (s.tasks s.curr).poppedKstack = false := hp
  have hst' : (s.tasks s.curr).sigstack = st :: rest := hst
  have hpop : popStack (s.setTask s.curr fun x =>
      { x with signal := { x.signal with pending := x.signal.pending &&& ~~~ signalBit esp0 } }) =
        .ok (st.sig, s.handlerReturn esp0 st rest) := by
    simp only [popStack, get_run, ASSERT, check_run, currTask, setTask_curr,
      setTask_self, hp', hst']
    simp [modCurr, handlerReturn, setTask_setTask]
    rfl
  simp only [signalReturn, modCurr, modify_run, bind_run hpop]

/-- If no signal is set, `signal_return` leaves `check_signals` at once. -/
theorem signalReturn_zero (hz : s.currTask.signal.sig = 0#32) :
    signalReturn esp0 s = assertSigstack (s.handlerReturn esp0 st rest) := by
  have hz' : (s.handlerReturn esp0 st rest).currTask.signal.sig = 0#32 := by
    simpa [handlerReturn, currTask] using hz
  rw [signalReturn_eq hp hst]
  refine bind_run (a := Control.returned) ?_
  simp only [afterPushStack, get_run, hz', if_true, pure_apply]

/-- If one is, the handler is entered again and the loop goes on. -/
theorem signalReturn_again (hz : s.currTask.signal.sig ≠ 0#32) :
    signalReturn esp0 s = (do let c ← checkSignalsLoop (st.sig - 1); finishSignals c : SchedM Unit)
      ((s.handlerReturn esp0 st rest).enterHandler st.sig) := by
  have hz' : (s.handlerReturn esp0 st rest).currTask.signal.sig ≠ 0#32 := by
    simpa [handlerReturn, currTask] using hz
  rw [signalReturn_eq hp hst]
  simp only [afterPushStack, bind_assoc, get_run]
  rw [if_neg hz', bind_assoc, modify_run]

end

/-- The state in which the loop goes on. -/
structure Popped (s : Sched) : Prop where
  popped : s.currTask.poppedKstack = true
  sections : s.currTask.nCli ≤ 0
  listNode : s.currTask.listNode = some (.runnable s.currTask.priority)

theorem Popped.of_return (hn : s.currTask.nCli ≤ 0) (hl : s.currTask.listNode = some (.runnable s.currTask.priority)) :
    Popped ((s.handlerReturn esp0 st rest).enterHandler st.sig) where
  popped := by simp [enterHandler, handlerReturn, currTask, setTask]
  sections := by simpa [enterHandler, handlerReturn, currTask, setTask] using hn
  listNode := by simpa [enterHandler, handlerReturn, currTask, setTask] using hl

/-- The section that `popif` would close was never opened. -/
theorem Popped.popif_fails (h : Popped s) : popif s = .error (.panic "popif sayisi, pushdan fazla") := by
  have hn : (s.tasks s.curr).nCli - 1 < 0 := by
    have := h.sections
    unfold currTask at this
    omega
  simp [popif, modCurr, currTask, hn]

/-- How the loop ends that `signal_return` has come back to. -/
theorem Popped.loop (h : Popped s) (n : Nat) :
    checkSignalsLoop n s = .ok (.loopEnd, s) ∨
      ∃ f, checkSignalsLoop n s = .error f ∧
        (f = .panic "popif sayisi, pushdan fazla" ∨ f = .assert "!task_curr->popped_kstack" ∨
          f = .assert "t->state == Task::State_running") := by
  induction n with
  | zero => exact .inl rfl
  | succ n ih =>
    simp only [checkSignalsLoop, get_run]
    split
    · exact .inl rfl
    split
    · exact ih
    next hb =>
    split
    · rw [get_run]
      split
      · exact ih
      split
      · exact ih
      split
      · exact .inr ⟨_, bind_fail (stopTask_fails h.listNode), .inr (.inr rfl)⟩
      split
      · exact ih
      · -- the bit is set already
        have hor : (s.setTask s.curr fun x =>
            { x with signal := { x.signal with sig := x.signal.sig ||| signalBit (n + 1) } }) = s := by
          refine setTask_id ?_
          rw [or_signalBit_of_and_ne hb]
        refine .inr ⟨_, ?_, .inl rfl⟩
        simp only [modCurr, modify_run, hor]
        exact bind_fail h.popif_fails
    · have hp : (s.tasks s.curr).poppedKstack = true := h.popped
      refine .inr ⟨_, bind_fail (e := .assert "!task_curr->popped_kstack") ?_, .inr (.inl rfl)⟩
      simp [pushStack, ASSERT, check_run, hp]

/-- Coming back to the loop never ends well. -/
theorem Popped.fails (h : Popped s) (n : Nat) :
    ∃ f, (do let c ← checkSignalsLoop n; finishSignals c : SchedM Unit) s = .error f ∧
      (f = .panic "popif sayisi, pushdan fazla" ∨ f = .assert "!task_curr->popped_kstack" ∨
        f = .assert "t->state == Task::State_running") := by
  rcases h.loop n with hl | ⟨f, hl, hf⟩
  · rw [bind_run hl]
    exact ⟨_, bind_fail h.popif_fails, .inl rfl⟩
  · exact ⟨f, bind_fail hl, hf⟩

/-- How `signal_return` can fail. -/
inductive ReturnFails (s : Sched) (esp0 : Nat) : Fault → Prop
  | empty (h : s.currTask.sigstack = []) : ReturnFails s esp0 (.assert "task_curr->sigstack.size() > 0")
  | again {e : Fault} (h : s.currTask.signal.sig ≠ 0#32)
      (he : e = .panic "popif sayisi, pushdan fazla" ∨ e = .assert "!task_curr->popped_kstack" ∨
        e = .assert "t->state == Task::State_running") : ReturnFails s esp0 e
  | sigstack {st : SignalState} {rest : List SignalState} (hs : s.currTask.sigstack = st :: rest)
      (hp : s.currTask.signal.pending &&& ~~~ signalBit esp0 = 0#32) (hr : rest ≠ []) :
      ReturnFails s esp0 (.assert "!(!task_curr->signal.pending && task_curr->sigstack.size() != 0)")

theorem ReturnFails.of_quiet {esp0 : Nat} (q : Quiet s s') (h : ReturnFails s' esp0 e) : ReturnFails s esp0 e := by
  have hst : s'.currTask.sigstack = s.currTask.sigstack := by
    rw [currTask, q.curr, (q.task _).sigstack]
  have hsig : s'.currTask.signal = s.currTask.signal := by
    rw [currTask, q.curr, (q.task _).signal]
  cases h with
  | empty h => exact .empty (hst ▸ h)
  | again h he => exact .again (hsig ▸ h) he
  | sigstack hs hp hr => exact .sigstack (hst ▸ hs) (hsig ▸ hp) hr

/-- A handler returns to where it was entered only if no signal is set. -/
theorem signalReturn_ends (hp : s.currTask.poppedKstack = false) (hn : s.currTask.nCli ≤ 0)
    (hl : s.currTask.listNode = some (.runnable s.currTask.priority)) (hE : ∀ e, ReturnFails s esp0 e → E e) :
    Ends (signalReturn esp0) s E fun _ s' => s.currTask.signal.sig = 0#32 ∧
      ∃ st rest, s.currTask.sigstack = st :: rest ∧ s' = s.handlerReturn esp0 st rest := by
  cases hst : s.currTask.sigstack with
  | nil =>
    have hst' : (s.tasks s.curr).sigstack = [] := hst
    have hp' : (s.tasks s.curr).poppedKstack = false := hp
    refine .of_error ?_ (hE _ (.empty hst))
    simp [signalReturn, modCurr, popStack, ASSERT, check_run, currTask, hst', hp']
  | cons st rest =>
    by_cases hz : s.currTask.signal.sig = 0#32
    · refine .of_eq (signalReturn_zero hp hst hz) ((assertSigstack_ends fun hpe hne => ?_).mono ?_)
      · refine hE _ (.sigstack hst ?_ ?_)
        · simpa [handlerReturn, currTask] using hpe
        · simpa [handlerReturn, currTask] using hne
      · exact fun _ _ h => ⟨hz, st, rest, rfl, h⟩
    · obtain ⟨f, hf, hall⟩ := (Popped.of_return hn hl).fails (st.sig - 1)
      exact .of_error ((signalReturn_again hp hst hz).trans hf) (hE f (.again hz hall))

end MakarnaX
