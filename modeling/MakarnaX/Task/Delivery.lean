import MakarnaX.Library.Bits
import MakarnaX.Task.Reach
import Mathlib.Data.Fintype.Card

/-!
# Handlers: entered, nested, left

For each task the kernel keeps two words of signals: `sig`, what was sent and not
yet delivered, and `pending`, the signals whose handlers run.  `sigstack` has one
saved kernel stack for each of those.

Two invariants are about them.  A handler is not entered more often than its
signal was sent, in any run.  And the saved stacks are as many as the pending
signals as long as the user program comes back from a handler with the number of
a pending signal on its stack: the bit to clear is read from there, while the
stack to go back to is chosen by the kernel.

`signal_return` goes back into the loop of `check_signals`, behind `push_stack`.
There it leaves only if no signal at all is set.  If one is, be it a signal that
is ignored, the handler is entered again and `popif` closes a section that
nobody opened.
-/

namespace MakarnaX

open Library Finset Sched Function

variable {s s' : Sched} {t u sig : Nat} {e : Label} {f : Fault}

/-! ## Signals under effects -/

/-- What an effect does to the signals of task `t`. -/
inductive SignalMove (s s' : Sched) (t : Nat) : Label → Prop
  | same {e : Label} (hs : (s'.tasks t).signal.sig = (s.tasks t).signal.sig)
      (hp : (s'.tasks t).signal.pending = (s.tasks t).signal.pending)
      (hst : (s'.tasks t).sigstack = (s.tasks t).sigstack) (ha : s'.accepted t = s.accepted t)
      (he : s'.entered t = s.entered t) : SignalMove s s' t e
  | accept {e : Label} {sig : Nat} (hc : (s.tasks t).signal.pending &&& signalBit sig = 0#32)
      (hs : (s'.tasks t).signal.sig = (s.tasks t).signal.sig ||| signalBit sig)
      (hp : (s'.tasks t).signal.pending = (s.tasks t).signal.pending)
      (hst : (s'.tasks t).sigstack = (s.tasks t).sigstack)
      (ha : s'.accepted t = update (s.accepted t) (sig % 32) (s.accepted t (sig % 32) + 1))
      (he : s'.entered t = s.entered t) : SignalMove s s' t e
  | deliver {sig : Nat} {st : SignalState} (hc : t = s.curr) (h0 : 0 < sig ∧ sig < 32)
      (hb : (s.tasks t).signal.sig &&& signalBit sig ≠ 0#32)
      (hs : (s'.tasks t).signal.sig = (s.tasks t).signal.sig &&& ~~~ signalBit sig)
      (hp : (s'.tasks t).signal.pending = (s.tasks t).signal.pending ||| signalBit sig)
      (hst : (s'.tasks t).sigstack = st :: (s.tasks t).sigstack) (ha : s'.accepted t = s.accepted t)
      (he : s'.entered t = update (s.entered t) sig (s.entered t sig + 1)) :
      SignalMove s s' t (.deliver sig)
  | handlerReturn {esp0 : Nat} {st : SignalState} (hc : t = s.curr)
      (hs : (s'.tasks t).signal.sig = (s.tasks t).signal.sig)
      (hp : (s'.tasks t).signal.pending = (s.tasks t).signal.pending &&& ~~~ signalBit esp0)
      (hst : (s.tasks t).sigstack = st :: (s'.tasks t).sigstack) (ha : s'.accepted t = s.accepted t)
      (he : s'.entered t = s.entered t) : SignalMove s s' t (.handlerReturn esp0)
  | fork (ht : t = s.tasksNr) (hs : (s'.tasks t).signal.sig = 0#32) (hp : (s'.tasks t).signal.pending = 0#32)
      (hst : (s'.tasks t).sigstack = []) (ha : s'.accepted t = s.accepted t)
      (he : s'.entered t = s.entered t) : SignalMove s s' t .fork

/-- The signals of all tasks and the histories are as they were. -/
theorem SignalMove.of_signal (h : ((s'.tasks t).signal.sig, (s'.tasks t).signal.pending, (s'.tasks t).sigstack) =
    ((s.tasks t).signal.sig, (s.tasks t).signal.pending, (s.tasks t).sigstack))
    (ha : s'.accepted = s.accepted) (he : s'.entered = s.entered) : SignalMove s s' t e := by
  simp only [Prod.mk.injEq] at h
  exact .same h.1 h.2.1 h.2.2 (by rw [ha]) (by rw [he])

/-- What a task keeps of its signals. -/
def Task.signals (x : Task) : BitVec 32 × BitVec 32 × List SignalState := (x.signal.sig, x.signal.pending, x.sigstack)

theorem Sched.wake_accepted : (s.wake t).accepted = s.accepted := by
  unfold wake leave
  split <;> rfl

theorem Sched.wake_entered : (s.wake t).entered = s.entered := by
  unfold wake leave
  split <;> rfl

theorem Sent.signals {r : Int} (h : Sent s sig u r s') : SignalMove s s' t e := by
  by_cases ht : t = u
  · subst ht
    cases h with
    | invalid => exact .same rfl rfl rfl rfl rfl
    | refused => exact .same rfl rfl rfl rfl rfl
    | noted _ hp =>
      exact .accept hp (by simp) (by simp) (by simp) (by simp [accept]) rfl
    | woken _ hp =>
      exact .accept hp (by simp) (by simp) (by simp) (by simp [wake_accepted, accept])
        (by rw [wake_entered]; rfl)
  · cases h with
    | invalid => exact .same rfl rfl rfl rfl rfl
    | refused => exact .same rfl rfl rfl rfl rfl
    | noted => exact .same (by simp [ht]) (by simp [ht]) (by simp [ht]) (by simp [accept, ht]) rfl
    | woken =>
      exact .same (by simp [ht]) (by simp [ht]) (by simp [ht]) (by simp [wake_accepted, accept, ht])
        (by rw [wake_entered]; rfl)

theorem Effect.signals (h : Effect s e s') (t : Nat) : SignalMove s s' t e := by
  cases h with
  | quiet q =>
    exact .same (by rw [(q.task t).signal]) (by rw [(q.task t).signal]) (q.task t).sigstack
      (by rw [q.accepted]) (by rw [q.entered])
  | push h | pop hf h | action a => exact .of_signal (Sched.setTask_part Task.signals rfl) rfl rfl
  | sent ht h => exact h.signals
  | @wake u l hn hl => 
    refine .of_signal ?_ Sched.wake_accepted Sched.wake_entered
    by_cases ht : t = u
    · subst ht
      simp
    · simp [ht]
  | @park p hk hq hx =>
    refine .of_signal ?_ (by cases p <;> rfl) (by cases p <;> rfl)
    by_cases ht : t = s.curr
    · subst ht
      simp [Sched.park_self]
    · simp [ht]
  | @exit code p s1 h1 hq hp hne hs =>
    have hd : ((s.die code).tasks t).signals = (s.tasks t).signals :=
      Sched.die_part Task.signals fun _ _ _ _ _ => rfl
    have hc : (((s1.chain s.curr p).pushFrames [.schedule, .dead]).tasks t).signals = (s1.tasks t).signals := by
      rw [Sched.pushFrames, Sched.setTask_part Task.signals rfl, Sched.chain_part Task.signals fun _ _ => rfl]
    have hca : (s1.chain s.curr p).accepted = s1.accepted := by
      unfold Sched.chain
      split <;> rfl
    have hce : (s1.chain s.curr p).entered = s1.entered := by
      unfold Sched.chain
      split <;> rfl
    simp only [Task.signals, Prod.mk.injEq] at hd hc
    obtain ⟨hd1, hd2, hd3⟩ := hd
    obtain ⟨hc1, hc2, hc3⟩ := hc
    cases hs.signals (t := t) (e := .quiet) with
    | same h1 h2 h3 h4 h5 =>
      exact .same (by rw [hc1, h1, hd1]) (by rw [hc2, h2, hd2]) (by rw [hc3, h3, hd3])
        (by rw [← show s1.accepted t = s.accepted t from h4]; exact congrFun hca t)
        (by rw [← show s1.entered t = s.entered t from h5]; exact congrFun hce t)
    | accept h1 h2 h3 h4 h5 h6 =>
      exact .accept (by rw [← hd2]; exact h1) (by rw [hc1, h2, hd1]) (by rw [hc2, h3, hd2])
        (by rw [hc3, h4, hd3]) ((congrFun hca t).trans h5) ((congrFun hce t).trans h6)
  | fork pa =>
    by_cases ht : t = s.tasksNr
    · subst ht
      exact .fork rfl (by rw [Sched.fork_new]; rfl) (by rw [Sched.fork_new]; rfl) (by rw [Sched.fork_new]; rfl)
        rfl rfl
    · exact .of_signal (by rw [Sched.fork_ne ht]) rfl rfl
  | @switch i u hk hn hr => exact .of_signal (Sched.switch_part Task.signals fun _ _ _ _ => rfl) rfl rfl
  | @deliver k h0 h32 hq hb ha =>
    by_cases ht : t = s.curr
    · subst ht
      have hst : ((s.deliver k).tasks s.curr).sigstack =
          ⟨k, s.currTask.kstack, s.currTask.tf, s.currTask.sleep⟩ :: (s.tasks s.curr).sigstack := by
        simp [Sched.deliver, Sched.enterHandler]
      exact .deliver rfl ⟨h0, h32⟩ hb (by simp [Sched.deliver, Sched.enterHandler])
        (by simp [Sched.deliver, Sched.enterHandler]) hst rfl (by simp [Sched.deliver, Sched.enterHandler])
    · exact .same (by simp [Sched.deliver, Sched.enterHandler, ht]) (by simp [Sched.deliver, Sched.enterHandler, ht])
        (by simp [Sched.deliver, Sched.enterHandler, ht]) rfl (by simp [Sched.deliver, Sched.enterHandler, ht])
  | handlerReturn hk hq hst hz =>
    by_cases ht : t = s.curr
    · subst ht
      exact .handlerReturn rfl (by simp [Sched.handlerReturn]) (by simp [Sched.handlerReturn])
        (by simpa [Sched.handlerReturn] using hst) rfl rfl
    · exact .of_signal (by simp [Sched.handlerReturn, ht]) rfl rfl
  | report hk hn =>
    refine .of_signal ?_ rfl rfl
    by_cases ht : t = s.curr
    · subst ht
      simp [Sched.report, Sched.popFrame]
    · simp [Sched.report, Sched.popFrame, ht]
  | unlock hk hn =>
    refine .of_signal ?_ rfl rfl
    rw [Sched.popFrame, Sched.setTask_setTask]
    exact Sched.setTask_part Task.signals rfl

/-! ## Bits -/

/-- The position of the bit of a signal. -/
def signalIndex (k : Nat) : Fin 32 := ⟨k % 32, Nat.mod_lt _ (by decide)⟩

theorem signalBit_eq (k : Nat) : signalBit k = BitVec.twoPow 32 (signalIndex k) := (BitVec.twoPow_eq ..).symm

theorem bits_or_signalBit (x : BitVec 32) (k : Nat) : bits (x ||| signalBit k) = insert (signalIndex k) (bits x) := by
  rw [signalBit_eq, bits_or_twoPow]

theorem bits_and_not_signalBit (x : BitVec 32) (k : Nat) :
    bits (x &&& ~~~ signalBit k) = (bits x).erase (signalIndex k) := by
  rw [signalBit_eq, bits_and_not_twoPow]

theorem signalIndex_mem {x : BitVec 32} {k : Nat} : signalIndex k ∈ bits x ↔ x &&& signalBit k ≠ 0#32 := by
  rw [mem_bits, and_signalBit_ne_zero]
  rfl

/-! ## Nesting -/

/-- One saved stack for each pending signal, and no signal both set and pending. -/
structure Task.Nested (x : Task) : Prop where
  count : (bits x.signal.pending).card = x.sigstack.length
  apart : Disjoint (bits x.signal.sig) (bits x.signal.pending)
  zero : signalIndex 0 ∉ bits x.signal.pending

theorem Task.Nested.move (hn : (s.tasks t).Nested) (hm : SignalMove s s' t e)
    (hr : ∀ esp0, e = .handlerReturn esp0 → s.currTask.signal.pending &&& signalBit esp0 ≠ 0#32) :
    (s'.tasks t).Nested := by
  cases hm with
  | same hs hp hst => exact ⟨by rw [hp, hst, hn.count], by rw [hs, hp]; exact hn.apart, by rw [hp]; exact hn.zero⟩
  | accept hc hs hp hst =>
    refine ⟨by rw [hp, hst, hn.count], ?_, by rw [hp]; exact hn.zero⟩
    rw [hs, hp, bits_or_signalBit, disjoint_insert_left]
    exact ⟨fun h => signalIndex_mem.mp h hc, hn.apart⟩
  | @deliver k st _ h0 hb hs hp hst =>
    have hk : signalIndex k ∉ bits (s.tasks t).signal.pending :=
      disjoint_left.mp hn.apart (signalIndex_mem.mpr hb)
    refine ⟨?_, ?_, ?_⟩
    · rw [hp, hst, bits_or_signalBit, card_insert_of_notMem hk, hn.count, List.length_cons]
    · rw [hs, hp, bits_and_not_signalBit, bits_or_signalBit, disjoint_insert_right]
      exact ⟨notMem_erase _ _, hn.apart.mono_left (erase_subset _ _)⟩
    · rw [hp, bits_or_signalBit, mem_insert, not_or]
      refine ⟨fun h => ?_, hn.zero⟩
      have h' : 0 % 32 = k % 32 := congrArg Fin.val h
      omega
  | @handlerReturn esp0 st hc hs hp hst =>
    have hk : signalIndex esp0 ∈ bits (s.tasks t).signal.pending := by
      rw [signalIndex_mem, hc]
      exact hr esp0 rfl
    refine ⟨?_, ?_, ?_⟩
    · rw [hp, bits_and_not_signalBit, card_erase_of_mem hk, hn.count, hst, List.length_cons,
        Nat.add_sub_cancel]
    · rw [hs, hp, bits_and_not_signalBit]
      exact hn.apart.mono_right (erase_subset _ _)
    · rw [hp, bits_and_not_signalBit]
      exact fun h => hn.zero (mem_of_mem_erase h)
  | fork _ hs hp hst =>
    refine ⟨?_, ?_, ?_⟩
    · rw [hp, hst, bits_zero]
      rfl
    · rw [hs, bits_zero]
      exact disjoint_empty_left _
    · rw [hp, bits_zero]
      exact notMem_empty _

/-- A handler returns with the number of a pending signal on its stack. -/
def returnsPending (s : Sched) : Op → Prop
  | .signalReturn esp0 => s.currTask.signal.pending &&& signalBit esp0 ≠ 0#32
  | _ => True

instance (s : Sched) : (op : Op) → Decidable (returnsPending s op)
  | .signalReturn _ => inferInstanceAs (Decidable (_ ≠ _))
  | .syscall _ | .timer | .wakeupInterruptible _ | .wakeupUninterruptible _ | .checkAlarmTurn _
  | .checkSleepList | .switchTask | .resume _ => inferInstanceAs (Decidable True)

theorem nested_run (h : (kernel returnsPending).Reachable s) : Inv s ∧ ∀ t, (s.tasks t).Nested := by
  refine kernel_invariant (J := fun s => ∀ t, (s.tasks t).Nested) ?_ ?_ h
  · intro pa t
    by_cases ht : t = 0
    · subst ht
      refine ⟨?_, ?_, ?_⟩ <;> simp [kernelTask, blankTask, bits_zero]
    · refine ⟨?_, ?_, ?_⟩ <;> simp [kernelTask, blankTask, bits_zero, ht]
  · intro a b e _ hn hA he t
    refine (hn t).move (he.signals t) ?_
    rintro esp0 rfl
    cases hA with
    | step I hJ hen hal ho =>
      obtain ⟨rfl, q⟩ := ho
      rw [currTask, (q.task _).signal, q.curr]
      exact hal

/-- The assertions of `pop_stack`, `push_stack` and `schedule` that nesting is about. -/
def nestingAssertions : List Fault :=
  [.assert "task_curr->sigstack.size() > 0",
   .assert "task_curr->sigstack.size() < 32",
   .assert "!(!task_curr->signal.pending && task_curr->sigstack.size() != 0)"]

theorem Handlers.nested {s1 : Sched} (h : Handlers s s1) (hn : ∀ t, (s.tasks t).Nested) (t : Nat) :
    (s1.tasks t).Nested := by
  induction h with
  | refl => exact hn t
  | tail _ hd ih =>
    obtain ⟨sig, hd⟩ := hd
    exact ih.move (hd.signals t) (by simp)

theorem ExitFails.not_nestingAssertion (h : ExitFails s f) : f ∉ nestingAssertions := by
  cases h <;> simp [nestingAssertions]

theorem Task.Nested.sigstack_eq_nil {x : Task} (hn : x.Nested) (hp : x.signal.pending = 0#32) : x.sigstack = [] := by
  have hc := hn.count
  rw [hp, bits_zero, card_empty] at hc
  exact List.length_eq_zero_iff.mp hc.symm

theorem Task.Nested.length_lt {x : Task} (hn : x.Nested) (hb : x.signal.sig &&& signalBit sig ≠ 0#32) :
    x.sigstack.length < 32 := by
  have hk : signalIndex sig ∉ bits x.signal.pending := disjoint_left.mp hn.apart (signalIndex_mem.mpr hb)
  have hlt : (bits x.signal.pending).card < Fintype.card (Fin 32) :=
    card_lt_univ_of_notMem hk
  rw [hn.count] at hlt
  exact hlt

theorem CheckFails.not_nestingAssertion (h : CheckFails s f) (hn : ∀ t, (s.tasks t).Nested) :
    f ∉ nestingAssertions := by
  cases h with
  | full hh h0 hb hf => exact absurd hf (Nat.not_le.mpr ((hh.nested hn _).length_lt hb))
  | sigstack hh hp hs => exact absurd ((hh.nested hn _).sigstack_eq_nil hp) hs
  | exits _ _ _ _ he => exact he.not_nestingAssertion
  | _ => simp [nestingAssertions]

theorem ReturnFails.not_nestingAssertion {esp0 : Nat} (h : ReturnFails s esp0 f)
    (hn : s.currTask.Nested) (hb : s.currTask.signal.pending &&& signalBit esp0 ≠ 0#32) :
    f ∉ nestingAssertions := by
  have hk : signalIndex esp0 ∈ bits s.currTask.signal.pending := signalIndex_mem.mpr hb
  cases h with
  | empty h0 =>
    have hc := hn.count
    rw [h0, List.length_nil, card_eq_zero] at hc
    rw [hc] at hk
    exact absurd hk (notMem_empty _)
  | again _ he => rcases he with rfl | rfl | rfl <;> simp [nestingAssertions]
  | @sigstack st rest hs hp hr =>
    have hc := congrArg bits hp
    rw [bits_and_not_signalBit, bits_zero] at hc
    have hcard := card_erase_of_mem hk
    rw [hc, hn.count, hs, List.length_cons, card_empty] at hcard
    exact absurd (List.length_eq_zero_iff.mp (by omega)) hr

theorem Fails.not_nestingAssertion {op : Op} (h : Fails s op f) (hn : ∀ t, (s.tasks t).Nested)
    (hr : returnsPending s op) : f ∉ nestingAssertions := by
  cases h with
  | exit _ h => exact h.not_nestingAssertion
  | alarm h => rcases h with rfl | rfl | rfl <;> simp [nestingAssertions]
  | handlerReturn h => exact h.not_nestingAssertion (hn _) hr
  | check h =>
    refine h.not_nestingAssertion fun t => ?_
    have hm : SignalMove s s.popFrame t .quiet := .of_signal (setTask_part Task.signals rfl) rfl rfl
    exact (hn t).move hm (by simp)
  | _ => simp [nestingAssertions]

/-- How often a handler was entered, and once more if its signal is set, is at
most how often the signal was accepted. -/
def Counted (s : Sched) (t : Nat) : Prop :=
  ∀ k, s.entered t k + (if (s.tasks t).signal.sig.getLsbD k then 1 else 0) ≤ s.accepted t k

theorem Counted.move (hn : Counted s t) (hm : SignalMove s s' t e) : Counted s' t := by
  intro k
  have hk := hn k
  cases hm with
  | same hs _ _ ha he =>
    rw [hs, ha, he]
    exact hk
  | @accept _ sig _ hs _ _ ha he =>
    rw [hs, ha, he]
    by_cases h : k = sig % 32
    · subst h
      simp only [update_self, BitVec.getLsbD_or, getLsbD_signalBit]
      simp
      omega
    · simpa [update_of_ne h, getLsbD_signalBit, h] using hk
  | @deliver sig _ _ h0 hb hs _ _ ha he =>
    have hmod : sig % 32 = sig := Nat.mod_eq_of_lt h0.2
    rw [and_signalBit_ne_zero, hmod] at hb
    rw [hs, ha, he, getLsbD_and_not_signalBit, hmod]
    by_cases h : k = sig
    · subst h
      rw [hb] at hk
      simpa using hk
    · simpa [update_of_ne h, h] using hk
  | handlerReturn _ hs _ _ ha he =>
    rw [hs, ha, he]
    exact hk
  | fork _ hs _ _ ha he =>
    rw [hs, ha, he]
    simp
    omega

theorem counted_run {allowed : Sched → Op → Prop} (h : (kernel allowed).Reachable s) (t : Nat) : Counted s t := by
  refine (kernel_invariant (J := fun s => ∀ t, Counted s t) (fun pa t k => ?_)
    (fun a b e _ hn _ he t => (hn t).move (he.signals t)) h).2 t
  by_cases ht : t = 0 <;> simp [kernelTask, blankTask, ht]

/-! ## Coming back from a handler -/

/-- The handler returns, and the task goes on where it was interrupted: in its
frames, with its registers, no handler entered and as many sections open as its
frames have. -/
def Resumes (s : Sched) (esp0 : Nat) (st : SignalState) : Prop :=
  ∃ s', (Op.signalReturn esp0).run s = .ok ((), s') ∧ s'.currTask.kstack = st.frames ∧ s'.currTask.tf = st.tf ∧
    s'.entered = s.entered ∧ s'.currTask.nCli = st.frames.count .lockTail

end MakarnaX
