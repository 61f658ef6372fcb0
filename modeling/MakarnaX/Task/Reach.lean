import MakarnaX.Task.Signals
import MakarnaX.Task.Turn

/-!
# What holds in every run

`Op.ends` takes any step apart, and `kernel_invariant` is the induction on
runs that every invariant of the tasks is proved with.  `Fails` has every fault
a step can end in, with the state that leads to it: where the invariants exclude
the cause, the assertion holds and the panic does not happen.
`checkAlarm_turns` relates the steps of `check_alarm` to the whole function.

`Inv` is what the steps themselves need; `Steady` are three more facts, about
single tasks, that hold in every run.
-/

namespace MakarnaX

open Library Sched

variable {s s' s₀ : Sched} {op : Op} {t u sig code : Nat} {l : ListId} {e : Label} {allowed : Sched → Op → Prop}
  {a : Unit} {E : Fault → Prop} {f : Fault}

/-! ## Every step -/

theorem trapEntry_quiet (h : trapEntry s = .ok (a, s')) :
    Quiet s s' ∧ s'.currTask.poppedKstack = false := by
  cases h
  refine ⟨.only (t := s.curr) (fun u hu => by simp [hu]) ?_ rfl rfl rfl rfl rfl rfl rfl rfl (by simp),
    by simp [currTask, setTask]⟩
  constructor <;> simp

theorem trapEntry_ends : Ends trapEntry s E fun _ s' => Quiet s s' ∧ s'.currTask.poppedKstack = false :=
  .of_ok rfl (trapEntry_quiet rfl)

theorem Quiet.kstack_nil (q : Quiet s s') (hk : s.currTask.kstack = []) : s'.currTask.kstack = [] := by
  rw [currTask, (q.task _).kstack, q.curr]
  exact hk

/-- The system calls that end in `do_exit`. -/
def Syscall.exits : Syscall → Bool
  | .exit _ | .fault _ | .wait false => true
  | _ => false

/-- Every way in which a step can fail. -/
inductive Fails (s : Sched) : Op → Fault → Prop
  | exit {c : Syscall} {e : Fault} (hc : c.exits) (h : ExitFails s e) : Fails s (.syscall c) e
  | kill {pid sig : Nat} (ht : pid < s.tasksNr) (h : Unsendable s sig pid) :
      Fails s (.syscall (.kill pid sig)) (.panic "--")
  | alarm {seconds fuel : Nat} {e : Fault} (h : AlarmFault e) : Fails s (.syscall (.alarm seconds fuel)) e
  | handlerReturn {esp0 : Nat} {e : Fault} (h : ReturnFails s esp0 e) : Fails s (.signalReturn esp0) e
  | wakeup {w : Nat} (h : s.lists (.wait w) = []) :
      Fails s (.wakeupUninterruptible w) (.assert "list->pop_front()")
  | alarmSignal {t : Nat} (h : Unsendable s SIGALRM t) : Fails s (.checkAlarmTurn t) (.panic "--")
  | alarmLink {t : Nat} : Fails s (.checkAlarmTurn t) .null
  | idle : Fails s .switchTask (.panic "bu durum yok, kernel task beklemeye gecemez.")
  | check {e : Fault} (h : CheckFails s.popFrame e) : Fails s (.resume .checkSignals) e
  | wait (h : s.currTask.waitNotifyNext = none) : Fails s (.resume .waitTail) (.assert "t")
  | unlock (h : s.currTask.nCli ≤ 0) : Fails s (.resume .lockTail) (.panic "popif sayisi, pushdan fazla")
  | dead : Fails s (.resume .dead) (.panic "do_exit return")

theorem Fails.of_quiet {c : Syscall} (q : Quiet s s') (h : Fails s' (.syscall c) f) : Fails s (.syscall c) f := by
  cases h with
  | exit hc h => exact .exit hc (.of_quiet q h)
  | kill ht h => exact .kill (q.tasksNr ▸ ht) (.of_quiet q h)
  | alarm h => exact .alarm h

theorem Syscall.ends {c : Syscall} (I : Inv s) (q : Quiet s₀ s) (hop : op = .syscall c)
    (hz : s.curr ≠ 0) (hk₀ : s₀.currTask.kstack = []) : Performs s₀ op c.run s (Fails s (.syscall c)) := by
  have hk : s.currTask.kstack = [] := q.kstack_nil hk₀
  have hq : OnQueue s := I.onQueue (by rw [hk]; simp)
  have hx {code : Nat} (hc : c.exits) :
      Performs s₀ op (doExit code) s (Fails s (.syscall c)) :=
    doExit_ends I.toAgree hq (fun _ he => .exit hc he) fun _ _ q1 => .inl ⟨q.trans q1, hk₀⟩
  cases c with
  | fork pa => exact sysFork_ends I.curr
  | exit e => exact hx rfl
  | fault code => exact hx rfl
  | pause => exact sysPause_ends hk hq hz
  | sleep seconds => exact sysSleep_ends hk hq hz
  | yield => exact sysYield_ends
  | alarm seconds fuel => exact ((sysAlarm_ends I.alarms I.curr).weaken fun _ => .alarm).mono fun _ _ q => .quiet q
  | wait b =>
    cases b with
    | false => exact hx rfl
    | true => exact sysWait_ends hk hq q hop
  | kill pid sig => exact sysKill_ends I.toAgree q hop .kill
  | signal signum handler => exact sysSignal_ends
  | sleepInterruptible w => exact sleepInterruptible_ends hk hq hz
  | sleepUninterruptible w => exact sleepUninterruptible_ends hk hq hz
  | inodeLock w => exact inodeLock_ends hk hq hz

theorem lockTail_ends (hk : s.currTask.kstack.head? = some .lockTail)
    (hE : s.currTask.nCli ≤ 0 → E (.panic "popif sayisi, pushdan fazla")) :
    Ends popif s.popFrame E fun _ s' => Effects (Occurs s₀ op) s s' := by
  refine .bind_ok rfl (.bind_ok rfl ?_)
  dsimp only
  split
  · next hn =>
    refine .of_error rfl (hE ?_)
    simp [popFrame, currTask] at hn ⊢
    omega
  · next hn =>
    have hn' : 0 < s.currTask.nCli := by
      simp [popFrame, currTask] at hn ⊢
      omega
    exact .of_ok rfl ((Effects.single (e := .unlock) trivial (.unlock hk hn')).trans (.quiet (.ifl _)))

theorem Frame.ends {f : Frame} (I : Inv s) (hs : f ≠ .schedule) (hop : op = .resume f)
    (hf : s.currTask.kstack.head? = some f) :
    Ends f.run s.popFrame (Fails s (.resume f)) fun _ s' => Effects (Occurs s op) s s' := by
  have hq : OnQueue s := I.onQueue (by rw [hf]; simpa using hs)
  cases f with
  | schedule => exact absurd rfl hs
  | checkSignals =>
    have hq' : OnQueue s.popFrame :=
      ⟨by simpa [popFrame, currTask] using hq.state,
        by simpa [popFrame, currTask] using hq.listNode⟩
    have hc : Checking s s.popFrame := by
      constructor <;> simp [popFrame]
    exact (checkSignals_ends (I.popFrame hf (by decide) (by decide)) hq' hop hc fun _ => .check).mono fun _ _ h =>
      (Effects.single (e := .pop) trivial (.pop hf (.inl rfl))).trans h
  | waitTail => exact waitTail_ends hf .wait
  | lockTail => exact lockTail_ends hf .unlock
  | sleepTail =>
    exact .of_ok rfl ((Effects.single (e := .pop) trivial (.pop hf (.inr (.inl rfl)))).trans (.quiet (setReturn_quiet rfl)))
  | yieldTail =>
    exact .of_ok rfl ((Effects.single (e := .pop) trivial (.pop hf (.inr (.inr rfl)))).trans (.quiet (setReturn_quiet rfl)))
  | dead => exact .of_error rfl .dead

/-- Every step is a sequence of effects, each where it may occur, or one of the failures. -/
theorem Op.ends (I : Inv s) (he : op.enabled s) :
    Performs s op op.run s (Fails s op) := by
  cases op with
  | syscall c =>
    refine .bind trapEntry_ends fun _ s1 ⟨q, _⟩ => ?_
    exact ((Syscall.ends (I.quiet q) q rfl (q.curr ▸ he.1) he.2).weaken fun _ => .of_quiet q).mono fun _ _ h => (Effects.quiet q).trans h
  | signalReturn esp0 =>
    refine .bind trapEntry_ends fun _ s1 ⟨q, hp⟩ => ?_
    have I1 := I.quiet q
    have hk := q.kstack_nil he.2.1
    have hq : OnQueue s1 := I1.onQueue (by rw [hk]; simp)
    have hn : s1.currTask.nCli ≤ 0 := by
      have h0 := I1.sections s1.curr I1.curr
      rw [show (s1.tasks s1.curr).kstack = [] from hk] at h0
      exact h0
    refine (signalReturn_ends hp hn hq.listNode fun _ h => .handlerReturn (h.of_quiet q)).mono ?_
    rintro _ _ ⟨hz, st, rest, hst, rfl⟩
    exact (Effects.quiet q).trans (.single (e := .handlerReturn esp0) ⟨rfl, q⟩ (.handlerReturn hk hq hst hz))
  | timer => exact doTimer_ends
  | wakeupInterruptible w => exact wakeupInterruptible_ends I.placed
  | wakeupUninterruptible w => exact wakeupUninterruptible_ends I.placed .wakeup
  | checkAlarmTurn t =>
    refine .discard ((checkAlarmTurn_ends I he.2.1 .alarmLink .alarmSignal).mono ?_)
    rintro _ _ ⟨c, s1, hS, m, -⟩
    exact (Effects.single (e := .sent SIGALRM t) ⟨.refl s, .inr ⟨rfl, rfl⟩⟩ (.sent he.2.1 hS)).trans (.quiet m.quiet)
  | checkSleepList => exact checkSleepLoop_ends I.placed
  | switchTask => exact switchTask_ends I he .idle
  | resume f => exact Frame.ends I he.1 rfl he.2

/-! ## Runs -/

/-- An effect of a step that is taken in a state with `J`, or of the boot. -/
inductive Admitted (allowed : Sched → Op → Prop) (J : Sched → Prop) (a : Sched) : Label → Prop
  | quiet : Admitted allowed J a .quiet
  | fork : Admitted allowed J a .fork
  | step {s : Sched} {op : Op} {e : Label} (I : Inv s) (hJ : J s) (he : op.enabled s) (ha : allowed s op)
      (h : Occurs s op a e) : Admitted allowed J a e

/-- The kernel task makes no system calls. -/
theorem Admitted.park {J : Sched → Prop} {p : Parking} (h : Admitted allowed J s (.park p)) : s.curr ≠ 0 := by
  cases h with
  | step I hJ he ha h =>
    cases p with
    | wait =>
      obtain ⟨q, rfl⟩ := h
      rw [q.curr]
      exact he.1
    | pause | sleep _ | on _ _ | lock _ => exact h

theorem kernelTask_inv (pa : Nat) : Inv ((kernelTask pa).enqueue 0) where
  placed := by
    refine placed.enqueue ⟨fun t l => ?_, fun l => List.nodup_nil⟩ rfl
    by_cases ht : t = 0
    · simp [kernelTask, ht, blankTask]
    · simp [kernelTask, ht, blankTask]
  legal t ht := by
    have ht : t < 1 := ht
    obtain rfl : t = 0 := by omega
    simp [Task.Legal]
  fresh t ht := by
    have ht : 1 ≤ t := ht
    have h0 : t ≠ 0 := by omega
    simp [kernelTask, h0, blankTask]
  curr := Nat.one_pos
  parent t p ht hp := by
    have ht : t < 1 := ht
    obtain rfl : t = 0 := by omega
    simp [kernelTask, blankTask] at hp
  orphan t ht _ := by
    have ht : t < 1 := ht
    omega
  sections t ht := by
    have ht : t < 1 := ht
    obtain rfl : t = 0 := by omega
    simp [kernelTask, blankTask]
  alarms r hr := by
    cases r with
    | head =>
      refine ⟨fun r h => ?_, fun r h => ?_⟩ <;>
      · cases h
        trivial
    | task t =>
      have ht : t < 1 := hr
      obtain rfl : t = 0 := by omega
      constructor <;> simp [nodeAt, kernelTask, blankTask]
  running _ := by simp [currTask, kernelTask]

/-- The one induction on the runs of the kernel: what holds at the start and
survives every effect that can occur holds in every state reached. -/
theorem kernel_invariant {J : Sched → Prop} (h0 : ∀ pa, J ((kernelTask pa).enqueue 0))
    (hJ : ∀ a b e, Inv a → J a → Admitted allowed J a e → Effect a e b → J b)
    (h : (kernel allowed).Reachable s) : Inv s ∧ J s := by
  have run : ∀ {A : Sched → Label → Prop} {a b : Sched}, Inv a ∧ J a → Effects A a b →
      (∀ c e, A c e → Admitted allowed J c e) → Inv b ∧ J b := by
    intro A a b ha hab hA
    exact hab.invariant (I := fun c => Inv c ∧ J c)
      (fun c d e hc hAe he => ⟨hc.1.effect he, hJ c d e hc.1 hc.2 (hA c e hAe) he⟩) ha
  refine System.Reachable.invariant (I := fun s => Inv s ∧ J s) ?_ ?_ h
  · rintro s ⟨pa, pa1, hb⟩
    have hn : ((kernelTask pa).tasks 0).listNode = none := by simp [kernelTask, blankTask]
    simp only [bootTasks, bind_run (addToRunnableList_eq hn), discard_apply_ok] at hb
    obtain ⟨r, hb⟩ := hb
    refine run ⟨kernelTask_inv pa, h0 pa⟩ ((doFork_ends (E := fun _ => True) (kernelTask_inv pa).curr).ok hb) fun c e he => ?_
    rcases he with rfl | rfl
    · exact .quiet
    · exact .fork
  · rintro s s' ⟨I, hJs⟩ ⟨op, he, ha, hr⟩
    exact run ⟨I, hJs⟩ ((Op.ends I he).ok hr) fun c e ho => .step I hJs he ha ho

/-! ## Sections, page directories and exit signals -/

/-- No task has closed more interrupt sections than it opened, the processor
uses the page directory of the current task, and no task has another exit signal
than `SIGCHLD`. -/
structure Steady (s : Sched) : Prop where
  sections : ∀ t, 0 ≤ (s.tasks t).nCli
  pgdir : s.currTask.pgdirPa = s.cr3
  exitSignal : ∀ t, (s.tasks t).exitSignal = 0 ∨ (s.tasks t).exitSignal = SIGCHLD

theorem Steady.effect (I : Inv s) (hp : ∀ p, e = .park p → s.curr ≠ 0) (h : Steady s) (he : Effect s e s') :
    Steady s' := by
  refine ⟨fun u => ?_, ?_, fun u => ?_⟩
  · rcases he.turn I hp u with T | ⟨-, pa, hu⟩
    · exact T.sections (h.sections u)
    · rw [hu]
      exact Int.le_refl 0
  · rcases he.processor.2 with ⟨hc, h3⟩ | ⟨-, h3⟩
    · rcases he.turn I hp s.curr with T | ⟨hu, -⟩
      · rw [currTask, hc, T.pgdirPa, h3]
        exact h.pgdir
      · exact absurd hu (Nat.ne_of_lt I.curr)
    · exact h3.symm
  · rcases he.turn I hp u with T | ⟨-, pa, hu⟩
    · rcases T.exitSignal with hx | hx
      · rw [hx]
        exact h.exitSignal u
      · exact .inr hx
    · rw [hu]
      exact h.exitSignal s.curr

theorem Handlers.steady {s1 : Sched} (h : Handlers s s1) (I : Inv s) (hS : Steady s) : Steady s1 := by
  induction h with
  | refl => exact hS
  | tail hab hd ih =>
    obtain ⟨sig, hd⟩ := hd
    exact ih.effect (Handlers.inv hab I) (by simp) hd

theorem kernelTask_steady (pa : Nat) : Steady ((kernelTask pa).enqueue 0) := by
  refine ⟨fun t => ?_, rfl, fun t => ?_⟩
  · by_cases ht : t = 0 <;> simp [kernelTask, blankTask, ht]
  · by_cases ht : t = 0 <;> simp [kernelTask, blankTask, ht]

theorem steady_run (h : (kernel allowed).Reachable s) : Inv s ∧ Steady s :=
  kernel_invariant kernelTask_steady (fun _ _ _ I hs hA he => hs.effect I (fun _ hp => Admitted.park (hp ▸ hA)) he) h

/-! ## `check_alarm` -/

/-- One turn of the loop of `check_alarm`, as a step of the kernel. -/
def AlarmTurn (a b : Sched) : Prop :=
  ∃ t, (Op.checkAlarmTurn t).enabled a ∧ (Op.checkAlarmTurn t).run a = .ok ((), b)

theorem AlarmTurn.inv {s1 : Sched} (h : Relation.ReflTransGen AlarmTurn s s1) (I : Inv s) : Inv s1 := by
  induction h with
  | refl => exact I
  | tail _ hab ih =>
    obtain ⟨t, he, hr⟩ := hab
    exact ((Op.ends ih he).ok hr).invariant (fun _ _ _ hI _ h => Inv.effect hI h) ih

/-- What a turn that returned leaves for the next one. -/
theorem checkAlarmTurn_next {r : AlarmRef} (I : Inv s) (ht : t < s.tasksNr) (h : checkAlarmTurn t s = .ok (r, s')) :
    Inv s' ∧ s'.currTask.kstack = s.currTask.kstack ∧ s'.seconds = s.seconds ∧ s'.ValidRef r := by
  obtain ⟨c, s1, hS, m, hr⟩ := (checkAlarmTurn_ends (E := fun _ => True) I ht trivial fun _ => trivial).ok h
  refine ⟨(I.sent ht hS).quiet m.quiet, ?_, ?_, hr⟩
  · rw [currTask, (m.quiet.task _).kstack, m.quiet.curr, hS.curr]
    exact hS.kstack s.curr
  · obtain ⟨head, size, nodes, rfl, -⟩ := m
    exact hS.seconds

/-- `check_alarm` is a sequence of turns, up to its end, an endless loop or the
turn that fails. -/
theorem checkAlarmLoop_turns {fuel : Nat} {i : AlarmRef} (I : Inv s)
    (hk : s.currTask.kstack.head? = some .schedule) (hi : s.ValidRef i) :
    ∃ s1, Relation.ReflTransGen AlarmTurn s s1 ∧
      (checkAlarmLoop s.seconds fuel i s = .ok ((), s1) ∨ checkAlarmLoop s.seconds fuel i s = .error .loop ∨
        ∃ t e, (Op.checkAlarmTurn t).enabled s1 ∧ (Op.checkAlarmTurn t).run s1 = .error e ∧
          checkAlarmLoop s.seconds fuel i s = .error e) := by
  induction fuel generalizing i s with
  | zero => exact ⟨s, .refl, .inr (.inl rfl)⟩
  | succ fuel ih =>
    cases i with
    | head => exact ⟨s, .refl, .inl rfl⟩
    | task t =>
      simp only [checkAlarmLoop, get_run]
      split
      · exact ⟨s, .refl, .inl rfl⟩
      next hd =>
      have he : (Op.checkAlarmTurn t).enabled s := ⟨hk, hi, Nat.le_of_not_lt hd⟩
      cases hr : checkAlarmTurn t s with
      | error e =>
        refine ⟨s, .refl, .inr (.inr ⟨t, e, he, discard_apply_error.mpr hr, ?_⟩)⟩
        rw [bind_fail hr]
      | ok p =>
        obtain ⟨r, s2⟩ := p
        obtain ⟨I2, hk2, hs2, hv2⟩ := checkAlarmTurn_next I hi hr
        rw [bind_run hr, ← hs2]
        obtain ⟨s1, ht, hend⟩ := ih I2 (by rw [hk2]; exact hk) hv2
        exact ⟨s1, .head ⟨t, he, discard_run hr⟩ ht, hend⟩

theorem checkAlarm_turns {fuel : Nat} (I : Inv s) (hk : s.currTask.kstack.head? = some .schedule) :
    ∃ s1, Relation.ReflTransGen AlarmTurn s s1 ∧
      (checkAlarm fuel s = .ok ((), s1) ∨ checkAlarm fuel s = .error .loop ∨ checkAlarm fuel s = .error .null ∨
        ∃ t e, (Op.checkAlarmTurn t).enabled s1 ∧ (Op.checkAlarmTurn t).run s1 = .error e ∧
          checkAlarm fuel s = .error e) := by
  simp only [checkAlarm, get_run]
  cases hn : s.alarmHead.next with
  | none => exact ⟨s, .refl, .inr (.inr (.inl rfl))⟩
  | some r =>
    have hd : derefAlarm (some r) s = .ok (r, s) := rfl
    obtain ⟨s1, ht, h⟩ := checkAlarmLoop_turns I hk ((I.alarms .head trivial).2 r hn)
    rw [bind_run hd, get_run]
    refine ⟨s1, ht, ?_⟩
    rcases h with h | h | h
    · exact .inl h
    · exact .inr (.inl h)
    · exact .inr (.inr (.inr h))

end MakarnaX
