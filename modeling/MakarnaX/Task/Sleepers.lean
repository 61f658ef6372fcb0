import MakarnaX.Library.Timers
import MakarnaX.Task.Leaves
import MakarnaX.Task.Reach

/-!
# The sleep list

`check_sleep_list` wakes the tasks at the front of `task_sleep_list` and stops at
the first that is not due, so a task wakes up in time only if the list is sorted
by wake time.  `sys_sleep` puts the caller before the first task whose `sleep`,
which is a time, is greater than `seconds`, which is a duration.

The two agree with the order of the wake times as long as nobody sleeps whose
wake time is after `seconds` and before the caller's own.  Nothing else the kernel
does changes the order of the list or the wake time of a task in it.
-/

namespace MakarnaX

open Library List Sched Function

variable {s s' : Sched} {t u n seconds fuel : Nat}

/-! ## What leaves the sleepers alone -/

/-- Nobody has begun to sleep, and those who still do wake up when they would have. -/
structure Slept (s s' : Sched) : Prop where
  list : (s'.lists .sleep).Sublist (s.lists .sleep)
  sleep : ∀ u ∈ s'.lists .sleep, (s'.tasks u).sleep = (s.tasks u).sleep

namespace Slept

/-- A change of a task that does not sleep. -/
theorem setTask {f : Task → Task} (h : t ∉ s.lists .sleep ∨ (f (s.tasks t)).sleep = (s.tasks t).sleep) :
    Slept s (s.setTask t f) where
  list := .refl _
  sleep u hu := by
    rcases h with h | h
    · have hne : u ≠ t := fun he => h (he ▸ hu)
      rw [setTask_ne f hne]
    · exact setTask_part Task.sleep h

theorem rest (ht : s'.tasks = s.tasks) (hl : (s'.lists .sleep).Sublist (s.lists .sleep)) : Slept s s' where
  list := hl
  sleep u _ := by rw [ht]

end Slept

instance : IsPreorder Sched Slept where
  refl _ := .rest rfl (.refl _)
  trans _ _ _ h h' := ⟨h'.list.trans h.list, fun u hu => (h'.sleep u hu).trans (h.sleep u (h'.list.subset hu))⟩

instance : Lax Slept where
  setTask h := .setTask (.inr (congrArg (·.2.2) h))
  rest ht hl _ _ _ _ := .rest ht hl

theorem Relinked.slept (h : Relinked s s') : Slept s s' := by
  obtain ⟨head, size, nodes, rfl⟩ := h
  exact ⟨.refl _, fun _ _ => rfl⟩

instance : LaxExit Slept where
  doExit := doExit_leaves fun _ _ => Relinked.slept

theorem setAlarm_slept : Leaves Slept (setAlarm t seconds fuel) := by
  unfold setAlarm
  split
  · exact setReturn_leaves
  · exact .seq (.modify fun _ => .setTask (.inr rfl)) <| .read fun _ =>
      .bind (derefAlarm_relinked.mono fun _ _ => Relinked.slept) fun _ =>
        .seq ((alarmLoop_relinked _ _).mono fun _ _ => Relinked.slept) <|
          .seq (.discard (alarmInsert_relinked.mono fun _ _ => Relinked.slept)) <| setReturn_leaves

theorem sysAlarm_slept : Leaves Slept (sysAlarm seconds fuel) := by
  refine .read fun _ => .read fun _ => ?_
  split
  · exact .bind (alarmErase_relinked.mono fun _ _ => Relinked.slept) fun _ => .guard <| setAlarm_slept
  · exact setAlarm_slept

theorem checkAlarmTurn_slept : Leaves Slept (checkAlarmTurn t) :=
  .seq (.discard sendSignal_leaves) <| .bind (alarmNode_relinked.mono fun _ _ => Relinked.slept) fun _ =>
    .bind (derefAlarm_relinked.mono fun _ _ => Relinked.slept) fun _ =>
      .bind (alarmNode_relinked.mono fun _ _ => Relinked.slept) fun _ =>
        .bind (derefAlarm_relinked.mono fun _ _ => Relinked.slept) fun _ =>
          .seq (.discard (alarmErase_relinked.mono fun _ _ => Relinked.slept)) <| .pure _

theorem sysSignal_slept {signum : Int} {handler : Nat} : Leaves Slept (sysSignal signum handler) := by
  unfold sysSignal
  split
  · exact setReturn_leaves
  · refine .seq (.modify fun s => .setTask (.inr ?_)) <| setReturn_leaves
    split <;> rfl

/-- `pop_stack` sets `sleep` of a task that does not sleep. -/
theorem popStack_slept {sig : Nat} (hs : s.curr ∉ s.lists .sleep) (h : popStack s = .ok (sig, s')) : Slept s s' := by
  simp only [popStack, get_run, ASSERT, check_run] at h
  split at h
  · cases hst : s.currTask.sigstack with
    | nil =>
      rw [hst] at h
      cases h
    | cons st rest =>
      rw [hst] at h
      cases h
      exact .setTask (.inl hs)
  · cases h

theorem signalReturn_slept {esp0 : Nat} {a : Unit} (hs : s.curr ∉ s.lists .sleep)
    (h : signalReturn esp0 s = .ok (a, s')) : Slept s s' := by
  obtain ⟨_, s1, h1, h⟩ := bind_apply_ok.mp h
  obtain ⟨sig, s2, h2, h⟩ := bind_apply_ok.mp h
  have hsig : Slept s s1 := by
    refine modCurr_leaves ?_ _ _ _ h1
    exact fun _ => rfl
  have hs1 : s1.curr ∉ s1.lists .sleep := by
    cases h1
    exact hs
  have hrest : Leaves Slept (do
      let c ← afterPushStack sig (checkSignalsLoop (sig - 1))
      finishSignals c) :=
    .bind (afterPushStack_leaves (checkSignalsLoop_leaves _)) fun c => finishSignals_leaves c
  exact trans_of Slept hsig (trans_of Slept (popStack_slept hs1 h2) (hrest s2 a s' h))

/-- A new task does not sleep. -/
theorem doFork_slept {pa : Option Nat} {r : Int} (hs : s.tasksNr ∉ s.lists .sleep)
    (h : doFork pa s = .ok (r, s')) : Slept s s' := by
  cases pa with
  | none =>
    cases h
    exact refl_of Slept s
  | some pa =>
    have hnew : Slept s { s with tasks := update s.tasks s.tasksNr (s.currTask.copyFor s.curr pa) } :=
      .setTask (f := fun _ => s.currTask.copyFor s.curr pa) (.inl hs)
    have hrest : Leaves Slept (do
        modTask s.tasksNr fun x => { x with tf := { x.tf with eax := 0 } }
        modCurr fun x => { x with childs := x.childs ++ [s.tasksNr] }
        modify fun s' => { s' with tasksNr := s.tasksNr + 1 }
        addToRunnableList s.tasksNr
        return (s.tasksNr : Int)) :=
      .seq (modTask_leaves fun _ => rfl) <| .seq (.modify fun _ => .setTask (.inr rfl)) <|
        .seq (.modify fun _ => .rest rfl (.refl _)) <| .seq addToRunnableList_leaves <| .pure _
    exact trans_of Slept hnew (hrest _ _ _ h)

/-! ## Steps -/

/-- The list by wake time. -/
def SleepSorted (s : Sched) : Prop := Timers.Sorted (fun u => (s.tasks u).sleep) (s.lists .sleep)

theorem Slept.sorted (h : Slept s s') (hs : SleepSorted s) : SleepSorted s' := by
  have hsub : Timers.Sorted (fun u => (s.tasks u).sleep) (s'.lists .sleep) := hs.sublist h.list
  exact hsub.congr h.sleep

theorem Inv.curr_awake (I : Inv s) (hk : s.currTask.kstack.head? ≠ some .schedule) : s.curr ∉ s.lists .sleep := by
  intro hm
  have hn : s.currTask.listNode = some .sleep := (I.placed.mem _ _).mp hm
  rw [(I.onQueue hk).listNode] at hn
  cases hn

theorem Inv.new_awake (I : Inv s) : s.tasksNr ∉ s.lists .sleep := by
  intro hm
  have hn := (I.placed.mem _ _).mp hm
  rw [I.fresh _ (Nat.le_refl _)] at hn
  cases hn

theorem Syscall.slept {c : Syscall} (I : Inv s) (hc : ∀ n, c ≠ .sleep n) (h : c.run s = .ok ((), s')) : Slept s s' := by
  cases c with
  | fork pa =>
    obtain ⟨r, s1, h1, h2⟩ := bind_apply_ok.mp h
    exact trans_of Slept (doFork_slept I.new_awake h1) (setReturn_leaves _ _ _ h2)
  | sleep n => exact absurd rfl (hc n)
  | alarm n k => exact sysAlarm_slept _ _ _ h
  | signal n a => exact sysSignal_slept _ _ _ h
  | _ => exact Syscall.leaves rfl _ _ _ h

/-- Only `sys_sleep` and `check_sleep_list` do anything to the sleepers. -/
theorem Op.slept {op : Op} (I : Inv s) (he : op.enabled s) (hn : ∀ n, op ≠ .syscall (.sleep n))
    (hc : op ≠ .checkSleepList) (h : op.run s = .ok ((), s')) : Slept s s' := by
  cases op with
  | syscall c =>
    obtain ⟨_, s1, h1, h2⟩ := bind_apply_ok.mp h
    have I1 : Inv s1 := I.quiet (trapEntry_quiet h1).1
    exact trans_of Slept (trapEntry_leaves _ _ _ h1) (Syscall.slept I1 (fun n hc => hn n (hc ▸ rfl)) h2)
  | signalReturn esp0 =>
    obtain ⟨_, s1, h1, h2⟩ := bind_apply_ok.mp h
    have q := (trapEntry_quiet h1).1
    have hk : s1.currTask.kstack.head? ≠ some .schedule := by
      rw [q.kstack_nil he.2.1]
      simp
    exact trans_of Slept (trapEntry_leaves _ _ _ h1) (signalReturn_slept ((I.quiet q).curr_awake hk) h2)
  | checkAlarmTurn t => exact (Leaves.discard checkAlarmTurn_slept) _ _ _ h
  | checkSleepList => exact absurd rfl hc
  | switchTask => exact switchTask_leaves (fun _ _ => .rest rfl (.refl _)) _ _ _ h
  | _ => exact Op.leaves rfl _ _ _ h

/-! ## `sys_sleep` -/

/-- What `sys_sleep` does to the sleepers. -/
structure FellAsleep (s : Sched) (n : Nat) (s' : Sched) : Prop where
  list : s'.lists .sleep = sleepOrder s n s.curr
  sleep : (s'.tasks s.curr).sleep = add32 s.seconds n
  other : ∀ u, u ≠ s.curr → (s'.tasks u).sleep = (s.tasks u).sleep

theorem sysSleep_fellAsleep {a : Unit} (hq : OnQueue s) (hn : n ≠ 0) (h : sysSleep n s = .ok (a, s')) :
    FellAsleep s n s' := by
  rw [sysSleep_eq hq hn] at h
  cases h
  exact ⟨by simp [Sched.pushFrames], by simp [Sched.pushFrames, Sched.dequeue], fun u hu => by simp [Sched.pushFrames, Sched.dequeue, hu]⟩

/-! ## The order -/

/-- Nobody sleeps whose wake time is after `n` and before that of the caller. -/
def SleepFits (s : Sched) (n : Nat) : Prop :=
  ∀ u ∈ s.lists .sleep, n < (s.tasks u).sleep → s.seconds + n ≤ (s.tasks u).sleep

instance (s : Sched) (n : Nat) : Decidable (SleepFits s n) := inferInstanceAs (Decidable (∀ u ∈ s.lists .sleep, _))

theorem FellAsleep.sorted_iff (h : FellAsleep s n s') (hc : s.curr ∉ s.lists .sleep) (hs : SleepSorted s)
    (hw : s.seconds + n < 2 ^ 32) : SleepSorted s' ↔ SleepFits s n := by
  have hk : ∀ u ∈ s.lists .sleep, (s'.tasks u).sleep = (s.tasks u).sleep :=
    fun u hu => h.other u fun he => hc (he ▸ hu)
  have hcurr : (s'.tasks s.curr).sleep = s.seconds + n := by
    rw [h.sleep, add32, Nat.mod_eq_of_lt hw]
  rw [SleepSorted, h.list, sleepOrder, Timers.sorted_insert_iff hs hk hcurr]
  -- who wakes up before `n` wakes up before `now + n`
  exact ⟨fun hf u hu => (hf u hu).2, fun hf u hu => ⟨fun hn => Nat.le_trans hn (Nat.le_add_left ..), hf u hu⟩⟩

/-! ## `check_sleep_list` -/

/-- A sorted list loses exactly the tasks that are due. -/
theorem checkSleepLoop_sorted (hp : s.placed) (hs : SleepSorted s) :
    ∃ s', checkSleepLoop n (s.lists .sleep) s = .ok ((), s') ∧ Slept s s' ∧
      s'.lists .sleep = (s.lists .sleep).filter fun u => n < (s.tasks u).sleep := by
  generalize hl : s.lists .sleep = ts
  induction ts generalizing s with
  | nil => exact ⟨s, rfl, refl_of Slept s, hl⟩
  | cons t ts ih =>
    have hn : (s.tasks t).listNode = some .sleep := (hp.mem t _).mp (by rw [hl]; exact mem_cons_self)
    by_cases hd : (s.tasks t).sleep ≤ n
    · have hrest : ((s.wake t).setTask t fun x => { x with sleep := 0 }).lists .sleep = ts := by
        rw [setTask_lists, wake_lists hn (by simp), hl]
        simp
      have ht : t ∉ ts := (nodup_cons.mp (hl ▸ hp.nodup .sleep)).1
      have hkept : Slept s ((s.wake t).setTask t fun x => { x with sleep := 0 }) := by
        refine ⟨?_, fun u hu => ?_⟩
        · rw [hrest, hl]
          exact sublist_cons_self ..
        · have hne : u ≠ t := by
            rintro rfl
            exact ht (hrest ▸ hu)
          rw [setTask_ne _ hne, wake_ne hne]
      obtain ⟨s', h', hS, hl'⟩ := ih (hp.wake.setTask rfl) (hkept.sorted hs) hrest
      refine ⟨s', by rw [checkSleepLoop_cons hn hd, h'], trans_of Slept hkept hS, ?_⟩
      rw [hl', filter_cons_of_neg (by simpa using hd)]
      refine filter_congr fun u hu => ?_
      rw [hkept.sleep u (hrest ▸ hu)]
    · refine ⟨s, ?_, refl_of Slept s, ?_⟩
      · simp only [checkSleepLoop, get_run, Nat.lt_of_not_le hd, gt_iff_lt, if_true, pure_apply]
      · have hsorted : Timers.Sorted (fun u => (s.tasks u).sleep) (t :: ts) := hl ▸ hs
        rw [hl, ← Timers.dropWhile_eq_filter hsorted, dropWhile_cons_of_neg (by simpa using hd)]

/-! ## Runs -/

/-- The calls of `sleep` that find their place: the wake time does not wrap, and
nobody wakes up between `seconds` and it. -/
def sleepsInOrder (s : Sched) : Op → Prop
  | .syscall (.sleep n) => 0 < n → s.seconds + n < 2 ^ 32 ∧ SleepFits s n
  | _ => True

instance (s : Sched) : (op : Op) → Decidable (sleepsInOrder s op)
  | .syscall c => match c with
    | .sleep n => inferInstanceAs (Decidable (0 < n → s.seconds + n < 2 ^ 32 ∧ SleepFits s n))
    | .fork _ | .exit _ | .fault _ | .pause | .yield | .alarm _ _ | .wait _ | .kill _ _ | .signal _ _
    | .sleepInterruptible _ | .sleepUninterruptible _ | .inodeLock _ => isTrue trivial
  | .signalReturn _ | .timer | .wakeupInterruptible _ | .wakeupUninterruptible _ | .checkAlarmTurn _
  | .checkSleepList | .switchTask | .resume _ => isTrue trivial

/-- A call of `sleep` from a sorted list. -/
theorem sleep_sorted_iff (I : Inv s) (hs : SleepSorted s) (he : (Op.syscall (.sleep n)).enabled s) (hn : 0 < n)
    (hw : s.seconds + n < 2 ^ 32) (h : (Op.syscall (.sleep n)).run s = .ok ((), s')) :
    SleepSorted s' ↔ SleepFits s n := by
  obtain ⟨_, s1, h1, h2⟩ := bind_apply_ok.mp h
  have q := (trapEntry_quiet h1).1
  have I1 := I.quiet q
  have hk : s1.currTask.kstack.head? ≠ some .schedule := by
    rw [q.kstack_nil he.2]
    simp
  have hS : Slept s s1 := trapEntry_leaves _ _ _ h1
  have hsec : s1.seconds = s.seconds := by
    cases h1
    rfl
  have hfits : SleepFits s1 n ↔ SleepFits s n := by
    unfold SleepFits
    rw [q.lists, hsec]
    refine forall₂_congr fun u hu => ?_
    rw [hS.sleep u (by rw [q.lists]; exact hu)]
  rw [← hfits]
  exact (sysSleep_fellAsleep (I1.onQueue hk) (Nat.pos_iff_ne_zero.mp hn) h2).sorted_iff (I1.curr_awake hk)
    (hS.sorted hs) (by rw [hsec]; exact hw)

theorem Op.sorted {op : Op} (I : Inv s) (hs : SleepSorted s) (he : op.enabled s) (ha : sleepsInOrder s op)
    (h : op.run s = .ok ((), s')) : SleepSorted s' := by
  by_cases hc : op = .checkSleepList
  · subst hc
    obtain ⟨s1, h1, hS, -⟩ := checkSleepLoop_sorted (n := s.seconds) I.placed hs
    obtain rfl : s1 = s' := (Prod.mk.inj (Except.ok.inj (h1.symm.trans h))).2
    exact hS.sorted hs
  by_cases hn : ∃ n, op = .syscall (.sleep n)
  · obtain ⟨n, rfl⟩ := hn
    rcases Nat.eq_zero_or_pos n with rfl | hn
    · obtain ⟨_, s1, h1, h2⟩ := bind_apply_ok.mp h
      have hS : Slept s s' := trans_of Slept (trapEntry_leaves _ _ _ h1) (setReturn_leaves _ _ _ h2)
      exact hS.sorted hs
    · obtain ⟨hw, hf⟩ := ha hn
      exact (sleep_sorted_iff I hs he hn hw h).mpr hf
  · exact (Op.slept I he (fun n h => hn ⟨n, h⟩) hc h).sorted hs

theorem bootTasks_sorted {pa pa1 : Nat} (h : bootTasks pa1 (kernelTask pa) = .ok ((), s)) : SleepSorted s := by
  have hn : ((kernelTask pa).tasks 0).listNode = none := by simp [kernelTask, blankTask]
  simp only [bootTasks, bind_run (addToRunnableList_eq hn), discard_apply_ok] at h
  obtain ⟨r, h⟩ := h
  have h1 : Slept (kernelTask pa) ((kernelTask pa).enqueue 0) := addToRunnableList_leaves _ _ _ (addToRunnableList_eq hn)
  have h2 : Slept ((kernelTask pa).enqueue 0) s := doFork_slept (kernelTask_inv pa).new_awake h
  exact (trans_of Slept h1 h2).sorted List.Pairwise.nil

theorem reachable_sorted (h : (kernel sleepsInOrder).Reachable s) : SleepSorted s := by
  induction h with
  | init hb =>
    obtain ⟨pa, pa1, hb⟩ := hb
    exact bootTasks_sorted hb
  | step hs hstep ih =>
    obtain ⟨op, he, ha, hr⟩ := hstep
    exact Op.sorted (steady_run hs).1 ih he ha hr

/-- The current task uses up its time, and `n` times the next one does. -/
def timeSlices : Nat → List Op
  | 0 => []
  | n + 1 => [.resume .checkSignals, .timer, .timer, .timer, .timer, .switchTask] ++ timeSlices n

/-- Task 1 sleeps from 0 to 3.  At 2 task 2 sleeps for 2, which is less than 3, and
comes to stand before task 1. -/
def sleepAcross : List Op :=
  toChild (.sleep 3) ++ [.timer, .timer, .timer, .timer, .switchTask] ++ timeSlices 47 ++
    [.resume .checkSignals, .syscall (.sleep 2), .switchTask] ++ timeSlices 25 ++
    [.resume .checkSignals, .timer, .timer, .timer, .timer]

end MakarnaX
