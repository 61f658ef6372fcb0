import MakarnaX.Task.Steps

/-!
# What the functions of the kernel leave alone

Most functions move tasks between the run queues, the wait lists and the zombies
and set fields of a task that belong to the scheduler or to its signals.  Few
touch the family of a task, its alarm, its sleep or the order of the sleep list.

`Lax R` says that `R` allows the changes of the first kind, and there is one
lemma per function for all such relations.  What an invariant about alarms or
about sleepers has still to look at are the functions that are missing here.
-/

namespace MakarnaX

open Library Function

variable {s s' : Sched} {t u : Nat}

/-- What a task says about its family and its alarm. -/
def Task.ties (x : Task) : Option Nat × List Nat × AlarmNode := (x.parent, x.childs, x.alarmListNode)

/-- What most functions keep of a task. -/
def Task.kept (x : Task) : (Option Nat × List Nat × AlarmNode) × Nat × Nat := (x.ties, x.alarm, x.sleep)

/-- A relation that allows changes of the tasks beside what is kept of them, and
of the lists as long as nobody begins to sleep. -/
class Lax (R : Sched → Sched → Prop) : Prop extends IsPreorder Sched R where
  setTask {s : Sched} {t : Nat} {f : Task → Task} (h : (f (s.tasks t)).kept = (s.tasks t).kept) : R s (s.setTask t f)
  rest {s s' : Sched} (ht : s'.tasks = s.tasks) (hl : (s'.lists .sleep).Sublist (s.lists .sleep))
    (hn : s'.tasksNr = s.tasksNr) (hc : s'.curr = s.curr) (hh : s'.alarmHead = s.alarmHead)
    (hz : s'.alarmSize = s.alarmSize) : R s s'

/-- And allows tasks to begin to sleep. -/
class LaxSleep (R : Sched → Sched → Prop) : Prop extends Lax R where
  setSleep {s : Sched} {t : Nat} {f : Task → Task} (h : (f (s.tasks t)).ties = (s.tasks t).ties)
    (ha : (f (s.tasks t)).alarm = (s.tasks t).alarm) : R s (s.setTask t f)
  lists {s s' : Sched} (ht : s'.tasks = s.tasks) (hn : s'.tasksNr = s.tasksNr) (hc : s'.curr = s.curr)
    (hh : s'.alarmHead = s.alarmHead) (hz : s'.alarmSize = s.alarmSize) : R s s'

/-- And allows the exit of the current task. -/
class LaxExit (R : Sched → Sched → Prop) : Prop extends Lax R where
  doExit (code : Nat) : Leaves R (MakarnaX.doExit code)

section Functions

variable {R : Sched → Sched → Prop} [Lax R] {f : Task → Task} {sig w : Nat} {l : ListId}

namespace Lax

/-- One task has changed, beside what is kept of it. -/
theorem only (h : (f (s.tasks t)).kept = (s.tasks t).kept) (ht : s'.tasks = (s.setTask t f).tasks)
    (hl : (s'.lists .sleep).Sublist (s.lists .sleep)) (hn : s'.tasksNr = s.tasksNr) (hc : s'.curr = s.curr)
    (hh : s'.alarmHead = s.alarmHead) (hz : s'.alarmSize = s.alarmSize) : R s s' := by
  have h1 : R s (s.setTask t f) := setTask h
  exact trans_of R h1 (rest ht hl hn hc hh hz)

theorem link {xs : List Nat} (hl : l ≠ .sleep) : R s (s.link l t xs) := by
  refine only (f := fun x => { x with listNode := some l }) rfl rfl ?_ rfl rfl rfl rfl
  rw [Sched.link_lists, update_of_ne hl.symm]

theorem unlink (l : ListId) : R s (s.unlink l t) := by
  refine only (f := fun x => { x with listNode := none }) rfl rfl ?_ rfl rfl rfl rfl
  rw [Sched.unlink_lists, update_apply]
  split
  · next h => exact h ▸ List.erase_sublist
  · exact .refl _

theorem accept (sig : Nat) : R s (s.accept sig t) :=
  only (f := fun x => { x with signal := { x.signal with sig := x.signal.sig ||| signalBit sig } }) rfl rfl (.refl _)
    rfl rfl rfl rfl

theorem enterHandler (sig : Nat) : R s (s.enterHandler sig) :=
  only (t := s.curr) (f := fun x =>
    { x with
      signal := { x.signal with
        sig := x.signal.sig &&& ~~~ signalBit sig
        pending := x.signal.pending ||| signalBit sig }
      tf := { x.tf with esp := sub32 x.tf.esp 12, eip := x.signal.action sig } }) rfl rfl (.refl _) rfl rfl rfl rfl

end Lax

theorem modTask_leaves (h : ∀ x, (f x).kept = x.kept) : Leaves R (modTask t f) :=
  .modify fun _ => Lax.setTask (h _)

theorem modCurr_leaves (h : ∀ x, (f x).kept = x.kept) : Leaves R (modCurr f) :=
  .modify fun _ => Lax.setTask (h _)

theorem ASSERT_leaves {c : Prop} [Decidable c] {m : String} : Leaves R (ASSERT c m : SchedM Unit) := .lift _

theorem setReturn_leaves {v : Int} : Leaves R (setReturn v) := modCurr_leaves fun _ => rfl

theorem pushFrames_leaves {fs : List Frame} : Leaves R (pushFrames fs) := modCurr_leaves fun _ => rfl

theorem pushBack_leaves (hl : l ≠ .sleep) : Leaves R (pushBack l t) := by
  intro s b s' h
  simp only [pushBack, get_run] at h
  split at h
  · cases h
    exact refl_of R s
  · cases h
    exact Lax.link hl

theorem eraseTask_leaves : Leaves R (eraseTask l t) := by
  intro s b s' h
  simp only [eraseTask, get_run] at h
  split at h
  · cases h
    exact refl_of R s
  · cases h
    exact Lax.unlink l

theorem popFront_leaves : Leaves R (popFront l) := by
  refine .read fun s => ?_
  split
  · exact .pure _
  · exact eraseTask_leaves

theorem addToRunnableList_leaves : Leaves R (addToRunnableList t) :=
  .read fun _ => .guard <| .seq (modTask_leaves fun _ => rfl) <|
    .read fun _ => .bind (pushBack_leaves nofun) fun _ => ASSERT_leaves

theorem removeFromRunnableList_leaves : Leaves R (removeFromRunnableList t) :=
  .read fun _ => .read fun _ => .guard <| .read fun _ => .guard <|
    .bind eraseTask_leaves fun _ => .guard <| .read fun _ => ASSERT_leaves

theorem findRunnableTask_leaves : Leaves R findRunnableTask := by
  refine .read fun _ => ?_
  split
  · exact .pure _
  · refine .read fun _ => ?_
    split
    · exact .pure _
    · exact .bind popFront_leaves fun _ => .guard <| .bind (pushBack_leaves nofun) fun _ =>
        .bind ASSERT_leaves fun _ => .seq (modTask_leaves fun _ => rfl) <| .read fun _ =>
          .guard <| .pure _

theorem wakeForSignal_leaves : Leaves R (wakeForSignal sig t) := by
  refine .read fun s => ?_
  split
  · split
    · exact .pure _
    · split
      · exact .seq addToRunnableList_leaves <| .pure _
      · exact .seq (.discard eraseTask_leaves) <| .seq addToRunnableList_leaves <| .pure _
  · exact .pure _
  · exact .pure _
  · exact .throw _

theorem sendSignal_leaves : Leaves R (sendSignal sig t) := by
  unfold sendSignal
  split
  · exact .pure _
  · refine .read fun s => ?_
    split
    · exact .pure _
    · exact .seq (.modify fun _ => Lax.accept sig) <| wakeForSignal_leaves

theorem notifyParent_leaves : Leaves R (notifyParent t) := by
  refine .read fun s => ?_
  split
  · exact .throw _
  · refine .guard <| .read fun _ => .bind sendSignal_leaves fun _ => .guard <|
      .read fun _ => ?_
    split
    · exact .read fun _ => .seq (modTask_leaves fun _ => rfl) <| modTask_leaves fun _ => rfl
    · exact .pure _

theorem sysKill_leaves : Leaves R (sysKill u sig) := by
  refine .read fun _ => ?_
  split
  · exact .seq (.discard sendSignal_leaves) <| setReturn_leaves
  · exact setReturn_leaves

theorem waitTail_leaves : Leaves R waitTail := by
  refine .seq (modCurr_leaves fun _ => rfl) <| .read fun _ => ?_
  split
  · exact .throw _
  · refine .read fun _ => .seq (modCurr_leaves fun _ => rfl) <| .seq (.modify fun s => ?_) <|
      setReturn_leaves
    exact Lax.rest rfl (.refl _) rfl rfl rfl rfl

theorem sysPause_leaves : Leaves R sysPause := by
  refine .read fun _ => ?_
  split
  · exact .pure _
  · exact .read fun _ => .seq removeFromRunnableList_leaves <| .seq (modCurr_leaves fun _ => rfl) <|
      .seq setReturn_leaves <| pushFrames_leaves

theorem sleepTail_leaves : Leaves R sleepTail := .read fun _ => setReturn_leaves

theorem sleepInterruptible_leaves : Leaves R (sleepInterruptible w) :=
  .read fun _ => .read fun _ => .guard <| .seq removeFromRunnableList_leaves <|
    .seq (.discard (pushBack_leaves nofun)) <| .seq (modTask_leaves fun _ => rfl) <| pushFrames_leaves

theorem sleepUninterruptible_leaves : Leaves R (sleepUninterruptible w) :=
  .read fun _ => .read fun _ => .guard <| .seq removeFromRunnableList_leaves <|
    .seq (modTask_leaves fun _ => rfl) <| .seq (.discard (pushBack_leaves nofun)) <| pushFrames_leaves

theorem wakeupInterruptible_leaves : Leaves R (wakeupInterruptible w) := by
  refine .read fun _ => ?_
  split
  · exact .pure _
  · exact .bind popFront_leaves fun _ => .guard <| addToRunnableList_leaves

theorem wakeupUninterruptible_leaves : Leaves R (wakeupUninterruptible w) := by
  refine .read fun _ => ?_
  split
  · exact .throw _
  · exact .bind popFront_leaves fun _ => .guard <| addToRunnableList_leaves

theorem setIf_leaves {b : Sched → Bool} : Leaves R (modify fun s => { s with ifl := b s } : SchedM Unit) :=
  .modify fun _ => Lax.rest rfl (.refl _) rfl rfl rfl rfl

theorem pushcli_leaves : Leaves R pushcli := .seq (modCurr_leaves fun _ => rfl) <| setIf_leaves

theorem popif_leaves : Leaves R popif := by
  refine .seq (modCurr_leaves fun _ => rfl) <| .read fun _ => ?_
  dsimp only
  split
  · exact .throw _
  · exact setIf_leaves

theorem inodeLock_leaves : Leaves R (inodeLock w) :=
  .seq pushcli_leaves <| .seq sleepUninterruptible_leaves <| modCurr_leaves fun _ => rfl

theorem pushStack_leaves : Leaves R (pushStack sig) :=
  .read fun _ => .guard <| .read fun _ => .guard <|
    modCurr_leaves fun _ => rfl

theorem stopTask_leaves : Leaves R (stopTask sig) :=
  .read fun _ => .seq (modTask_leaves fun _ => rfl) <| .seq removeFromRunnableList_leaves <|
    .seq (modTask_leaves fun _ => rfl) <| .seq notifyParent_leaves <| .seq popif_leaves <|
      pushFrames_leaves

theorem assertSigstack_leaves : Leaves R assertSigstack := .read fun _ => ASSERT_leaves

theorem finishSignals_leaves (c : Control) : Leaves R (finishSignals c) := by
  cases c with
  | loopEnd => exact .seq popif_leaves <| assertSigstack_leaves
  | returned => exact assertSigstack_leaves
  | gone => exact .pure _

theorem trapEntry_leaves : Leaves R trapEntry := .seq (modCurr_leaves fun _ => rfl) <| setIf_leaves

theorem doTimer_leaves : Leaves R doTimer := by
  refine .seq (modCurr_leaves fun _ => rfl) <| .seq (.modify fun s => ?_) <|
    .seq (modCurr_leaves fun _ => rfl) <| .read fun _ => ?_
  · exact Lax.rest rfl (.refl _) rfl rfl rfl rfl
  · split
    · exact pushFrames_leaves
    · exact .pure _

end Functions

/-! ## Functions about sleep -/

section Sleeps

variable {R : Sched → Sched → Prop} [LaxSleep R] {seconds : Nat} {l : ListId}

theorem LaxSleep.link (l : ListId) (xs : List Nat) : R s (s.link l t xs) := by
  have h1 : R s (s.setTask t fun x => { x with listNode := some l }) := Lax.setTask rfl
  have h2 : R (s.setTask t fun x => { x with listNode := some l }) (s.link l t xs) := LaxSleep.lists rfl rfl rfl rfl rfl
  exact trans_of R h1 h2

theorem pushBack_sleep_leaves : Leaves R (pushBack .sleep t) := by
  intro s b s' h
  simp only [pushBack, get_run] at h
  split at h
  · cases h
    exact refl_of R s
  · cases h
    exact LaxSleep.link .sleep _

theorem insertTask_leaves : Leaves R (insertTask l u t) := by
  intro s b s' h
  simp only [insertTask, get_run] at h
  split at h
  · cases h
    exact refl_of R s
  · cases h
    exact LaxSleep.link l _

theorem sleepInsert_leaves (is : List Nat) : Leaves R (sleepInsert t seconds is) := by
  induction is with
  | nil => exact .pure _
  | cons i is ih =>
    refine .read fun _ => ?_
    split
    · exact .seq (.discard insertTask_leaves) <| ih
    · exact ih

theorem sysSleep_leaves : Leaves R (sysSleep seconds) := by
  unfold sysSleep
  split
  · exact setReturn_leaves
  · exact .read fun _ => .seq removeFromRunnableList_leaves <| .read fun _ =>
      .seq (sleepInsert_leaves _) <| .seq (.discard pushBack_sleep_leaves) <|
        .seq (.modify fun _ => LaxSleep.setSleep rfl rfl) <| pushFrames_leaves

theorem checkSleepLoop_leaves (ts : List Nat) : Leaves R (checkSleepLoop seconds ts) := by
  induction ts with
  | nil => exact .pure _
  | cons t ts ih =>
    refine .read fun _ => ?_
    split
    · exact .pure _
    · exact .seq (.discard eraseTask_leaves) <| .read fun _ => .guard <|
        .seq (.modify fun _ => LaxSleep.setSleep rfl rfl) <| .seq addToRunnableList_leaves <| ih

theorem checkSleepList_leaves : Leaves R checkSleepList :=
  .read fun _ => .read fun _ => checkSleepLoop_leaves _

theorem popStack_leaves : Leaves R popStack := by
  refine .read fun _ => .guard <| .read fun _ => ?_
  split
  · exact .throw _
  · exact .seq (.modify fun _ => LaxSleep.setSleep rfl rfl) <| .pure _

end Sleeps

/-! ## Functions that change the alarm list -/

/-- The alarm list may have changed, and nothing else. -/
def Relinked (s s' : Sched) : Prop := ∃ head size nodes, s' = s.withAlarms head size nodes

instance : IsPreorder Sched Relinked where
  refl s := ⟨s.alarmHead, s.alarmSize, fun t => (s.tasks t).alarmListNode, rfl⟩
  trans := by
    rintro s _ _ ⟨h, n, f, rfl⟩ ⟨h', n', f', rfl⟩
    exact ⟨h', n', f', rfl⟩

section Alarms

variable {r pos : AlarmRef} {seconds fuel : Nat}

theorem modAlarmNode_relinked {f : AlarmNode → AlarmNode} : Leaves Relinked (modAlarmNode r f) := by
  cases r with
  | head => exact .modify fun s => ⟨f s.alarmHead, s.alarmSize, fun t => (s.tasks t).alarmListNode, rfl⟩
  | task t =>
    refine .modify fun s => ⟨s.alarmHead, s.alarmSize,
      update (fun t => (s.tasks t).alarmListNode) t (f (s.tasks t).alarmListNode), ?_⟩
    refine Sched.ext (funext fun u => ?_) rfl rfl rfl rfl rfl rfl rfl rfl rfl rfl rfl
    by_cases hu : u = t
    · subst hu
      simp [Sched.withAlarms]
    · simp [Sched.withAlarms, hu]

theorem alarmNode_relinked : Leaves Relinked (alarmNode r) := by
  cases r <;> exact .read fun _ => .pure _

theorem derefAlarm_relinked {r : Option AlarmRef} : Leaves Relinked (derefAlarm r) := by
  cases r with
  | none => exact .throw _
  | some r => exact .pure _

theorem resize_relinked {g : Sched → Nat} :
    Leaves Relinked (modify fun s => { s with alarmSize := g s } : SchedM Unit) :=
  .modify fun s => ⟨s.alarmHead, g s, fun t => (s.tasks t).alarmListNode, rfl⟩

theorem alarmInsert_relinked : Leaves Relinked (alarmInsert pos t) := by
  refine .bind alarmNode_relinked fun _ => ?_
  split
  · exact .pure _
  · exact .bind alarmNode_relinked fun _ => .seq modAlarmNode_relinked <| .bind derefAlarm_relinked fun _ =>
      .seq modAlarmNode_relinked <| .seq modAlarmNode_relinked <| .seq resize_relinked <| .pure _

theorem alarmErase_relinked : Leaves Relinked (alarmErase pos) := by
  cases pos with
  | head => exact .pure _
  | task t =>
    refine .bind alarmNode_relinked fun _ => ?_
    split
    · exact .bind derefAlarm_relinked fun _ => .seq modAlarmNode_relinked <| .bind derefAlarm_relinked fun _ =>
        .seq modAlarmNode_relinked <| .seq modAlarmNode_relinked <| .seq resize_relinked <| .pure _
    · exact .pure _

theorem alarmLoop_relinked (n : Nat) (i : AlarmRef) : Leaves Relinked (alarmLoop t seconds n i) := by
  induction n generalizing i with
  | zero => exact .throw _
  | succ n ih =>
    cases i with
    | head => exact .pure _
    | task u =>
      refine .read fun _ => ?_
      split
      · exact .bind alarmInsert_relinked fun _ => .guard <| .bind alarmNode_relinked fun _ =>
          .bind derefAlarm_relinked fun _ => ih _
      · exact .bind alarmNode_relinked fun _ => .bind derefAlarm_relinked fun _ => ih _

end Alarms

section Free

variable {R : Sched → Sched → Prop} [Lax R]

theorem taskFree_leaves (hR : ∀ s s', Relinked s s' → R s s') : Leaves R (taskFree t) := by
  refine .read fun s => ?_
  split
  · exact .throw _
  · refine .seq (.discard eraseTask_leaves) <| .seq (modTask_leaves fun _ => rfl) <|
      .seq (.discard (pushBack_leaves nofun)) <| .read fun _ => ?_
    split
    · exact .discard (alarmErase_relinked.mono hR)
    · exact .pure _

theorem doExit_leaves (hR : ∀ s s', Relinked s s' → R s s') (code : Nat) : Leaves R (doExit code) := by
  refine .read fun _ => ?_
  dsimp only
  split
  · exact .throw _
  · exact .seq removeFromRunnableList_leaves <| .seq (modTask_leaves fun _ => rfl) <|
      .seq (.discard (pushBack_leaves nofun)) <| .seq (taskFree_leaves hR) <|
        .seq (modTask_leaves fun _ => rfl) <| .seq (modTask_leaves fun _ => rfl) <|
          .seq notifyParent_leaves <| pushFrames_leaves

end Free

/-! ## Functions that may end the task -/

section Exits

variable {R : Sched → Sched → Prop} [LaxExit R] {sig : Nat}

theorem afterPushStack_leaves {rest : SchedM Control} (h : Leaves R rest) : Leaves R (afterPushStack sig rest) := by
  refine .read fun _ => ?_
  split
  · exact .pure _
  · exact .seq (.modify fun _ => Lax.enterHandler sig) <| h

theorem checkSignalsLoop_leaves (n : Nat) : Leaves R (checkSignalsLoop n) := by
  induction n with
  | zero => exact .pure _
  | succ n ih =>
    refine .read fun s => ?_
    dsimp only
    split
    · exact .pure _
    split
    · exact ih
    split
    · refine .read fun s => ?_
      split
      · exact ih
      split
      · exact ih
      split
      · exact .seq stopTask_leaves <| .pure _
      split
      · exact ih
      · exact .seq (modCurr_leaves fun _ => rfl) <| .seq popif_leaves <|
          .seq (LaxExit.doExit _) <| .pure _
    · exact .seq pushStack_leaves <| afterPushStack_leaves ih

theorem checkSignals_leaves : Leaves R checkSignals := by
  refine .seq setIf_leaves <| .read fun _ => .guard <| .read fun _ =>
    .read fun _ => .guard <| .seq pushcli_leaves <| .read fun _ => ?_
  split
  · exact .bind (checkSignalsLoop_leaves 31) fun c => finishSignals_leaves c
  · exact finishSignals_leaves _

theorem sysWait_leaves {verified : Bool} : Leaves R (sysWait verified) := by
  unfold sysWait
  split
  · exact LaxExit.doExit _
  · refine .read fun _ => ?_
    split
    · exact setReturn_leaves
    · exact .read fun _ => .seq removeFromRunnableList_leaves <|
        .bind (modCurr_leaves fun _ => rfl) fun _ => pushFrames_leaves

theorem Frame.leaves (f : Frame) : Leaves R f.run := by
  cases f with
  | schedule => exact .pure _
  | checkSignals => exact checkSignals_leaves
  | waitTail => exact waitTail_leaves
  | lockTail => exact popif_leaves
  | sleepTail => exact sleepTail_leaves
  | yieldTail => exact setReturn_leaves
  | dead => exact .throw _

theorem signalReturn_leaves {esp0 : Nat} (h : Leaves R popStack) : Leaves R (signalReturn esp0) :=
  .seq (modCurr_leaves fun _ => rfl) <| .bind h fun _ =>
    .bind (afterPushStack_leaves (checkSignalsLoop_leaves _)) fun c => finishSignals_leaves c

theorem switchTask_leaves (h : ∀ (s : Sched) n, R s { s with curr := n, cr3 := (s.tasks n).pgdirPa }) :
    Leaves R switchTask := by
  refine .bind findRunnableTask_leaves fun o => ?_
  cases o with
  | none => exact .throw _
  | some next => exact .seq (modCurr_leaves fun _ => rfl) <| .modify fun s => h s next

/-- The system calls that set no alarm, no handler and no wake time, and make no task. -/
def Syscall.plain : Syscall → Bool
  | .fork _ | .sleep _ | .alarm _ _ | .signal _ _ => false
  | _ => true

theorem Syscall.leaves {c : Syscall} (h : c.plain) : Leaves R c.run := by
  cases c with
  | exit e => exact LaxExit.doExit _
  | fault e => exact LaxExit.doExit _
  | pause => exact sysPause_leaves
  | yield => exact pushFrames_leaves
  | wait b => exact sysWait_leaves
  | kill pid sig => exact sysKill_leaves
  | sleepInterruptible w => exact sleepInterruptible_leaves
  | sleepUninterruptible w => exact sleepUninterruptible_leaves
  | inodeLock w => exact inodeLock_leaves
  | _ => cases h

/-- The steps that leave the lists of timers and the current task. -/
def Op.plain : Op → Bool
  | .timer | .wakeupInterruptible _ | .wakeupUninterruptible _ | .resume _ => true
  | _ => false

theorem Op.leaves {op : Op} (h : op.plain) : Leaves R op.run := by
  cases op with
  | timer => exact doTimer_leaves
  | wakeupInterruptible w => exact wakeupInterruptible_leaves
  | wakeupUninterruptible w => exact wakeupUninterruptible_leaves
  | resume f => exact .seq (modCurr_leaves fun _ => rfl) <| f.leaves
  | _ => cases h

end Exits

end MakarnaX
