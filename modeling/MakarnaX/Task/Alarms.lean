import MakarnaX.Library.Timers
import MakarnaX.Task.Nodes

/-!
# Alarms

`sys_alarm` is to keep `task_alarm_list` sorted by expiry, so that `check_alarm`
can send `SIGALRM` to the tasks at its front and stop at the first that is not
due.

The loop of `sys_alarm` goes on after it has put the caller in, and tries again
at every later task whose alarm is greater than `seconds`; the second `insert`
fails and the assertion behind it with it.  Besides, `alarm` is a time and
`seconds` a duration.  So the call does what it is for only if at most one other
alarm is greater than `seconds`, and if comparing with `seconds` puts the other
alarms on the same side as comparing with the new expiry does.
-/

namespace MakarnaX

open Library List Sched Function

variable {s s' : Sched} {t u n fuel : Nat} {xs l r r₁ r₂ : List Nat} {a : Unit}

/-! ## Walking along the list -/

/-- The node of the first task of a list, or the list's own. -/
def firstRef : List Nat → AlarmRef
  | [] => .head
  | t :: _ => .task t

theorem firstRef_eq {p : AlarmRef} (h : (xs.map AlarmRef.task ++ [AlarmRef.head]).head? = some p) : p = firstRef xs := by
  cases xs with
  | nil => exact (Option.some.inj h).symm
  | cons t xs => exact (Option.some.inj h).symm

theorem AlarmList.next (A : AlarmList s (l ++ u :: r)) :
    s.nextOf (.task u) = some (firstRef r) ∧ s.prevOf (firstRef r) = some (.task u) := by
  have R : Links.Ring s.nextOf s.prevOf .head ((l ++ [u]).map .task ++ r.map .task) := by
    rw [← map_append]
    simpa using A.ring
  obtain ⟨q, p, C⟩ := R.cut
  obtain rfl := firstRef_eq C.first
  have hq : AlarmRef.task u = q := by
    have hlast := C.last
    rw [map_append, ← cons_append, map_singleton, getLast?_concat] at hlast
    exact Option.some.inj hlast
  rw [hq]
  exact C.link

theorem AlarmList.first (A : AlarmList s xs) : s.alarmHead.next = some (firstRef xs) := by
  have R : Links.Ring s.nextOf s.prevOf .head ([] ++ xs.map .task) := A.ring
  obtain ⟨q, p, C⟩ := R.cut
  obtain rfl := firstRef_eq C.first
  obtain rfl : AlarmRef.head = q := Option.some.inj C.last
  exact C.link.1

/-- The loop of `sys_alarm` passes the tasks whose alarms are not greater. -/
theorem alarmLoop_pass (A : AlarmList s (l ++ r₁ ++ r₂)) (h : ∀ v ∈ r₁, (s.tasks v).alarm ≤ n) :
    alarmLoop t n (r₁.length + fuel) (firstRef (r₁ ++ r₂)) s = alarmLoop t n fuel (firstRef r₂) s := by
  induction r₁ generalizing l with
  | nil => rw [length_nil, Nat.zero_add, nil_append]
  | cons v r₁ ih =>
    have A' : AlarmList s (l ++ v :: (r₁ ++ r₂)) := by simpa using A
    have hv : ¬ (s.tasks v).alarm > n := Nat.not_lt.mpr (h v mem_cons_self)
    have hnext : (s.nodeAt (.task v)).next = some (firstRef (r₁ ++ r₂)) := A'.next.1
    rw [length_cons, Nat.add_right_comm, cons_append, firstRef, alarmLoop]
    simp only [get_run, hv, if_false, bind_run (alarmNode_eq _), hnext,
      bind_run (derefAlarm_some _)]
    exact ih (l := l ++ [v]) (by simpa using A) fun w hw => h w (mem_cons_of_mem _ hw)

/-- It puts the caller in before the last task. -/
theorem alarmLoop_last (A : AlarmList s (l ++ [u])) (ht : t < s.tasksNr) (hn : t ∉ l ++ [u])
    (hu : n < (s.tasks u).alarm) :
    ∃ s', alarmLoop t n (fuel + 2) (.task u) s = .ok ((), s') ∧ AlarmList s' (l ++ [t, u]) ∧ Relinked s s' := by
  obtain ⟨s1, h1, A1⟩ := A.insert ht hn rfl
  have A1' : AlarmList s1 ((l ++ [t]) ++ u :: []) := by simpa using A1
  have hnext : (s1.nodeAt (.task u)).next = some .head := A1'.next.1
  refine ⟨s1, ?_, A1, alarmInsert_relinked _ _ _ h1⟩
  rw [alarmLoop]
  simp only [get_run, gt_iff_lt, hu, if_true, bind_run h1, ASSERT, check_run,
    bind_run (alarmNode_eq _), hnext, bind_run (derefAlarm_some _)]
  rfl

/-- Before two tasks it asserts. -/
theorem alarmLoop_twice {v : Nat} (fuel : Nat) (A : AlarmList s (l ++ u :: v :: r)) (ht : t < s.tasksNr) (hn : t ∉ l ++ u :: v :: r)
    (hu : n < (s.tasks u).alarm) (hv : n < (s.tasks v).alarm) :
    alarmLoop t n (fuel + 2) (.task u) s = .error (.assert "r != AlarmList_t::error()") := by
  obtain ⟨s1, h1, A1⟩ := A.insert ht hn rfl
  have A1' : AlarmList s1 ((l ++ [t]) ++ u :: v :: r) := by simpa using A1
  have hnext : (s1.nodeAt (.task u)).next = some (.task v) := A1'.next.1
  have hv1 : n < (s1.tasks v).alarm := by
    obtain ⟨head, size, nodes, rfl⟩ := alarmInsert_relinked _ _ _ h1
    exact hv
  have hagain : alarmInsert (.task v) t s1 = .ok (false, s1) := alarmInsert_linked ((A1.linked t).mpr (by simp))
  rw [alarmLoop]
  simp only [get_run, gt_iff_lt, hu, if_true, bind_run h1, ASSERT, check_run,
    bind_run (alarmNode_eq _), hnext, bind_run (derefAlarm_some _)]
  rw [alarmLoop]
  simp only [get_run, gt_iff_lt, hv1, if_true, bind_run hagain, ASSERT, check_run]
  rfl

/-! ## Fuel -/

theorem alarmLoop_succ {i : AlarmRef} (h : alarmLoop t n fuel i s = .ok (a, s')) :
    alarmLoop t n (fuel + 1) i s = .ok (a, s') := by
  induction fuel generalizing i s with
  | zero => cases h
  | succ fuel ih =>
    cases i with
    | head => exact h
    | task u =>
      rw [alarmLoop] at h ⊢
      simp only [get_run] at h ⊢
      split at h
      · next hu =>
        rw [if_pos hu]
        simp only [bind_apply_ok] at h ⊢
        obtain ⟨b, s1, h1, c, s2, h2, m, s3, h3, next, s4, h4, h5⟩ := h
        exact ⟨b, s1, h1, c, s2, h2, m, s3, h3, next, s4, h4, ih h5⟩
      · next hu =>
        rw [if_neg hu]
        simp only [bind_apply_ok] at h ⊢
        obtain ⟨m, s3, h3, next, s4, h4, h5⟩ := h
        exact ⟨m, s3, h3, next, s4, h4, ih h5⟩

theorem sysAlarm_succ (h : sysAlarm n fuel s = .ok (a, s')) : sysAlarm n (fuel + 1) s = .ok (a, s') := by
  have hset : ∀ {s1 : Sched}, setAlarm s.curr n fuel s1 = .ok (a, s') → setAlarm s.curr n (fuel + 1) s1 = .ok (a, s') := by
    intro s1 h
    unfold setAlarm at h ⊢
    split at h
    · next hn => rwa [if_pos hn]
    · next hn =>
      rw [if_neg hn]
      simp only [modify_run, get_run, bind_apply_ok] at h ⊢
      obtain ⟨first, s2, h2, b, s3, h3, hrest⟩ := h
      exact ⟨first, s2, h2, b, s3, alarmLoop_succ h3, hrest⟩
  simp only [sysAlarm, get_run] at h ⊢
  split at h
  · next hl =>
    rw [if_pos hl]
    simp only [bind_apply_ok] at h ⊢
    obtain ⟨r, s1, h1, b, s2, h2, h3⟩ := h
    exact ⟨r, s1, h1, b, s2, h2, hset h3⟩
  · next hl =>
    rw [if_neg hl]
    exact hset h

theorem checkAlarmLoop_succ {i : AlarmRef} (h : checkAlarmLoop n fuel i s = .ok (a, s')) :
    checkAlarmLoop n (fuel + 1) i s = .ok (a, s') := by
  induction fuel generalizing i s with
  | zero => cases h
  | succ fuel ih =>
    cases i with
    | head => exact h
    | task u =>
      rw [checkAlarmLoop] at h ⊢
      simp only [get_run] at h ⊢
      split at h
      · next hu =>
        rw [if_pos hu]
        exact h
      · next hu =>
        rw [if_neg hu]
        simp only [bind_apply_ok] at h ⊢
        obtain ⟨next, s1, h1, h2⟩ := h
        exact ⟨next, s1, h1, ih h2⟩

theorem checkAlarm_succ (h : checkAlarm fuel s = .ok (a, s')) : checkAlarm (fuel + 1) s = .ok (a, s') := by
  simp only [checkAlarm, get_run, bind_apply_ok] at h ⊢
  obtain ⟨first, s1, h1, h2⟩ := h
  exact ⟨first, s1, h1, checkAlarmLoop_succ h2⟩

/-- What returns with some fuel returns the same with more. -/
theorem with_more_fuel {f : Nat → SchedM Unit} (hf : ∀ k, f k s = .ok ((), s') → f (k + 1) s = .ok ((), s')) {k : Nat}
    (h : f fuel s = .ok ((), s')) : f (fuel + k) s = .ok ((), s') := by
  induction k with
  | zero => exact h
  | succ k ih => exact hf _ ih

/-! ## What leaves the alarms alone -/

/-- Nothing has changed in the alarm list, and no alarm. -/
structure Unalarmed (s s' : Sched) : Prop extends Still s s' where
  alarm : ∀ t, (s'.tasks t).alarm = (s.tasks t).alarm

theorem Unalarmed.setTask {f : Task → Task} (h : (f (s.tasks t)).ties = (s.tasks t).ties)
    (ha : (f (s.tasks t)).alarm = (s.tasks t).alarm) : Unalarmed s (s.setTask t f) :=
  ⟨.setTask h, fun _ => setTask_part Task.alarm ha⟩

theorem Relinked.alarm (h : Relinked s s') (t : Nat) : (s'.tasks t).alarm = (s.tasks t).alarm := by
  obtain ⟨head, size, nodes, rfl⟩ := h
  rfl

theorem Relinked.tasksNr (h : Relinked s s') : s'.tasksNr = s.tasksNr := h.kin.tasksNr

/-! ## `sys_alarm` -/

/-- The list by expiry. -/
def AlarmSorted (s : Sched) (xs : List Nat) : Prop := Timers.Sorted (fun u => (s.tasks u).alarm) xs

/-- The list with `t` before the first task whose alarm is greater than `n`. -/
def alarmOrder (s : Sched) (n t : Nat) (xs : List Nat) : List Nat :=
  Timers.insert (fun u => (s.tasks u).alarm) n t xs

/-- The tasks at which the loop of `sys_alarm` tries to put the caller in. -/
def laterThan (s : Sched) (n : Nat) (xs : List Nat) : List Nat := xs.filter fun u => n < (s.tasks u).alarm

/-- The loop and the `push_back` behind it, on a sorted list. -/
theorem alarmLoop_pushBack (A : AlarmList s xs) (hs : AlarmSorted s xs) (ht : t < s.tasksNr) (hx : t ∉ xs)
    (hf : xs.length < fuel) :
    (1 < (laterThan s n xs).length →
      alarmLoop t n fuel (firstRef xs) s = .error (.assert "r != AlarmList_t::error()")) ∧
    ((laterThan s n xs).length ≤ 1 → ∃ s1 s2, alarmLoop t n fuel (firstRef xs) s = .ok ((), s1) ∧
      discard (alarmInsert .head t) s1 = .ok ((), s2) ∧ AlarmList s2 (alarmOrder s n t xs) ∧ Relinked s s2) := by
  have hsplit : xs.takeWhile (fun u => (s.tasks u).alarm ≤ n) ++ laterThan s n xs = xs := by
    rw [laterThan, ← Timers.dropWhile_eq_filter hs, takeWhile_append_dropWhile]
  have horder : alarmOrder s n t xs = xs.takeWhile (fun u => (s.tasks u).alarm ≤ n) ++ t :: laterThan s n xs := by
    rw [alarmOrder, Timers.insert, Timers.dropWhile_eq_filter hs, laterThan]
  have hlow : ∀ v ∈ xs.takeWhile (fun u => (s.tasks u).alarm ≤ n), (s.tasks v).alarm ≤ n :=
    fun v hv => by simpa using mem_takeWhile_imp hv
  have hhigh : ∀ v ∈ laterThan s n xs, n < (s.tasks v).alarm := fun v hv => by simpa using (mem_filter.mp hv).2
  rw [horder]
  clear horder
  generalize xs.takeWhile (fun u => (s.tasks u).alarm ≤ n) = r₁ at hsplit hlow ⊢
  generalize laterThan s n xs = r₂ at hsplit hhigh ⊢
  subst hsplit
  rw [length_append] at hf
  obtain ⟨k, rfl⟩ := Nat.exists_eq_add_of_lt hf
  have hpass : alarmLoop t n (r₁.length + r₂.length + k + 1) (firstRef (r₁ ++ r₂)) s =
      alarmLoop t n (r₂.length + k + 1) (firstRef r₂) s := by
    rw [Nat.add_assoc, Nat.add_assoc]
    exact alarmLoop_pass (l := []) (by simpa using A) hlow
  rw [hpass]
  cases r₂ with
  | nil =>
    refine ⟨fun h => absurd h (by simp), fun _ => ?_⟩
    obtain ⟨s2, h2, A2⟩ := A.insert ht hx rfl
    exact ⟨s, s2, rfl, discard_run h2, A2, alarmInsert_relinked _ _ _ h2⟩
  | cons u r => cases r with
    | nil =>
      refine ⟨fun h => absurd h (by simp), fun _ => ?_⟩
      obtain ⟨s1, h1, A1, hR⟩ := alarmLoop_last A ht hx (hhigh u mem_cons_self)
      have hagain : alarmInsert .head t s1 = .ok (false, s1) := alarmInsert_linked ((A1.linked t).mpr (by simp))
      refine ⟨s1, s1, ?_, discard_run hagain, A1, hR⟩
      rw [← h1, firstRef, length_singleton, Nat.add_comm 1 k]
    | cons v r =>
      refine ⟨fun _ => ?_, fun h => absurd h (by simp)⟩
      have h2 := alarmLoop_twice (r.length + k + 1) A ht hx (hhigh u mem_cons_self)
        (hhigh v (mem_cons_of_mem _ mem_cons_self))
      rw [← h2, firstRef, length_cons, length_cons]
      congr 1
      omega

/-- `sys_alarm` takes the caller out of the list first. -/
theorem sysAlarm_erased (A : AlarmList s xs) :
    ∃ s1, sysAlarm n fuel s = setAlarm s.curr n fuel s1 ∧ AlarmList s1 (xs.erase s.curr) ∧ Relinked s s1 := by
  simp only [sysAlarm, get_run]
  by_cases hl : (s.tasks s.curr).alarmListNode.linked = true
  · obtain ⟨s1, h1, A1⟩ := A.erase ((A.linked _).mp hl)
    refine ⟨s1, ?_, A1, alarmErase_relinked _ _ _ h1⟩
    simp only [hl, if_true, bind_run h1, ASSERT, check_run]
  · have hm : s.curr ∉ xs := fun h => hl ((A.linked _).mpr h)
    refine ⟨s, by simp [hl], ?_, refl_of Relinked s⟩
    rwa [erase_of_not_mem hm]

theorem setReturn_unalarmed (v : Int) (s : Sched) : ∃ s', setReturn v s = .ok ((), s') ∧ Unalarmed s s' :=
  ⟨_, rfl, .setTask rfl rfl⟩

/-- The alarm of `t` has been set, and no other. -/
structure Rang (s : Sched) (t e : Nat) (ys : List Nat) (s' : Sched) : Prop where
  list : AlarmList s' ys
  alarm : (s'.tasks t).alarm = e
  other : ∀ u, u ≠ t → (s'.tasks u).alarm = (s.tasks u).alarm

/-- Orders that read the same alarms. -/
theorem alarmOrder_congr (h : ∀ u ∈ xs, (s'.tasks u).alarm = (s.tasks u).alarm) (hs : AlarmSorted s xs) :
    alarmOrder s' n t xs = alarmOrder s n t xs ∧ laterThan s' n xs = laterThan s n xs := by
  have hs' : AlarmSorted s' xs := hs.congr h
  have hlow : xs.filter (fun u => (s'.tasks u).alarm ≤ n) = xs.filter fun u => (s.tasks u).alarm ≤ n :=
    filter_congr fun u hu => by rw [h u hu]
  have hhigh : xs.filter (fun u => n < (s'.tasks u).alarm) = xs.filter fun u => n < (s.tasks u).alarm :=
    filter_congr fun u hu => by rw [h u hu]
  refine ⟨?_, hhigh⟩
  rw [alarmOrder, alarmOrder, Timers.insert, Timers.insert, Timers.takeWhile_eq_filter hs',
    Timers.takeWhile_eq_filter hs, Timers.dropWhile_eq_filter hs', Timers.dropWhile_eq_filter hs, hlow, hhigh]

theorem setAlarm_sorted (A : AlarmList s xs) (hs : AlarmSorted s xs) (ht : t < s.tasksNr) (hx : t ∉ xs)
    (hf : xs.length < fuel) (hn : n ≠ 0) :
    (1 < (laterThan s n xs).length → setAlarm t n fuel s = .error (.assert "r != AlarmList_t::error()")) ∧
    ((laterThan s n xs).length ≤ 1 →
      ∃ s', setAlarm t n fuel s = .ok ((), s') ∧ Rang s t (add32 s.seconds n) (alarmOrder s n t xs) s') := by
  -- the new alarm is set before the loop, which does not come to it
  simp only [setAlarm, if_neg hn, modify_run]
  generalize hdef : (s.setTask t fun x => { x with alarm := add32 s.seconds n }) = s0
  have q : Still s s0 := hdef ▸ .setTask rfl
  have A0 := q.alarms A
  have hfirst := A0.first
  have hsame : ∀ u, u ≠ t → (s0.tasks u).alarm = (s.tasks u).alarm := fun u hu => by rw [← hdef, setTask_ne _ hu]
  have hself : (s0.tasks t).alarm = add32 s.seconds n := by rw [← hdef, setTask_self]
  have hne : ∀ u ∈ xs, u ≠ t := fun u hu he => hx (he ▸ hu)
  obtain ⟨ho, hlt⟩ := alarmOrder_congr (n := n) (t := t) (fun u hu => hsame u (hne u hu)) hs
  have hs0 : AlarmSorted s0 xs := hs.congr fun u hu => hsame u (hne u hu)
  have ht0 : t < s0.tasksNr := hdef ▸ ht
  obtain ⟨htwo, hone⟩ := alarmLoop_pushBack (n := n) A0 hs0 ht0 hx hf
  rw [hlt] at htwo hone
  simp only [get_run, hfirst, bind_run (derefAlarm_some _)]
  refine ⟨fun h2 => bind_fail (htwo h2), fun h1 => ?_⟩
  obtain ⟨s1, s2, hl, hi, A2, hR⟩ := hone h1
  rw [bind_run hl, bind_run hi]
  obtain ⟨s', hr, qr⟩ := setReturn_unalarmed 0 s2
  refine ⟨s', hr, ?_, ?_, fun u hu => ?_⟩
  · rw [← ho]
    exact qr.alarms A2
  · rw [qr.alarm, hR.alarm, hself]
  · rw [qr.alarm, hR.alarm, hsame u hu]

theorem sysAlarm_sorted (A : AlarmList s xs) (hs : AlarmSorted s xs) (hc : s.curr < s.tasksNr)
    (hf : xs.length < fuel) (hn : n ≠ 0) :
    (1 < (laterThan s n (xs.erase s.curr)).length →
      sysAlarm n fuel s = .error (.assert "r != AlarmList_t::error()")) ∧
    ((laterThan s n (xs.erase s.curr)).length ≤ 1 → ∃ s', sysAlarm n fuel s = .ok ((), s') ∧
      Rang s s.curr (add32 s.seconds n) (alarmOrder s n s.curr (xs.erase s.curr)) s') := by
  obtain ⟨s1, h1, A1, hR⟩ := sysAlarm_erased (n := n) A
  have hse : AlarmSorted s (xs.erase s.curr) := hs.sublist erase_sublist
  have hs1 : AlarmSorted s1 (xs.erase s.curr) := hse.congr fun u _ => hR.alarm u
  obtain ⟨ho, hlt⟩ := alarmOrder_congr (n := n) (t := s.curr) (fun u (_ : u ∈ xs.erase s.curr) => hR.alarm u) hse
  have hsec : s1.seconds = s.seconds := by
    obtain ⟨head, size, nodes, rfl⟩ := hR
    rfl
  have hx : s.curr ∉ xs.erase s.curr := A.nodup.not_mem_erase
  obtain ⟨htwo, hone⟩ := setAlarm_sorted A1 hs1 (by rw [hR.tasksNr]; exact hc) hx
    (Nat.lt_of_le_of_lt length_erase_le hf) hn
  rw [hlt] at htwo hone
  rw [h1]
  refine ⟨htwo, fun h => ?_⟩
  obtain ⟨s', hs', hr⟩ := hone h
  rw [hsec, ho] at hr
  exact ⟨s', hs', hr.list, hr.alarm, fun u hu => (hr.other u hu).trans (hR.alarm u)⟩

/-- `alarm(0)`. -/
theorem sysAlarm_zero (A : AlarmList s xs) :
    ∃ s', sysAlarm 0 fuel s = .ok ((), s') ∧ AlarmList s' (xs.erase s.curr) ∧
      ∀ u, (s'.tasks u).alarm = (s.tasks u).alarm := by
  obtain ⟨s1, h1, A1, hR⟩ := sysAlarm_erased (n := 0) A
  obtain ⟨s', hr, qr⟩ := setReturn_unalarmed 0 s1
  refine ⟨s', ?_, qr.alarms A1, fun u => (qr.alarm u).trans (hR.alarm u)⟩
  rw [h1, setAlarm, if_pos rfl]
  exact hr

/-! ## `check_alarm` -/

/-- `send_signal` has a case for what the task does, or does not come to it. -/
def Task.TakesSignal (x : Task) (sig : Nat) : Prop :=
  x.signal.pending &&& signalBit sig ≠ 0#32 ∨ x.state = .running ∨ x.state = .interruptible ∨ x.state = .zombie

/-- `SIGALRM` goes to the tasks, one after the other, and besides only the alarm
list changes. -/
inductive Alarmed : List Nat → Sched → Sched → Prop
  | done {s s' : Sched} (h : Relinked s s') : Alarmed [] s s'
  | send {t : Nat} {ts : List Nat} {r : Int} {s s1 s2 s' : Sched} (h : sendSignal SIGALRM t s = .ok (r, s1))
      (hR : Relinked s1 s2) (h' : Alarmed ts s2 s') : Alarmed (t :: ts) s s'

theorem Task.TakesSignal.sent {sig : Nat} (h : (s.tasks t).TakesSignal sig) :
    ∃ r s', sendSignal sig t s = .ok (r, s') ∧ Sent s sig t r s' := by
  rcases sendSignal_cases s sig t with hs | ⟨-, -, hp, hst⟩
  · exact hs
  · exfalso
    rcases h with h | h | h | h
    · exact h hp
    all_goals simp [h] at hst

/-- A turn at the first task of the list. -/
theorem checkAlarmTurn_first (A : AlarmList s (t :: r)) (h : (s.tasks t).TakesSignal SIGALRM) :
    ∃ c s1 s2, sendSignal SIGALRM t s = .ok (c, s1) ∧ Sent s SIGALRM t c s1 ∧ Relinked s1 s2 ∧
      checkAlarmTurn t s = .ok (firstRef r, s2) ∧ AlarmList s2 r := by
  obtain ⟨c, s1, h1, hS⟩ := h.sent
  have q : Still s s1 := sendSignal_leaves _ _ _ h1
  have A1 := q.alarms A
  obtain ⟨hn, hp⟩ := AlarmList.next (l := []) A1
  have hnext : (s1.nodeAt (.task t)).next = some (firstRef r) := hn
  have hprev : (s1.nodeAt (firstRef r)).prev = some (.task t) := hp
  obtain ⟨s2, h2, A2⟩ := A1.erase mem_cons_self
  rw [erase_cons_head] at A2
  refine ⟨c, s1, s2, h1, hS, alarmErase_relinked _ _ _ h2, ?_, A2⟩
  simp only [checkAlarmTurn, bind_run (discard_run h1), bind_run (alarmNode_eq _), hnext,
    bind_run (derefAlarm_some _), hprev, bind_run (discard_run h2), pure_apply]

/-- The loop sends the signal to the tasks of a sorted list that are due, and takes
them out. -/
theorem checkAlarmLoop_sorted (A : AlarmList s xs) (hs : AlarmSorted s xs) (hf : xs.length < fuel)
    (ht : ∀ t ∈ xs, (s.tasks t).alarm ≤ n → (s.tasks t).TakesSignal SIGALRM) :
    ∃ s', checkAlarmLoop n fuel (firstRef xs) s = .ok ((), s') ∧ AlarmList s' (laterThan s n xs) ∧
      Alarmed (xs.filter fun u => (s.tasks u).alarm ≤ n) s s' ∧ ∀ u, (s'.tasks u).alarm = (s.tasks u).alarm := by
  induction xs generalizing s fuel with
  | nil =>
    obtain ⟨k, rfl⟩ := Nat.exists_eq_add_of_lt hf
    exact ⟨s, rfl, A, .done (refl_of Relinked s), fun _ => rfl⟩
  | cons t xs ih =>
    obtain ⟨k, rfl⟩ : ∃ k, fuel = k + 1 := ⟨fuel - 1, by omega⟩
    obtain ⟨hfirst, hrest⟩ := pairwise_cons.mp hs
    by_cases hd : (s.tasks t).alarm ≤ n
    · obtain ⟨c, s1, s2, h1, hS, hR, h2, A2⟩ := checkAlarmTurn_first A (ht t mem_cons_self hd)
      have hnt : t ∉ xs := (nodup_cons.mp A.nodup).1
      have halarm : ∀ u, (s2.tasks u).alarm = (s.tasks u).alarm := fun u => by
        obtain ⟨b, st, l, hu⟩ := hS.task u
        rw [hR.alarm, hu]
      have hstill : ∀ u ∈ xs, (s2.tasks u).TakesSignal SIGALRM ↔ (s.tasks u).TakesSignal SIGALRM := fun u hu => by
        have hne : u ≠ t := fun he => hnt (he ▸ hu)
        obtain ⟨head, size, nodes, rfl⟩ := hR
        rw [← hS.tasks_ne hne]
        rfl
      have hfilter : ∀ p : Nat → Bool, xs.filter (fun u => p (s2.tasks u).alarm) = xs.filter fun u => p (s.tasks u).alarm :=
        fun p => filter_congr fun u _ => by rw [halarm u]
      have hs2 : AlarmSorted s2 xs := Timers.Sorted.congr (k := fun u => (s.tasks u).alarm) hrest fun u _ => halarm u
      obtain ⟨s', h', A', hA, hall⟩ := ih A2 hs2 (Nat.lt_of_succ_lt_succ hf) fun u hu hdu => by
        rw [hstill u hu]
        exact ht u (mem_cons_of_mem _ hu) (by rwa [← halarm u])
      refine ⟨s', ?_, ?_, ?_, fun u => (hall u).trans (halarm u)⟩
      · rw [firstRef, checkAlarmLoop]
        simp only [get_run, gt_iff_lt, Nat.not_lt.mpr hd, if_false, bind_run h2]
        exact h'
      · have hl : laterThan s n (t :: xs) = laterThan s2 n xs := by
          rw [laterThan, laterThan, filter_cons_of_neg (by simpa using hd)]
          exact (hfilter fun a => n < a).symm
        rw [hl]
        exact A'
      · rw [filter_cons_of_pos (by simpa using hd), ← hfilter fun a => a ≤ n]
        exact .send h1 hR hA
    · have hlater : ∀ u ∈ t :: xs, n < (s.tasks u).alarm := by
        intro u hu
        rcases mem_cons.mp hu with rfl | hu
        · exact Nat.lt_of_not_le hd
        · exact Nat.lt_of_lt_of_le (Nat.lt_of_not_le hd) (hfirst u hu)
      refine ⟨s, ?_, ?_, ?_, fun _ => rfl⟩
      · rw [firstRef, checkAlarmLoop]
        simp only [get_run, gt_iff_lt, Nat.lt_of_not_le hd, if_true, pure_apply]
      · rw [laterThan, filter_eq_self.mpr fun u hu => decide_eq_true (hlater u hu)]
        exact A
      · rw [filter_eq_nil_iff.mpr fun u hu => by simpa using hlater u hu]
        exact .done (refl_of Relinked s)

theorem checkAlarm_sorted (A : AlarmList s xs) (hs : AlarmSorted s xs) (hf : xs.length < fuel)
    (ht : ∀ t ∈ xs, (s.tasks t).alarm ≤ s.seconds → (s.tasks t).TakesSignal SIGALRM) :
    ∃ s', checkAlarm fuel s = .ok ((), s') ∧ AlarmList s' (laterThan s s.seconds xs) ∧
      Alarmed (xs.filter fun u => (s.tasks u).alarm ≤ s.seconds) s s' ∧ ∀ u, (s'.tasks u).alarm = (s.tasks u).alarm := by
  simp only [checkAlarm, get_run, A.first, bind_run (derefAlarm_some _)]
  exact checkAlarmLoop_sorted A hs hf ht

/-! ## The other steps of the kernel -/

/-- No alarm has been set. -/
structure SameAlarms (s s' : Sched) : Prop where
  tasksNr : s.tasksNr ≤ s'.tasksNr
  alarm : ∀ t, t < s.tasksNr → (s'.tasks t).alarm = (s.tasks t).alarm

namespace SameAlarms

theorem of_eq (hn : s'.tasksNr = s.tasksNr) (ha : ∀ t, (s'.tasks t).alarm = (s.tasks t).alarm) : SameAlarms s s' :=
  ⟨Nat.le_of_eq hn.symm, fun t _ => ha t⟩

theorem setTask {f : Task → Task} (h : (f (s.tasks t)).alarm = (s.tasks t).alarm) : SameAlarms s (s.setTask t f) :=
  .of_eq rfl fun _ => setTask_part Task.alarm h

end SameAlarms

instance : IsPreorder Sched SameAlarms where
  refl _ := .of_eq rfl fun _ => rfl
  trans _ _ _ h h' := ⟨Nat.le_trans h.tasksNr h'.tasksNr,
    fun t ht => (h'.alarm t (Nat.lt_of_lt_of_le ht h.tasksNr)).trans (h.alarm t ht)⟩

theorem Relinked.sameAlarms (h : Relinked s s') : SameAlarms s s' := .of_eq h.tasksNr h.alarm

instance : LaxSleep SameAlarms where
  setTask h := .setTask (congrArg (·.2.1) h)
  rest ht _ hn _ _ _ := .of_eq hn fun _ => by rw [ht]
  setSleep _ h := .setTask h
  lists ht hn _ _ _ := .of_eq hn fun _ => by rw [ht]

instance : LaxExit SameAlarms where
  doExit := doExit_leaves fun _ _ => Relinked.sameAlarms

theorem sysSignal_sameAlarms {signum : Int} {handler : Nat} (h : signum ≠ 32) :
    Leaves SameAlarms (sysSignal signum handler) := by
  unfold sysSignal
  split
  · exact setReturn_leaves
  · exact .bind (.modify fun s => .setTask rfl) fun _ => setReturn_leaves

/-- A new task has no alarm yet. -/
theorem doFork_sameAlarms {pa : Option Nat} {r : Int} (hc : s.curr < s.tasksNr) (h : doFork pa s = .ok (r, s')) :
    SameAlarms s s' := by
  cases pa with
  | none =>
    cases h
    exact refl_of SameAlarms s
  | some pa =>
    have hne : s.curr ≠ s.tasksNr := Nat.ne_of_lt hc
    simp only [doFork, get_run, modTask, modCurr, modify_run] at h
    rw [bind_run (addToRunnableList_eq (by simp [setTask, hne.symm, Task.copyFor]))] at h
    cases h
    refine ⟨Nat.le_succ _, fun u hu => ?_⟩
    have hu : u ≠ s.tasksNr := Nat.ne_of_lt hu
    by_cases hu' : u = s.curr
    · subst hu'
      simp [setTask, hu]
    · simp [setTask, hu, hu']

theorem Syscall.sameAlarms {c : Syscall} (hc : s.curr < s.tasksNr) (ha : ∀ n k, c ≠ .alarm n k)
    (hs : ∀ a, c ≠ .signal 32 a) (h : c.run s = .ok ((), s')) : SameAlarms s s' := by
  cases c with
  | fork pa =>
    obtain ⟨r, s1, h1, h2⟩ := bind_apply_ok.mp h
    exact trans_of SameAlarms (doFork_sameAlarms hc h1) (setReturn_leaves _ _ _ h2)
  | sleep n => exact sysSleep_leaves _ _ _ h
  | alarm n k => exact absurd rfl (ha n k)
  | signal n a => exact sysSignal_sameAlarms (fun he => hs a (he ▸ rfl)) _ _ _ h
  | _ => exact Syscall.leaves rfl _ _ _ h

/-- The steps that are not about alarms.  The handler of signal 32 is in the place of
`alarm`, and `fork` copies the alarm node. -/
def Op.OutsideAlarms (s : Sched) : Op → Prop
  | .syscall (.alarm _ _) => False
  | .syscall (.signal n _) => n ≠ 32
  | .syscall (.fork _) => s.currTask.alarmListNode.linked = false
  | .checkAlarmTurn _ => False
  | _ => True

theorem Op.sameAlarms {op : Op} (G : Agree s) (ho : op.OutsideAlarms s) (h : op.run s = .ok ((), s')) :
    SameAlarms s s' := by
  cases op with
  | syscall c =>
    obtain ⟨_, s1, h1, h2⟩ := bind_apply_ok.mp h
    have q := (trapEntry_quiet h1).1
    refine trans_of SameAlarms (trapEntry_leaves _ _ _ h1)
      (Syscall.sameAlarms (by rw [q.curr, q.tasksNr]; exact G.curr) ?_ ?_ h2)
    · rintro n k rfl
      exact ho
    · rintro a rfl
      exact ho rfl
  | signalReturn esp0 => exact (Leaves.bind trapEntry_leaves fun _ => signalReturn_leaves popStack_leaves) _ _ _ h
  | checkAlarmTurn t => exact absurd ho id
  | checkSleepList => exact checkSleepList_leaves _ _ _ h
  | switchTask => exact switchTask_leaves (fun _ _ => .of_eq rfl fun _ => rfl) _ _ _ h
  | _ => exact Op.leaves rfl _ _ _ h

/-- The alarm list still holds the same tasks, with the same alarms. -/
def AlarmsKept (s s' : Sched) : Prop :=
  ∀ xs, AlarmList s xs → AlarmList s' xs ∧ ∀ t ∈ xs, (s'.tasks t).alarm = (s.tasks t).alarm

/-- The current task is out of the alarm list. -/
def AlarmGone (s s' : Sched) : Prop :=
  ∀ xs, AlarmList s xs → AlarmList s' (xs.erase s.curr) ∧ ∀ t ∈ xs, (s'.tasks t).alarm = (s.tasks t).alarm

/-- The kernel, and until when each task waits for an alarm.  No function reads the
second. -/
structure AlarmRun where
  sched : Sched
  pending : Nat → Option Nat

namespace AlarmRun

variable {a a' : AlarmRun}

/-- The call `alarm(n)` finds its place: at most one other alarm is greater than `n`,
and the others are before or after the new one as they are before or after `n`. -/
structure Fits (a : AlarmRun) (n : Nat) : Prop where
  once : ∀ u v e e', u ≠ a.sched.curr → v ≠ a.sched.curr → a.pending u = some e → a.pending v = some e' →
    n < e → n < e' → u = v
  before : ∀ u e, u ≠ a.sched.curr → a.pending u = some e → e ≤ n → e ≤ add32 a.sched.seconds n
  after : ∀ u e, u ≠ a.sched.curr → a.pending u = some e → n < e → add32 a.sched.seconds n ≤ e

/-- Every task whose alarm is due takes the signal. -/
def DueTake (a : AlarmRun) : Prop :=
  ∀ t e, a.pending t = some e → e ≤ a.sched.seconds → (a.sched.tasks t).TakesSignal SIGALRM

/-- `alarm(n)`, `check_alarm`, the end of the current task, and any other step. -/
inductive Step (a : AlarmRun) : AlarmRun → Prop
  | alarm {n fuel : Nat} {s' : Sched} (hc : a.sched.curr < a.sched.tasksNr) (hn : 0 < n → a.Fits n)
      (h : sysAlarm n fuel a.sched = .ok ((), s')) :
      Step a ⟨s', update a.pending a.sched.curr (if n = 0 then none else some (add32 a.sched.seconds n))⟩
  | check {fuel : Nat} {s' : Sched} (hd : a.DueTake) (h : checkAlarm fuel a.sched = .ok ((), s')) :
      Step a ⟨s', fun t => (a.pending t).filter fun e => a.sched.seconds < e⟩
  | exit {s' : Sched} (h : AlarmGone a.sched s') : Step a ⟨s', update a.pending a.sched.curr none⟩
  | other {s' : Sched} (h : AlarmsKept a.sched s') : Step a ⟨s', a.pending⟩

def system : System AlarmRun where
  init a := (∃ pa pa1, bootTasks pa1 (kernelTask pa) = .ok ((), a.sched)) ∧ a.pending = fun _ => none
  step := Step

/-- The alarm list holds the tasks that wait for an alarm, by expiry. -/
structure Holds (a : AlarmRun) (xs : List Nat) : Prop where
  list : AlarmList a.sched xs
  mem : ∀ t, t ∈ xs ↔ (a.pending t).isSome
  alarm : ∀ t e, a.pending t = some e → (a.sched.tasks t).alarm = e
  sorted : AlarmSorted a.sched xs

namespace Holds

section

variable (H : Holds a xs)

include H

theorem pending_of_mem (h : t ∈ xs) : a.pending t = some (a.sched.tasks t).alarm := by
  obtain ⟨e, he⟩ := Option.isSome_iff_exists.mp ((H.mem t).mp h)
  rw [he, H.alarm t e he]

theorem mem_others : u ∈ xs.erase a.sched.curr ↔ u ≠ a.sched.curr ∧ u ∈ xs := H.list.nodup.mem_erase_iff

theorem laterThan_length (hfit : a.Fits n) :
    (laterThan a.sched n (xs.erase a.sched.curr)).length ≤ 1 := by
  have hnd : (laterThan a.sched n (xs.erase a.sched.curr)).Nodup := (H.list.nodup.erase _).filter _
  have heq : ∀ u ∈ laterThan a.sched n (xs.erase a.sched.curr), ∀ v ∈ laterThan a.sched n (xs.erase a.sched.curr),
      u = v := by
    intro u hu v hv
    obtain ⟨hu, hnu⟩ := mem_filter.mp hu
    obtain ⟨hv, hnv⟩ := mem_filter.mp hv
    obtain ⟨hu', hu⟩ := H.mem_others.mp hu
    obtain ⟨hv', hv⟩ := H.mem_others.mp hv
    exact hfit.once u v _ _ hu' hv' (H.pending_of_mem hu) (H.pending_of_mem hv) (of_decide_eq_true hnu)
      (of_decide_eq_true hnv)
  match laterThan a.sched n (xs.erase a.sched.curr), hnd, heq with
  | [], _, _ => simp
  | [u], _, _ => simp
  | u :: v :: r, hnd, heq =>
    have huv := heq u mem_cons_self v (mem_cons_of_mem _ mem_cons_self)
    rw [huv] at hnd
    exact absurd mem_cons_self (nodup_cons.mp hnd).1

/-- The current task has set its alarm to `o` or, with `none`, cancelled it. -/
theorem update {o : Option Nat} {ys : List Nat} {s' : Sched} (A : AlarmList s' ys)
    (hm : ∀ u, u ∈ ys ↔ u = a.sched.curr ∧ o.isSome ∨ u ∈ xs.erase a.sched.curr)
    (ho : ∀ e, o = some e → (s'.tasks a.sched.curr).alarm = e)
    (hs : ∀ u ∈ xs.erase a.sched.curr, (s'.tasks u).alarm = (a.sched.tasks u).alarm) (hsort : AlarmSorted s' ys) :
    Holds ⟨s', update a.pending a.sched.curr o⟩ ys where
  list := A
  mem u := by
    rw [hm, H.mem_others]
    by_cases hu : u = a.sched.curr
    · simp [hu]
    · simp [hu, H.mem]
  alarm u e he := by
    by_cases hu : u = a.sched.curr
    · subst hu
      simp only [update_self] at he
      exact ho e he
    · simp only [update_of_ne hu] at he
      rw [hs u (H.mem_others.mpr ⟨hu, (H.mem u).mpr (by rw [he]; rfl)⟩)]
      exact H.alarm u e he
  sorted := hsort

theorem sysAlarm (hc : a.sched.curr < a.sched.tasksNr) (hn : 0 < n → a.Fits n) (hf : xs.length < fuel) :
    ∃ s' ys, MakarnaX.sysAlarm n fuel a.sched = .ok ((), s') ∧
      Holds ⟨s', Function.update a.pending a.sched.curr (if n = 0 then none else some (add32 a.sched.seconds n))⟩ ys := by
  have hse : AlarmSorted a.sched (xs.erase a.sched.curr) := H.sorted.sublist erase_sublist
  by_cases h0 : n = 0
  · subst h0
    obtain ⟨s', h, A, hs⟩ := sysAlarm_zero H.list
    refine ⟨s', _, h, H.update A (fun u => by simp) (fun e he => by cases he) (fun u _ => hs u) ?_⟩
    exact hse.congr fun u _ => hs u
  · have hfit := hn (Nat.pos_of_ne_zero h0)
    obtain ⟨s', h, hr⟩ := (sysAlarm_sorted H.list H.sorted hc hf h0).2 (H.laterThan_length hfit)
    have hother : ∀ u ∈ xs.erase a.sched.curr, (s'.tasks u).alarm = (a.sched.tasks u).alarm :=
      fun u hu => hr.other u (H.mem_others.mp hu).1
    refine ⟨s', alarmOrder a.sched n a.sched.curr (xs.erase a.sched.curr), h, ?_⟩
    rw [if_neg h0]
    refine H.update hr.list (fun u => ?_) (fun e he => ?_) hother ?_
    · rw [alarmOrder, Timers.mem_insert]
      simp
    · rw [hr.alarm]
      exact Option.some.inj he
    · refine (Timers.sorted_insert_iff hse hother hr.alarm).mpr fun u hu => ?_
      obtain ⟨hu', hu⟩ := H.mem_others.mp hu
      have hp := H.pending_of_mem hu
      exact ⟨hfit.before u _ hu' hp, hfit.after u _ hu' hp⟩

theorem checkAlarm (hd : a.DueTake) (hf : xs.length < fuel) :
    ∃ s', MakarnaX.checkAlarm fuel a.sched = .ok ((), s') ∧
      Alarmed (xs.filter fun u => (a.sched.tasks u).alarm ≤ a.sched.seconds) a.sched s' ∧
      Holds ⟨s', fun t => (a.pending t).filter fun e => a.sched.seconds < e⟩ (laterThan a.sched a.sched.seconds xs) := by
  obtain ⟨s', h, A, hA, hs⟩ := checkAlarm_sorted H.list H.sorted hf fun t ht hdue => hd t _ (H.pending_of_mem ht) hdue
  refine ⟨s', h, hA, A, fun t => ?_, fun t e he => ?_, ?_⟩
  · rw [laterThan, mem_filter]
    cases hp : a.pending t with
    | none =>
      have : t ∉ xs := fun ht => by simpa [hp] using (H.mem t).mp ht
      simp [this, hp]
    | some e =>
      have ht : t ∈ xs := (H.mem t).mpr (by rw [hp]; rfl)
      rw [H.alarm t e hp]
      simp [ht, hp]
  · obtain ⟨hp, -⟩ := Option.filter_eq_some_iff.mp he
    exact (hs t).trans (H.alarm t e hp)
  · exact Timers.Sorted.congr (H.sorted.sublist filter_sublist) fun u _ => hs u

theorem step (h : Step a a') : ∃ ys, Holds a' ys := by
  cases h with
  | @alarm n fuel s' hc hn h =>
    obtain ⟨s₁, ys, h₁, H₁⟩ := H.sysAlarm hc hn (show xs.length < fuel + (xs.length + 1) by omega)
    have h₂ := with_more_fuel (f := fun k => MakarnaX.sysAlarm n k) (fun _ => sysAlarm_succ) (k := xs.length + 1) h
    obtain rfl : s₁ = s' := (Prod.mk.inj (Except.ok.inj (h₁.symm.trans h₂))).2
    exact ⟨ys, H₁⟩
  | @check fuel s' hd h =>
    obtain ⟨s₁, h₁, -, H₁⟩ := H.checkAlarm hd (show xs.length < fuel + (xs.length + 1) by omega)
    have h₂ := with_more_fuel (f := MakarnaX.checkAlarm) (fun _ => checkAlarm_succ) (k := xs.length + 1) h
    obtain rfl : s₁ = s' := (Prod.mk.inj (Except.ok.inj (h₁.symm.trans h₂))).2
    exact ⟨_, H₁⟩
  | exit h =>
    obtain ⟨A, hs⟩ := h xs H.list
    have hs' : ∀ u ∈ xs.erase a.sched.curr, _ := fun u hu => hs u (mem_of_mem_erase hu)
    refine ⟨_, H.update A (fun u => by simp) (fun e he => by cases he) hs' ?_⟩
    exact Timers.Sorted.congr (H.sorted.sublist erase_sublist) hs'
  | other h =>
    obtain ⟨A, hs⟩ := h xs H.list
    refine ⟨xs, A, H.mem, fun t e he => ?_, H.sorted.congr hs⟩
    exact (hs t ((H.mem t).mpr (by rw [he]; rfl))).trans (H.alarm t e he)

end

end Holds

theorem reachable_holds (h : system.Reachable a) : ∃ xs, Holds a xs := by
  refine System.Reachable.invariant (I := fun a => ∃ xs, Holds a xs) ?_ (fun a a' ⟨xs, H⟩ h => H.step h) h
  rintro a ⟨⟨pa, pa1, hb⟩, hp⟩
  refine ⟨[], (bootTasks_nodes hb).1, fun t => ?_, fun t e he => ?_, List.Pairwise.nil⟩
  · simp [hp]
  · rw [hp] at he
    cases he

end AlarmRun

/-- Task 1 waits for an alarm at 5, task 2 for one at 6. -/
def twoAlarms : List Op :=
  toInit ++ [.syscall (.fork (some 0x2000)), .syscall (.fork (some 0x3000)), .syscall (.alarm 5 9), .syscall .pause] ++
    toNext ++ [.syscall (.alarm 6 9), .syscall .pause, .switchTask]

end MakarnaX
