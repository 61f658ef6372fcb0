import MakarnaX.Task.AlarmList

/-!
# The nodes of a task

A task has four nodes: `list_node`, `childlist_node`, `alarm_list_node` and
`id_hash_node`.  `do_fork` copies the whole structure and `Task::init` makes all
of them free again but `alarm_list_node`.

As long as no task forks while its alarm is set, every node that names a list is
in that list once, and no task takes another out of the alarm list.  `childs` is
read with `parent`, which `do_fork` sets together with the list
`childlist_node` names; a node of `task_id_ht` names no list.
-/

namespace MakarnaX

open Library List Option Sched Function

variable {s s' : Sched} {t u code sig : Nat} {xs ys : List Nat} {a : Unit}

/-! ## Leaving the alarm list -/

/-- `t` is out of the alarm list, and nobody else. -/
structure Freed (t : Nat) (s s' : Sched) : Prop extends Kin s s' where
  alarms : ∀ xs, AlarmList s xs → AlarmList s' (xs.erase t)

/-- The current task may be out of the alarm list. -/
structure Lost (s s' : Sched) : Prop extends Kin s s' where
  alarms : ∀ xs, AlarmList s xs → AlarmList s' xs ∨ AlarmList s' (xs.erase s.curr)

theorem Still.alarms (h : Still s s') (A : AlarmList s xs) : AlarmList s' xs :=
  A.congr h.nodes h.size (Nat.le_of_eq h.tasksNr.symm)

theorem Still.lost (h : Still s s') : Lost s s' := ⟨h.toKin, fun _ A => .inl (h.alarms A)⟩

theorem Freed.lost (h : Freed s.curr s s') : Lost s s' := ⟨h.toKin, fun xs A => .inr (h.alarms xs A)⟩

theorem Freed.after {s1 : Sched} (h : Still s s1) (h' : Freed t s1 s') : Freed t s s' :=
  ⟨trans_of Kin h.toKin h'.toKin, fun xs A => h'.alarms xs (h.alarms A)⟩

theorem Freed.before {s1 : Sched} (h : Freed t s s1) (h' : Still s1 s') : Freed t s s' :=
  ⟨trans_of Kin h.toKin h'.toKin, fun xs A => h'.alarms (h.alarms xs A)⟩

instance : IsPreorder Sched Lost where
  refl s := ⟨refl_of Kin s, fun _ A => .inl A⟩
  trans a b c h h' := by
    refine ⟨trans_of Kin h.toKin h'.toKin, fun xs A => ?_⟩
    rcases h.alarms xs A with B | B
    · have := h'.alarms xs B
      rwa [h.curr] at this
    · refine .inr ?_
      have hn : a.curr ∉ xs.erase a.curr := fun hm => A.nodup.not_mem_erase hm
      have := h'.alarms _ B
      rw [h.curr, erase_of_not_mem hn] at this
      exact this.elim id id

theorem Relinked.kin (h : Relinked s s') : Kin s s' := by
  obtain ⟨head, size, nodes, rfl⟩ := h
  exact ⟨rfl, rfl, fun _ => ⟨rfl, rfl⟩⟩

theorem freeAlarm_freed : Leaves (Freed t) (freeAlarm t) := by
  intro s a s' h
  have hkin : Leaves Kin (freeAlarm t) := by
    refine .read fun s => ?_
    split
    · exact .discard (alarmErase_relinked.mono fun _ _ => Relinked.kin)
    · exact .pure _
  refine ⟨hkin s a s' h, fun xs A => ?_⟩
  simp only [freeAlarm, get_run] at h
  split at h
  · next hl =>
    obtain ⟨b, h⟩ := discard_apply_ok.mp h
    obtain ⟨s1, he, A1⟩ := A.erase ((A.linked t).mp hl)
    rw [h] at he
    cases he
    exact A1
  · next hl =>
    cases h
    rwa [erase_of_not_mem fun hm => hl ((A.linked t).mpr hm)]

section Freed

variable {α β : Type} {x : SchedM α} {f : α → SchedM β}

theorem freed_after (hx : Leaves Still x) (hf : ∀ a, Leaves (Freed t) (f a)) : Leaves (Freed t) (x >>= f) :=
  hx.comp hf fun _ _ _ => Freed.after

theorem freed_before (hx : Leaves (Freed t) x) (hf : ∀ a, Leaves Still (f a)) : Leaves (Freed t) (x >>= f) :=
  hx.comp hf fun _ _ _ => Freed.before

theorem lost (h : Leaves Still x) : Leaves Lost x := h.mono fun _ _ => Still.lost

end Freed

theorem taskFree_freed : Leaves (Freed t) (taskFree t) := by
  refine freed_after .get fun s => ?_
  split
  · exact .throw _
  · exact freed_after (.discard eraseTask_leaves) fun _ => freed_after (modTask_leaves fun _ => rfl) fun _ =>
      freed_after (.discard (pushBack_leaves nofun)) fun _ => freeAlarm_freed

theorem doExit_freed (h : doExit code s = .ok (a, s')) : Freed s.curr s s' := by
  rw [doExit, get_run] at h
  refine (?_ : Leaves (Freed s.curr) _) s a s' h
  dsimp only
  split
  · exact .throw _
  · refine freed_after removeFromRunnableList_leaves fun _ => freed_after (modTask_leaves fun _ => rfl) fun _ =>
      freed_after (.discard (pushBack_leaves (by simp))) fun _ => freed_before taskFree_freed fun _ => ?_
    exact .seq (modTask_leaves fun _ => rfl) <| .seq (modTask_leaves fun _ => rfl) <|
      .seq notifyParent_leaves <| pushFrames_leaves

instance : LaxExit Lost where
  setTask h := (Still.setTask (congrArg Prod.fst h)).lost
  rest ht hl hn hc hh hz := (Lax.rest ht hl hn hc hh hz : Still _ _).lost
  doExit _ _ _ _ h := (doExit_freed h).lost

/-! ## Setting an alarm -/

variable {seconds fuel : Nat}

theorem AlarmList.next_mem {i n : AlarmRef} (A : AlarmList s xs) (hi : i ∈ AlarmRef.head :: xs.map .task)
    (hn : s.nextOf i = some n) : n ∈ AlarmRef.head :: xs.map .task := by
  obtain ⟨b, hb, hl⟩ := A.ring.link_of_mem hi
  obtain rfl : n = b := some.inj (hn.symm.trans hl.1)
  exact hb

/-- The loop of `sys_alarm` puts `t` in at one place or at none. -/
theorem alarmLoop_list {i : AlarmRef} (A : AlarmList s ys) (ht : t < s.tasksNr)
    (hi : i ∈ AlarmRef.head :: ys.map .task) (h : alarmLoop t seconds fuel i s = .ok (a, s')) :
    Kin s s' ∧ ∃ zs, AlarmList s' zs ∧ zs.erase t = ys.erase t := by
  induction fuel generalizing s ys i with
  | zero => cases h
  | succ fuel ih =>
    cases i with
    | head =>
      cases h
      exact ⟨refl_of Kin _, ys, A, rfl⟩
    | task v =>
      simp only [alarmLoop, get_run] at h
      split at h
      · simp only [bind_apply_ok, ASSERT, lift_apply_ok, check_ok, alarmNode_eq] at h
        obtain ⟨b, s1, h1, _, _, ⟨hb, rfl⟩, n, _, hn, next, _, hd, h⟩ := h
        cases hn
        obtain ⟨hnext, rfl⟩ := derefAlarm_ok hd
        by_cases hmem : t ∈ ys
        · -- a second `insert` fails, and the assertion with it
          rw [alarmInsert_linked ((A.linked t).mpr hmem)] at h1
          cases h1
          simp at hb
        · obtain ⟨s2, zs, h2, B, hz, hzy⟩ := A.insertAt ht hmem hi
          rw [h1] at h2
          cases h2
          have hk := (alarmInsert_relinked _ _ _ h1).kin
          have hv : AlarmRef.task v ∈ AlarmRef.head :: zs.map .task := by
            have hvy : v ∈ ys := by simpa using hi
            rw [← hzy] at hvy
            exact mem_cons_of_mem _ (task_mem_map.mpr (mem_of_mem_erase hvy))
          obtain ⟨hk', ws, C, hw⟩ := ih B (by rw [hk.tasksNr]; exact ht) (B.next_mem hv hnext) h
          refine ⟨trans_of Kin hk hk', ws, C, ?_⟩
          rw [hw, hzy, erase_of_not_mem hmem]
      · simp only [bind_apply_ok, alarmNode_eq] at h
        obtain ⟨n, _, hn, next, _, hd, h⟩ := h
        cases hn
        obtain ⟨hnext, rfl⟩ := derefAlarm_ok hd
        exact ih A ht (A.next_mem hi hnext) h

theorem setAlarm_list (A : AlarmList s xs) (ht : t < s.tasksNr) (hx : t ∉ xs)
    (h : setAlarm t seconds fuel s = .ok (a, s')) :
    Kin s s' ∧ ∃ ys, AlarmList s' ys ∧ ys.erase t = xs ∧ (t ∈ ys ↔ seconds ≠ 0) := by
  unfold setAlarm at h
  split at h
  · next h0 =>
    have q : Still _ _ := setReturn_leaves _ _ _ h
    exact ⟨q.toKin, xs, q.alarms A, erase_of_not_mem hx, by simp [hx, h0]⟩
  · next h0 =>
    simp only [modify_run, get_run, bind_apply_ok, discard_apply_ok] at h
    obtain ⟨first, _, hd, _, s1, hl, _, s2, ⟨b, hi⟩, hr⟩ := h
    obtain ⟨hfirst, rfl⟩ := derefAlarm_ok hd
    have q0 : Still s (s.setTask t fun x => { x with alarm := add32 s.seconds seconds }) := .setTask rfl
    obtain ⟨k1, zs, B, hz⟩ := alarmLoop_list (q0.alarms A) (by rw [q0.tasksNr]; exact ht)
      ((q0.alarms A).next_mem mem_cons_self hfirst) hl
    rw [erase_of_not_mem hx] at hz
    have q3 : Still _ _ := setReturn_leaves _ _ _ hr
    have k2 := (alarmInsert_relinked _ _ _ hi).kin
    refine ⟨trans_of Kin (trans_of Kin q0.toKin k1) (trans_of Kin k2 q3.toKin), ?_⟩
    by_cases hmem : t ∈ zs
    · rw [alarmInsert_linked ((B.linked t).mpr hmem)] at hi
      cases hi
      exact ⟨zs, q3.alarms B, hz, by simp [hmem, h0]⟩
    · rw [erase_of_not_mem hmem] at hz
      subst hz
      obtain ⟨s3, ws, h3, C, hw, hwz⟩ := B.insertAt (by rw [k1.tasksNr, q0.tasksNr]; exact ht) hmem mem_cons_self
      rw [hi] at h3
      cases h3
      exact ⟨ws, q3.alarms C, hwz, by simp [hw, h0]⟩

/-- `sys_alarm` moves only the task that calls it. -/
theorem sysAlarm_list (A : AlarmList s xs) (hc : s.curr < s.tasksNr) (h : sysAlarm seconds fuel s = .ok (a, s')) :
    Kin s s' ∧ ∃ ys, AlarmList s' ys ∧ ys.erase s.curr = xs.erase s.curr ∧ (s.curr ∈ ys ↔ seconds ≠ 0) := by
  simp only [sysAlarm, get_run] at h
  split at h
  · next hl =>
    simp only [bind_apply_ok, ASSERT, lift_apply_ok] at h
    obtain ⟨b, s1, h1, _, _, ⟨-, rfl⟩, h⟩ := h
    obtain ⟨s2, h2, B⟩ := A.erase ((A.linked _).mp hl)
    rw [h1] at h2
    cases h2
    have k := (alarmErase_relinked _ _ _ h1).kin
    obtain ⟨k', ys, C, hys, hm⟩ := setAlarm_list B (by rw [k.tasksNr]; exact hc) A.nodup.not_mem_erase h
    exact ⟨trans_of Kin k k', ys, C, hys, hm⟩
  · next hl =>
    have hn : s.curr ∉ xs := fun hm => hl ((A.linked _).mpr hm)
    obtain ⟨k, ys, C, hys, hm⟩ := setAlarm_list A hc hn h
    exact ⟨k, ys, C, by rw [hys, erase_of_not_mem hn], hm⟩

/-! ## `check_alarm` -/

/-- A turn of `check_alarm` takes one node out of the list: that of `t`, if it is in. -/
theorem checkAlarmTurn_list {r : AlarmRef} (A : AlarmList s xs) (h : checkAlarmTurn t s = .ok (r, s')) :
    Kin s s' ∧ ∃ ys, AlarmList s' ys ∧ ys.Sublist xs ∧ (t ∈ xs → ys = xs.erase t) := by
  simp only [checkAlarmTurn, bind_apply_ok, discard_apply_ok, alarmNode_eq] at h
  obtain ⟨_, s1, ⟨c, h1⟩, n, _, hn, next, _, hd, m, _, hm, prev, _, hd', _, s5, ⟨b, h4⟩, h⟩ := h
  cases hn
  cases hm
  obtain ⟨hnext, rfl⟩ := derefAlarm_ok hd
  obtain ⟨hprev, rfl⟩ := derefAlarm_ok hd'
  cases h
  have q : Still _ _ := sendSignal_leaves _ _ _ h1
  have B := q.alarms A
  obtain ⟨b', s2, h5, C⟩ := B.eraseAt
  rw [h4] at h5
  cases h5
  refine ⟨trans_of Kin q.toKin (alarmErase_relinked _ _ _ h4).kin, _, C, filter_sublist, fun ht => ?_⟩
  have hmem : AlarmRef.task t ∈ AlarmRef.head :: xs.map .task := mem_cons_of_mem _ (task_mem_map.mpr ht)
  obtain ⟨p, -, hl⟩ := B.ring.link_of_mem hmem
  obtain rfl : r = p := some.inj (hnext.symm.trans hl.1)
  obtain rfl : prev = .task t := some.inj (hprev.symm.trans hl.2)
  rw [A.nodup.erase_eq_filter]
  refine filter_congr fun u _ => ?_
  by_cases hu : u = t <;> simp [hu]

/-! ## Children -/

/-- `childs` holds the tasks whose parent a task is, each once. -/
structure ChildLists (s : Sched) : Prop where
  mem : ∀ p t, t ∈ (s.tasks p).childs ↔ t < s.tasksNr ∧ (s.tasks t).parent = some p
  nodup : ∀ p, (s.tasks p).childs.Nodup

theorem ChildLists.congr (C : ChildLists s) (hn : s'.tasksNr = s.tasksNr)
    (hf : ∀ t, (s'.tasks t).parent = (s.tasks t).parent ∧ (s'.tasks t).childs = (s.tasks t).childs) :
    ChildLists s' where
  mem p t := by
    rw [(hf p).2, (hf t).1, hn]
    exact C.mem p t
  nodup p := by
    rw [(hf p).2]
    exact C.nodup p

/-- What `do_fork` does to the families and the alarm nodes. -/
structure Forked (s s' : Sched) : Prop where
  tasksNr : s'.tasksNr = s.tasksNr + 1
  head : s'.alarmHead = s.alarmHead
  size : s'.alarmSize = s.alarmSize
  child : (s'.tasks s.tasksNr).ties = (some s.curr, [], s.currTask.alarmListNode)
  parent : (s'.tasks s.curr).ties =
    (s.currTask.parent, s.currTask.childs ++ [s.tasksNr], s.currTask.alarmListNode)
  other : ∀ u, u ≠ s.tasksNr → u ≠ s.curr → (s'.tasks u).ties = (s.tasks u).ties

theorem doFork_forked {pa : Nat} {r : Int} (hc : s.curr < s.tasksNr) (h : doFork (some pa) s = .ok (r, s')) :
    Forked s s' := by
  have hne : s.curr ≠ s.tasksNr := Nat.ne_of_lt hc
  simp only [doFork, get_run, modTask, modCurr, modify_run] at h
  rw [bind_run (addToRunnableList_eq (by simp [setTask, hne.symm, Task.copyFor]))] at h
  cases h
  refine ⟨rfl, rfl, rfl, ?_, ?_, fun u hu hu' => ?_⟩
  · simp [setTask, hne.symm, Task.copyFor, Task.ties]
  · rw [enqueue_ne hne]
    simp [setTask, hne, Task.ties]
  · rw [enqueue_ne hu]
    simp [setTask, hu, hu', Task.ties]

namespace Forked

theorem parent_of (F : Forked s s') {u : Nat} (hu : u ≠ s.tasksNr) : (s'.tasks u).parent = (s.tasks u).parent := by
  by_cases hc : u = s.curr
  · subst hc
    exact congrArg (·.1) F.parent
  · exact congrArg (·.1) (F.other u hu hc)

theorem node_of (F : Forked s s') {u : Nat} (hu : u ≠ s.tasksNr) :
    (s'.tasks u).alarmListNode = (s.tasks u).alarmListNode := by
  by_cases hc : u = s.curr
  · subst hc
    exact congrArg (·.2.2) F.parent
  · exact congrArg (·.2.2) (F.other u hu hc)

/-- The child's node is the parent's. -/
theorem child_node (F : Forked s s') : (s'.tasks s.tasksNr).alarmListNode = s.currTask.alarmListNode :=
  congrArg (·.2.2) F.child

theorem alarms (F : Forked s s') (A : AlarmList s xs) (hl : s.currTask.alarmListNode.linked = false) :
    AlarmList s' xs where
  ring := by
    have hnode : ∀ r ∈ AlarmRef.head :: xs.map .task, s'.nodeAt r = s.nodeAt r := by
      intro r hr
      cases r with
      | head => exact F.head
      | task u =>
        have hu : u ∈ xs := by simpa using hr
        exact F.node_of (Nat.ne_of_lt (A.given u hu))
    exact A.ring.congr (fun r hr => congrArg AlarmNode.next (hnode r hr))
      (fun r hr => congrArg AlarmNode.prev (hnode r hr))
  linked u := by
    by_cases hu : u = s.tasksNr
    · subst hu
      rw [F.child_node, hl]
      simpa using fun hm => Nat.lt_irrefl _ (A.given _ hm)
    · rw [F.node_of hu]
      exact A.linked u
  given u hu := by
    have := A.given u hu
    rw [F.tasksNr]
    omega
  size := F.size.trans A.size

theorem childLists (F : Forked s s') (C : ChildLists s) (G : Agree s) : ChildLists s' := by
  have hc := G.curr
  have hnew : s.tasksNr ∉ (s.tasks s.curr).childs := fun hm => Nat.lt_irrefl _ ((C.mem _ _).mp hm).1
  have hchild : (s'.tasks s.tasksNr).parent = some s.curr := congrArg (·.1) F.child
  have hparent : (s'.tasks s.curr).childs = (s.tasks s.curr).childs ++ [s.tasksNr] := congrArg (·.2.1) F.parent
  have hnone : (s'.tasks s.tasksNr).childs = [] := congrArg (·.2.1) F.child
  refine ⟨fun p t => ?_, fun p => ?_⟩
  · rw [F.tasksNr]
    -- the child has the caller as parent, and nobody has the child
    have hpt : (s'.tasks t).parent = if t = s.tasksNr then some s.curr else (s.tasks t).parent := by
      split
      · next ht => rw [ht, hchild]
      · next ht => exact F.parent_of ht
    rw [hpt]
    by_cases hp : p = s.tasksNr
    · subst hp
      rw [hnone]
      constructor
      · exact fun h => absurd h not_mem_nil
      · rintro ⟨ht, h⟩
        split at h
        · have := some.inj h
          omega
        · have := G.parent t _ (by omega) h
          omega
    · by_cases hpc : p = s.curr
      · subst hpc
        rw [hparent, mem_append, mem_singleton, C.mem]
        by_cases ht : t = s.tasksNr
        · simp [ht]
        · have : t < s.tasksNr + 1 ↔ t < s.tasksNr := by omega
          simp [ht, this]
      · have ho : (s'.tasks p).childs = (s.tasks p).childs := congrArg (·.2.1) (F.other p hp hpc)
        rw [ho, C.mem]
        by_cases ht : t = s.tasksNr
        · simp [ht, Ne.symm hpc]
        · have : t < s.tasksNr + 1 ↔ t < s.tasksNr := by omega
          simp [ht, this]
  · by_cases hp : p = s.tasksNr
    · rw [hp, hnone]
      exact nodup_nil
    · by_cases hpc : p = s.curr
      · rw [hpc, hparent]
        exact nodup_append.mpr ⟨C.nodup _, nodup_singleton _, by
          rintro a ha b hb rfl
          exact hnew (mem_singleton.mp hb ▸ ha)⟩
      · rw [show (s'.tasks p).childs = (s.tasks p).childs from congrArg (·.2.1) (F.other p hp hpc)]
        exact C.nodup p

end Forked

/-! ## Ids -/

/-- `task_id_ht.put` of the node with this id: into the chain of its hash, as
the first, unless the id is there. -/
def idPut (table : Nat → List Nat) (id : Nat) : Option (Nat → List Nat) :=
  if id ∈ table (id % 1024) then none
  else some (update table (id % 1024) (id :: table (id % 1024)))

/-- `task_id_ht` when `n` tasks have been given their ids; `none` if a `put` has failed. -/
def taskIdHt : Nat → Option (Nat → List Nat)
  | 0 => some fun _ => []
  | n + 1 => (taskIdHt n).bind (idPut · n)

/-- Every id that was given is once in its chain, and nothing else is in any. -/
theorem taskIdHt_count (n : Nat) :
    ∃ table, taskIdHt n = some table ∧ ∀ h id, (table h).count id = if id < n ∧ h = id % 1024 then 1 else 0 := by
  induction n with
  | zero => exact ⟨_, rfl, fun h id => by simp⟩
  | succ n ih =>
    obtain ⟨table, ht, hcount⟩ := ih
    have hn : n ∉ table (n % 1024) := by
      rw [← count_eq_zero, hcount]
      simp
    refine ⟨update table (n % 1024) (n :: table (n % 1024)), ?_, fun h id => ?_⟩
    · rw [taskIdHt, ht, bind_some, idPut, if_neg hn]
    · by_cases hh : h = n % 1024
      · subst hh
        rw [update_self, count_cons, hcount]
        by_cases hid : id = n
        · subst hid
          simp
        · have : id < n + 1 ↔ id < n := by omega
          simp [this, Ne.symm hid]
      · rw [update_of_ne hh, hcount]
        by_cases hid : id = n
        · subst hid
          simp [hh]
        · have : id < n + 1 ↔ id < n := by omega
          simp [this]

/-! ## Steps -/

/-- No task forks while its alarm is set. -/
def forksUnarmed (s : Sched) : Op → Prop
  | .syscall (.fork _) => s.currTask.alarmListNode.linked = false
  | _ => True

instance (s : Sched) (op : Op) : Decidable (forksUnarmed s op) := by
  unfold forksUnarmed
  split <;> infer_instance

/-- How a step changes the alarm list, from `xs` to `ys`. -/
def Op.Moves (s : Sched) (xs ys : List Nat) : Op → Prop
  | .syscall (.alarm seconds _) => ys.erase s.curr = xs.erase s.curr ∧ (s.curr ∈ ys ↔ seconds ≠ 0)
  | .syscall (.exit _) => ys = xs.erase s.curr
  | .syscall (.fault _) => ys = xs.erase s.curr
  | .checkAlarmTurn t => ys.Sublist xs ∧ (t ∈ xs → ys = xs.erase t)
  | _ => ys = xs ∨ ys = xs.erase s.curr

theorem Syscall.lost {c : Syscall} (hf : ∀ pa, c ≠ .fork pa) (ha : ∀ n k, c ≠ .alarm n k) : Leaves Lost c.run := by
  cases c with
  | fork pa => exact absurd rfl (hf pa)
  | sleep n => exact MakarnaX.lost sysSleep_leaves
  | alarm n k => exact absurd rfl (ha n k)
  | signal n a => exact MakarnaX.lost sysSignal_still
  | _ => exact Syscall.leaves rfl

/-- What a step leaves behind. -/
def Stepped (s s' : Sched) (xs : List Nat) (op : Op) : Prop :=
  (∃ ys, AlarmList s' ys ∧ op.Moves s xs ys) ∧ ChildLists s'

theorem Lost.stepped {op : Op} (h : Lost s s') (A : AlarmList s xs) (C : ChildLists s)
    (hm : ∀ ys, ys = xs ∨ ys = xs.erase s.curr → op.Moves s xs ys) : Stepped s s' xs op := by
  refine ⟨?_, C.congr h.tasksNr h.family⟩
  rcases h.alarms xs A with B | B
  · exact ⟨xs, B, hm _ (.inl rfl)⟩
  · exact ⟨_, B, hm _ (.inr rfl)⟩

theorem switchTask_stepped (A : AlarmList s xs) (C : ChildLists s) (h : switchTask s = .ok (a, s')) :
    Stepped s s' xs .switchTask := by
  simp only [switchTask, bind_apply_ok] at h
  obtain ⟨o, s1, h1, h⟩ := h
  have q1 : Still _ _ := findRunnableTask_leaves _ _ _ h1
  cases o with
  | none => cases h
  | some n =>
    simp only [modCurr, modify_run, modify_apply] at h
    cases h
    have q2 : Still s1 (s1.setTask s1.curr fun x => { x with kstack := .checkSignals :: x.kstack.tail }) := .setTask rfl
    have q := trans_of Still q1 q2
    refine ⟨⟨xs, ?_, .inl rfl⟩, (C.congr q.tasksNr q.family).congr rfl fun _ => ⟨rfl, rfl⟩⟩
    refine (q.alarms A).congr ?_ rfl (Nat.le_refl _)
    funext r
    cases r <;> rfl

theorem Syscall.stepped {c : Syscall} (G : Agree s) (A : AlarmList s xs) (C : ChildLists s)
    (ha : forksUnarmed s (.syscall c)) (h : c.run s = .ok ((), s')) : Stepped s s' xs (.syscall c) := by
  cases c with
  | fork pa =>
    simp only [Syscall.run, sysFork, bind_apply_ok] at h
    obtain ⟨r, s1, h1, h2⟩ := h
    have q : Still _ _ := setReturn_leaves _ _ _ h2
    cases pa with
    | none =>
      cases h1
      exact ⟨⟨xs, q.alarms A, .inl rfl⟩, C.congr q.tasksNr q.family⟩
    | some pa =>
      have F := doFork_forked G.curr h1
      exact ⟨⟨xs, q.alarms (F.alarms A ha), .inl rfl⟩, (F.childLists C G).congr q.tasksNr q.family⟩
  | alarm n k =>
    obtain ⟨K, ys, B, hm⟩ := sysAlarm_list A G.curr h
    exact ⟨⟨ys, B, hm⟩, C.congr K.tasksNr K.family⟩
  | exit e | fault e =>
    have F := doExit_freed h
    exact ⟨⟨_, F.alarms xs A, rfl⟩, C.congr F.tasksNr F.family⟩
  | _ => exact (Syscall.lost (by simp) (by simp) _ _ _ h).stepped A C fun _ hy => hy

theorem Op.stepped {op : Op} (G : Agree s) (A : AlarmList s xs) (C : ChildLists s) (ha : forksUnarmed s op)
    (h : op.run s = .ok ((), s')) : Stepped s s' xs op := by
  cases op with
  | syscall c =>
    simp only [Op.run, bind_apply_ok] at h
    obtain ⟨_, s1, h1, h2⟩ := h
    have q : Still _ _ := trapEntry_leaves _ _ _ h1
    have hl : s1.currTask.alarmListNode = s.currTask.alarmListNode := by
      rw [currTask, q.curr]
      exact congrFun q.nodes (.task s.curr)
    have ha1 : forksUnarmed s1 (.syscall c) := by
      cases c with
      | fork pa =>
        show s1.currTask.alarmListNode.linked = false
        rw [hl]
        exact ha
      | _ => trivial
    have G1 : Agree s1 := G.quiet (trapEntry_quiet h1).1
    obtain ⟨⟨ys, B, hm⟩, D⟩ := Syscall.stepped G1 (q.alarms A) (C.congr q.tasksNr q.family) ha1 h2
    refine ⟨⟨ys, B, ?_⟩, D⟩
    cases c <;> simpa only [Op.Moves, q.curr] using hm
  | signalReturn esp0 =>
    refine Lost.stepped ?_ A C fun _ hy => hy
    exact Leaves.bind trapEntry_leaves (fun _ => signalReturn_leaves (MakarnaX.lost popStack_leaves)) _ _ _ h
  | checkAlarmTurn t =>
    obtain ⟨r, h⟩ := discard_apply_ok.mp h
    obtain ⟨K, ys, B, hm⟩ := checkAlarmTurn_list A h
    exact ⟨⟨ys, B, hm⟩, C.congr K.tasksNr K.family⟩
  | checkSleepList => exact (checkSleepList_leaves _ _ _ h : Still _ _).lost.stepped A C fun _ hy => hy
  | switchTask => exact switchTask_stepped A C h
  | _ => exact (Op.leaves rfl _ _ _ h : Lost _ _).stepped A C fun _ hy => hy

/-! ## Runs -/

theorem kernelTask_nodes (pa : Nat) : AlarmList (kernelTask pa) [] ∧ ChildLists (kernelTask pa) := by
  have hblank : ∀ t, ((kernelTask pa).tasks t).ties = blankTask.ties := by
    intro t
    by_cases ht : t = 0 <;> simp [kernelTask, ht, Task.ties]
  refine ⟨⟨⟨by simp, ?_⟩, fun t => ?_, fun t ht => absurd ht not_mem_nil, rfl⟩, fun p t => ?_, fun p => ?_⟩
  · exact isChain_pair.mpr ⟨rfl, rfl⟩
  · rw [show ((kernelTask pa).tasks t).alarmListNode = blankTask.alarmListNode from congrArg (·.2.2) (hblank t)]
    simp [blankTask]
  · rw [show ((kernelTask pa).tasks p).childs = blankTask.childs from congrArg (·.2.1) (hblank p),
      show ((kernelTask pa).tasks t).parent = blankTask.parent from congrArg (·.1) (hblank t)]
    simp [blankTask]
  · rw [show ((kernelTask pa).tasks p).childs = blankTask.childs from congrArg (·.2.1) (hblank p)]
    exact nodup_nil

theorem reachable_agree {allowed : Sched → Op → Prop} (h : (kernel allowed).Reachable s) : Agree s :=
  (kernel_invariant (J := fun _ => True) (fun _ => trivial) (fun _ _ _ _ _ _ _ => trivial) h).1.toAgree

theorem bootTasks_nodes {pa pa1 : Nat} (hb : bootTasks pa1 (kernelTask pa) = .ok ((), s)) :
    AlarmList s [] ∧ ChildLists s := by
  have hn : ((kernelTask pa).tasks 0).listNode = none := by simp [kernelTask, blankTask]
  simp only [bootTasks, bind_run (addToRunnableList_eq hn), discard_apply_ok] at hb
  obtain ⟨r, hb⟩ := hb
  obtain ⟨A, C⟩ := kernelTask_nodes pa
  have q : Still (kernelTask pa) ((kernelTask pa).enqueue 0) :=
    addToRunnableList_leaves _ _ _ (addToRunnableList_eq hn)
  have F := doFork_forked (kernelTask_inv pa).curr hb
  exact ⟨F.alarms (q.alarms A) rfl, F.childLists (C.congr q.tasksNr q.family) (kernelTask_inv pa).toAgree⟩

theorem reachable_nodes (h : (kernel forksUnarmed).Reachable s) : (∃ xs, AlarmList s xs) ∧ ChildLists s := by
  induction h with
  | init hb =>
    obtain ⟨pa, pa1, hb⟩ := hb
    obtain ⟨A, C⟩ := bootTasks_nodes hb
    exact ⟨⟨[], A⟩, C⟩
  | step hs hstep ih =>
    obtain ⟨⟨xs, A⟩, C⟩ := ih
    obtain ⟨op, -, ha, hr⟩ := hstep
    obtain ⟨⟨ys, B, -⟩, D⟩ := Op.stepped (reachable_agree hs) A C ha hr
    exact ⟨⟨ys, B⟩, D⟩

/-- Every node that names a list is in that list once, and in no other. -/
structure NodesSound (s : Sched) : Prop where
  listNode : ∀ t l, (s.lists l).count t = if (s.tasks t).listNode = some l then 1 else 0
  childlistNode : ∀ t p, t < s.tasksNr → (s.tasks p).childs.count t = if (s.tasks t).parent = some p then 1 else 0
  alarmListNode : ∃ xs, AlarmList s xs
  idHashNode : ∃ table, taskIdHt s.tasksNr = some table ∧
    ∀ h id, (table h).count id = if id < s.tasksNr ∧ h = id % 1024 then 1 else 0

theorem count_of_nodup {xs : List Nat} (hd : xs.Nodup) {c : Prop} [Decidable c] (hm : t ∈ xs ↔ c) :
    xs.count t = if c then 1 else 0 := by
  by_cases hc : c
  · rw [if_pos hc]
    exact count_eq_one_of_mem hd (hm.mpr hc)
  · rw [if_neg hc]
    exact count_eq_zero.mpr fun h => hc (hm.mp h)

/-- Task 1 forks, sets an alarm and pauses; its child sets one too and exits. -/
def childAlarms : List Op :=
  toInit ++ [.syscall (.fork (some 0x2000)), .syscall (.alarm 100 9), .syscall .pause] ++ toNext ++
    [.syscall (.alarm 5 9)]

/-- Task 1 sets an alarm, forks and pauses. -/
def armedFork : List Op :=
  toInit ++ [.syscall (.alarm 100 9), .syscall (.fork (some 0x2000)), .syscall .pause] ++ toNext

end MakarnaX
