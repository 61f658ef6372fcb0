import MakarnaX.Library.Links
import MakarnaX.Task.Leaves
import MakarnaX.Task.Lists

/-!
# The alarm list

`task_alarm_list` is kept by its links, since `fork` copies the alarm node of
the parent as it stands.  `AlarmList s xs` says that the links are a list all the
same: from the list's own node over the nodes of `xs` and back, and a node names
the list exactly if it is in it.

`insert` and `erase` keep it so, whoever calls them, and so do the loops of
`sys_alarm` and `check_alarm`.  Only a copy of a linked node breaks it.
-/

namespace MakarnaX

open Library Function List Sched AlarmRef

variable {s s' : Sched} {t u : Nat} {xs ys : List Nat} {pos : AlarmRef}

namespace Sched

def nextOf (s : Sched) (r : AlarmRef) : Option AlarmRef := (s.nodeAt r).next

def prevOf (s : Sched) (r : AlarmRef) : Option AlarmRef := (s.nodeAt r).prev

def setNode (s : Sched) (r : AlarmRef) (f : AlarmNode → AlarmNode) : Sched :=
  match r with
  | .head => { s with alarmHead := f s.alarmHead }
  | .task t => s.setTask t fun x => { x with alarmListNode := f x.alarmListNode }

theorem nodeAt_setNode (r : AlarmRef) (f : AlarmNode → AlarmNode) :
    (s.setNode r f).nodeAt = update s.nodeAt r (f (s.nodeAt r)) := by
  funext q
  cases r with
  | head => cases q <;> rfl
  | task t =>
    cases q with
    | head => rfl
    | task u =>
      by_cases h : u = t
      · subst h
        simp [setNode, nodeAt]
      · simp [setNode, nodeAt, h]

/-- A part of the nodes that a change of one sets. -/
theorem setNode_part {α : Type} (π : AlarmNode → α) (r q : AlarmRef) (f : AlarmNode → AlarmNode) :
    π ((s.setNode r f).nodeAt q) = if q = r then π (f (s.nodeAt q)) else π (s.nodeAt q) := by
  rw [nodeAt_setNode, update_apply]
  by_cases h : q = r <;> simp [h]

theorem nodeAt_resize (n : Nat) (r : AlarmRef) : { s with alarmSize := n }.nodeAt r = s.nodeAt r := by
  cases r <;> rfl

end Sched

theorem modAlarmNode_eq (r : AlarmRef) (f : AlarmNode → AlarmNode) :
    modAlarmNode r f s = .ok ((), s.setNode r f) := by
  cases r <;> rfl

/-- `task_alarm_list` holds the tasks `xs`. -/
structure AlarmList (s : Sched) (xs : List Nat) : Prop where
  ring : Links.Ring s.nextOf s.prevOf .head (xs.map .task)
  linked : ∀ t, (s.tasks t).alarmListNode.linked = true ↔ t ∈ xs
  given : ∀ t ∈ xs, t < s.tasksNr
  size : s.alarmSize = xs.length % 2 ^ 32

theorem task_mem_map {xs : List Nat} : task t ∈ xs.map task ↔ t ∈ xs := by simp

theorem AlarmList.nodup (A : AlarmList s xs) : xs.Nodup :=
  List.Nodup.of_map _ (nodup_cons.mp A.ring.nodup).2

/-- The list is one. -/
theorem AlarmList.congr (A : AlarmList s xs) (hn : s'.nodeAt = s.nodeAt) (hz : s'.alarmSize = s.alarmSize)
    (ht : s.tasksNr ≤ s'.tasksNr) : AlarmList s' xs where
  ring := A.ring.congr (fun r _ => congrArg AlarmNode.next (congrFun hn r))
    (fun r _ => congrArg AlarmNode.prev (congrFun hn r))
  linked t := by
    have : (s'.tasks t).alarmListNode = (s.tasks t).alarmListNode := congrFun hn (.task t)
    rw [this]
    exact A.linked t
  given t h := Nat.lt_of_lt_of_le (A.given t h) ht
  size := hz.trans A.size

/-! ## `insert` -/

/-- The state behind an `insert` that succeeds. -/
def Sched.alarmPut (s : Sched) (t : Nat) (q pos : AlarmRef) : Sched :=
  { (((s.setNode (.task t) fun n => { n with linked := true, next := some pos, prev := some q }).setNode q
      fun n => { n with next := some (.task t) }).setNode pos fun n => { n with prev := some (.task t) }) with
    alarmSize := add32 s.alarmSize 1 }

theorem derefAlarm_some (r : AlarmRef) : derefAlarm (some r) s = .ok (r, s) := rfl

theorem setNode_alarmSize (r : AlarmRef) (f : AlarmNode → AlarmNode) : (s.setNode r f).alarmSize = s.alarmSize := by
  cases r <;> rfl

theorem alarmInsert_eq {q pos : AlarmRef} (hn : (s.tasks t).alarmListNode.linked = false)
    (hq : s.prevOf pos = some q) : alarmInsert pos t s = .ok (true, s.alarmPut t q pos) := by
  have hl : (s.nodeAt (.task t)).linked = false := hn
  have hp : (s.nodeAt pos).prev = some q := hq
  simp only [alarmInsert, bind_run (alarmNode_eq _), hl, Bool.false_eq_true, if_false, hp,
    bind_run (modAlarmNode_eq _ _), bind_run (derefAlarm_some _), modify_run, pure_apply,
    setNode_alarmSize]
  rfl

theorem alarmInsert_linked (hn : (s.tasks t).alarmListNode.linked = true) :
    alarmInsert pos t s = .ok (false, s) := by
  have hl : (s.nodeAt (.task t)).linked = true := hn
  simp only [alarmInsert, bind_run (alarmNode_eq _), hl, if_true, pure_apply]

theorem alarmPut_nodeAt (q pos r : AlarmRef) :
    (s.alarmPut t q pos).nodeAt r = (((s.setNode (.task t) fun n =>
      { n with linked := true, next := some pos, prev := some q }).setNode q
      fun n => { n with next := some (.task t) }).setNode pos fun n => { n with prev := some (.task t) }).nodeAt r :=
  nodeAt_resize ..

theorem alarmPut_links (q pos r : AlarmRef) :
    (s.alarmPut t q pos).nextOf r = Links.insertNext s.nextOf (.task t) q pos r ∧
      (s.alarmPut t q pos).prevOf r = Links.insertPrev s.prevOf (.task t) q pos r := by
  unfold nextOf prevOf Links.insertNext Links.insertPrev
  rw [alarmPut_nodeAt]
  simp only [update_apply, setNode_part AlarmNode.next, setNode_part AlarmNode.prev, ite_self,
    and_self]

theorem alarmPut_linked (q pos : AlarmRef) :
    ((s.alarmPut t q pos).tasks u).alarmListNode.linked =
      if u = t then true else (s.tasks u).alarmListNode.linked := by
  show ((s.alarmPut t q pos).nodeAt (.task u)).linked = if u = t then true else (s.nodeAt (.task u)).linked
  rw [alarmPut_nodeAt]
  simp only [setNode_part AlarmNode.linked, ite_self, task.injEq]

/-- `insert` before `pos`, which is the first node of `r` or the list's own. -/
theorem AlarmList.insert {l r : List Nat} (A : AlarmList s (l ++ r)) (ht : t < s.tasksNr)
    (hn : t ∉ l ++ r) (hpos : (r.map AlarmRef.task ++ [AlarmRef.head]).head? = some pos) :
    ∃ s', alarmInsert pos t s = .ok (true, s') ∧ AlarmList s' (l ++ t :: r) := by
  have R : Links.Ring s.nextOf s.prevOf .head (l.map .task ++ r.map .task) := by
    rw [← map_append]
    exact A.ring
  obtain ⟨q, p, C⟩ := R.cut
  obtain rfl : p = pos := Option.some.inj (C.first.symm.trans hpos)
  have hnew : AlarmRef.task t ∉ AlarmRef.head :: (l.map AlarmRef.task ++ r.map .task) := by
    rw [← map_append]
    simpa using hn
  have hl : (s.tasks t).alarmListNode.linked = false := by
    rw [← Bool.not_eq_true, A.linked]
    exact hn
  refine ⟨_, alarmInsert_eq hl C.link.2, ?_, fun u => ?_, fun u hu => ?_, ?_⟩
  · have R' := (R.insert C hnew).congr (fun r _ => (alarmPut_links q p r).1) (fun r _ => (alarmPut_links q p r).2)
    simpa using R'
  · rw [alarmPut_linked]
    by_cases hu : u = t
    · simp [hu]
    · simpa [hu] using A.linked u
  · have hnr : (s.alarmPut t q p).tasksNr = s.tasksNr := by
      cases q <;> cases p <;> rfl
    rw [hnr]
    simp only [mem_append, mem_cons] at hu
    rcases hu with hu | rfl | hu
    · exact A.given u (mem_append_left _ hu)
    · exact ht
    · exact A.given u (mem_append_right _ hu)
  · show add32 s.alarmSize 1 = _
    rw [A.size, add32]
    simp only [length_append, length_cons]
    omega

/-- `insert` at a node of the list. -/
theorem AlarmList.insertAt (A : AlarmList s xs) (ht : t < s.tasksNr) (hn : t ∉ xs)
    (hpos : pos ∈ AlarmRef.head :: xs.map .task) :
    ∃ s' ys, alarmInsert pos t s = .ok (true, s') ∧ AlarmList s' ys ∧ t ∈ ys ∧ ys.erase t = xs := by
  have hsplit : ∃ l r, xs = l ++ r ∧ (r.map AlarmRef.task ++ [AlarmRef.head]).head? = some pos := by
    cases pos with
    | head => exact ⟨xs, [], by simp, rfl⟩
    | task u =>
      have hu : u ∈ xs := by simpa using hpos
      obtain ⟨l, r, rfl⟩ := mem_iff_append.mp hu
      exact ⟨l, u :: r, rfl, rfl⟩
  obtain ⟨l, r, rfl, hp⟩ := hsplit
  obtain ⟨s', h, A'⟩ := A.insert ht hn hp
  refine ⟨s', _, h, A', by simp, ?_⟩
  rw [erase_append_right _ (fun hl => hn (mem_append_left _ hl)), erase_cons_head]

/-! ## `erase` -/

/-- The state behind an `erase` that succeeds. -/
def Sched.alarmTake (s : Sched) (t : Nat) (q p : AlarmRef) : Sched :=
  { (((s.setNode q fun n => { n with next := some p }).setNode p fun n => { n with prev := some q }).setNode
      (.task t) fun n => { n with linked := false }) with alarmSize := sub32 s.alarmSize 1 }

theorem alarmErase_eq {q p : AlarmRef} (hn : (s.tasks t).alarmListNode.linked = true)
    (hq : s.prevOf (.task t) = some q) (hp : s.nextOf (.task t) = some p) :
    alarmErase (.task t) s = .ok (true, s.alarmTake t q p) := by
  have hl : (s.nodeAt (.task t)).linked = true := hn
  have hq' : (s.nodeAt (.task t)).prev = some q := hq
  have hp' : (s.nodeAt (.task t)).next = some p := hp
  simp only [alarmErase, bind_run (alarmNode_eq _), hl, if_true, hq', hp',
    bind_run (modAlarmNode_eq _ _), bind_run (derefAlarm_some _), modify_run, pure_apply,
    setNode_alarmSize]
  rfl

theorem alarmErase_unlinked (hn : (s.tasks t).alarmListNode.linked = false) :
    alarmErase (.task t) s = .ok (false, s) := by
  have hl : (s.nodeAt (.task t)).linked = false := hn
  simp only [alarmErase, bind_run (alarmNode_eq _), hl, Bool.false_eq_true, if_false, pure_apply]

theorem alarmTake_nodeAt (q p r : AlarmRef) :
    (s.alarmTake t q p).nodeAt r = (((s.setNode q fun n => { n with next := some p }).setNode p
      fun n => { n with prev := some q }).setNode (.task t) fun n => { n with linked := false }).nodeAt r :=
  nodeAt_resize ..

theorem alarmTake_links (q p r : AlarmRef) :
    (s.alarmTake t q p).nextOf r = update s.nextOf q (some p) r ∧
      (s.alarmTake t q p).prevOf r = update s.prevOf p (some q) r := by
  unfold nextOf prevOf
  rw [alarmTake_nodeAt]
  simp only [update_apply, setNode_part AlarmNode.next, setNode_part AlarmNode.prev, ite_self,
    and_self]

theorem alarmTake_linked (q p : AlarmRef) :
    ((s.alarmTake t q p).tasks u).alarmListNode.linked =
      if u = t then false else (s.tasks u).alarmListNode.linked := by
  show ((s.alarmTake t q p).nodeAt (.task u)).linked = if u = t then false else (s.nodeAt (.task u)).linked
  rw [alarmTake_nodeAt]
  simp only [setNode_part AlarmNode.linked, ite_self, task.injEq]

theorem AlarmList.erase (A : AlarmList s xs) (ht : t ∈ xs) :
    ∃ s', alarmErase (.task t) s = .ok (true, s') ∧ AlarmList s' (xs.erase t) := by
  obtain ⟨l, r, rfl⟩ := mem_iff_append.mp ht
  have hm : task t ∈ (l ++ t :: r).map task := task_mem_map.mpr ht
  obtain ⟨q, -, hq⟩ := A.ring.prev_of_mem hm
  obtain ⟨p, -, hp, -⟩ := A.ring.link_of_mem (mem_cons_of_mem _ hm)
  have hne : t ∉ l := by
    have := disjoint_of_nodup_append A.nodup
    exact fun hl => this hl mem_cons_self
  have R : Links.Ring s.nextOf s.prevOf .head (l.map .task ++ .task t :: r.map .task) := by
    simpa using A.ring
  have he : (l ++ t :: r).erase t = l ++ r := by
    rw [erase_append_right _ hne, erase_cons_head]
  refine ⟨_, alarmErase_eq ((A.linked t).mpr ht) hq hp, ?_⟩
  rw [he]
  refine ⟨?_, fun u => ?_, fun u hu => ?_, ?_⟩
  · have R' := (R.remove hq hp).congr (fun r _ => (alarmTake_links (t := t) q p r).1)
      (fun r _ => (alarmTake_links (t := t) q p r).2)
    simpa using R'
  · rw [alarmTake_linked]
    by_cases hu : u = t
    · have hr : t ∉ r := (nodup_cons.mp (nodup_append.mp A.nodup).2.1).1
      simp [hu, hne, hr]
    · simpa [hu] using A.linked u
  · have hnr : (s.alarmTake t q p).tasksNr = s.tasksNr := by
      cases q <;> cases p <;> rfl
    rw [hnr]
    refine A.given u ?_
    rcases mem_append.mp hu with hu | hu
    · exact mem_append_left _ hu
    · exact mem_append_right _ (mem_cons_of_mem _ hu)
  · show sub32 s.alarmSize 1 = _
    rw [A.size, sub32]
    simp only [length_append, length_cons]
    omega

/-- `erase` of any node keeps the list one. -/
theorem AlarmList.eraseAt (A : AlarmList s xs) :
    ∃ b s', alarmErase pos s = .ok (b, s') ∧ AlarmList s' (xs.filter (task · ≠ pos)) := by
  cases pos with
  | head => exact ⟨false, s, rfl, by simpa using A⟩
  | task t =>
    have hf : xs.filter (task · ≠ .task t) = xs.erase t := by
      rw [A.nodup.erase_eq_filter]
      refine filter_congr fun u _ => ?_
      by_cases h : u = t <;> simp [h]
    rw [hf]
    by_cases ht : t ∈ xs
    · obtain ⟨s', h, A'⟩ := A.erase ht
      exact ⟨true, s', h, A'⟩
    · refine ⟨false, s, alarmErase_unlinked ?_, by rwa [erase_of_not_mem ht]⟩
      rw [← Bool.not_eq_true, A.linked]
      exact ht

/-! ## What leaves the nodes alone -/

/-- Nothing has changed in who is the child of whom. -/
structure Kin (s s' : Sched) : Prop where
  tasksNr : s'.tasksNr = s.tasksNr
  curr : s'.curr = s.curr
  family : ∀ t, (s'.tasks t).parent = (s.tasks t).parent ∧ (s'.tasks t).childs = (s.tasks t).childs

/-- Nor in the alarm list. -/
structure Still (s s' : Sched) : Prop extends Kin s s' where
  nodes : s'.nodeAt = s.nodeAt
  size : s'.alarmSize = s.alarmSize

instance : IsPreorder Sched Kin where
  refl _ := ⟨rfl, rfl, fun _ => ⟨rfl, rfl⟩⟩
  trans _ _ _ h h' := ⟨h'.tasksNr.trans h.tasksNr, h'.curr.trans h.curr,
    fun t => ⟨(h'.family t).1.trans (h.family t).1, (h'.family t).2.trans (h.family t).2⟩⟩

instance : IsPreorder Sched Still where
  refl s := ⟨refl_of Kin s, rfl, rfl⟩
  trans _ _ _ h h' := ⟨trans_of Kin h.toKin h'.toKin, h'.nodes.trans h.nodes, h'.size.trans h.size⟩

theorem Still.of_ties (hn : s'.tasksNr = s.tasksNr) (hc : s'.curr = s.curr) (hh : s'.alarmHead = s.alarmHead)
    (hz : s'.alarmSize = s.alarmSize) (ht : ∀ t, (s'.tasks t).ties = (s.tasks t).ties) : Still s s' where
  tasksNr := hn
  curr := hc
  family t := ⟨congrArg (·.1) (ht t), congrArg (·.2.1) (ht t)⟩
  nodes := by
    funext r
    cases r with
    | head => exact hh
    | task t => exact congrArg (·.2.2) (ht t)
  size := hz

/-- One task has changed, and what it says about its family and its alarm has not. -/
theorem Still.only {f : Task → Task} (h : (f (s.tasks t)).ties = (s.tasks t).ties)
    (ht : s'.tasks = (s.setTask t f).tasks) (hn : s'.tasksNr = s.tasksNr) (hc : s'.curr = s.curr)
    (hh : s'.alarmHead = s.alarmHead) (hz : s'.alarmSize = s.alarmSize) : Still s s' :=
  .of_ties hn hc hh hz fun u => by
    rw [ht]
    exact setTask_part Task.ties h

theorem Still.setTask {f : Task → Task} (h : (f (s.tasks t)).ties = (s.tasks t).ties) : Still s (s.setTask t f) :=
  .only h rfl rfl rfl rfl rfl

instance : LaxSleep Still where
  setTask h := .setTask (congrArg Prod.fst h)
  rest ht _ hn hc hh hz := .of_ties hn hc hh hz fun t => by rw [ht]
  setSleep h _ := .setTask h
  lists ht hn hc hh hz := .of_ties hn hc hh hz fun t => by rw [ht]

theorem sysSignal_still {signum : Int} {handler : Nat} : Leaves Still (sysSignal signum handler) := by
  unfold sysSignal
  split
  · exact setReturn_leaves
  · refine .seq (.modify fun s => .setTask ?_) <| setReturn_leaves
    split <;> rfl

end MakarnaX
