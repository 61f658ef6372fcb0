import MakarnaX.Task.Reach

/-!
# States and lists

A task says what it does in two places: in `state`, and in the list its
`list_node` is linked in.  A dozen functions of four files move the node and set
the state, mostly one after the other.  Here the two agree in every state the
kernel can reach, and no assertion about lists fails on the way.

`check_signals` is the exception to one of them: when it stops a task it sets
the state before it takes the task from its run queue, so the assertion on the
state, not on a list, fails there.
-/

namespace MakarnaX

open Library

variable {s : Sched} {e : Fault}

/-- Where the tasks are is what their states say. -/
structure ListsAgree (s : Sched) : Prop where
  node : ∀ t l, t ∈ s.lists l ↔ (s.tasks t).listNode = some l
  oneList : ∀ t l l', t ∈ s.lists l → t ∈ s.lists l' → l = l'
  once : ∀ l, (s.lists l).Nodup
  running : ∀ t, t < s.tasksNr →
    ((s.tasks t).state = .running ↔ t ∈ s.lists (.runnable (s.tasks t).priority))
  zombie : ∀ t, t < s.tasksNr → ((s.tasks t).state = .zombie ↔ t ∈ s.lists .zombie)
  uninterruptible : ∀ t, t < s.tasksNr → (s.tasks t).state = .uninterruptible → ∃ w, t ∈ s.lists (.wait w)
  interruptible : ∀ t, t < s.tasksNr → (s.tasks t).state = .interruptible →
    t ∈ s.lists .sleep ∨ (∃ w, t ∈ s.lists (.wait w)) ∨ ∀ l, t ∉ s.lists l

theorem Agree.listsAgree (G : Agree s) : ListsAgree s where
  node := G.placed.mem
  oneList t l l' h h' := by
    rw [G.placed.mem] at h h'
    rw [h] at h'
    exact Option.some.inj h'
  once := G.placed.nodup
  running t ht := by
    have hl := G.legal t ht
    rw [G.placed.mem]
    unfold Task.Legal at hl
    cases hs : (s.tasks t).state <;> simp_all
    · rcases hl with h | h | ⟨w, h⟩ <;> simp [h]
    · obtain ⟨w, h⟩ := hl
      simp [h]
  zombie t ht := by
    have hl := G.legal t ht
    rw [G.placed.mem]
    unfold Task.Legal at hl
    cases hs : (s.tasks t).state <;> simp_all
    · rcases hl with h | h | ⟨w, h⟩ <;> simp [h]
    · obtain ⟨w, h⟩ := hl
      simp [h]
  uninterruptible t ht hs := by
    have hl := G.legal t ht
    unfold Task.Legal at hl
    rw [hs] at hl
    obtain ⟨w, hw⟩ := hl
    exact ⟨w, (G.placed.mem t _).mpr hw⟩
  interruptible t ht hs := by
    have hl := G.legal t ht
    unfold Task.Legal at hl
    rw [hs] at hl
    rcases hl with h | h | ⟨w, h⟩
    · refine .inr (.inr fun l hm => ?_)
      rw [G.placed.mem, h] at hm
      cases hm
    · exact .inl ((G.placed.mem t _).mpr h)
    · exact .inr (.inl ⟨w, (G.placed.mem t _).mpr h⟩)

/-- The assertions about lists in `add_to_runnable_list` and `remove_from_runnable_list`. -/
def listAssertions : List Fault :=
  [.assert "t->list_node.is_free()",
   .assert "__task_runnable_queue[t->priority].push_back(&t->list_node)",
   .assert "t->list_node.__list == &__task_runnable_queue[t->priority]",
   .assert "__task_runnable_queue[t->priority].erase(&t->list_node) != error()"]

theorem ExitFails.not_listAssertion (h : ExitFails s e) : e ∉ listAssertions := by
  cases h <;> simp [listAssertions]

theorem CheckFails.not_listAssertion (h : CheckFails s e) : e ∉ listAssertions := by
  cases h with
  | exits _ _ _ _ he => exact he.not_listAssertion
  | _ => simp [listAssertions]

theorem Fails.not_listAssertion {op : Op} (h : Fails s op e) : e ∉ listAssertions := by
  cases h with
  | exit _ h => exact h.not_listAssertion
  | check h => exact h.not_listAssertion
  | alarm h => rcases h with rfl | rfl | rfl <;> simp [listAssertions]
  | handlerReturn h =>
    cases h with
    | again _ he => rcases he with rfl | rfl | rfl <;> simp [listAssertions]
    | _ => simp [listAssertions]
  | _ => simp [listAssertions]

theorem Fails.not_stateAssertion {op : Op} (h : Fails s op e) (hc : op ≠ .resume .checkSignals)
    (hr : ∀ esp0, op ≠ .signalReturn esp0) : e ≠ .assert "t->state == Task::State_running" := by
  cases h with
  | exit _ h => cases h <;> simp
  | check _ => exact absurd rfl hc
  | handlerReturn _ => exact absurd rfl (hr _)
  | alarm h => rcases h with rfl | rfl | rfl <;> simp
  | _ => simp

end MakarnaX
