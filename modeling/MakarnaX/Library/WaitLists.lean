import MakarnaX.Library.Placement

/-!
# Sleeping on resources

Each resource has a list of the tasks that sleep on it.  A task goes to sleep at
the end of the list, the first of the list is woken, and some time later a woken
task is back.  `woken` are the tasks that were woken and are not back yet.
`slept` and `served` are histories: who went to sleep on a resource and who was
woken, in order.

`Sound` says that a task sleeps on at most one resource, that the lists hold what
the tasks say, and that the tasks are woken in the order in which they went to
sleep, nobody left out.
-/

namespace Library

open Function

theorem eq_singleton_of_mem {α : Type*} {a : α} {l : List α} (h : a ∈ l) (hl : l.length ≤ 1) : l = [a] := by
  obtain ⟨b, rfl⟩ := List.length_eq_one_iff.mp (Nat.le_antisymm hl (List.length_pos_of_mem h))
  rw [List.mem_singleton.mp h]

/-- Where a task is that went to sleep on a resource. -/
inductive Sleeper (κ : Type*)
  | asleep (k : κ)
  | woken (k : κ)
deriving DecidableEq

structure WaitLists (κ τ : Type*) where
  place : τ → Option (Sleeper κ)
  queue : κ → List τ
  woken : κ → List τ
  slept : κ → List τ
  served : κ → List τ

namespace WaitLists

variable {κ τ : Type*}

/-- Nobody sleeps. -/
def empty : WaitLists κ τ where
  place _ := none
  queue _ := []
  woken _ := []
  slept _ := []
  served _ := []

def lists (w : WaitLists κ τ) : Sleeper κ → List τ
  | .asleep k => w.queue k
  | .woken k => w.woken k

structure Sound (w : WaitLists κ τ) : Prop where
  placed : Placed w.lists w.place
  fifo : ∀ k, w.slept k = w.served k ++ w.queue k

variable {w : WaitLists κ τ} {k j : κ} {t u : τ} {ts : List τ}

theorem Sound.empty : (empty : WaitLists κ τ).Sound where
  placed := by
    constructor
    · intro t p
      cases p <;> simp [lists, WaitLists.empty]
    · intro p
      cases p <;> exact List.nodup_nil
  fifo _ := rfl

theorem Sound.mem_queue (h : w.Sound) : t ∈ w.queue k ↔ w.place t = some (.asleep k) := h.placed.mem t (.asleep k)

theorem Sound.mem_woken (h : w.Sound) : t ∈ w.woken k ↔ w.place t = some (.woken k) := h.placed.mem t (.woken k)

theorem Sound.place_head (h : w.Sound) (hq : w.queue k = t :: ts) : w.place t = some (.asleep k) := by
  rw [← h.mem_queue, hq]
  exact List.mem_cons_self

variable [DecidableEq κ]

/-- One list has changed. -/
theorem lists_eq {w' : WaitLists κ τ} {p : Sleeper κ} {xs : List τ} (hp : w'.lists p = xs)
    (ho : ∀ q, q ≠ p → w'.lists q = w.lists q) : w'.lists = update w.lists p xs := by
  funext q
  by_cases hq : q = p
  · rw [hq, update_self, hp]
  · rw [update_of_ne hq, ho q hq]

variable [DecidableEq τ]

/-- `t` goes to sleep on `k`. -/
def sleep (w : WaitLists κ τ) (k : κ) (t : τ) : WaitLists κ τ :=
  { w with
    place := update w.place t (some (.asleep k))
    queue := update w.queue k (w.queue k ++ [t])
    slept := update w.slept k (w.slept k ++ [t]) }

/-- `t`, the first that sleeps on `k`, is woken; `ts` are the others. -/
def wake (w : WaitLists κ τ) (k : κ) (t : τ) (ts : List τ) : WaitLists κ τ :=
  { w with
    place := update w.place t (some (.woken k))
    queue := update w.queue k ts
    woken := update w.woken k (t :: w.woken k)
    served := update w.served k (w.served k ++ [t]) }

/-- `t`, which was woken from `k`, is back. -/
def back (w : WaitLists κ τ) (k : κ) (t : τ) : WaitLists κ τ :=
  { w with
    place := update w.place t none
    woken := update w.woken k ((w.woken k).erase t) }

/-! ## What the operations change -/

@[simp] theorem sleep_place_self : (w.sleep k t).place t = some (.asleep k) := update_self ..
@[simp] theorem sleep_place_ne (h : u ≠ t) : (w.sleep k t).place u = w.place u := update_of_ne h ..
@[simp] theorem sleep_queue_self : (w.sleep k t).queue k = w.queue k ++ [t] := update_self ..
@[simp] theorem sleep_queue_ne (h : j ≠ k) : (w.sleep k t).queue j = w.queue j := update_of_ne h ..
@[simp] theorem sleep_woken : (w.sleep k t).woken = w.woken := rfl

@[simp] theorem wake_place_self : (w.wake k t ts).place t = some (.woken k) := update_self ..
@[simp] theorem wake_place_ne (h : u ≠ t) : (w.wake k t ts).place u = w.place u := update_of_ne h ..
@[simp] theorem wake_queue_self : (w.wake k t ts).queue k = ts := update_self ..
@[simp] theorem wake_queue_ne (h : j ≠ k) : (w.wake k t ts).queue j = w.queue j := update_of_ne h ..
@[simp] theorem wake_woken_self : (w.wake k t ts).woken k = t :: w.woken k := update_self ..
@[simp] theorem wake_woken_ne (h : j ≠ k) : (w.wake k t ts).woken j = w.woken j := update_of_ne h ..

@[simp] theorem back_place_self : (w.back k t).place t = none := update_self ..
@[simp] theorem back_place_ne (h : u ≠ t) : (w.back k t).place u = w.place u := update_of_ne h ..
@[simp] theorem back_queue : (w.back k t).queue = w.queue := rfl
@[simp] theorem back_woken_self : (w.back k t).woken k = (w.woken k).erase t := update_self ..
@[simp] theorem back_woken_ne (h : j ≠ k) : (w.back k t).woken j = w.woken j := update_of_ne h ..

/-! ## Soundness -/

theorem Sound.sleep (h : w.Sound) (ht : w.place t = none) : (w.sleep k t).Sound where
  placed := by
    have hl : (w.sleep k t).lists = update w.lists (.asleep k) (w.queue k ++ [t]) := by
      refine lists_eq sleep_queue_self fun q hq => ?_
      cases q with
      | asleep j => exact sleep_queue_ne fun hj => hq (by rw [hj])
      | woken j => rfl
    rw [hl]
    exact h.placed.insert ht List.perm_append_comm sleep_place_self fun u hu => sleep_place_ne hu
  fifo j := by
    by_cases hj : j = k
    · subst hj
      simp [WaitLists.sleep, h.fifo]
    · simp [WaitLists.sleep, hj, h.fifo]

theorem Sound.wake (h : w.Sound) (hq : w.queue k = t :: ts) : (w.wake k t ts).Sound where
  placed := by
    -- out of the queue, then to the woken ones
    have h1 : Placed (update w.lists (.asleep k) ts) (update w.place t none) := by
      have := h.placed.remove (h.place_head hq) (update_self ..) fun u hu => update_of_ne hu ..
      rwa [show w.lists (.asleep k) = t :: ts from hq, List.erase_cons_head] at this
    have hl : (w.wake k t ts).lists = update (update w.lists (.asleep k) ts) (.woken k)
        (t :: w.woken k) := by
      funext q
      cases q with
      | asleep j | woken j =>
        by_cases hj : j = k
        · subst hj
          simp [lists]
        · simp [lists, hj]
    rw [hl]
    refine h1.insert (update_self ..) ?_ wake_place_self fun u hu => ?_
    · simp [lists]
    · rw [wake_place_ne hu, update_of_ne hu]
  fifo j := by
    by_cases hj : j = k
    · subst hj
      simp [WaitLists.wake, h.fifo, hq]
    · simp [WaitLists.wake, hj, h.fifo]

theorem Sound.back (h : w.Sound) (ht : w.place t = some (.woken k)) : (w.back k t).Sound where
  placed := by
    have hl : (w.back k t).lists = update w.lists (.woken k) ((w.lists (.woken k)).erase t) := by
      refine lists_eq back_woken_self fun q hq => ?_
      cases q with
      | asleep j => rfl
      | woken j => exact back_woken_ne fun hj => hq (by rw [hj])
    rw [hl]
    exact h.placed.remove ht back_place_self fun u hu => back_place_ne hu
  fifo j := h.fifo j

end WaitLists

end Library
