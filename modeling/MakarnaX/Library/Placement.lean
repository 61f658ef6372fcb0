import Mathlib.Data.List.Nodup
import Mathlib.Logic.Function.Basic

/-!
# Elements in keyed lists

A family of lists and, for each element, the one list it says it is in.
`Placed` ties the two together: an element is in a list exactly if it says so,
and no list holds an element twice, so no element is in two lists.  Taking an
element out, putting one in and reordering a list keep it.
-/

namespace Library

open Function

variable {κ α : Type*}

/-- The lists hold what the elements say. -/
structure Placed (lists : κ → List α) (place : α → Option κ) : Prop where
  mem : ∀ a k, a ∈ lists k ↔ place a = some k
  nodup : ∀ k, (lists k).Nodup

namespace Placed

variable {lists : κ → List α} {place place' : α → Option κ} {a : α} {k : κ}

theorem congr (h : Placed lists place) (hp : ∀ b, place' b = place b) : Placed lists place' := by
  have : place' = place := funext hp
  rw [this]
  exact h

variable [DecidableEq κ]

theorem remove [DecidableEq α] (h : Placed lists place) (ha : place a = some k) (hp : place' a = none)
    (ho : ∀ b, b ≠ a → place' b = place b) :
    Placed (update lists k ((lists k).erase a)) place' := by
  constructor
  · intro b j
    by_cases hj : j = k
    · subst hj
      rw [update_self, (h.nodup j).mem_erase_iff]
      by_cases hb : b = a
      · subst hb
        simp [hp]
      · simp [hb, ho b hb, h.mem]
    · rw [update_of_ne hj, h.mem]
      by_cases hb : b = a
      · subst hb
        rw [hp, ha]
        simp [Ne.symm hj]
      · rw [ho b hb]
  · intro j
    by_cases hj : j = k
    · subst hj
      rw [update_self]
      exact (h.nodup j).erase a
    · rw [update_of_ne hj]
      exact h.nodup j

/-- Putting an element that is in no list anywhere into one. -/
theorem insert [DecidableEq α] {xs : List α} (h : Placed lists place) (ha : place a = none)
    (hx : xs.Perm (a :: lists k)) (hp : place' a = some k)
    (ho : ∀ b, b ≠ a → place' b = place b) : Placed (update lists k xs) place' := by
  have hnot : ∀ j, a ∉ lists j := by
    intro j hm
    rw [h.mem, ha] at hm
    cases hm
  constructor
  · intro b j
    by_cases hj : j = k
    · subst hj
      rw [update_self, hx.mem_iff, List.mem_cons]
      by_cases hb : b = a
      · subst hb
        simp [hp]
      · simp [hb, ho b hb, h.mem]
    · rw [update_of_ne hj, h.mem]
      by_cases hb : b = a
      · subst hb
        rw [hp, ha]
        simp [Ne.symm hj]
      · rw [ho b hb]
  · intro j
    by_cases hj : j = k
    · subst hj
      rw [update_self, hx.nodup_iff, List.nodup_cons]
      exact ⟨hnot j, h.nodup j⟩
    · rw [update_of_ne hj]
      exact h.nodup j

end Placed

end Library
