import Mathlib.Data.List.Basic
import Mathlib.Data.List.TakeWhile
import Mathlib.Order.Lattice

/-!
# Lists sorted by a key

A list of timers is kept in the order of a key, the time at which each is due.
The due ones are then at its front, and a new one is put in before the first
whose key is greater than some bound.
-/

namespace Library.Timers

open List

variable {α κ : Type*} [LinearOrder κ] {k k' : α → κ} {xs : List α} {n w : κ} {a : α}

/-- The list in the order of the key. -/
def Sorted (k : α → κ) (xs : List α) : Prop := xs.Pairwise fun a b => k a ≤ k b

theorem Sorted.congr (h : Sorted k xs) (hk : ∀ a ∈ xs, k' a = k a) : Sorted k' xs :=
  h.imp_of_mem fun ha hb hab => by rwa [hk _ ha, hk _ hb]

/-- `a` before the first entry with a key greater than `n`. -/
def insert (k : α → κ) (n : κ) (a : α) (xs : List α) : List α :=
  xs.takeWhile (fun b => k b ≤ n) ++ a :: xs.dropWhile fun b => k b ≤ n

theorem insert_perm : (insert k n a xs).Perm (a :: xs) := by
  refine perm_middle.trans ?_
  rw [takeWhile_append_dropWhile]

theorem mem_insert {b : α} : b ∈ insert k n a xs ↔ b = a ∨ b ∈ xs := insert_perm.mem_iff.trans mem_cons

theorem dropWhile_eq_filter (h : Sorted k xs) :
    xs.dropWhile (fun b => decide (k b ≤ n)) = xs.filter fun b => decide (n < k b) := by
  induction xs with
  | nil => rfl
  | cons b xs ih =>
    obtain ⟨hb, hxs⟩ := pairwise_cons.mp h
    by_cases hn : k b ≤ n
    · rw [dropWhile_cons_of_pos (by simpa using hn), filter_cons_of_neg (by simpa using hn)]
      exact ih hxs
    · rw [dropWhile_cons_of_neg (by simpa using hn), filter_cons_of_pos (by simpa using hn),
        filter_eq_self.mpr]
      intro c hc
      exact decide_eq_true (lt_of_lt_of_le (not_le.mp hn) (hb c hc))

theorem takeWhile_eq_filter (h : Sorted k xs) :
    xs.takeWhile (fun b => decide (k b ≤ n)) = xs.filter fun b => decide (k b ≤ n) := by
  induction xs with
  | nil => rfl
  | cons b xs ih =>
    obtain ⟨hb, hxs⟩ := pairwise_cons.mp h
    by_cases hn : k b ≤ n
    · rw [takeWhile_cons_of_pos (by simpa using hn), filter_cons_of_pos (by simpa using hn), ih hxs]
    · rw [takeWhile_cons_of_neg (by simpa using hn), filter_eq_nil_iff.mpr]
      intro c hc
      simp only [decide_eq_true_eq, not_le]
      rcases mem_cons.mp hc with rfl | hc
      · exact not_le.mp hn
      · exact lt_of_lt_of_le (not_le.mp hn) (hb c hc)

/-- The new entry, which is due at `w`, is in its place exactly if the bound
separates the same entries as `w` does. -/
theorem sorted_insert_iff (h : Sorted k xs) (hk : ∀ b ∈ xs, k' b = k b) (ha : k' a = w) :
    Sorted k' (insert k n a xs) ↔ ∀ b ∈ xs, (k b ≤ n → k b ≤ w) ∧ (n < k b → w ≤ k b) := by
  have h' : Sorted k' xs := h.congr hk
  have hsplit : xs.takeWhile (fun b => k b ≤ n) ++ xs.dropWhile (fun b => k b ≤ n) = xs :=
    takeWhile_append_dropWhile
  have hall : Sorted k' (xs.takeWhile (fun b => k b ≤ n) ++ xs.dropWhile (fun b => k b ≤ n)) := by
    rw [hsplit]
    exact h'
  obtain ⟨hA, hB, hAB⟩ := pairwise_append.mp hall
  have memA : ∀ b, b ∈ xs.takeWhile (fun b => k b ≤ n) ↔ b ∈ xs ∧ k b ≤ n := by simp [takeWhile_eq_filter h]
  have memB : ∀ b, b ∈ xs.dropWhile (fun b => k b ≤ n) ↔ b ∈ xs ∧ n < k b := by simp [dropWhile_eq_filter h]
  unfold insert Sorted
  rw [pairwise_append, pairwise_cons]
  constructor
  · rintro ⟨-, ⟨hw, -⟩, hx⟩ b hb
    refine ⟨fun hn => ?_, fun hn => ?_⟩
    · have := hx b ((memA b).mpr ⟨hb, hn⟩) a mem_cons_self
      rwa [hk b hb, ha] at this
    · have := hw b ((memB b).mpr ⟨hb, hn⟩)
      rwa [hk b hb, ha] at this
  · intro hw
    refine ⟨hA, ⟨fun b hb => ?_, hB⟩, fun b hb c hc => ?_⟩
    · obtain ⟨hm, hn⟩ := (memB b).mp hb
      rw [ha, hk b hm]
      exact (hw b hm).2 hn
    · rcases mem_cons.mp hc with rfl | hc
      · obtain ⟨hm, hn⟩ := (memA b).mp hb
        rw [ha, hk b hm]
        exact (hw b hm).1 hn
      · exact hAB b hb c hc

end Library.Timers
