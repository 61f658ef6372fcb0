import Mathlib.Algebra.BigOperators.Group.Finset.Basic
import Mathlib.Data.Finset.Card
import Mathlib.Data.Finset.Prod
import Mathlib.Data.List.Chain
import Mathlib.Data.List.Nodup
import Mathlib.Tactic.Abel

/-!
# Shared resources

Resources that are handed out from a queue of free ones and come back to it when
their last reference is dropped.  A `Ledger` is the abstract account: the queue,
and how many references each resource has; that no free resource has one is part
of the structure.  `refCount` counts the references that sit in a finite set of
slots, and `Linked` is a queue whose elements hold the name of the next one.  A
tally adds up what the entries of a table contribute.
-/

namespace Library

open Function Finset

/-! ## Queues linked through their elements -/

section Linked

variable {α : Type*} {next : α → α} {xs : List α} {tgt' : ι → Option φ}

/-- Every element of `xs` but the last names its successor. -/
def Linked (next : α → α) (xs : List α) : Prop := xs.IsChain (fun a b => next a = b)

namespace Linked

theorem nil : Linked next [] := List.IsChain.nil

theorem singleton (a : α) : Linked next [a] := List.IsChain.singleton a

theorem tail {a : α} (h : Linked next (a :: xs)) : Linked next xs :=
  List.IsChain.tail h

theorem next_eq {a b : α} (h : Linked next (a :: b :: xs)) : next a = b :=
  (List.isChain_cons_cons.mp h).1

theorem congr {next' : α → α} (h : Linked next xs) (hn : ∀ a ∈ xs, next' a = next a) :
    Linked next' xs := by
  induction xs with
  | nil => exact nil
  | cons a xs ih =>
    cases xs with
    | nil => exact singleton a
    | cons b xs =>
      refine List.isChain_cons_cons.mpr ⟨?_, ih h.tail fun c hc => hn c (List.mem_cons_of_mem _ hc)⟩
      rw [hn a List.mem_cons_self]
      exact h.next_eq

/-- Put `b` at the end: only the old last element is changed. -/
theorem concat {next' : α → α} {e b : α} (h : Linked next xs) (hnd : xs.Nodup)
    (hlast : xs.getLast? = some e) (he : next' e = b)
    (hn : ∀ a ∈ xs, a ≠ e → next' a = next a) : Linked next' (xs ++ [b]) := by
  induction xs with
  | nil => cases hlast
  | cons a xs ih =>
    cases xs with
    | nil =>
      cases hlast
      exact List.isChain_cons_cons.mpr ⟨he, singleton b⟩
    | cons c xs =>
      have hlast' : (c :: xs).getLast? = some e := by
        rw [List.getLast?_cons_cons] at hlast
        exact hlast
      have hne : a ≠ e := by
        intro hae
        have : e ∈ c :: xs := List.mem_of_getLast? hlast'
        exact (List.nodup_cons.mp hnd).1 (hae ▸ this)
      refine List.isChain_cons_cons.mpr ⟨?_, ?_⟩
      · rw [hn a List.mem_cons_self hne]
        exact h.next_eq
      · exact ih h.tail (List.nodup_cons.mp hnd).2 hlast'
          fun d hd hde => hn d (List.mem_cons_of_mem _ hd) hde

end Linked

end Linked

/-! ## Counting references -/

section Count

variable {ι φ : Type*} [DecidableEq φ] {S : Finset ι} {tgt : ι → Option φ}

/-- How many of the slots `S` refer to `f`. -/
def refCount (S : Finset ι) (tgt : ι → Option φ) (f : φ) : Nat :=
  (S.filter fun i => tgt i = some f).card

theorem refCount_congr (h : ∀ i ∈ S, tgt' i = tgt i) (f : φ) :
    refCount S tgt' f = refCount S tgt f := by
  unfold refCount
  congr 1
  exact filter_congr fun i hi => by rw [h i hi]

/-- More slots, all of them empty, count the same. -/
theorem refCount_of_subset {S' : Finset ι} (hS : S ⊆ S') (h : ∀ i ∈ S', i ∉ S → tgt i = none)
    (f : φ) : refCount S' tgt f = refCount S tgt f := by
  unfold refCount
  congr 1
  ext i
  simp only [mem_filter]
  constructor
  · rintro ⟨hi, ht⟩
    by_contra hc
    have hn := h i hi fun hm => hc ⟨hm, ht⟩
    rw [hn] at ht
    cases ht
  · rintro ⟨hi, ht⟩
    exact ⟨hS hi, ht⟩

theorem refCount_split [DecidableEq ι] {i : ι} (hi : i ∈ S) (f : φ) :
    refCount S tgt f = refCount (S.erase i) tgt f + if tgt i = some f then 1 else 0 := by
  conv_lhs => rw [← insert_erase hi]
  unfold refCount
  rw [filter_insert]
  split
  · rw [card_insert_of_notMem fun hm => notMem_erase i S (mem_filter.mp hm).1]
  · rfl

/-- Changing what one slot refers to. -/
theorem refCount_change [DecidableEq ι] {i : ι} (hi : i ∈ S) (h : ∀ j ∈ S, j ≠ i → tgt' j = tgt j) (f : φ) :
    refCount S tgt' f + (if tgt i = some f then 1 else 0) =
      refCount S tgt f + if tgt' i = some f then 1 else 0 := by
  have hrest : refCount (S.erase i) tgt' f = refCount (S.erase i) tgt f :=
    refCount_congr (fun j hj => h j (mem_of_mem_erase hj) (ne_of_mem_erase hj)) f
  rw [refCount_split hi, refCount_split hi, hrest]
  omega

end Count

/-! ## Tallies -/

/-- Changing one entry changes the tally by the difference of what it contributes. -/
theorem sum_range_change {M : Type*} [AddCommGroup M] {n t : Nat} {g k : Nat → M} (ht : t < n)
    (h : ∀ x, x < n → x ≠ t → k x = g x) :
    ∑ x ∈ range n, k x = ∑ x ∈ range n, g x + (k t - g t) := by
  have hm : t ∈ range n := mem_range.mpr ht
  have hrest : ∑ x ∈ (range n).erase t, k x = ∑ x ∈ (range n).erase t, g x := by
    refine sum_congr rfl fun x hx => ?_
    obtain ⟨hne, hx⟩ := mem_erase.mp hx
    exact h x (mem_range.mp hx) hne
  rw [← add_sum_erase _ k hm, ← add_sum_erase _ g hm, hrest]
  abel

/-! ## The ledger -/

/-- The free resources in the order they will be handed out, and the number of
references to each resource. -/
@[ext]
structure Ledger (φ : Type*) where
  free : List φ
  refs : φ → Nat
  nodup : free.Nodup
  unreferenced : ∀ f ∈ free, refs f = 0

namespace Ledger

variable {φ : Type*} (L : Ledger φ) {f : φ}

/-- Hand out the first free resource. -/
def take {rest : List φ} (h : L.free = f :: rest) : Ledger φ where
  free := rest
  refs := L.refs
  nodup := (List.nodup_cons.mp (h ▸ L.nodup)).2
  unreferenced g hg := L.unreferenced g (h ▸ List.mem_cons_of_mem _ hg)

/-- Take back a resource nobody refers to. -/
def give (f : φ) (hf : f ∉ L.free) (h0 : L.refs f = 0) : Ledger φ where
  free := L.free ++ [f]
  refs := L.refs
  nodup := List.nodup_append.mpr ⟨L.nodup, List.nodup_singleton f, by
    intro a ha b hb hab
    rw [List.mem_singleton.mp hb] at hab
    exact hf (hab ▸ ha)⟩
  unreferenced g hg := by
    cases List.mem_append.mp hg with
    | inl hg => exact L.unreferenced g hg
    | inr hg => rw [List.mem_singleton.mp hg, h0]

/-- Set the number of references to a resource that is in use. -/
def setRefs [DecidableEq φ] (f : φ) (n : Nat) (hf : f ∉ L.free) : Ledger φ where
  free := L.free
  refs := update L.refs f n
  nodup := L.nodup
  unreferenced g hg := by
    have hgf : g ≠ f := fun hgf => hf (hgf ▸ hg)
    rw [update_of_ne hgf]
    exact L.unreferenced g hg

theorem notMem_of_refs_pos (h : 0 < L.refs f) : f ∉ L.free := fun hf =>
  absurd (L.unreferenced f hf) (by omega)

/-- Drop a reference to a resource that is in use; with the last one it comes back. -/
def drop [DecidableEq φ] (f : φ) (hf : f ∉ L.free) : Ledger φ where
  free := if L.refs f = 1 then L.free ++ [f] else L.free
  refs := update L.refs f (L.refs f - 1)
  nodup := by
    split
    · refine List.nodup_append.mpr ⟨L.nodup, List.nodup_singleton f, fun a ha b hb hab => ?_⟩
      rw [List.mem_singleton.mp hb] at hab
      exact hf (hab ▸ ha)
    · exact L.nodup
  unreferenced g hg := by
    by_cases hgf : g = f
    · subst hgf
      rw [update_self]
      split at hg
      · omega
      · exact absurd hg hf
    · rw [update_of_ne hgf]
      split at hg
      · rcases List.mem_append.mp hg with hg | hg
        · exact L.unreferenced g hg
        · exact absurd (List.mem_singleton.mp hg) hgf
      · exact L.unreferenced g hg

theorem drop_of_last [DecidableEq φ] (hf : f ∉ L.free) (h : L.refs f = 1) :
    L.drop f hf = (L.setRefs f 0 hf).give f hf (update_self ..) := by
  simp [drop, give, setRefs, h]

theorem drop_of_shared [DecidableEq φ] (hf : f ∉ L.free) (h : L.refs f ≠ 1) :
    L.drop f hf = L.setRefs f (L.refs f - 1) hf := by
  simp [drop, setRefs, h]

end Ledger

end Library
