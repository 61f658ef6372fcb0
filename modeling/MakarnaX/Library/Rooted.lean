import Mathlib.Data.List.Perm.Subperm
import Mathlib.Tactic.Common

/-!
# Rooted trees given by their edges

A graph with labelled edges and a root is a tree on its used vertices if each
edge joins used ones, no two edges end in the same vertex, none ends in the root,
and a walk from the root leads to every used vertex.  Then there is one walk only
(`Rooted.walk_unique`), and it is shorter than the tree is large
(`Rooted.length_lt`).  A tree stays one when a new leaf is hung up
(`Rooted.insert`) and when a leaf is taken off (`Rooted.remove`).
-/

namespace Library

open List

variable {V L : Type*} {edge edge' : V → L → V → Prop} {root w : V} {used used' : V → Prop} {p : List L}

/-- The walk that starts in `root` and follows the labels. -/
inductive Walk (edge : V → L → V → Prop) (root : V) : List L → V → Prop
  | nil : Walk edge root [] root
  | snoc {p : List L} {v w : V} {l : L} : Walk edge root p v → edge v l w → Walk edge root (p ++ [l]) w

theorem Walk.mono (h : ∀ v l w, edge v l w → edge' v l w) {v : V} (hw : Walk edge root p v) :
    Walk edge' root p v := by
  induction hw with
  | nil => exact .nil
  | snoc _ he ih => exact .snoc ih (h _ _ _ he)

structure Rooted (edge : V → L → V → Prop) (root : V) (used : V → Prop) : Prop where
  source : ∀ {v l w}, edge v l w → used v
  target : ∀ {v l w}, edge v l w → used w
  single : ∀ {v l w v' l'}, edge v l w → edge v' l' w → v = v' ∧ l = l'
  top : ∀ {v l}, ¬ edge v l root
  reach : ∀ {w}, used w → ∃ p, Walk edge root p w

namespace Rooted

section

variable (T : Rooted edge root used)

include T

/-- There is only one walk to a vertex. -/
theorem walk_unique {p q : List L} (hp : Walk edge root p w) (hq : Walk edge root q w) : p = q := by
  induction hp generalizing q with
  | nil =>
    cases hq with
    | nil => rfl
    | snoc _ he => exact absurd he T.top
  | snoc _ he ih =>
    cases hq with
    | nil => exact absurd he T.top
    | snoc hv he' =>
      obtain ⟨rfl, rfl⟩ := T.single he he'
      rw [ih hv]

/-- The vertices on a walk are all different. -/
theorem walk_vertices (hr : used root) (hp : Walk edge root p w) :
    ∃ vs : List V, vs.length = p.length + 1 ∧ vs.Nodup ∧
      ∀ v ∈ vs, used v ∧ ∃ q, Walk edge root q v ∧ q.length ≤ p.length := by
  induction hp with
  | nil =>
    refine ⟨[root], rfl, nodup_cons.mpr ⟨not_mem_nil, nodup_nil⟩, fun v hv => ?_⟩
    rw [mem_singleton.mp hv]
    exact ⟨hr, [], .nil, Nat.le_refl _⟩
  | @snoc p v w l hp he ih =>
    obtain ⟨vs, hlen, hnd, hvs⟩ := ih
    have hnew : w ∉ vs := by
      intro hw
      obtain ⟨-, q, hq, hle⟩ := hvs w hw
      rw [T.walk_unique hq (.snoc hp he), length_append] at hle
      exact Nat.not_succ_le_self _ hle
    refine ⟨w :: vs, ?_, nodup_cons.mpr ⟨hnew, hnd⟩, fun u hu => ?_⟩
    · rw [length_cons, hlen, length_append, length_singleton]
    · rcases mem_cons.mp hu with rfl | hu
      · exact ⟨T.target he, _, .snoc hp he, Nat.le_refl _⟩
      · obtain ⟨h, q, hq, hle⟩ := hvs u hu
        exact ⟨h, q, hq, by rw [length_append]; omega⟩

theorem length_lt (hr : used root) {all : List V} (hall : ∀ v, used v → v ∈ all)
    (hp : Walk edge root p w) : p.length < all.length := by
  obtain ⟨vs, hlen, hnd, hvs⟩ := T.walk_vertices hr hp
  have hle := (subperm_of_subset hnd fun v hv => hall v (hvs v hv).1).length_le
  omega

/-- A used vertex other than the root hangs on an edge. -/
theorem edge_of_used (hw : used w) (hr : w ≠ root) : ∃ v l, edge v l w := by
  obtain ⟨p, hp⟩ := T.reach hw
  cases hp with
  | nil => exact absurd rfl hr
  | snoc _ he => exact ⟨_, _, he⟩

/-- A new leaf `b` at the label `k` of `a`. -/
theorem insert {a b : V} {k : L} (ha : used a) (hb : ¬ used b) (hr : b ≠ root)
    (he : ∀ v l w, edge' v l w ↔ edge v l w ∨ v = a ∧ l = k ∧ w = b)
    (hu : ∀ w, used' w ↔ used w ∨ w = b) : Rooted edge' root used' where
  source h := by
    rcases (he _ _ _).mp h with h | ⟨rfl, -, -⟩
    · exact (hu _).mpr (.inl (T.source h))
    · exact (hu _).mpr (.inl ha)
  target h := by
    rcases (he _ _ _).mp h with h | ⟨-, -, rfl⟩
    · exact (hu _).mpr (.inl (T.target h))
    · exact (hu _).mpr (.inr rfl)
  single h h' := by
    rcases (he _ _ _).mp h with h | ⟨rfl, rfl, rfl⟩ <;> rcases (he _ _ _).mp h' with h' | ⟨rfl, rfl, hw⟩
    · exact T.single h h'
    · exact absurd (T.target h) (hw ▸ hb)
    · exact absurd (T.target h') hb
    · exact ⟨rfl, rfl⟩
  top h := by
    rcases (he _ _ _).mp h with h | ⟨-, -, h⟩
    · exact T.top h
    · exact hr h.symm
  reach h := by
    have hm : ∀ v l w, edge v l w → edge' v l w := fun v l w h => (he v l w).mpr (.inl h)
    rcases (hu _).mp h with h | rfl
    · obtain ⟨p, hp⟩ := T.reach h
      exact ⟨p, hp.mono hm⟩
    · obtain ⟨p, hp⟩ := T.reach ha
      exact ⟨p ++ [k], .snoc (hp.mono hm) ((he _ _ _).mpr (.inr ⟨rfl, rfl, rfl⟩))⟩

/-- The leaf `b` is taken off. -/
theorem remove {b : V} (hl : ∀ l w, ¬ edge b l w)
    (he : ∀ v l w, edge' v l w ↔ edge v l w ∧ w ≠ b) (hu : ∀ w, used' w ↔ used w ∧ w ≠ b) :
    Rooted edge' root used' where
  source h := by
    have h := ((he _ _ _).mp h).1
    exact (hu _).mpr ⟨T.source h, fun hb => hl _ _ (hb ▸ h)⟩
  target h := by
    obtain ⟨h, hb⟩ := (he _ _ _).mp h
    exact (hu _).mpr ⟨T.target h, hb⟩
  single h h' := T.single ((he _ _ _).mp h).1 ((he _ _ _).mp h').1
  top h := T.top ((he _ _ _).mp h).1
  reach {w} hw := by
    obtain ⟨h, hb⟩ := (hu w).mp hw
    obtain ⟨p, hp⟩ := T.reach h
    -- no walk passes through a leaf, so the walks to the others are still there
    refine ⟨p, ?_⟩
    clear hw h
    induction hp with
    | nil => exact .nil
    | snoc _ hv ih => exact .snoc (ih fun hv' => hl _ _ (hv' ▸ hv)) ((he _ _ _).mpr ⟨hv, hb⟩)

end

end Rooted

end Library
