import Mathlib.Tactic.TypeStar

/-!
# Transition systems

A set of initial states and a step relation.  `Reachable.invariant` is the one
induction on runs of the development: what holds initially and survives every
step holds in every reachable state.
-/

namespace Library

/-- Initial states and steps. -/
structure System (σ : Type*) where
  init : σ → Prop
  step : σ → σ → Prop

namespace System

variable {σ : Type*} {S : System σ}

inductive Reachable (S : System σ) : σ → Prop
  | init {s : σ} : S.init s → Reachable S s
  | step {s s' : σ} : Reachable S s → S.step s s' → Reachable S s'

theorem Reachable.invariant {I : σ → Prop} (h0 : ∀ s, S.init s → I s)
    (hs : ∀ s s', I s → S.step s s' → I s') {s : σ} (h : S.Reachable s) : I s := by
  induction h with
  | init h => exact h0 _ h
  | step _ h ih => exact hs _ _ ih h

/-- A relation that every step of `S` can be followed along, by any number of
steps of `T`, relates each reachable state to a reachable one. -/
theorem Reachable.simulation {υ : Type*} {T : System υ} {R : σ → υ → Prop} (h0 : ∀ s, S.init s → ∃ t, T.init t ∧ R s t)
    (hstep : ∀ s s' t, S.Reachable s → T.Reachable t → R s t → S.step s s' → ∃ t', T.Reachable t' ∧ R s' t')
    {s : σ} (h : S.Reachable s) : ∃ t, T.Reachable t ∧ R s t := by
  induction h with
  | init h =>
    obtain ⟨t, ht, hR⟩ := h0 _ h
    exact ⟨t, .init ht, hR⟩
  | step hs h ih =>
    obtain ⟨t, ht, hR⟩ := ih
    exact hstep _ _ t hs ht hR h

/-! ## Steps that are operations -/

section Operations

variable {ο ε : Type*} {τ : Type} (init : τ → Prop) (enabled : τ → ο → Prop)
  (run : ο → StateT τ (Except ε) Unit)

/-- A step is an operation that can be taken and returns. -/
def ofOps : System τ where
  init := init
  step s s' := ∃ op, enabled s op ∧ run op s = .ok ((), s')

/-- The state behind `ops`, if each of them can be taken and returns. -/
def after [∀ s op, Decidable (enabled s op)] (s : τ) : List ο → Option τ
  | [] => some s
  | op :: ops =>
    if enabled s op then
      match run op s with
      | .ok (_, s') => after s' ops
      | .error _ => none
    else none

variable {init enabled run}

theorem Reachable.after [∀ s op, Decidable (enabled s op)] {s s' : τ} {ops : List ο}
    (h : (ofOps init enabled run).Reachable s) (hs : System.after enabled run s ops = some s') :
    (ofOps init enabled run).Reachable s' := by
  induction ops generalizing s with
  | nil =>
    cases hs
    exact h
  | cons op ops ih =>
    simp only [System.after] at hs
    split at hs
    · next hop =>
      cases hr : run op s with
      | error e =>
        rw [hr] at hs
        cases hs
      | ok r =>
        rw [hr] at hs
        exact ih (.step h ⟨op, hop, hr⟩) hs
    · cases hs

end Operations

end System

/-- A run that was computed, and what was seen of the state it ends in. -/
theorem observed {σ : Type*} {x : Option σ} {p : σ → Prop} [DecidablePred p]
    (h : (x.map fun s => decide (p s)) = some true) : ∃ s, x = some s ∧ p s := by
  obtain ⟨s, hs, hp⟩ := Option.map_eq_some_iff.mp h
  exact ⟨s, hs, of_decide_eq_true hp⟩

end Library
