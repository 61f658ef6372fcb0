import Mathlib.Order.Defs.Unbundled
import Mathlib.Tactic.TypeStar

/-!
# Computations that may fail

A program with assertions is a computation in `Except ε`: it stops at the first
assertion that fails.  `check` is such an assertion.  A program that also
changes a state is one in `StateT σ (Except ε)`.

What is proved about such a program is mostly proved about its runs that
return, so the rules here take a run apart: one rule per construct says what a
run that returned has done.
-/

namespace Library

variable {ε : Type*} {α β : Type} {e : ε} {a : α} {c : Prop}

section Fails

variable {x : Except ε α} {f : α → Except ε β} {s' : σ}

/-- Go on if `c` holds, fail with `e` otherwise. -/
def check (c : Prop) [Decidable c] (e : ε) : Except ε Unit := if c then .ok () else .error e

theorem check_eq_ok [Decidable c] (h : c) : check c e = .ok () := if_pos h

@[simp] theorem check_ok {c : Prop} [Decidable c] {e : ε} {u : Unit} : check c e = .ok u ↔ c := by
  unfold check
  split <;> simp_all

theorem of_check_ok [Decidable c] {u : Unit} (h : check c e = .ok u) : c :=
  check_ok.mp h

theorem ok_bind (a : α) (g : α → Except ε β) : (Except.ok a >>= g) = g a := rfl

/-- A composite returned, so its first part did. -/
theorem bind_ok {b : β} (h : (x >>= f) = .ok b) : ∃ a, x = .ok a ∧ f a = .ok b := by
  cases x with
  | error e => cases h
  | ok a => exact ⟨a, rfl, h⟩

/-- The error a computation ends with. -/
def failure (x : Except ε α) : Option ε :=
  match x with
  | .error e => some e
  | .ok _ => none

theorem of_failure (h : failure x = some e) : x = .error e := by
  cases x with
  | error e' =>
    cases h
    rfl
  | ok a => cases h

theorem of_toOption (h : x.toOption = some a) : x = .ok a := by
  cases x with
  | error e => cases h
  | ok b =>
    cases h
    rfl

end Fails

/-! ## With a state -/

section State

variable {σ : Type} {x : StateT σ (Except ε) α} {f : α → StateT σ (Except ε) β} {s : σ}

@[simp] theorem bind_apply_ok {r : β × σ} :
    (x >>= f) s = .ok r ↔ ∃ a s', x s = .ok (a, s') ∧ f a s' = .ok r := by
  constructor
  · intro h
    obtain ⟨⟨a, s'⟩, hx, hf⟩ := bind_ok h
    exact ⟨a, s', hx, hf⟩
  · rintro ⟨a, s', hx, hf⟩
    show (x s >>= fun p => f p.1 p.2) = .ok r
    rw [hx]
    exact hf

@[simp] theorem map_apply_ok {g : α → β} {r : β × σ} :
    (g <$> x) s = .ok r ↔ ∃ a, x s = .ok (a, r.2) ∧ g a = r.1 := by
  rw [map_eq_pure_bind, bind_apply_ok]
  constructor
  · rintro ⟨a, s', hx, hr⟩
    cases hr
    exact ⟨a, hx, rfl⟩
  · rintro ⟨a, hx, hr⟩
    exact ⟨a, r.2, hx, congrArg (fun b => Except.ok (b, r.2)) hr⟩

@[simp] theorem pure_apply (a : α) : (pure a : StateT σ (Except ε) α) s = .ok (a, s) := rfl

@[simp] theorem get_run (g : σ → StateT σ (Except ε) β) :
    ((get : StateT σ (Except ε) σ) >>= g) s = g s s := rfl

@[simp] theorem modify_run (g : σ → σ) (k : PUnit → StateT σ (Except ε) β) :
    ((modify g : StateT σ (Except ε) PUnit) >>= k) s = k ⟨⟩ (g s) := rfl

@[simp] theorem set_run (t : σ) (k : PUnit → StateT σ (Except ε) β) :
    ((set t : StateT σ (Except ε) PUnit) >>= k) s = k ⟨⟩ t := rfl

@[simp] theorem throw_run (e : ε) (k : α → StateT σ (Except ε) β) :
    ((throw e : StateT σ (Except ε) α) >>= k) s = .error e := rfl

/-- A run whose first part returned. -/
theorem bind_run {t : σ} (h : x s = .ok (a, t)) : (x >>= f) s = f a t := by
  show (x s >>= fun p => f p.1 p.2) = f a t
  rw [h]
  rfl

/-- A run whose first part failed. -/
theorem bind_fail (h : x s = .error e) : (x >>= f) s = .error e := by
  show (x s >>= fun p => f p.1 p.2) = .error e
  rw [h]
  rfl

theorem check_run [Decidable c] (e : ε) (k : Unit → StateT σ (Except ε) β) :
    ((monadLift (check c e) : StateT σ (Except ε) Unit) >>= k) s = if c then k () s else .error e := by
  by_cases h : c
  · rw [if_pos h]
    exact bind_run (by rw [check_eq_ok h]; rfl)
  · rw [if_neg h]
    exact bind_fail (by unfold check; rw [if_neg h]; rfl)

theorem check_apply [Decidable c] (e : ε) :
    (monadLift (check c e) : StateT σ (Except ε) Unit) s = if c then .ok ((), s) else .error e := by
  by_cases h : c
  · rw [if_pos h, check_eq_ok h]
    rfl
  · unfold check
    rw [if_neg h, if_neg h]
    rfl

theorem check_map_apply [Decidable c] (e : ε) (g : Unit → β) :
    (g <$> (monadLift (check c e) : StateT σ (Except ε) Unit)) s =
      if c then .ok (g (), s) else .error e := by
  rw [map_eq_pure_bind, check_run]
  rfl

/-- A run that failed did so in its first part, or behind it. -/
theorem discard_run (h : x s = .ok (a, s')) : discard x s = .ok ((), s') := by
  show (x s >>= fun p => pure ((), p.2)) = .ok ((), s')
  rw [h]
  rfl

@[simp] theorem discard_apply_ok {u : PUnit} {s' : σ} :
    discard x s = .ok (u, s') ↔ ∃ a, x s = .ok (a, s') := by
  constructor
  · intro h
    obtain ⟨⟨a, s''⟩, hx, hr⟩ := bind_ok h
    cases hr
    exact ⟨a, hx⟩
  · rintro ⟨a, hx⟩
    exact discard_run hx

theorem discard_apply_error : discard x s = .error e ↔ x s = .error e := by
  cases h : x s with
  | error e' =>
    have : discard x s = .error e' := by
      show (x s >>= fun p => pure ((), p.2)) = .error e'
      rw [h]
      rfl
    rw [this]
    simp
  | ok r =>
    rw [discard_run h]
    simp

@[simp] theorem modify_apply (g : σ → σ) :
    (modify g : StateT σ (Except ε) PUnit) s = .ok (⟨⟩, g s) := rfl

@[simp] theorem set_apply (t : σ) : (set t : StateT σ (Except ε) PUnit) s = .ok (⟨⟩, t) := rfl

@[simp] theorem throw_apply (e : ε) : (throw e : StateT σ (Except ε) α) s = .error e := rfl

@[simp] theorem lift_apply_ok {y : Except ε α} {r : α × σ} :
    (monadLift y : StateT σ (Except ε) α) s = .ok r ↔ y = .ok r.1 ∧ s = r.2 := by
  obtain ⟨a, s'⟩ := r
  cases y with
  | error e => exact ⟨fun h => (by cases h), fun h => (by cases h.1)⟩
  | ok b =>
    constructor
    · intro h
      cases h
      exact ⟨rfl, rfl⟩
    · rintro ⟨hb, hs⟩
      cases hb
      cases hs
      rfl

end State

/-! ## How a run ends -/

section Ends

variable {σ : Type} {x : StateT σ (Except ε) α} {f : α → StateT σ (Except ε) β} {s : σ} {E : ε → Prop}
  {P Q : α → σ → Prop} {R : β → σ → Prop}

/-- The run from `s` returns with `P`, or fails with `E`. -/
def Ends (x : StateT σ (Except ε) α) (s : σ) (E : ε → Prop) (P : α → σ → Prop) : Prop :=
  match x s with
  | .ok (a, s') => P a s'
  | .error e => E e

namespace Ends

theorem of_ok (h : x s = .ok (a, s')) (hp : P a s') : Ends x s E P := by
  unfold Ends
  rw [h]
  exact hp

theorem of_error (h : x s = .error e) (he : E e) : Ends x s E P := by
  unfold Ends
  rw [h]
  exact he

theorem of_eq {y : StateT σ (Except ε) α} {s' : σ} (h : x s = y s') (hy : Ends y s' E P) : Ends x s E P := by
  unfold Ends
  rw [h]
  exact hy

theorem ok (h : Ends x s E P) (hx : x s = .ok (a, s')) : P a s' := by
  unfold Ends at h
  rw [hx] at h
  exact h

theorem error (h : Ends x s E P) (hx : x s = .error e) : E e := by
  unfold Ends at h
  rw [hx] at h
  exact h

theorem mono (h : Ends x s E P) (hp : ∀ a s', P a s' → Q a s') : Ends x s E Q := by
  cases hx : x s with
  | error e => exact of_error hx (h.error hx)
  | ok r => exact of_ok hx (hp _ _ (h.ok hx))

theorem weaken {F : ε → Prop} (h : Ends x s E P) (hE : ∀ e, E e → F e) : Ends x s F P := by
  cases hx : x s with
  | ok r => exact of_ok hx (h.ok hx)
  | error e => exact of_error hx (hE e (h.error hx))

/-- One after the other. -/
theorem bind (h : Ends x s E P) (hf : ∀ a s', P a s' → Ends (f a) s' E R) : Ends (x >>= f) s E R := by
  cases hx : x s with
  | error e => exact of_error (bind_fail hx) (h.error hx)
  | ok r =>
    have hr := hf _ _ (h.ok hx)
    unfold Ends at hr ⊢
    rw [bind_run hx]
    exact hr

/-- The first part is known to return. -/
theorem bind_ok (hx : x s = .ok (a, s')) (hf : Ends (f a) s' E R) : Ends (x >>= f) s E R :=
  bind (P := fun b t => b = a ∧ t = s') (of_ok hx ⟨rfl, rfl⟩) fun _ _ h => h.1 ▸ h.2 ▸ hf

theorem pure (hp : P a s) : Ends (Pure.pure a) s E P := of_ok (pure_apply a) hp

theorem throw (he : E e) : Ends (MonadExcept.throw e) s E P := of_error (throw_apply e) he

/-- The check holds, or its failure is one of `E`. -/
theorem check [Decidable c] {k : Unit → StateT σ (Except ε) β} (he : ¬ c → E e) (hk : c → Ends (k ()) s E R) :
    Ends ((monadLift (check c e) : StateT σ (Except ε) Unit) >>= k) s E R := by
  by_cases h : c
  · exact bind_ok (by rw [check_eq_ok h]; rfl) (hk h)
  · exact of_error ((check_run e k).trans (if_neg h)) (he h)

theorem discard {P : σ → Prop} (h : Ends x s E fun _ s' => P s') : Ends (Functor.discard x) s E fun _ s' => P s' := by
  cases hx : x s with
  | error e => exact of_error (discard_apply_error.mpr hx) (h.error hx)
  | ok r => exact of_ok (discard_run hx) (h.ok hx)

end Ends

end Ends

/-! ## What a value is like -/

section Returns

variable {P Q : α → Prop} {R : β → Prop} {x : Except ε α} {f : α → Except ε β}

/-- If `x` returns, then with a value like this. -/
def Returns (P : α → Prop) (x : Except ε α) : Prop := ∀ a, x = .ok a → P a

namespace Returns

theorem bind (hx : Returns P x) (hf : ∀ a, P a → Returns R (f a)) : Returns R (x >>= f) := by
  intro b h
  obtain ⟨a, ha, hb⟩ := bind_ok h
  exact hf a (hx a ha) b hb

/-- The value of the first part does not matter. -/
theorem skip (hf : ∀ a, Returns R (f a)) : Returns R (x >>= f) :=
  bind (P := fun _ => True) (fun _ _ => trivial) fun a _ => hf a

theorem pure (h : P a) : Returns P (Pure.pure a : Except ε α) := by
  rintro _ ⟨⟩
  exact h

theorem mono (h : Returns P x) (hPQ : ∀ a, P a → Q a) : Returns Q x := fun a ha => hPQ a (h a ha)

theorem and (h : Returns P x) (h' : Returns Q x) : Returns (fun a => P a ∧ Q a) x := fun a ha => ⟨h a ha, h' a ha⟩

end Returns

end Returns

/-! ## What a run leaves alone -/

section Leaves

variable {σ : Type} {R Q : σ → σ → Prop} {x : StateT σ (Except ε) α} {f : α → StateT σ (Except ε) β}

/-- A run of `x` that returns goes from a state to one that `R` relates it to. -/
def Leaves (R : σ → σ → Prop) (x : StateT σ (Except ε) α) : Prop := ∀ s a s', x s = .ok (a, s') → R s s'

namespace Leaves

theorem mono (h : Leaves R x) (hRQ : ∀ s s', R s s' → Q s s') : Leaves Q x :=
  fun s a s' hx => hRQ s s' (h s a s' hx)

theorem modify {g : σ → σ} (h : ∀ s, R s (g s)) : Leaves R (modify g : StateT σ (Except ε) PUnit) := by
  intro s a s' hx
  cases hx
  exact h s

theorem throw (e : ε) : Leaves R (throw e : StateT σ (Except ε) α) := by
  intro s a s' hx
  cases hx

theorem discard (h : Leaves R x) : Leaves R (Functor.discard x) := by
  intro s a s' hx
  obtain ⟨b, hb⟩ := discard_apply_ok.mp hx
  exact h s b s' hb

/-- One after the other, when the two may do different things. -/
theorem comp {P : σ → σ → Prop} (hx : Leaves R x) (hf : ∀ a, Leaves Q (f a))
    (h : ∀ s s1 s', R s s1 → Q s1 s' → P s s') : Leaves P (x >>= f) := by
  intro s b s' hr
  obtain ⟨a, s1, h1, h2⟩ := bind_apply_ok.mp hr
  exact h s s1 s' (hx s a s1 h1) (hf a s1 b s' h2)

section Preorder

variable [IsPreorder σ R]

theorem bind (hx : Leaves R x) (hf : ∀ a, Leaves R (f a)) : Leaves R (x >>= f) :=
  comp hx hf fun _ _ _ => trans_of R

theorem pure (a : α) : Leaves R (Pure.pure a : StateT σ (Except ε) α) := by
  intro s b s' h
  cases h
  exact refl_of R s

/-- The value of the first part is not used. -/
theorem seq {y : StateT σ (Except ε) β} (hx : Leaves R x) (hy : Leaves R y) : Leaves R (x >>= fun _ => y) :=
  bind hx fun _ => hy

theorem get : Leaves R (MonadState.get : StateT σ (Except ε) σ) := by
  intro s b s' h
  cases h
  exact refl_of R s

theorem lift (y : Except ε α) : Leaves R (monadLift y : StateT σ (Except ε) α) := by
  intro s b s' h
  obtain ⟨-, rfl⟩ := lift_apply_ok.mp h
  exact refl_of R s

/-- The state is read first. -/
theorem read {g : σ → StateT σ (Except ε) β} (h : ∀ s, Leaves R (g s)) : Leaves R (MonadState.get >>= g) := bind get h

/-- An assertion comes first. -/
theorem guard {y : Except ε Unit} {z : StateT σ (Except ε) β} (h : Leaves R z) : Leaves R (monadLift y >>= fun _ => z) :=
  seq (lift y) h

end Preorder

end Leaves

end Leaves

end Library
