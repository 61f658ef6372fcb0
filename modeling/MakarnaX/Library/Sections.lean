import MakarnaX.Library.Checked

/-!
# Sections

A program that runs in stages enters a section and has to leave it again: a level
counts the sections it is in, and some of them hold a lock.  `Leaving d ls` says
of two states that the second is `d` levels further out, that the locks `ls` are
free in it, and that no lock is held in it that was not held in the first.  A
function is balanced if it leaves nothing open: `Leaving 0 []`.

The rules follow the text of a function from its first line to its end.  To prove
that the rest of a function leaves `d` levels, one that enters a section needs a
rest that leaves `d + 1`, and one that leaves a section a rest that leaves one
level less.  The level and the locks are counted apart, so that a lock may be
taken inside a section and be given back outside of it.
-/

namespace Library

/-- How deep a state is, and the locks that are held in it. -/
structure Levels (σ ι : Type) where
  level : σ → Int
  held : σ → ι → Prop

variable {σ ι ε α β : Type} {L : Levels σ ι}

/-- One level further in, and at most the lock `l` is new. -/
structure Entering (L : Levels σ ι) (l : Option ι) (s s' : σ) : Prop where
  level : L.level s' = L.level s + 1
  held : ∀ x, L.held s' x → l = some x ∨ L.held s x

/-- `d` levels further out; the locks `ls` are free, and no lock is new. -/
structure Leaving (L : Levels σ ι) (d : Nat) (ls : List ι) (s s' : σ) : Prop where
  level : L.level s' + d = L.level s
  held : ∀ x, L.held s' x → x ∉ ls ∧ L.held s x

variable {s s1 s' : σ} {d e : Nat} {ls ms : List ι} {l : ι} {x : StateT σ (Except ε) α}
  {f : α → StateT σ (Except ε) β}

namespace Leaving

theorem refl (s : σ) : Leaving L 0 [] s s where
  level := Int.add_zero _
  held _ h := ⟨List.not_mem_nil, h⟩

theorem trans (h : Leaving L d ls s s1) (h' : Leaving L e ms s1 s') : Leaving L (d + e) (ls ++ ms) s s' where
  level := by
    have := h.level
    have := h'.level
    omega
  held x hx := by
    obtain ⟨h1, h2⟩ := h'.held x hx
    obtain ⟨h3, h4⟩ := h.held x h2
    exact ⟨by simp [h1, h3], h4⟩

/-- Nothing the levels are read from has changed. -/
theorem of_eq (hl : L.level s' = L.level s) (hh : ∀ x, L.held s' x → L.held s x) : Leaving L 0 [] s s' where
  level := by rw [hl]; exact Int.add_zero _
  held x hx := ⟨List.not_mem_nil, hh x hx⟩

end Leaving

instance : IsPreorder σ (Leaving L 0 []) where
  refl := Leaving.refl
  trans _ _ _ h h' := h.trans h'

namespace Entering

/-- What was entered is left. -/
theorem leave (h : Entering L none s s1) (h' : Leaving L (d + 1) ls s1 s') : Leaving L d ls s s' where
  level := by
    have := h.level
    have := h'.level
    push_cast at *
    omega
  held x hx := by
    obtain ⟨h1, h2⟩ := h'.held x hx
    exact ⟨h1, (h.held x h2).resolve_left nofun⟩

theorem unlock (h : Entering L (some l) s s1) (h' : Leaving L (d + 1) (l :: ls) s1 s') : Leaving L d ls s s' where
  level := by
    have := h.level
    have := h'.level
    push_cast at *
    omega
  held x hx := by
    obtain ⟨h1, h2⟩ := h'.held x hx
    rw [List.mem_cons, not_or] at h1
    exact ⟨h1.2, (h.held x h2).resolve_left fun hl => h1.1 (Option.some.inj hl).symm⟩

end Entering

/-! ## The rules -/

namespace Leaves

/-- A step that is balanced itself. -/
theorem keep (hx : Leaves (Leaving L 0 []) x) (hf : ∀ a, Leaves (Leaving L d ls) (f a)) :
    Leaves (Leaving L d ls) (x >>= f) :=
  hx.comp hf fun _ _ _ h h' => by simpa using h.trans h'

theorem enter (hx : Leaves (Entering L none) x) (hf : ∀ a, Leaves (Leaving L (d + 1) ls) (f a)) :
    Leaves (Leaving L d ls) (x >>= f) :=
  hx.comp hf fun _ _ _ h h' => h.leave h'

theorem leave (hx : Leaves (Leaving L 1 []) x) (hf : ∀ a, Leaves (Leaving L d ls) (f a)) :
    Leaves (Leaving L (d + 1) ls) (x >>= f) :=
  hx.comp hf fun _ _ _ h h' => by simpa [Nat.add_comm] using h.trans h'

theorem acquire (hx : Leaves (Entering L (some l)) x) (hf : ∀ a, Leaves (Leaving L (d + 1) (l :: ls)) (f a)) :
    Leaves (Leaving L d ls) (x >>= f) :=
  hx.comp hf fun _ _ _ h h' => h.unlock h'

theorem release (hx : Leaves (Leaving L 1 [l]) x) (hf : ∀ a, Leaves (Leaving L d ls) (f a)) :
    Leaves (Leaving L (d + 1) (l :: ls)) (x >>= f) :=
  hx.comp hf fun _ _ _ h h' => by simpa [Nat.add_comm] using h.trans h'

end Leaves

end Library
