import Mathlib.Data.List.Chain
import Mathlib.Data.List.Nodup
import Mathlib.Logic.Function.Basic

/-!
# Doubly linked rings

Nodes with a link to the next node and one to the node before, given as two
functions.  A ring leaves its head, passes each of its elements once and comes
back, with every link answered by the one in the other direction.

An element goes in before a position and comes out by four, or two, changed
links.  `Ring.insert` and `Ring.remove` say that the changed links are a ring
again, and which one.
-/

namespace Library

open Function List Option

namespace Links

variable {ν : Type*} {next prev next' prev' : ν → Option ν} {h n p q a : ν} {xs l r : List ν}

/-- `b` is behind `a`. -/
def Link (next prev : ν → Option ν) (a b : ν) : Prop := next a = some b ∧ prev b = some a

/-- From `h` over `xs` back to `h`. -/
structure Ring (next prev : ν → Option ν) (h : ν) (xs : List ν) : Prop where
  nodup : (h :: xs).Nodup
  chain : (h :: (xs ++ [h])).IsChain (Link next prev)

theorem Ring.congr (R : Ring next prev h xs)
    (hn : ∀ a ∈ h :: xs, next' a = next a) (hp : ∀ a ∈ h :: xs, prev' a = prev a) : Ring next' prev' h xs where
  nodup := R.nodup
  chain := by
    refine R.chain.imp_of_mem_imp fun a b ha hb hab => ?_
    have hmem : ∀ c ∈ h :: (xs ++ [h]), c ∈ h :: xs := fun c hc => by simpa [or_comm] using hc
    exact ⟨(hn a (hmem a ha)).trans hab.1, (hp b (hmem b hb)).trans hab.2⟩

/-! ## A cut -/

/-- The two sides of a place between two nodes of a ring. -/
structure Cut (next prev : ν → Option ν) (h : ν) (l r : List ν) (q p : ν) : Prop where
  last : (h :: l).getLast? = some q
  first : (r ++ [h]).head? = some p
  link : Link next prev q p
  left : (h :: l).IsChain (Link next prev)
  right : (r ++ [h]).IsChain (Link next prev)

theorem Ring.cut (R : Ring next prev h (l ++ r)) : ∃ q p, Cut next prev h l r q p := by
  have hc : ((h :: l) ++ (r ++ [h])).IsChain (Link next prev) := by simpa using R.chain
  obtain ⟨hl, hr, hlr⟩ := isChain_append.mp hc
  obtain ⟨q, hq⟩ : ∃ q, (h :: l).getLast? = some q := ⟨_, getLast?_eq_getLast_of_ne_nil (by simp)⟩
  obtain ⟨p, hp⟩ : ∃ p, (r ++ [h]).head? = some p := by cases r <;> simp
  exact ⟨q, p, hq, hp, hlr q hq p hp, hl, hr⟩

theorem Cut.mem_left (C : Cut next prev h l r q p) : q ∈ h :: l := mem_of_getLast? C.last

theorem Cut.mem_right (C : Cut next prev h l r q p) : p ∈ r ++ [h] := mem_of_head? C.first

theorem mem_of_mem_left (ha : a ∈ h :: l) : a ∈ h :: (l ++ r) := mem_append_left r ha

theorem mem_of_mem_right (ha : a ∈ r ++ [h]) : a ∈ h :: (l ++ r) := by
  rcases mem_append.mp ha with hr | hr
  · exact mem_cons_of_mem _ (mem_append_right _ hr)
  · rw [mem_singleton.mp hr]
    exact mem_cons_self

/-- The nodes behind the cut, with the head, are not the ones before it. -/
theorem notMem_left_of_mem_right (hd : (h :: (l ++ r)).Nodup) (ha : a ∈ r ++ [h]) : a ∉ l := by
  rw [nodup_cons] at hd
  intro hl
  rcases mem_append.mp ha with hr | hr
  · exact (disjoint_of_nodup_append hd.2) hl hr
  · rw [mem_singleton.mp hr] at hl
    exact hd.1 (mem_append_left _ hl)

/-- Other links that agree before the cut are a chain there. -/
theorem Cut.leftSide (C : Cut next prev h l r q p) (hd : (h :: (l ++ r)).Nodup)
    (hn : ∀ a ∈ h :: l, a ≠ q → next' a = next a) (hp : ∀ a ∈ l, prev' a = prev a) :
    (h :: l).IsChain (Link next' prev') := by
  refine C.left.imp_of_mem_tail_imp fun a b ha hb hab => ⟨(hn a ha ?_).trans hab.1, (hp b hb).trans hab.2⟩
  -- behind `q` comes `p`, which is not on this side
  rintro rfl
  have : b = p := some.inj (hab.1.symm.trans C.link.1)
  exact notMem_left_of_mem_right hd (this ▸ C.mem_right) hb

/-- Other links that agree behind the cut are a chain there. -/
theorem Cut.rightSide (C : Cut next prev h l r q p) (hd : (h :: (l ++ r)).Nodup)
    (hn : ∀ a ∈ r ++ [h], ∀ b ∈ r ++ [h], b ≠ p → next a = some b → next' a = next a)
    (hp : ∀ a ∈ r ++ [h], a ≠ p → prev' a = prev a) : (r ++ [h]).IsChain (Link next' prev') := by
  refine C.right.imp_of_mem_tail_imp fun a b ha hb hab => ?_
  have hbp : b ≠ p := by
    rintro rfl
    cases r with
    | nil => simp at hb
    | cons c r =>
      have hpc : c = b := some.inj C.first
      subst hpc
      rcases mem_append.mp (show c ∈ r ++ [h] from hb) with hr | hr
      · have hdr := (nodup_append.mp (nodup_cons.mp hd).2).2.1
        exact (nodup_cons.mp hdr).1 hr
      · rw [mem_singleton.mp hr] at hd
        simp at hd
  have hb := mem_of_mem_tail hb
  exact ⟨(hn a ha b hb hbp hab.1).trans hab.1, (hp b hb hbp).trans hab.2⟩

/-- Behind an element, and behind the head, comes an element or the head, and
the way back is the same. -/
theorem Ring.link_of_mem (R : Ring next prev h xs) (ha : a ∈ h :: xs) :
    ∃ b ∈ h :: xs, Link next prev a b := by
  obtain ⟨l, r, hlr⟩ := mem_iff_append.mp ha
  have hsplit : ∃ l', l ++ [a] = h :: l' ∧ xs = l' ++ r := by
    cases l with
    | nil =>
      obtain ⟨rfl, rfl⟩ := cons.inj hlr
      exact ⟨[], rfl, rfl⟩
    | cons c l =>
      obtain ⟨rfl, rfl⟩ := cons.inj hlr
      exact ⟨l ++ [a], rfl, by simp⟩
  obtain ⟨l', hl', rfl⟩ := hsplit
  obtain ⟨q, p, C⟩ := R.cut
  have hq : a = q := by
    have hlast := C.last
    rw [← hl', getLast?_concat] at hlast
    exact some.inj hlast
  subst hq
  exact ⟨p, mem_of_mem_right C.mem_right, C.link⟩

theorem eq_of_isChain {ys : List ν} (hx : (a :: (xs ++ [h])).IsChain (Link next prev))
    (hy : (a :: (ys ++ [h])).IsChain (Link next prev)) (hxs : h ∉ xs) (hys : h ∉ ys) : xs = ys := by
  induction xs generalizing a ys with
  | nil =>
    cases ys with
    | nil => rfl
    | cons y ys =>
      have h1 := (isChain_cons_cons.mp hx).1.1
      have h2 := (isChain_cons_cons.mp hy).1.1
      obtain rfl : h = y := some.inj (h1.symm.trans h2)
      exact absurd mem_cons_self hys
  | cons x xs ih =>
    obtain ⟨h1, hx⟩ := isChain_cons_cons.mp hx
    cases ys with
    | nil =>
      have h2 := (isChain_cons_cons.mp hy).1.1
      obtain rfl : x = h := some.inj (h1.1.symm.trans h2)
      exact absurd mem_cons_self hxs
    | cons y ys =>
      obtain ⟨h2, hy⟩ := isChain_cons_cons.mp hy
      obtain rfl : x = y := some.inj (h1.1.symm.trans h2.1)
      rw [ih hx hy (fun h => hxs (mem_cons_of_mem _ h)) fun h => hys (mem_cons_of_mem _ h)]

/-- The links of a ring determine its elements. -/
theorem Ring.unique {ys : List ν} (R : Ring next prev h xs) (R' : Ring next prev h ys) : xs = ys :=
  eq_of_isChain R.chain R'.chain (nodup_cons.mp R.nodup).1 (nodup_cons.mp R'.nodup).1

theorem Ring.prev_of_mem (R : Ring next prev h xs) (ha : a ∈ xs) : ∃ b ∈ h :: xs, prev a = some b := by
  obtain ⟨l, r, rfl⟩ := mem_iff_append.mp ha
  obtain ⟨q, p, C⟩ := R.cut
  obtain rfl : a = p := some.inj C.first
  exact ⟨q, mem_of_mem_left C.mem_left, C.link.2⟩

/-! ## Putting an element in and taking one out -/

theorem perm_middle_cons (h n : ν) (l r : List ν) : (h :: (l ++ n :: r)).Perm (n :: h :: (l ++ r)) :=
  (List.Perm.cons h perm_middle).trans (List.Perm.swap n h _)

/-- Other links that agree away from the cut and have `n` in it are a ring with `n`. -/
theorem Cut.insert (C : Cut next prev h l r q p) (hd : (h :: (l ++ r)).Nodup)
    (hn : ∀ a ∈ h :: (l ++ r), a ≠ q → next' a = next a) (hp : ∀ a ∈ h :: (l ++ r), a ≠ p → prev' a = prev a)
    (hqn : Link next' prev' q n) (hnp : Link next' prev' n p) :
    (h :: ((l ++ n :: r) ++ [h])).IsChain (Link next' prev') := by
  have hl : (h :: l).IsChain (Link next' prev') := C.leftSide hd (fun a ha => hn a (mem_of_mem_left ha)) fun a ha =>
    hp a (mem_of_mem_left (mem_cons_of_mem _ ha)) fun hap => notMem_left_of_mem_right hd (hap ▸ C.mem_right) ha
  have hr : (r ++ [h]).IsChain (Link next' prev') := C.rightSide hd (fun a ha b _ hbp hab =>
    hn a (mem_of_mem_right ha) fun haq =>
    hbp (some.inj (hab.symm.trans (haq ▸ C.link.1)))) fun a ha => hp a (mem_of_mem_right ha)
  have hnr : (n :: (r ++ [h])).IsChain (Link next' prev') := by
    refine hr.cons fun y hy => ?_
    obtain rfl : y = p := some.inj (hy.symm.trans C.first)
    exact hnp
  have := hl.append hnr fun x hx y hy => by
    obtain rfl : x = q := some.inj (hx.symm.trans C.last)
    obtain rfl : n = y := some.inj hy
    exact hqn
  simpa using this

/-- Other links that agree away from `n` and lead past it are a ring without `n`. -/
theorem Ring.unlink (R : Ring next prev h (l ++ n :: r)) (hq : prev n = some q) (hp : next n = some p)
    (hnext : ∀ a ∈ h :: (l ++ r), a ≠ q → next' a = next a) (hprev : ∀ a ∈ h :: (l ++ r), a ≠ p → prev' a = prev a)
    (hqp : Link next' prev' q p) : Ring next' prev' h (l ++ r) := by
  obtain ⟨hn, hd⟩ := nodup_cons.mp ((perm_middle_cons h n l r).nodup_iff.mp R.nodup)
  have hnr : n ∉ r ++ [h] := fun hm => hn (mem_of_mem_right hm)
  obtain ⟨q', n', C⟩ := R.cut
  obtain rfl : n = n' := some.inj C.first
  obtain rfl : q' = q := some.inj (C.link.2.symm.trans hq)
  have R' : Ring next prev h ((l ++ [n]) ++ r) := by simpa using R
  obtain ⟨n', p', D⟩ := R'.cut
  obtain rfl : n = n' := by
    have hlast := D.last
    rw [← cons_append, getLast?_concat] at hlast
    exact some.inj hlast
  obtain rfl : p' = p := some.inj (D.link.1.symm.trans hp)
  have hleft : (h :: l).IsChain (Link next' prev') := C.leftSide R.nodup (fun a ha => hnext a (mem_of_mem_left ha)) fun a ha =>
    hprev a (mem_of_mem_left (mem_cons_of_mem _ ha)) fun hap => notMem_left_of_mem_right hd (hap ▸ D.mem_right) ha
  have hright : (r ++ [h]).IsChain (Link next' prev') := D.rightSide R'.nodup (fun a ha b hb _ hab =>
    hnext a (mem_of_mem_right ha) fun haq =>
    hnr (some.inj (hab.symm.trans (haq ▸ C.link.1)) ▸ hb)) fun a ha => hprev a (mem_of_mem_right ha)
  refine ⟨hd, ?_⟩
  have := hleft.append hright fun x hx y hy => by
    obtain rfl : x = q' := some.inj (hx.symm.trans C.last)
    obtain rfl : y = p' := some.inj (hy.symm.trans D.first)
    exact hqp
  simpa using this

variable [DecidableEq ν]

/-- The next links when `n` is put between `q` and `p`. -/
def insertNext (next : ν → Option ν) (n q p : ν) : ν → Option ν :=
  update (update next n (some p)) q (some n)

/-- The previous links when `n` is put between `q` and `p`. -/
def insertPrev (prev : ν → Option ν) (n q p : ν) : ν → Option ν :=
  update (update prev n (some q)) p (some n)

theorem Ring.insert (R : Ring next prev h (l ++ r)) (C : Cut next prev h l r q p) (hn : n ∉ h :: (l ++ r)) :
    Ring (insertNext next n q p) (insertPrev prev n q p) h (l ++ n :: r) := by
  have hne : ∀ a ∈ h :: (l ++ r), a ≠ n := fun a ha hx => hn (hx ▸ ha)
  have hqm : q ∈ h :: (l ++ r) := mem_of_mem_left C.mem_left
  have hpm : p ∈ h :: (l ++ r) := mem_of_mem_right C.mem_right
  refine ⟨(perm_middle_cons h n l r).nodup_iff.mpr (nodup_cons.mpr ⟨hn, R.nodup⟩), ?_⟩
  refine C.insert R.nodup (fun a ha haq => (update_of_ne haq ..).trans (update_of_ne (hne a ha) ..))
    (fun a ha hap => (update_of_ne hap ..).trans (update_of_ne (hne a ha) ..)) ⟨update_self .., ?_⟩ ⟨?_, update_self ..⟩
  · rw [insertPrev, update_of_ne (hne p hpm).symm, update_self]
  · rw [insertNext, update_of_ne (hne q hqm).symm, update_self]

theorem Ring.remove (R : Ring next prev h (l ++ n :: r)) (hq : prev n = some q) (hp : next n = some p) :
    Ring (update next q (some p)) (update prev p (some q)) h (l ++ r) :=
  R.unlink hq hp (fun _ _ ha => update_of_ne ha ..) (fun _ _ ha => update_of_ne ha ..) ⟨update_self .., update_self ..⟩

end Links

end Library
