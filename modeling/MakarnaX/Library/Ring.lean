import MakarnaX.Library.Bytes
import MakarnaX.Library.Links

/-!
# Circular doubly linked lists in memory

A node is three words: the address of the previous node, the address of the
next node, and one more word that belongs to the user of the list.  A ring is
a chain of nodes that leaves a sentinel and comes back to it.  `Seg m a xs b`
says that following the next words from `a` visits exactly `xs` and arrives
at `b`, with every previous word pointing back.  A ring with sentinel `s` and
contents `xs` is `Seg m s xs s`.

Linking a node before a position and unlinking a node are the only pointer
surgery.  Both are stated for nodes that do not overlap (`Apart`), and each
comes with what it does to a ring and with the addresses it may change.
-/

namespace Library

open List Mem

namespace Ring

/-! ## Nodes -/

def prev (m : Mem) (n : Nat) : Nat := m.read32 n
def next (m : Mem) (n : Nat) : Nat := m.read32 (n + 4)

def setPrev (m : Mem) (n v : Nat) : Mem := m.write32 n v
def setNext (m : Mem) (n v : Nat) : Mem := m.write32 (n + 4) v

/-- Two nodes that share no byte. -/
def Apart (a b : Nat) : Prop := a + 12 ≤ b ∨ b + 12 ≤ a

theorem Apart.symm {a b : Nat} (h : Apart a b) : Apart b a := Or.symm h

theorem Apart.ne {a b : Nat} (h : Apart a b) : a ≠ b := by
  unfold Apart at h
  omega

/-! ## Pointer surgery -/

/-- Put `n` between the node before `pos` and `pos`. -/
def linkBefore (m : Mem) (pos n : Nat) : Mem :=
  let m := setNext m n pos
  let m := setPrev m n (prev m pos)
  let m := setNext m (prev m n) n
  setPrev m pos n

/-- Join the two neighbours of `n`. -/
def unlink (m : Mem) (n : Nat) : Mem :=
  let m := setNext m (prev m n) (next m n)
  setPrev m (next m n) (prev m n)

theorem linkBefore_eq {m : Mem} {q pos n : Nat} (hp : prev m pos = q) (hn : Apart n pos) :
    linkBefore m pos n =
      (((m.write32 (n + 4) pos).write32 n q).write32 (q + 4) n).write32 pos n := by
  have hq : q < 2 ^ 32 := hp ▸ read32_lt _ _
  have hpos : prev (setNext m n pos) pos = q := by
    rw [← hp]
    unfold prev setNext
    unfold Apart at hn
    exact read32_ne _ _ (by omega)
  have hself : prev (setPrev (setNext m n pos) n q) n = q :=
    read32_self _ _ hq
  simp only [linkBefore, hpos, hself]
  rfl

/-- The four link words that linking sets. -/
theorem linkBefore_links {m : Mem} {q pos n : Nat} (hp : prev m pos = q) (hn : Apart n pos)
    (hq : Apart n q) (hqp : q = pos ∨ Apart q pos) (hnb : n < 2 ^ 32) (hpb : pos < 2 ^ 32) :
    next (linkBefore m pos n) n = pos ∧ prev (linkBefore m pos n) n = q ∧
      next (linkBefore m pos n) q = n ∧ prev (linkBefore m pos n) pos = n := by
  have hqb : q < 2 ^ 32 := hp ▸ read32_lt _ _
  rw [linkBefore_eq hp hn]
  unfold Apart at hn hq hqp
  unfold next prev
  refine ⟨?_, ?_, ?_, ?_⟩
  · rw [read32_ne _ _ (by omega), read32_ne _ _ (by omega),
      read32_ne _ _ (by omega), read32_self _ _ hpb]
  · rw [read32_ne _ _ (by omega), read32_ne _ _ (by omega),
      read32_self _ _ hqb]
  · rw [read32_ne _ _ (by omega), read32_self _ _ hnb]
  · rw [read32_self _ _ hnb]

/-- Linking changes only the two link words of the new node, the next word of
the node before it and the previous word of the node after it. -/
theorem linkBefore_frame {m : Mem} {q pos n x : Nat} (hp : prev m pos = q) (hn : Apart n pos)
    (hx : x < n ∨ n + 8 ≤ x) (hxq : x < q + 4 ∨ q + 8 ≤ x) (hxp : x < pos ∨ pos + 4 ≤ x) :
    linkBefore m pos n x = m x := by
  rw [linkBefore_eq hp hn, write32_apply _ _ (by omega), write32_apply _ _ (by omega),
    write32_apply _ _ (by omega), write32_apply _ _ (by omega)]

theorem unlink_eq {m : Mem} {q r n : Nat} (hp : prev m n = q) (hr : next m n = r)
    (hq : Apart n q) : unlink m n = (m.write32 (q + 4) r).write32 r q := by
  unfold Apart at hq
  have hnext : next (setNext m q r) n = r := by
    rw [← hr]
    unfold next setNext
    exact read32_ne _ _ (by omega)
  have hprev : prev (setNext m q r) n = q := by
    rw [← hp]
    unfold prev setNext
    exact read32_ne _ _ (by rw [show m.read32 n = q from hp]; omega)
  simp only [unlink, hp, hr, hnext, hprev]
  rfl

/-- The two link words that unlinking sets. -/
theorem unlink_links {m : Mem} {q r n : Nat} (hp : prev m n = q) (hr : next m n = r)
    (hq : Apart n q) (hqr : q = r ∨ Apart q r) :
    next (unlink m n) q = r ∧ prev (unlink m n) r = q := by
  have hqb : q < 2 ^ 32 := hp ▸ read32_lt _ _
  have hrb : r < 2 ^ 32 := hr ▸ read32_lt _ _
  rw [unlink_eq hp hr hq]
  unfold Apart at hqr
  unfold next prev
  refine ⟨?_, ?_⟩
  · rw [read32_ne _ _ (by omega), read32_self _ _ hrb]
  · rw [read32_self _ _ hqb]

/-- Unlinking changes only the next word of the node before and the previous
word of the node after. -/
theorem unlink_frame {m : Mem} {q r n x : Nat} (hp : prev m n = q) (hr : next m n = r)
    (hq : Apart n q) (hxq : x < q + 4 ∨ q + 8 ≤ x) (hxr : x < r ∨ r + 4 ≤ x) :
    unlink m n x = m x := by
  rw [unlink_eq hp hr hq, write32_apply _ _ (by omega), write32_apply _ _ (by omega)]

/-! ## Segments -/

/-- The nodes `xs` lead from `a` to `b`, linked both ways. -/
def Seg (m : Mem) : Nat → List Nat → Nat → Prop
  | a, [], b => next m a = b ∧ prev m b = a
  | a, x :: xs, b => (next m a = x ∧ prev m x = a) ∧ Seg m x xs b

@[simp] theorem seg_nil {m : Mem} {a b : Nat} :
    Seg m a [] b ↔ next m a = b ∧ prev m b = a := Iff.rfl

@[simp] theorem seg_cons {m : Mem} {a b x : Nat} {xs : List Nat} :
    Seg m a (x :: xs) b ↔ (next m a = x ∧ prev m x = a) ∧ Seg m x xs b := Iff.rfl

theorem seg_append {m : Mem} {b x : Nat} {ys : List Nat} :
    ∀ {xs : List Nat} {a : Nat},
      Seg m a (xs ++ x :: ys) b ↔ Seg m a xs x ∧ Seg m x ys b
  | [], a => by simp only [nil_append, seg_cons, seg_nil]
  | y :: xs, a => by
      rw [cons_append, seg_cons, seg_cons, @seg_append m b x ys xs y, and_assoc, and_assoc,
        and_assoc]

/-- `prev` undoes `next`. -/
theorem Seg.prev_next {m : Mem} {a b n : Nat} {xs : List Nat} (h : Seg m a xs b) (hn : n ∈ a :: xs) :
    prev m (next m n) = n := by
  induction xs generalizing a with
  | nil =>
    obtain rfl := mem_singleton.1 hn
    rw [h.1, h.2]
  | cons x xs ih =>
    rcases mem_cons.1 hn with rfl | hn
    · rw [h.1.1, h.1.2]
    · exact ih h.2 hn

/-- `next` undoes `prev`. -/
theorem Seg.next_prev {m : Mem} {a b n : Nat} {xs : List Nat} (h : Seg m a xs b) (hn : n ∈ b :: xs) :
    next m (prev m n) = n := by
  induction xs generalizing a with
  | nil =>
    obtain rfl := mem_singleton.1 hn
    rw [h.2, h.1]
  | cons x xs ih =>
    by_cases hx : n = x
    · rw [hx, h.1.2, h.1.1]
    · refine ih h.2 ?_
      simp only [mem_cons] at hn ⊢
      exact hn.imp_right fun hn => hn.resolve_left hx

/-- The node before the end of a segment is its start or one of its nodes. -/
theorem Seg.prev_end_mem {m : Mem} {b : Nat} :
    ∀ {xs : List Nat} {a : Nat}, Seg m a xs b → prev m b ∈ a :: xs
  | [], a, h => by simp [h.2]
  | x :: xs, a, h => by
      have := Seg.prev_end_mem h.2
      exact mem_cons_of_mem _ this

/-- The node before the end of a segment is its last one, or its start. -/
theorem Seg.prev_end {m : Mem} {b : Nat} :
    ∀ {xs : List Nat} {a : Nat}, Seg m a xs b → prev m b = xs.reverse.headD a
  | [], _, h => h.2
  | x :: xs, a, h => by
      rw [Seg.prev_end h.2, reverse_cons]
      cases xs.reverse <;> rfl

variable {m m' : Mem}

theorem Seg.congr {b : Nat} :
    ∀ {xs : List Nat} {a : Nat}, Seg m a xs b →
      (∀ n ∈ a :: xs, next m' n = next m n) → (∀ n ∈ xs ++ [b], prev m' n = prev m n) →
      Seg m' a xs b
  | [], a, h, hn, hp => by
      refine ⟨?_, ?_⟩
      · rw [hn a (by simp)]; exact h.1
      · rw [hp b (by simp)]; exact h.2
  | x :: xs, a, h, hn, hp => by
      refine ⟨⟨?_, ?_⟩, ?_⟩
      · rw [hn a (by simp)]; exact h.1.1
      · rw [hp x (by simp)]; exact h.1.2
      · exact Seg.congr h.2 (fun n hx => hn n (mem_cons_of_mem _ hx))
          (fun n hx => hp n (mem_cons_of_mem _ hx))

/-- A segment is a chain of links. -/
theorem seg_iff {xs : List Nat} {a b : Nat} :
    Seg m a xs b ↔ (a :: (xs ++ [b])).IsChain (Links.Link (some ∘ next m) (some ∘ prev m)) := by
  induction xs generalizing a with
  | nil => simp [Links.Link]
  | cons x xs ih => simp [Links.Link, ih]

/-! ## Rings -/

/-- The links of `m'`, as far as the nodes `ns` go, after `n` was put between
`q` and `pos`. -/
structure LinkedBefore (m m' : Mem) (ns : List Nat) (q pos n : Nat) : Prop where
  next_self : next m' n = pos
  prev_self : prev m' n = q
  next_before : next m' q = n
  prev_pos : prev m' pos = n
  next_other : ∀ x ∈ ns, x ≠ q → next m' x = next m x
  prev_other : ∀ x ∈ ns, x ≠ pos → prev m' x = prev m x

/-- The links of `m'`, as far as the nodes `ns` go, after the node between `q`
and `r` was taken out. -/
structure Unlinked (m m' : Mem) (ns : List Nat) (q r : Nat) : Prop where
  next_before : next m' q = r
  prev_after : prev m' r = q
  next_other : ∀ x ∈ ns, x ≠ q → next m' x = next m x
  prev_other : ∀ x ∈ ns, x ≠ r → prev m' x = prev m x

variable {ys zs : List Nat}

/-- Where the nodes of a ring lie that is cut before a node `z`. -/
theorem nodup_split {s z : Nat} (hnd : (s :: (ys ++ z :: zs)).Nodup) :
    (s :: ys).Nodup ∧ (z :: zs).Nodup ∧ ∀ x ∈ s :: ys, x ∉ z :: zs := by
  have h := nodup_append'.1 (show ((s :: ys) ++ z :: zs).Nodup from hnd)
  exact ⟨h.1, h.2.1, fun x hx hx' => h.2.2 hx hx'⟩

/-- Linking a node before the first node of `zs` (before the sentinel when
`zs` is empty) puts it between `ys` and `zs`. -/
theorem Seg.link {s q pos n : Nat} (h : Seg m s (ys ++ zs) s) (hnd : (s :: (ys ++ zs)).Nodup) (hpos : pos = zs.headD s)
    (hq : prev m pos = q) (hl : LinkedBefore m m' (s :: (ys ++ zs)) q pos n) :
    Seg m' s (ys ++ n :: zs) s := by
  obtain ⟨q', p, C⟩ := Links.Ring.cut ⟨hnd, seg_iff.1 h⟩
  obtain rfl : p = pos := by
    have hp := C.first
    cases zs <;> simp_all
  obtain rfl : q' = q := Option.some.inj (C.link.2.symm.trans (congrArg some hq))
  exact seg_iff.2 (C.insert hnd (fun x hx hne => congrArg some (hl.next_other x hx hne))
    (fun x hx hne => congrArg some (hl.prev_other x hx hne)) ⟨congrArg some hl.next_before, congrArg some hl.prev_self⟩
    ⟨congrArg some hl.next_self, congrArg some hl.prev_pos⟩)

/-- Unlinking a node of a ring leaves the ring of the others. -/
theorem Seg.unlink {s q r n : Nat} (h : Seg m s (ys ++ n :: zs) s) (hnd : (s :: (ys ++ n :: zs)).Nodup)
    (hq : prev m n = q) (hr : next m n = r) (hl : Unlinked m m' (s :: (ys ++ zs)) q r) : Seg m' s (ys ++ zs) s := by
  have R : Links.Ring (some ∘ next m) (some ∘ prev m) s (ys ++ n :: zs) := ⟨hnd, seg_iff.1 h⟩
  exact seg_iff.2 (R.unlink (congrArg some hq) (congrArg some hr) (fun x hx hne => congrArg some (hl.next_other x hx hne))
    (fun x hx hne => congrArg some (hl.prev_other x hx hne)) ⟨congrArg some hl.next_before, congrArg some hl.prev_after⟩).chain

end Ring

end Library
