import MakarnaX.Kernel.Basic
import MakarnaX.Library.System
import Mathlib.Data.Fintype.Card
import Mathlib.Data.List.Pairwise
import Mathlib.Data.Fintype.Basic

/-!
# The id hash table of `wmc/idhashtable.h`

A node is in the table if its id is bound to it.  The nodes whose ids have the
same hash are a chain, linked both ways and without a sentinel: the last one has
no `__next`, the first one no `__prev`.  A node without links is free, so the
only node of a chain needs a mark: its `__prev` is `0xffffffff`.

The mark is set by `put` if the chain is empty, and by nothing else.  A `remove`
that leaves one node of a chain does not mark it, and then the node looks free; a
`remove` of the marked node goes to the address `0xffffffff`.  As long as at
least two nodes of the chain stay behind, the table is a finite map.
-/

namespace MakarnaX.IdHashTable

open Library Function Finset

/-! ## The table -/

/-- The address of a node. -/
abbrev Node := { a : Fin (2 ^ 32) // a ≠ 0 ∧ a ≠ Fin.last (2 ^ 32 - 1) }

/-- A `node_t *`: `NULL`, `0xffffffff` or a node. -/
inductive Ptr
  | null
  | mark
  | node (n : Node)
deriving DecidableEq

/-- `struct IdHashTable`, and the links of all nodes. -/
@[ext] structure Table where
  tableSize : Nat
  table : Nat → Ptr
  count : Nat
  prev : Node → Ptr
  next : Node → Ptr

/-- How a call may not return: it uses a pointer that leads to no node, or
follows links without end. -/
inductive Wild
  | pointer
  | loop
deriving DecidableEq, Repr

abbrev TableM := StateT Table (Except Wild)

/-- `init`, on a table with room for `size` pointers and nodes that are initialised. -/
def init (size : Nat) : Table where
  tableSize := size
  table _ := .null
  count := 0
  prev _ := .null
  next _ := .null

def isFree (s : Table) (n : Node) : Prop := s.prev n = .null ∧ s.next n = .null

instance (s : Table) (n : Node) : Decidable (isFree s n) := inferInstanceAs (Decidable (_ ∧ _))

def setPrev (n : Node) (p : Ptr) : TableM Unit := modify fun s => { s with prev := update s.prev n p }

def setNext (n : Node) (p : Ptr) : TableM Unit := modify fun s => { s with next := update s.next n p }

def setTable (hash : Nat) (p : Ptr) : TableM Unit := modify fun s => { s with table := update s.table hash p }

section Operations

variable (id : Node → Nat)

/-- The loop of `put` and of `get`: the first node from `i` on with the id `x`. -/
def scan (s : Table) (x : Nat) : Nat → Ptr → Except Wild (Option Node)
  | _, .null => .ok none
  | _, .mark => .error .pointer
  | 0, .node _ => .error .loop
  | turns + 1, .node i => if id i = x then .ok (some i) else scan s x turns (s.next i)

def put (n : Node) : TableM Int := do
  let s ← get
  if ¬ isFree s n then
    return -1
  let hash := id n % s.tableSize
  match ← scan id s (id n) (2 ^ 32) (s.table hash) with
  | some _ => return -1
  | none =>
    match s.table hash with
    | .node i =>
      setNext n (.node i)
      setPrev i (.node n)
    | .null => setPrev n .mark
    | .mark => throw .pointer
    setTable hash (.node n)
    modify fun s => { s with count := add32 s.count 1 }
    return 0

def get (x : Nat) : TableM (Option Node) := do
  let s ← MonadState.get
  scan id s x (2 ^ 32) (s.table (x % s.tableSize))

/-- The first part of `remove`: what is before `n` goes on behind it.  False if
`n` is not in this table. -/
def unlinkPrev (n : Node) : TableM Bool := do
  let s ← MonadState.get
  match s.prev n with
  | .node p =>
    setNext p (s.next n)
    return true
  | .mark => throw .pointer
  | .null =>
    if s.table (id n % s.tableSize) ≠ .node n then
      return false
    setTable (id n % s.tableSize) (s.next n)
    return true

/-- The second part: what is behind `n` goes back before it. -/
def unlinkNext (n : Node) : TableM Unit := do
  let s ← MonadState.get
  match s.next n with
  | .node q => setPrev q (s.prev n)
  | .mark => throw .pointer
  | .null => return

def remove (n : Node) : TableM Int := do
  if !(← unlinkPrev id n) then
    return -1
  unlinkNext n
  setPrev n .null
  setNext n .null
  modify fun s => { s with count := sub32 s.count 1 }
  return 0

end Operations

/-! ## Chains -/

/-- The pointer to what may be there. -/
def Ptr.ofOption : Option Node → Ptr
  | none => .null
  | some n => .node n

/-- The `__prev` of a node with `l` before and `r` behind it. -/
def back (l r : List Node) : Ptr :=
  match l.getLast? with
  | some a => .node a
  | none => if r = [] then .mark else .null

/-- The table holds these chains, one for each hash. -/
structure Chained (id : Node → Nat) (s : Table) (chain : Nat → List Node) : Prop where
  size : 0 < s.tableSize
  first : ∀ h, s.table h = .ofOption (chain h).head?
  next : ∀ h l n r, chain h = l ++ n :: r → s.next n = .ofOption r.head?
  prev : ∀ h l n r, chain h = l ++ n :: r → s.prev n = back l r
  hash : ∀ h, ∀ n ∈ chain h, id n % s.tableSize = h
  ids : ∀ h, (chain h).Pairwise fun a b => id a ≠ id b
  free : ∀ n, n ∉ chain (id n % s.tableSize) → isFree s n

variable {id : Node → Nat} {s s' : Table} {chain : Nat → List Node} {n a : Node} {h x : Nat} {l r l' r' : List Node}

theorem card_node_lt : Fintype.card Node < 2 ^ 32 := by
  have hlt : Fintype.card Node < Fintype.card (Fin (2 ^ 32)) :=
    Fintype.card_subtype_lt (x := 0) fun h => h.1 rfl
  rwa [Fintype.card_fin] at hlt

namespace Chained

section

variable (C : Chained id s chain)

include C

theorem nodup (h : Nat) : (chain h).Nodup :=
  (C.ids h).imp fun hne heq => hne (congrArg id heq)

theorem length_lt (h : Nat) : (chain h).length < 2 ^ 32 :=
  Nat.lt_of_le_of_lt (C.nodup h).length_le_card card_node_lt

/-- From any place of a chain on, the loop finds the first node with the id. -/
theorem scan {turns : Nat} (hc : chain h = l ++ r) (ht : r.length ≤ turns) :
    IdHashTable.scan id s x turns (.ofOption r.head?) = .ok (r.find? fun a => id a = x) := by
  induction r generalizing l turns with
  | nil => cases turns <;> rfl
  | cons a r ih =>
    obtain ⟨turns, rfl⟩ : ∃ k, turns = k + 1 := ⟨turns - 1, by simp only [List.length_cons] at ht; omega⟩
    have hnext := C.next h l a r hc
    simp only [List.head?_cons, Ptr.ofOption, IdHashTable.scan, List.find?_cons]
    by_cases ha : id a = x
    · simp [ha]
    · rw [hnext, ih (l := l ++ [a]) (by simp [hc]) (Nat.le_of_succ_le_succ ht)]
      simp [ha]

theorem scan_first (h x : Nat) :
    IdHashTable.scan id s x (2 ^ 32) (s.table h) = .ok ((chain h).find? fun a => id a = x) := by
  rw [C.first]
  exact C.scan (List.nil_append _).symm (Nat.le_of_lt (C.length_lt h))

/-- `get` finds the node with the id. -/
theorem get (x : Nat) :
    IdHashTable.get id x s = .ok ((chain (x % s.tableSize)).find? fun a => id a = x, s) := by
  simp only [IdHashTable.get, get_run]
  rw [C.scan_first]
  rfl

/-- A node in a chain has a link or the mark. -/
theorem isFree_iff (n : Node) : isFree s n ↔ n ∉ chain (id n % s.tableSize) := by
  refine ⟨fun hf hn => ?_, C.free n⟩
  obtain ⟨l, r, hc⟩ := List.append_of_mem hn
  have hp := C.prev _ l n r hc
  have hx := C.next _ l n r hc
  rw [hf.1] at hp
  rw [hf.2] at hx
  unfold back at hp
  cases hl : l.getLast? with
  | some a =>
    rw [hl] at hp
    cases hp
  | none =>
    rw [hl] at hp
    cases r with
    | nil => cases hp
    | cons b r => cases hx

/-- Only the chain of `h` has changed, to `ys`.  The nodes that left it are free. -/
theorem change {ys : List Node} (hsize : s'.tableSize = s.tableSize)
    (hfirst : ∀ g, s'.table g = .ofOption (update chain h ys g).head?)
    (hlinks : ∀ l a r, ys = l ++ a :: r → s'.next a = .ofOption r.head? ∧ s'.prev a = back l r)
    (hhash : ∀ a ∈ ys, id a % s.tableSize = h) (hids : ys.Pairwise fun a b => id a ≠ id b)
    (hkept : ∀ a, a ∉ chain h → a ∉ ys → s'.next a = s.next a ∧ s'.prev a = s.prev a)
    (hfree : ∀ a ∈ chain h, a ∉ ys → isFree s' a) : Chained id s' (update chain h ys) := by
  have hsplit : ∀ g l a r, update chain h ys g = l ++ a :: r →
      s'.next a = .ofOption r.head? ∧ s'.prev a = back l r := by
    intro g l a r hc
    by_cases hg : g = h
    · subst hg
      rw [update_self] at hc
      exact hlinks l a r hc
    · rw [update_of_ne hg] at hc
      have hne : id a % s.tableSize ≠ h := by rwa [C.hash g a (hc ▸ by simp)]
      obtain ⟨h1, h2⟩ := hkept a (fun hm => hne (C.hash h a hm)) fun hm => hne (hhash a hm)
      exact ⟨h1.trans (C.next g l a r hc), h2.trans (C.prev g l a r hc)⟩
  refine ⟨hsize ▸ C.size, hfirst, fun g l a r hc => (hsplit g l a r hc).1, fun g l a r hc => (hsplit g l a r hc).2,
    fun g a ha => ?_, fun g => ?_, fun a ha => ?_⟩
  · rw [hsize]
    by_cases hg : g = h
    · subst hg
      rw [update_self] at ha
      exact hhash a ha
    · rw [update_of_ne hg] at ha
      exact C.hash g a ha
  · by_cases hg : g = h
    · subst hg
      rwa [update_self]
    · rw [update_of_ne hg]
      exact C.ids g
  · rw [hsize] at ha
    have hy : a ∉ ys := fun hm => ha (by rwa [hhash a hm, update_self])
    by_cases hc : a ∈ chain h
    · exact hfree a hc hy
    · have hf : isFree s a := by
        refine C.free a ?_
        by_cases hg : id a % s.tableSize = h
        · rwa [hg]
        · rwa [update_of_ne hg] at ha
      obtain ⟨h1, h2⟩ := hkept a hc hy
      exact ⟨h2.trans hf.1, h1.trans hf.2⟩

end

end Chained

/-! ## `put` -/

theorem put_inTable (C : Chained id s chain) (hn : n ∈ chain (id n % s.tableSize)) : put id n s = .ok (-1, s) := by
  have hf : ¬ isFree s n := fun hf => (C.isFree_iff n).mp hf hn
  simp only [put, get_run]
  rw [if_pos hf]
  rfl

theorem put_bound (C : Chained id s chain) {m : Node} (hm : m ∈ chain (id n % s.tableSize)) (he : id m = id n) :
    put id n s = .ok (-1, s) := by
  by_cases hf : isFree s n
  · obtain ⟨a, ha⟩ : ∃ a, (chain (id n % s.tableSize)).find? (fun a => decide (id a = id n)) = some a := by
      rw [← Option.isSome_iff_exists, List.find?_isSome]
      exact ⟨m, hm, by simpa using he⟩
    simp only [put, get_run]
    rw [if_neg (not_not.mpr hf), C.scan_first, ha]
    rfl
  · exact put_inTable C (by_contra fun h => hf (C.free n h))

/-- The table behind a `put` that finds nothing. -/
def Table.push (id : Node → Nat) (s : Table) (n : Node) : Table :=
  let h := id n % s.tableSize
  { s with
    table := update s.table h (.node n)
    count := add32 s.count 1
    next := match s.table h with
      | .node i => update s.next n (.node i)
      | _ => s.next
    prev := match s.table h with
      | .node i => update s.prev i (.node n)
      | _ => update s.prev n .mark }

theorem put_new (C : Chained id s chain) (hn : ∀ m ∈ chain (id n % s.tableSize), id m ≠ id n) :
    put id n s = .ok (0, Table.push id s n) := by
  have hf : isFree s n := C.free n fun hm => hn n hm rfl
  have hnone : (chain (id n % s.tableSize)).find? (fun a => decide (id a = id n)) = none := by
    rw [List.find?_eq_none]
    intro m hm
    simpa using hn m hm
  simp only [put, get_run]
  rw [if_neg (not_not.mpr hf), C.scan_first, hnone]
  have hfirst := C.first (id n % s.tableSize)
  cases hc : (chain (id n % s.tableSize)).head? with
  | none | some i =>
    rw [hc] at hfirst
    simp only [hfirst, Ptr.ofOption, Table.push]
    rfl

/-- In front of a chain that was empty, or of its first node. -/
theorem back_cons {l r : List Node} : back (a :: l) r = if l = [] then .node a else back l r := by
  unfold back
  cases l with
  | nil => rfl
  | cons b l => simp [List.getLast?_cons]

namespace Chained

section

variable (C : Chained id s chain)

include C

/-- What `put` writes is away from the nodes of other chains and from free ones. -/
theorem push_other (hn : a ≠ n) (ha : (chain (id n % s.tableSize)).head? ≠ some a) :
    (Table.push id s n).next a = s.next a ∧ (Table.push id s n).prev a = s.prev a := by
  have hfirst := C.first (id n % s.tableSize)
  cases hc : (chain (id n % s.tableSize)).head? with
  | none =>
    rw [hc] at hfirst
    simp [Table.push, hfirst, Ptr.ofOption, hn]
  | some i =>
    rw [hc] at hfirst ha
    have hi : a ≠ i := fun h => ha (congrArg some h.symm)
    simp [Table.push, hfirst, Ptr.ofOption, hn, hi]

theorem push_self (hn : n ∉ chain (id n % s.tableSize)) :
    (Table.push id s n).next n = .ofOption (chain (id n % s.tableSize)).head? ∧
      (Table.push id s n).prev n = back [] (chain (id n % s.tableSize)) := by
  have hfirst := C.first (id n % s.tableSize)
  have hf := C.free n hn
  cases hc : chain (id n % s.tableSize) with
  | nil =>
    rw [hc] at hfirst
    simp only [List.head?_nil, Ptr.ofOption] at hfirst
    simp [Table.push, hfirst, Ptr.ofOption, hf.2, back]
  | cons i r =>
    rw [hc] at hfirst hn
    simp only [List.head?_cons, Ptr.ofOption] at hfirst
    have hi : n ≠ i := fun h => hn (h ▸ List.mem_cons_self)
    simp [Table.push, hfirst, Ptr.ofOption, hf.1, back, hi]

theorem push_first {i : Node} (hn : n ∉ chain (id n % s.tableSize)) (hi : (chain (id n % s.tableSize)).head? = some i) :
    (Table.push id s n).next i = s.next i ∧ (Table.push id s n).prev i = .node n := by
  have hfirst := C.first (id n % s.tableSize)
  rw [hi] at hfirst
  have hin : i ≠ n := by
    rintro rfl
    exact hn (List.mem_of_head? hi)
  simp [Table.push, hfirst, Ptr.ofOption, hin]

/-- `put` adds the node in front of its chain. -/
theorem push (hn : ∀ m ∈ chain (id n % s.tableSize), id m ≠ id n) :
    Chained id (Table.push id s n) (update chain (id n % s.tableSize) (n :: chain (id n % s.tableSize))) := by
  have hmem : n ∉ chain (id n % s.tableSize) := fun hm => hn n hm rfl
  refine C.change rfl (fun g => ?_) (fun l a r hc => ?_) (fun a ha => ?_)
    (List.pairwise_cons.mpr ⟨fun m hm => (hn m hm).symm, C.ids _⟩) (fun a ha hy => ?_)
    fun a ha hy => absurd (List.mem_cons_of_mem n ha) hy
  · by_cases hg : g = id n % s.tableSize
    · subst hg
      simp [Table.push, Ptr.ofOption]
    · simp only [Table.push, update_of_ne hg]
      exact C.first g
  · -- the new node, the one it was put before, or one that nothing was done to
    cases l with
    | nil =>
      obtain ⟨rfl, rfl⟩ := List.cons.inj hc
      exact C.push_self hmem
    | cons b l =>
      rw [List.cons_append, List.cons.injEq] at hc
      obtain ⟨rfl, hc⟩ := hc
      rw [back_cons]
      have hnext := C.next _ l a r hc
      have hprev := C.prev _ l a r hc
      cases l with
      | nil =>
        obtain ⟨h1, h2⟩ := C.push_first hmem (i := a) (by rw [hc]; rfl)
        exact ⟨h1.trans hnext, h2⟩
      | cons c l =>
        have hnd := C.nodup (id n % s.tableSize)
        rw [hc] at hnd
        have hca : c ≠ a := by
          rintro rfl
          simp at hnd
        have hna : a ≠ n := by
          rintro rfl
          exact hmem (by rw [hc]; simp)
        obtain ⟨h1, h2⟩ := C.push_other hna (by rw [hc]; simpa using hca)
        exact ⟨h1.trans hnext, h2.trans hprev⟩
  · rcases List.mem_cons.mp ha with rfl | ha
    · rfl
    · exact C.hash _ a ha
  · exact C.push_other (fun he => hy (he ▸ List.mem_cons_self)) fun hi => ha (List.mem_of_head? hi)

end

end Chained

/-! ## `remove` -/

/-- The table behind a `remove` of `n`, with `l` before it and `r` behind. -/
def Table.cut (s : Table) (h : Nat) (l : List Node) (n : Node) (r : List Node) : Table :=
  { s with
    table := if l = [] then update s.table h (.ofOption r.head?) else s.table
    count := sub32 s.count 1
    next := fun a => if a = n then .null else if l.getLast? = some a then .ofOption r.head? else s.next a
    prev := fun a => if a = n then .null else if r.head? = some a then s.prev n else s.prev a }

theorem unlinkPrev_eq (C : Chained id s chain) (hc : chain h = l ++ n :: r) (hne : l ≠ [] ∨ r ≠ []) :
    unlinkPrev id n s = .ok (true, { s with
      table := if l = [] then update s.table h (.ofOption r.head?) else s.table
      next := fun a => if l.getLast? = some a then .ofOption r.head? else s.next a }) := by
  have hprev := C.prev h l n r hc
  have hnext := C.next h l n r hc
  have hhash : id n % s.tableSize = h := C.hash h n (hc ▸ by simp)
  rcases List.eq_nil_or_concat l with rfl | ⟨l, p, rfl⟩
  · have hr : r ≠ [] := hne.resolve_left (fun h => h rfl)
    have hfirst : s.table h = .node n := by
      rw [C.first, hc]
      rfl
    simp [unlinkPrev, hprev, back, hr, hhash, hfirst, setTable, hnext]
  · have hupd : update s.next p (Ptr.ofOption r.head?) = fun a => if p = a then .ofOption r.head? else s.next a := by
      funext a
      simp [update_apply, eq_comm]
    simp [unlinkPrev, hprev, back, setNext, hnext, hupd]

theorem unlinkNext_eq (hs : s.next n = .ofOption r.head?) :
    unlinkNext n s = .ok ((), { s with prev := fun a => if r.head? = some a then s.prev n else s.prev a }) := by
  cases r with
  | nil => simp [unlinkNext, hs, Ptr.ofOption]
  | cons q r =>
    have hupd : update s.prev q (s.prev n) = fun a => if q = a then s.prev n else s.prev a := by
      funext a
      simp [update_apply, eq_comm]
    simp [unlinkNext, hs, Ptr.ofOption, setPrev, hupd]

theorem remove_eq (C : Chained id s chain) (hc : chain h = l ++ n :: r) (hne : l ≠ [] ∨ r ≠ []) :
    remove id n s = .ok (0, Table.cut s h l n r) := by
  have hnext := C.next h l n r hc
  have hnd := C.nodup h
  rw [hc] at hnd
  have hlast : l.getLast? ≠ some n := by
    intro hl
    have hmem := List.mem_of_getLast? hl
    exact (List.disjoint_of_nodup_append hnd) hmem List.mem_cons_self
  rw [remove, bind_run (unlinkPrev_eq C hc hne)]
  simp only [Bool.not_true, Bool.false_eq_true, if_false]
  rw [bind_run (unlinkNext_eq (r := r) (by simpa [hlast] using hnext))]
  simp only [setPrev, setNext, modify_run, pure_apply, Except.ok.injEq, Prod.mk.injEq, true_and]
  ext a <;> simp [Table.cut, update_apply]

/-- A place in `l ++ r` is in `r` or in `l`. -/
theorem behind_or_before (h : l ++ r = l' ++ a :: r') :
    (∃ m, r = m ++ a :: r' ∧ l' = l ++ m) ∨ ∃ m, l = l' ++ a :: m ∧ r' = m ++ r := by
  rcases List.append_eq_append_iff.mp h with ⟨m, hl', hr⟩ | ⟨m, hl, hr⟩
  · exact .inl ⟨m, hr, hl'⟩
  · cases m with
    | nil => exact .inl ⟨[], by simpa using hr.symm, by simpa using hl.symm⟩
    | cons b m =>
      rw [List.cons_append, List.cons.injEq] at hr
      obtain ⟨rfl, rfl⟩ := hr
      exact .inr ⟨m, hl, rfl⟩

namespace Chained

/-- The links of a node that is not next to `n`. -/
theorem cut_other (hn : a ≠ n) :
    (Table.cut s h l n r).next a = (if l.getLast? = some a then .ofOption r.head? else s.next a) ∧
      (Table.cut s h l n r).prev a = if r.head? = some a then s.prev n else s.prev a :=
  ⟨if_neg hn, if_neg hn⟩

section

variable (C : Chained id s chain) (hc : chain h = l ++ n :: r) (h2 : 2 ≤ (l ++ r).length)

include C hc h2

/-- The links in the chain that is left, if two nodes are. -/
theorem cut_links (ha : l ++ r = l' ++ a :: r') :
    (Table.cut s h l n r).next a = .ofOption r'.head? ∧ (Table.cut s h l n r).prev a = back l' r' := by
  have hnd := C.nodup h
  rw [hc] at hnd
  have hna : a ≠ n := by
    rintro rfl
    have hmem : a ∈ l ++ r := ha ▸ by simp
    rw [List.nodup_middle] at hnd
    exact (List.nodup_cons.mp hnd).1 hmem
  rw [(cut_other hna).1, (cut_other hna).2]
  have hsides : ∀ b ∈ l, b ∉ r := fun b hl hr => (List.disjoint_of_nodup_append hnd) hl (List.mem_cons_of_mem n hr)
  rcases behind_or_before ha with ⟨m, rfl, rfl⟩ | ⟨m, rfl, rfl⟩
  · have hold : chain h = (l ++ n :: m) ++ a :: r' := by simp [hc]
    have hlast : l.getLast? ≠ some a := fun hl => hsides a (List.mem_of_getLast? hl) (by simp)
    rw [if_neg hlast]
    refine ⟨C.next h _ a r' hold, ?_⟩
    cases m with
    | nil =>
      have hr' : l = [] → r' ≠ [] := by
        rintro rfl rfl
        simp at h2
      rw [List.nil_append, List.head?_cons, if_pos rfl, C.prev h l n _ hc, List.append_nil]
      unfold back
      cases hl : l.getLast? with
      | some b => rfl
      | none => simp [hr' (List.getLast?_eq_none_iff.mp hl)]
    | cons c m =>
      have hca : c ≠ a := by
        rintro rfl
        rw [hold] at hc
        have hnd' := C.nodup h
        rw [hold] at hnd'
        exact (List.disjoint_of_nodup_append hnd') (a := c) (by simp) List.mem_cons_self
      rw [List.cons_append, List.head?_cons, if_neg (by simpa using hca), C.prev h _ a r' hold]
      unfold back
      simp [List.getLast?_append, List.getLast?_cons]
  · have hold : chain h = l' ++ a :: (m ++ n :: r) := by simp [hc]
    have hhead : r.head? ≠ some a := fun hr => hsides a (by simp) (List.mem_of_head? hr)
    rw [if_neg hhead]
    refine ⟨?_, ?_⟩
    · cases m with
      | nil => simp
      | cons c m =>
        have hla : (l' ++ a :: c :: m).getLast? ≠ some a := by
          intro hl
          have hnd' := (List.nodup_append.mp (List.nodup_append.mp hnd).1).2.1
          have hmem : a ∈ c :: m := by
            have := List.mem_of_getLast? (l := c :: m) (a := a) (by simpa [List.getLast?_append, List.getLast?_cons] using hl)
            exact this
          exact (List.nodup_cons.mp hnd').1 hmem
        rw [if_neg hla, C.next h l' a _ hold]
        rfl
    · rw [C.prev h l' a _ hold]
      unfold back
      cases hl : l'.getLast? with
      | some b => rfl
      | none =>
        obtain rfl := List.getLast?_eq_none_iff.mp hl
        have hr : m ++ r ≠ [] := by
          intro he
          simp [he] at h2
        rw [if_neg (by simp), if_neg hr]

/-- `remove` takes the node out of its chain, if two nodes are left there. -/
theorem cut :
    Chained id (Table.cut s h l n r) (update chain h (l ++ r)) := by
  have hmem : ∀ m, m ∈ chain h ↔ m = n ∨ m ∈ l ++ r := fun m => by
    rw [hc]
    simp only [List.mem_append, List.mem_cons]
    tauto
  refine C.change rfl (fun g => ?_) (fun l' a r' => C.cut_links hc h2) (fun a ha => C.hash h a ((hmem a).mpr (.inr ha)))
    ?_ (fun a ha hy => ?_) fun a ha hy => ?_
  · by_cases hg : g = h
    · subst hg
      rw [update_self]
      have hfirst := C.first g
      rw [hc] at hfirst
      cases l with
      | nil => simp [Table.cut]
      | cons b l => simpa [Table.cut] using hfirst
    · rw [update_of_ne hg, ← C.first g]
      cases l with
      | nil => simp [Table.cut, hg]
      | cons b l => rfl
  · have hids := C.ids h
    rw [hc] at hids
    exact hids.sublist ((List.sublist_cons_self n r).append_left l)
  · obtain ⟨h1, h2⟩ := cut_other (s := s) (h := h) (l := l) (r := r) fun he : a = n => ha ((hmem a).mpr (.inl he))
    rw [h1, h2, if_neg fun hl => hy (List.mem_append_left r (List.mem_of_getLast? hl)),
      if_neg fun hr => hy (List.mem_append_right l (List.mem_of_head? hr))]
    exact ⟨rfl, rfl⟩
  · obtain rfl := ((hmem a).mp ha).resolve_right hy
    exact ⟨if_pos rfl, if_pos rfl⟩

end

end Chained

/-! ## The finite map -/

/-- A table, and the nodes whose ids are bound. -/
structure Config where
  table : Table
  bound : Finset Node

/-- The nodes of the chain of `n`. -/
def bucket (id : Node → Nat) (c : Config) (n : Node) : Finset Node :=
  c.bound.filter fun m => id m % c.table.tableSize = id n % c.table.tableSize

/-- `put` binds the id of this node. -/
def Fits (id : Node → Nat) (B : Finset Node) (n : Node) : Prop := n ∉ B ∧ ∀ m ∈ B, id m ≠ id n

instance (B : Finset Node) (n : Node) : Decidable (Fits id B n) :=
  @instDecidableAnd _ _ inferInstance decidableDforallFinset

inductive Op
  | put (n : Node)
  | remove (n : Node)
  | get (x : Nat)

/-- The nodes that are bound behind a call. -/
def Op.effect (id : Node → Nat) (B : Finset Node) : Op → Finset Node
  | .put n => if Fits id B n then insert n B else B
  | .remove n => B.erase n
  | .get _ => B

def Op.run (id : Node → Nat) : Op → TableM Unit
  | .put n => discard (IdHashTable.put id n)
  | .remove n => discard (IdHashTable.remove id n)
  | .get x => discard (IdHashTable.get id x)

/-- A node that is removed is in the table. -/
def Op.enabled (c : Config) : Op → Prop
  | .remove n => n ∈ c.bound
  | _ => True

/-- At least two nodes stay behind in the chain of a node that is removed. -/
def Op.leavesTwo (id : Node → Nat) (c : Config) : Op → Prop
  | .remove n => 3 ≤ (bucket id c n).card
  | _ => True

/-- The calls on a table of this size that meet `allowed`. -/
def system (id : Node → Nat) (size : Nat) (allowed : Config → Op → Prop) : System Config where
  init c := c = ⟨init size, ∅⟩
  step c c' := ∃ op : Op, op.enabled c ∧ allowed c op ∧ op.run id c.table = .ok ((), c'.table) ∧
    c'.bound = op.effect id c.bound

/-- The chains hold the nodes that are bound. -/
def Holds (id : Node → Nat) (c : Config) : Prop :=
  ∃ chain, Chained id c.table chain ∧ (∀ n, n ∈ c.bound ↔ n ∈ chain (id n % c.table.tableSize)) ∧
    c.table.count = c.bound.card

/-- The table is the map from the ids of the bound nodes to these nodes. -/
structure Sound (id : Node → Nat) (c : Config) : Prop where
  map : Set.InjOn id c.bound
  put : ∀ n, ∃ s, put id n c.table = .ok (if Fits id c.bound n then 0 else -1, s) ∧
    (¬ Fits id c.bound n → s = c.table)
  get : ∀ x, ∃ r, get id x c.table = .ok (r, c.table) ∧ ∀ n, r = some n ↔ n ∈ c.bound ∧ id n = x
  remove : ∀ n ∈ c.bound, 3 ≤ (bucket id c n).card → ∃ s, remove id n c.table = .ok (0, s)
  count : c.table.count = c.bound.card
  free : ∀ n, isFree c.table n ↔ n ∉ c.bound

variable {c c' : Config}

section

variable (C : Chained id c.table chain) (hB : ∀ n, n ∈ c.bound ↔ n ∈ chain (id n % c.table.tableSize))

include C hB

theorem Chained.bucket_card (n : Node) :
    (bucket id c n).card = (chain (id n % c.table.tableSize)).length := by
  rw [← List.toFinset_card_of_nodup (C.nodup _)]
  congr 1
  ext m
  simp only [bucket, mem_filter, hB, List.mem_toFinset]
  constructor
  · rintro ⟨hm, he⟩
    rwa [he] at hm
  · intro hm
    have he := C.hash _ m hm
    rw [he]
    exact ⟨hm, rfl⟩

theorem Chained.fits_iff (n : Node) :
    Fits id c.bound n ↔ ∀ m ∈ chain (id n % c.table.tableSize), id m ≠ id n := by
  constructor
  · rintro ⟨-, hm⟩ m hmc
    refine hm m ((hB m).mpr ?_)
    rwa [C.hash _ m hmc]
  · intro hm
    refine ⟨fun hn => hm n ((hB n).mp hn) rfl, fun m hmB he => hm m ?_ he⟩
    rw [← he]
    exact (hB m).mp hmB

theorem Chained.put_eq (n : Node) :
    put id n c.table = if Fits id c.bound n then .ok (0, Table.push id c.table n) else .ok (-1, c.table) := by
  split
  · next hf => exact put_new C ((C.fits_iff hB n).mp hf)
  · next hf =>
    rw [C.fits_iff hB n] at hf
    push Not at hf
    obtain ⟨m, hm, he⟩ := hf
    exact put_bound C hm he

/-- A node in the table, with what is before and behind it. -/
theorem Chained.remove_bound (hn : n ∈ c.bound) (h3 : 3 ≤ (bucket id c n).card) :
    ∃ l r, chain (id n % c.table.tableSize) = l ++ n :: r ∧ 2 ≤ (l ++ r).length ∧
      remove id n c.table = .ok (0, Table.cut c.table (id n % c.table.tableSize) l n r) := by
  obtain ⟨l, r, hc⟩ := List.append_of_mem ((hB n).mp hn)
  rw [C.bucket_card hB, hc] at h3
  have h2 : 2 ≤ (l ++ r).length := by
    simp only [List.length_append, List.length_cons] at h3 ⊢
    omega
  refine ⟨l, r, hc, h2, remove_eq C hc ?_⟩
  by_contra hne
  push Not at hne
  obtain ⟨rfl, rfl⟩ := hne
  simp at h2

end

theorem Holds.sound (H : Holds id c) : Sound id c := by
  obtain ⟨chain, C, hB, hcount⟩ := H
  have hinj : Set.InjOn id c.bound := by
    intro a ha b hb he
    have ha' := (hB a).mp ha
    have hb' := (hB b).mp hb
    rw [← he] at hb'
    have hsymm : Std.Symm fun a b : Node => id a ≠ id b := ⟨fun _ _ h => h.symm⟩
    by_contra hne
    exact (C.ids _).forall ha' hb' hne he
  refine ⟨hinj, fun n => ?_, fun x => ⟨_, C.get x, fun n => ?_⟩, fun n hn h3 => ?_, hcount, fun n => ?_⟩
  · rw [C.put_eq hB]
    split
    · next hf => exact ⟨_, rfl, fun h => absurd hf h⟩
    · exact ⟨_, rfl, fun _ => rfl⟩
  · constructor
    · intro hn
      have hid : id n = x := by simpa using List.find?_some hn
      have hmem := List.mem_of_find?_eq_some hn
      rw [← hid] at hmem
      exact ⟨(hB n).mpr hmem, hid⟩
    · rintro ⟨hn, rfl⟩
      have hmem := (hB n).mp hn
      cases hf : (chain (id n % c.table.tableSize)).find? fun a => decide (id a = id n) with
      | none => exact absurd (List.find?_eq_none.mp hf n hmem) (by simp)
      | some m =>
        have hid : id m = id n := by simpa using List.find?_some hf
        have hm := List.mem_of_find?_eq_some hf
        rw [← hid] at hm
        rw [hinj ((hB m).mpr hm) hn hid]
  · obtain ⟨l, r, -, -, hr⟩ := C.remove_bound hB hn h3
    exact ⟨_, hr⟩
  · rw [C.isFree_iff, hB]

theorem Holds.init {size : Nat} (h : 0 < size) : Holds id ⟨init size, ∅⟩ :=
  ⟨fun _ => [], ⟨h, fun _ => rfl, fun _ l _ _ hc => by simp at hc, fun _ l _ _ hc => by simp at hc,
    fun _ _ hm => absurd hm List.not_mem_nil, fun _ => .nil, fun _ _ => ⟨rfl, rfl⟩⟩, fun n => by simp, rfl⟩

theorem card_lt (B : Finset Node) : B.card < 2 ^ 32 := Nat.lt_of_le_of_lt B.card_le_univ card_node_lt

theorem Holds.put (H : Holds id c) {s : Table} {a : Int} (hr : IdHashTable.put id n c.table = .ok (a, s)) :
    Holds id ⟨s, if Fits id c.bound n then insert n c.bound else c.bound⟩ := by
  obtain ⟨chain, C, hB, hcount⟩ := H
  rw [C.put_eq hB] at hr
  split at hr
  · next hf =>
    cases hr
    refine ⟨_, C.push ((C.fits_iff hB n).mp hf), fun m => ?_, ?_⟩
    · rw [if_pos hf, mem_insert, hB]
      show _ ↔ m ∈ update chain _ (n :: _) (id m % c.table.tableSize)
      by_cases hh : id m % c.table.tableSize = id n % c.table.tableSize
      · rw [hh, update_self, List.mem_cons]
      · rw [update_of_ne hh]
        refine or_iff_right fun he => hh (by rw [he])
    · have hlt := card_lt (insert n c.bound)
      rw [if_pos hf]
      show add32 c.table.count 1 = _
      rw [card_insert_of_notMem hf.1] at hlt ⊢
      rw [hcount, add32, Nat.mod_eq_of_lt hlt]
  · next hf =>
    cases hr
    rw [if_neg hf]
    exact ⟨chain, C, hB, hcount⟩

theorem Holds.remove (H : Holds id c) (hn : n ∈ c.bound) (h3 : 3 ≤ (bucket id c n).card) {s : Table} {a : Int}
    (hr : IdHashTable.remove id n c.table = .ok (a, s)) : Holds id ⟨s, c.bound.erase n⟩ := by
  obtain ⟨chain, C, hB, hcount⟩ := H
  obtain ⟨l, r, hc, h2, he⟩ := C.remove_bound hB hn h3
  rw [he] at hr
  cases hr
  refine ⟨_, C.cut hc h2, fun m => ?_, ?_⟩
  · have hnd := C.nodup (id n % c.table.tableSize)
    rw [hc, List.nodup_middle] at hnd
    rw [mem_erase, hB]
    show _ ↔ m ∈ update chain _ (l ++ r) (id m % c.table.tableSize)
    by_cases hh : id m % c.table.tableSize = id n % c.table.tableSize
    · rw [hh, update_self, hc]
      constructor
      · rintro ⟨hmn, hm⟩
        simpa [hmn] using hm
      · intro hm
        refine ⟨fun hmn => (List.nodup_cons.mp hnd).1 (hmn ▸ hm), ?_⟩
        simp only [List.mem_append, List.mem_cons] at hm ⊢
        tauto
    · rw [update_of_ne hh]
      exact and_iff_right fun hmn => hh (by rw [hmn])
  · have hlt := card_lt c.bound
    have hpos : 0 < c.bound.card := card_pos.mpr ⟨n, hn⟩
    rw [card_erase_of_mem hn]
    show sub32 c.table.count 1 = _
    rw [hcount]
    unfold sub32
    omega

theorem holds_run {size : Nat} (hs : 0 < size) (h : (system id size (Op.leavesTwo id)).Reachable c) : Holds id c := by
  refine h.invariant (fun c hc => ?_) fun c c' H hstep => ?_
  · subst hc
    exact .init hs
  · obtain ⟨op, hen, hal, hrun, hbound⟩ := hstep
    obtain ⟨s', B'⟩ := c'
    dsimp only at hrun hbound
    subst hbound
    cases op with
    | put n =>
      obtain ⟨a, ha⟩ := discard_apply_ok.mp hrun
      exact H.put ha
    | remove n =>
      obtain ⟨a, ha⟩ := discard_apply_ok.mp hrun
      exact H.remove hen hal ha
    | get x =>
      obtain ⟨a, ha⟩ := discard_apply_ok.mp hrun
      obtain ⟨r, hr, -⟩ := H.sound.get x
      rw [hr] at ha
      cases ha
      exact H

/-- Whatever was put, removed and looked up, the table is a finite map, if each
`remove` left at least two nodes in its chain. -/
theorem id_hash_table_refines {size : Nat} (hs : 0 < size) (h : (system id size (Op.leavesTwo id)).Reachable c) :
    Sound id c :=
  (holds_run hs h).sound

/-! ## Runs -/

/-- The node at the address 0x10, 0x20, ... -/
def nodeAt (k : Fin 9) : Node :=
  ⟨⟨16 * (k.val + 1), by omega⟩, by
    constructor
    · exact Fin.ne_of_val_ne (Nat.mul_ne_zero (by decide) (Nat.succ_ne_zero _))
    · simp only [ne_eq, Fin.ext_iff, Fin.val_last]
      omega⟩

/-- Ids in the order of the addresses. -/
def nodeId (n : Node) : Nat := n.val.val / 16

/-- A table of this size with one node. -/
def oneNode (size : Nat) : Table where
  tableSize := size
  table := update (fun _ => .null) (nodeId (nodeAt 0) % size) (.node (nodeAt 0))
  count := 1
  prev := update (fun _ => .null) (nodeAt 0) .mark
  next := fun _ => .null

/-- One more node in the only chain, before the node `i`. -/
def pushed (s : Table) (n i : Node) (count : Nat) : Table where
  tableSize := 1
  table := update s.table 0 (.node n)
  count := count
  prev := update s.prev i (.node n)
  next := update s.next n (.node i)

theorem put_first (size : Nat) : Op.run nodeId (.put (nodeAt 0)) (init size) = .ok ((), oneNode size) := rfl

theorem put_second : Op.run nodeId (.put (nodeAt 1)) (oneNode 1) = .ok ((), pushed (oneNode 1) (nodeAt 1) (nodeAt 0) 2) := rfl

theorem put_third : Op.run nodeId (.put (nodeAt 2)) (pushed (oneNode 1) (nodeAt 1) (nodeAt 0) 2) =
    .ok ((), pushed (pushed (oneNode 1) (nodeAt 1) (nodeAt 0) 2) (nodeAt 2) (nodeAt 1) 3) := rfl

section

variable {size : Nat} {allowed : Config → Op → Prop}

theorem reachable_put {s s' : Table} {B : Finset Node} {n : Node} (h : (system nodeId size allowed).Reachable ⟨s, B⟩)
    (hal : allowed ⟨s, B⟩ (.put n)) (hrun : Op.run nodeId (.put n) s = .ok ((), s')) (hf : Fits nodeId B n) :
    (system nodeId size allowed).Reachable ⟨s', insert n B⟩ :=
  h.step ⟨.put n, trivial, hal, hrun, (if_pos hf).symm⟩

theorem reachable_one (hal : ∀ c n, allowed c (.put n)) :
    (system nodeId size allowed).Reachable ⟨oneNode size, {nodeAt 0}⟩ :=
  reachable_put (.init rfl) (hal _ _) (put_first size) ⟨notMem_empty _, by simp⟩

theorem reachable_two (hal : ∀ c n, allowed c (.put n)) :
    (system nodeId 1 allowed).Reachable ⟨pushed (oneNode 1) (nodeAt 1) (nodeAt 0) 2, {nodeAt 1, nodeAt 0}⟩ :=
  reachable_put (reachable_one hal) (hal _ _) put_second (by decide +kernel)

end

/-- Three nodes in one chain; the one in the middle is removed. -/
theorem id_hash_table_refines_middle :
    ∃ c, nodeAt 1 ∉ c.bound ∧ nodeAt 0 ∈ c.bound ∧ Sound nodeId c := by
  have h2 : (system nodeId 1 (Op.leavesTwo nodeId)).Reachable _ := reachable_two fun _ _ => trivial
  have h3 := reachable_put h2 trivial put_third (by decide +kernel)
  obtain ⟨s, hs⟩ : ∃ s, Op.run nodeId (.remove (nodeAt 1))
      (pushed (pushed (oneNode 1) (nodeAt 1) (nodeAt 0) 2) (nodeAt 2) (nodeAt 1) 3) = .ok ((), s) := ⟨_, rfl⟩
  have hmem : nodeAt 1 ∈ ({nodeAt 2, nodeAt 1, nodeAt 0} : Finset Node) := by decide +kernel
  have hthree : 3 ≤ (bucket nodeId ⟨pushed (pushed (oneNode 1) (nodeAt 1) (nodeAt 0) 2) (nodeAt 2) (nodeAt 1) 3,
      {nodeAt 2, nodeAt 1, nodeAt 0}⟩ (nodeAt 1)).card := by decide +kernel
  have h4 : (system nodeId 1 (Op.leavesTwo nodeId)).Reachable ⟨s, erase {nodeAt 2, nodeAt 1, nodeAt 0} (nodeAt 1)⟩ :=
    h3.step ⟨.remove (nodeAt 1), hmem, hthree, hs, rfl⟩
  have hrest : nodeAt 0 ∈ erase ({nodeAt 2, nodeAt 1, nodeAt 0} : Finset Node) (nodeAt 1) := by decide +kernel
  exact ⟨_, notMem_erase _ _, hrest, id_hash_table_refines (by decide) h4⟩

/-- The only node of a chain cannot be removed; and if one of two is, the other
one looks free. -/
theorem removes_break_map :
    (∃ c, (system nodeId 16 fun _ _ => True).Reachable c ∧ nodeAt 0 ∈ c.bound ∧
      remove nodeId (nodeAt 0) c.table = .error .pointer) ∧
    ∃ c, (system nodeId 1 fun _ _ => True).Reachable c ∧ nodeAt 0 ∈ c.bound ∧ isFree c.table (nodeAt 0) := by
  constructor
  · exact ⟨_, reachable_one fun _ _ => trivial, mem_singleton_self _, rfl⟩
  · have h2 : (system nodeId 1 fun _ _ => True).Reachable _ := reachable_two fun _ _ => trivial
    obtain ⟨s, hs, hfree⟩ : ∃ s, Op.run nodeId (.remove (nodeAt 1)) (pushed (oneNode 1) (nodeAt 1) (nodeAt 0) 2) =
        .ok ((), s) ∧ isFree s (nodeAt 0) := ⟨_, rfl, rfl, rfl⟩
    have hmem : nodeAt 1 ∈ ({nodeAt 1, nodeAt 0} : Finset Node) := mem_insert_self _ _
    have h3 : (system nodeId 1 fun _ _ => True).Reachable ⟨s, erase {nodeAt 1, nodeAt 0} (nodeAt 1)⟩ :=
      h2.step ⟨.remove (nodeAt 1), hmem, trivial, hs, rfl⟩
    have hrest : nodeAt 0 ∈ erase ({nodeAt 1, nodeAt 0} : Finset Node) (nodeAt 1) := by decide +kernel
    exact ⟨_, h3, hrest, hfree⟩

end MakarnaX.IdHashTable
