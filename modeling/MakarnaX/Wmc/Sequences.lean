import MakarnaX.Wmc.List
import MakarnaX.Library.System
import Mathlib.Data.Set.Basic

/-!
# Any number of lists

What a program sees of `List_2`: lists and nodes somewhere in memory, none of
them over another, and calls on them in any order.  Each list is a sequence of
nodes.  `Op.effect` and `Op.result` say what a call does to the sequences and
what it returns, in terms of sequences alone; `Op.run` is the code.

`init` does not look at what it is called on.  So a list that is initialised has
to be empty or new, and a node that is initialised in no list.
-/

namespace MakarnaX

open Function List List2

open Library (Mem System)
open Library.Ring (prev next Apart Seg)

namespace List2

open ListNode (list)

/-! ## Iterators -/

/-- The loop of `operator+` and `operator-`: `k` steps, or fewer if one ends at
the sentinel. -/
def walk (m : Mem) (step : Nat → Nat) : Nat → Nat → Nat
  | pos, 0 => pos
  | pos, k + 1 => if step pos = sentinel (list m (step pos)) then step pos else walk m step (step pos) k

/-- `operator+`. -/
def plus (m : Mem) (pos k : Nat) : Nat := walk m (next m) pos k

/-- `operator-`. -/
def minus (m : Mem) (pos k : Nat) : Nat := walk m (prev m) pos k

/-- `pop_back`. -/
def popBack (m : Mem) (l : Nat) : Bool × Mem :=
  let r := erase m l (minus m (sentinel l) 1)
  (r.1 ≠ 0, r.2)

/-- The element `k` places behind `pos`, in a sequence whose end is `last`. -/
def ahead (last pos : Nat) (xs : List Nat) (k : Nat) : Nat :=
  ((last :: xs).dropWhile (· ≠ pos)).getD k last

theorem dropWhile_split {pos : Nat} {ys zs : List Nat} (h : pos ∉ ys) :
    (ys ++ pos :: zs).dropWhile (· ≠ pos) = pos :: zs := by
  induction ys with
  | nil => simp
  | cons y ys ih =>
    rw [mem_cons, not_or] at h
    have hy : y ≠ pos := Ne.symm h.1
    simpa [dropWhile_cons, hy] using ih h.2

theorem headD_dropWhile {last pos : Nat} {xs : List Nat} (h : pos ∈ last :: xs) :
    (xs.dropWhile (· ≠ pos)).headD last = pos := by
  induction xs with
  | nil => exact (mem_singleton.1 h).symm
  | cons x xs ih =>
    by_cases hx : x = pos
    · simp [hx]
    · have hrest : pos ∈ last :: xs := by
        simp only [mem_cons] at h ⊢
        exact h.imp_right fun h => h.resolve_left (Ne.symm hx)
      simpa [dropWhile_cons, hx] using ih hrest

variable {xs ys zs : List Nat} {op : Op} {last pos k : Nat}

theorem ahead_split (h : last :: xs = ys ++ pos :: zs) (hd : (last :: xs).Nodup) :
    ahead last pos xs k = (pos :: zs).getD k last := by
  rw [h] at hd
  rw [ahead, h, dropWhile_split fun hm => (disjoint_of_nodup_append hd) hm mem_cons_self]

/-- `operator+` and `operator-` go through a sequence and stop at its end. -/
theorem walk_split {m : Mem} {step : Nat → Nat} (hs : ∀ {ys n zs}, last :: xs = ys ++ n :: zs → step n = zs.headD last)
    (ho : ∀ n ∈ last :: xs, sentinel (list m n) = last) (hd : (last :: xs).Nodup) (hx : last :: xs = ys ++ pos :: zs) :
    walk m step pos k = (pos :: zs).getD k last := by
  induction k generalizing pos ys zs with
  | zero => rfl
  | succ k ih =>
    rw [walk, getD_cons_succ, hs hx]
    cases zs with
    | nil => simp [ho last mem_cons_self]
    | cons z zs =>
      have hz : z ∈ xs := by
        cases ys with
        | nil => exact (cons.inj hx).2 ▸ mem_cons_self
        | cons y ys =>
          rw [cons_append] at hx
          exact (cons.inj hx).2 ▸ by simp
      have hne : z ≠ last := fun he => (nodup_cons.1 hd).1 (he ▸ hz)
      rw [headD_cons, ho z (mem_cons_of_mem _ hz), if_neg hne]
      exact ih (hx.trans (append_cons ys pos (z :: zs)))

namespace Represents

variable {ι : Type*} {m : Mem} {addr : ι → Nat} {xs : ι → List Nat} {i : ι} {n k : Nat} {ys zs : List Nat}

section

variable (h : Represents m addr xs)

include h

/-- The node behind `n`. -/
theorem next_eq (hx : nodes addr xs i = ys ++ n :: zs) :
    next m n = zs.headD (sentinel (addr i)) := by
  cases ys with
  | nil =>
    obtain ⟨rfl, rfl⟩ := cons.inj hx
    exact h.first_eq
  | cons y ys =>
    rw [cons_append] at hx
    exact h.next_of_split (cons.inj hx).2

/-- The node before `n`. -/
theorem prev_eq (hx : sentinel (addr i) :: (xs i).reverse = ys ++ n :: zs) :
    prev m n = zs.headD (sentinel (addr i)) := by
  cases ys with
  | nil =>
    obtain ⟨rfl, rfl⟩ := cons.inj hx
    exact (h.ring i).prev_end
  | cons y ys =>
    rw [cons_append] at hx
    have hxs : xs i = zs.reverse ++ n :: ys.reverse := by
      rw [← reverse_reverse (xs i), (cons.inj hx).2]
      simp
    have hring := h.ring i
    rw [hxs] at hring
    have hprev := (Library.Ring.seg_append.1 hring).1.prev_end
    rwa [reverse_reverse] at hprev

section

variable (hn : n ∈ nodes addr xs i)

include hn

theorem plus_eq :
    plus m n k = ahead (sentinel (addr i)) n (xs i) k := by
  obtain ⟨ys, zs, hx⟩ := append_of_mem hn
  rw [ahead_split hx (h.nodup i)]
  exact walk_split h.next_eq (fun x hx => congrArg sentinel (h.owner i x hx)) (h.nodup i) hx

theorem minus_eq :
    minus m n k = ahead (sentinel (addr i)) n (xs i).reverse k := by
  have hperm : (sentinel (addr i) :: (xs i).reverse).Perm (nodes addr xs i) := (reverse_perm (xs i)).cons _
  have hd := hperm.nodup_iff.2 (h.nodup i)
  obtain ⟨ys, zs, hx⟩ := append_of_mem (hperm.mem_iff.2 hn)
  rw [ahead_split hx hd]
  exact walk_split h.prev_eq (fun x hx => congrArg sentinel (h.owner i x (hperm.mem_iff.1 hx))) hd hx

theorem next_ahead :
    next m n = ahead (sentinel (addr i)) n (xs i) 1 := by
  obtain ⟨ys, zs, hx⟩ := append_of_mem hn
  rw [ahead_split hx (h.nodup i), h.next_eq hx]
  cases zs <;> rfl

theorem prev_ahead :
    prev m n = ahead (sentinel (addr i)) n (xs i).reverse 1 := by
  have hperm : (sentinel (addr i) :: (xs i).reverse).Perm (nodes addr xs i) := (reverse_perm (xs i)).cons _
  obtain ⟨ys, zs, hx⟩ := append_of_mem (hperm.mem_iff.2 hn)
  rw [ahead_split hx (hperm.nodup_iff.2 (h.nodup i)), h.prev_eq hx]
  cases zs <;> rfl

end

/-- Some of the lists. -/
theorem comp {κ : Type*} {f : κ → ι} (hf : Function.Injective f) :
    Represents m (fun k => addr (f k)) fun k => xs (f k) where
  ring k := h.ring (f k)
  owner k := h.owner (f k)
  size k := h.size (f k)
  nodup k := h.nodup (f k)
  apart j k := h.apart (f j) (f k)
  sizeApart j k := h.sizeApart (f j) (f k)
  heads _ _ hjk := h.heads _ _ (hf.ne hjk)
  bound k := h.bound (f k)
  pos k := h.pos (f k)
  nodePos k := h.nodePos (f k)

/-- One more list, which is empty. -/
theorem adjoin {l : Nat} (hE : Empty m l) (hl : 0 < l ∧ l + 16 ≤ 2 ^ 32)
    (ha : ∀ i, ∀ n ∈ nodes addr xs i, l + 16 ≤ n ∨ n + 12 ≤ l) (hs : ∀ i, l + 16 ≤ addr i ∨ addr i + 4 ≤ l) :
    Represents m (fun o : Option ι => o.elim l addr) fun o => o.elim [] xs := by
  have hnone : ∀ n, n ∈ nodes (fun o : Option ι => o.elim l addr) (fun o => o.elim [] xs) none → n = l + 4 :=
    fun n hn => by simpa [nodes, sentinel] using hn
  refine ⟨?_, ?_, ?_, ?_, ?_, ?_, ?_, ?_, ?_, ?_⟩
  · rintro (_ | i)
    · exact ⟨hE.next, hE.prev⟩
    · exact h.ring i
  · rintro (_ | i) n hn
    · rw [hnone n hn]
      exact hE.owner
    · exact h.owner i n hn
  · rintro (_ | i)
    · exact hE.size
    · exact h.size i
  · rintro (_ | i)
    · exact nodup_singleton _
    · exact h.nodup i
  · rintro (_ | i) (_ | j) n hn n' hn' hne
    · exact absurd ((hnone n hn).trans (hnone n' hn').symm) hne
    · have := ha j n' hn'
      have := hnone n hn
      unfold Apart
      omega
    · have := ha i n hn
      have := hnone n' hn'
      unfold Apart
      omega
    · exact h.apart i j n hn n' hn' hne
  · rintro (_ | i) (_ | j) n hn
    · have := hnone n hn
      dsimp only [Option.elim]
      omega
    · have := ha j n hn
      dsimp only [Option.elim]
      omega
    · have := hnone n hn
      have := hs i
      dsimp only [Option.elim]
      omega
    · exact h.sizeApart i j n hn
  · rintro (_ | i) (_ | j) hij
    · exact absurd rfl hij
    · have := hs j
      dsimp only [Option.elim]
      omega
    · have := hs i
      dsimp only [Option.elim]
      omega
    · exact h.heads i j fun he => hij (congrArg some he)
  · rintro (_ | i) n hn
    · have := hnone n hn
      omega
    · exact h.bound i n hn
  · rintro (_ | i)
    · exact hl.1
    · exact h.pos i
  · rintro (_ | i) n hn
    · have := hnone n hn
      omega
    · exact h.nodePos i n hn

end

end Represents

/-! ## Lists and nodes -/

/-- Where the lists and the nodes of a program are. -/
structure Arena where
  lists : Set Nat
  nodes : Set Nat
  list_bound : ∀ l ∈ lists, 0 < l ∧ l + 20 ≤ 2 ^ 32
  node_bound : ∀ n ∈ nodes, 0 < n ∧ n + 12 ≤ 2 ^ 32
  lists_apart : ∀ l ∈ lists, ∀ l' ∈ lists, l ≠ l' → l + 20 ≤ l' ∨ l' + 20 ≤ l
  nodes_apart : ∀ n ∈ nodes, ∀ n' ∈ nodes, n ≠ n' → Apart n n'
  list_node : ∀ l ∈ lists, ∀ n ∈ nodes, l + 20 ≤ n ∨ n + 12 ≤ l

/-- The lists and nodes that have been initialised, and the sequences. -/
structure Seqs where
  live : Set Nat
  ready : Set Nat
  xs : Nat → List Nat

/-- The node is in a list. -/
def Seqs.InList (a : Seqs) (n : Nat) : Prop := ∃ l ∈ a.live, n ∈ a.xs l

/-- What an iterator of the list `l` can be. -/
def Seqs.Iterator (a : Seqs) (l pos : Nat) : Prop := l ∈ a.live ∧ pos ∈ sentinel l :: a.xs l

def Seqs.set (a : Seqs) (l : Nat) (xs : List Nat) : Seqs := { a with xs := update a.xs l xs }

inductive Op
  | listInit (l : Nat)
  | nodeInit (n : Nat)
  | insert (l pos n : Nat)
  | erase (l pos : Nat)
  | pushFront (l n : Nat)
  | pushBack (l n : Nat)
  | popFront (l : Nat)
  | popBack (l : Nat)
  | size (l : Nat)
  | first (l : Nat)
  | next (l pos : Nat)
  | prev (l pos : Nat)
  | plus (l pos k : Nat)
  | minus (l pos k : Nat)

/-- What a call returns, 0 for `error()` and for nothing, and the memory behind it. -/
def Op.run (m : Mem) : Op → Nat × Mem
  | .listInit l => (0, List2.init m l)
  | .nodeInit n => (0, ListNode.init m n)
  | .insert l pos n => List2.insert m l pos n
  | .erase l pos => List2.erase m l pos
  | .pushFront l n => ((List2.pushFront m l n).1.toNat, (List2.pushFront m l n).2)
  | .pushBack l n => ((List2.pushBack m l n).1.toNat, (List2.pushBack m l n).2)
  | .popFront l => ((List2.popFront m l).1.toNat, (List2.popFront m l).2)
  | .popBack l => ((List2.popBack m l).1.toNat, (List2.popBack m l).2)
  | .size l => (List2.size m l, m)
  | .first l => (List2.first m l, m)
  | .next _ pos => (Library.Ring.next m pos, m)
  | .prev _ pos => (Library.Ring.prev m pos, m)
  | .plus _ pos k => (List2.plus m pos k, m)
  | .minus _ pos k => (List2.minus m pos k, m)

/-- The calls a program makes: on lists and nodes that are initialised, at
iterators of the same list. -/
def Op.enabled (A : Arena) (a : Seqs) : Op → Prop
  | .listInit l => l ∈ A.lists
  | .nodeInit n => n ∈ A.nodes
  | .insert l pos n => a.Iterator l pos ∧ n ∈ a.ready
  | .erase l pos => l ∈ a.live ∧ (pos ∈ a.ready ∨ ∃ l' ∈ a.live, pos = sentinel l')
  | .pushFront l n | .pushBack l n => l ∈ a.live ∧ n ∈ a.ready
  | .popFront l | .popBack l | .size l | .first l => l ∈ a.live
  | .next l pos | .prev l pos | .plus l pos _ | .minus l pos _ => a.Iterator l pos

/-- A list that is initialised is new or empty, and a node that is initialised is
in no list. -/
def Op.InitsUnused (a : Seqs) : Op → Prop
  | .listInit l => l ∈ a.live → a.xs l = []
  | .nodeInit n => ¬ a.InList n
  | _ => True

open scoped Classical in
/-- The sequences behind a call. -/
noncomputable def Op.effect (a : Seqs) : Op → Seqs
  | .listInit l => { a.set l [] with live := a.live ∪ {l} }
  | .nodeInit n => { a with ready := a.ready ∪ {n} }
  | .insert l pos n =>
    if a.InList n then a
    else a.set l ((a.xs l).takeWhile (· ≠ pos) ++ n :: (a.xs l).dropWhile (· ≠ pos))
  | .erase l pos => a.set l ((a.xs l).erase pos)
  | .pushFront l n => if a.InList n then a else a.set l (n :: a.xs l)
  | .pushBack l n => if a.InList n then a else a.set l (a.xs l ++ [n])
  | .popFront l => a.set l (a.xs l).tail
  | .popBack l => a.set l (a.xs l).dropLast
  | _ => a

open scoped Classical in
/-- What a call returns, read off the sequences. -/
noncomputable def Op.result (a : Seqs) : Op → Nat
  | .listInit _ | .nodeInit _ => 0
  | .insert _ _ n => if a.InList n then 0 else n
  | .erase l pos => if pos ∈ a.xs l then ahead (sentinel l) pos (a.xs l) 1 else 0
  | .pushFront _ n | .pushBack _ n => if a.InList n then 0 else 1
  | .popFront l | .popBack l => if a.xs l = [] then 0 else 1
  | .size l => (a.xs l).length
  | .first l => (a.xs l).headD (sentinel l)
  | .next l pos => ahead (sentinel l) pos (a.xs l) 1
  | .prev l pos => ahead (sentinel l) pos (a.xs l).reverse 1
  | .plus l pos k => ahead (sentinel l) pos (a.xs l) k
  | .minus l pos k => ahead (sentinel l) pos (a.xs l).reverse k

/-- The calls that end with `error()`: insertion of a node that is in a list, and
removal of something the list does not have. -/
def Op.Refused (a : Seqs) : Op → Prop
  | .insert _ _ n | .pushFront _ n | .pushBack _ n => a.InList n
  | .erase l pos => pos ∉ a.xs l
  | .popFront l | .popBack l => a.xs l = []
  | _ => False

/-- The memory holds the sequences. -/
structure Holds (A : Arena) (m : Mem) (a : Seqs) : Prop where
  rep : Represents m (fun l : a.live => l.val) fun l => a.xs l
  live : a.live ⊆ A.lists
  ready : a.ready ⊆ A.nodes
  inside : ∀ l ∈ a.live, ∀ n ∈ a.xs l, n ∈ a.ready
  free : ∀ n ∈ a.ready, ¬ a.InList n → ListNode.isFree m n

variable {A : Arena} {m m' : Mem} {a : Seqs} {l n pos x : Nat} {ys zs : List Nat}

namespace Holds

section

variable (H : Holds A m a)

include H

theorem owner (hl : l ∈ a.live) (hn : n ∈ a.xs l) : list m n = l :=
  H.rep.owner ⟨l, hl⟩ n (mem_nodes hn)

theorem pos_of_live (hl : l ∈ a.live) : 0 < l := (A.list_bound l (H.live hl)).1

/-- A node belongs to the list it is in, and to no other. -/
theorem owner_iff (hl : l ∈ a.live) (hn : n ∈ a.ready) : list m n = l ↔ n ∈ a.xs l := by
  refine ⟨fun ho => ?_, H.owner hl⟩
  by_cases hin : a.InList n
  · obtain ⟨l', hl', hn'⟩ := hin
    rw [H.owner hl' hn'] at ho
    exact ho ▸ hn'
  · have hf : list m n = 0 := H.free n hn hin
    have := H.pos_of_live hl
    omega

theorem isFree_iff (hn : n ∈ a.ready) : ListNode.isFree m n ↔ ¬ a.InList n := by
  refine ⟨?_, H.free n hn⟩
  rintro hf ⟨l, hl, hnl⟩
  have hl0 : l = 0 := (H.owner hl hnl).symm.trans hf
  have := H.pos_of_live hl
  omega

/-- A node that no list has is away from all that the lists have. -/
theorem apart (hn : n ∈ A.nodes) (hin : ¬ a.InList n) (i : a.live) :
    ∀ x ∈ nodes (fun l : a.live => l.val) (fun l => a.xs l) i, Apart x n := by
  intro x hx
  rcases mem_cons.1 hx with rfl | hx
  · have := A.list_node i (H.live i.2) n hn
    show Apart (i.val + 4) n
    unfold Apart
    omega
  · exact A.nodes_apart x (H.ready (H.inside i i.2 x hx)) n hn fun he => hin ⟨i, i.2, he ▸ hx⟩

theorem fresh (hn : n ∈ A.nodes) (hin : ¬ a.InList n) :
    Fresh (fun l : a.live => l.val) (fun l => a.xs l) n where
  apart := H.apart hn hin
  sizeApart i := by
    have := A.list_node i (H.live i.2) n hn
    omega
  bound := (A.node_bound n hn).2
  pos := (A.node_bound n hn).1

end

/-- The sequences with one of them changed, as `Represents` wants it. -/
theorem update_xs (hl : l ∈ a.live) (zs : List Nat) :
    (fun i : a.live => update a.xs l zs i) = update (fun i : a.live => a.xs i) ⟨l, hl⟩ zs := by
  funext i
  by_cases hi : i.val = l
  · obtain rfl : i = ⟨l, hl⟩ := Subtype.ext hi
    simp
  · rw [update_of_ne hi, update_of_ne fun he => hi (congrArg Subtype.val he)]

theorem inList_set (hl : l ∈ a.live) : (a.set l zs).InList x ↔ x ∈ zs ∨ ∃ l' ∈ a.live, l' ≠ l ∧ x ∈ a.xs l' := by
  constructor
  · rintro ⟨l', hl', hx⟩
    by_cases he : l' = l
    · subst he
      exact .inl (by simpa [Seqs.set] using hx)
    · exact .inr ⟨l', hl', he, by simpa [Seqs.set, he] using hx⟩
  · rintro (hx | ⟨l', hl', he, hx⟩)
    · exact ⟨l, hl, by simpa [Seqs.set] using hx⟩
    · exact ⟨l', hl', by simpa [Seqs.set, he] using hx⟩

/-- A free node keeps its words if only nodes of the list and its size change. -/
theorem isFree_congr (H : Holds A m a) (hx : x ∈ a.ready) (hin : ¬ a.InList x)
    (hm : ∀ y, x ≤ y → y < x + 12 → m' y = m y) : ListNode.isFree m' x := by
  have hf : list m x = 0 := H.free x hx hin
  unfold ListNode.isFree
  rw [← hf]
  exact Mem.read32_congr fun y h1 h2 => hm y (by omega) (by omega)

/-- Only the list `l` has changed, to `zs`. -/
theorem change (H : Holds A m a) (hl : l ∈ a.live)
    (hrep : Represents m' (fun i : a.live => i.val) (update (fun i : a.live => a.xs i) ⟨l, hl⟩ zs))
    (hin : ∀ x ∈ zs, x ∈ a.ready) (hfree : ∀ x ∈ a.xs l, x ∉ zs → ListNode.isFree m' x)
    (hframe : ∀ x ∈ a.ready, ¬ a.InList x → x ∉ zs → ∀ y, x ≤ y → y < x + 12 → m' y = m y) :
    Holds A m' (a.set l zs) := by
  refine ⟨?_, H.live, H.ready, fun l' hl' x hx => ?_, fun x hr hxin => ?_⟩
  · show Represents _ (fun i : a.live => i.val) fun i : a.live => update a.xs l zs i
    rw [update_xs hl]
    exact hrep
  · by_cases he : l' = l
    · subst he
      exact hin x (by simpa [Seqs.set] using hx)
    · exact H.inside l' hl' x (by simpa [Seqs.set, he] using hx)
  · rw [inList_set hl] at hxin
    push Not at hxin
    obtain ⟨h1, h2⟩ := hxin
    by_cases hx : x ∈ a.xs l
    · exact hfree x hx h1
    · have hxin : ¬ a.InList x := by
        rintro ⟨l', hl', hxl⟩
        exact h2 l' hl' (fun he => hx (he ▸ hxl)) hxl
      exact H.isFree_congr hr hxin (hframe x hr hxin h1)

theorem insertAt (H : Holds A m a) (hl : l ∈ a.live) (hx : a.xs l = ys ++ zs) (hn : n ∈ a.ready) (hin : ¬ a.InList n) :
    (insert m l (zs.headD (sentinel l)) n).1 = n ∧
      Holds A (insert m l (zs.headD (sentinel l)) n).2 (a.set l (ys ++ n :: zs)) := by
  have hF := H.fresh (H.ready hn) hin
  have hf := H.free n hn hin
  have hrep := H.rep.insert (i := ⟨l, hl⟩) hx hF hf
  have hins := H.rep.inserted (i := ⟨l, hl⟩) hx hF hf
  dsimp only at hrep hins
  have hmem : ∀ x, x ∈ ys ++ n :: zs ↔ x = n ∨ x ∈ a.xs l := fun x => by
    rw [hx, mem_append, mem_append, mem_cons]
    tauto
  refine ⟨hins.1, H.change hl hrep (fun x hm => ?_) (fun x hm h => absurd ((hmem x).2 (.inr hm)) h)
    fun x hxr hxin h y hy1 hy2 => ?_⟩
  · rcases (hmem x).1 hm with rfl | hm
    · exact hn
    · exact H.inside l hl x hm
  · have hxn : Apart x n := A.nodes_apart x (H.ready hxr) n (H.ready hn) fun he => h ((hmem x).2 (.inl he))
    have hy : y < n ∨ n + 12 ≤ y := by
      unfold Apart at hxn
      omega
    have hyz : ∀ z ∈ nodes (fun l : a.live => l.val) (fun l => a.xs l) ⟨l, hl⟩, y < z ∨ z + 8 ≤ y := fun z hz => by
      have := H.apart (H.ready hxr) hxin ⟨l, hl⟩ z hz
      unfold Apart at this
      omega
    have hyl : y < l ∨ l + 4 ≤ y := by
      have := A.list_node l (H.live hl) x (H.ready hxr)
      omega
    have hxl : (fun l : a.live => a.xs l) ⟨l, hl⟩ = ys ++ zs := hx
    have hframe := H.rep.insert_frame hxl hF hf hy hyz hyl
    exact hframe

theorem eraseAt (H : Holds A m a) (hl : l ∈ a.live) (hx : a.xs l = ys ++ n :: zs) :
    (erase m l n).1 = zs.headD (sentinel l) ∧ Holds A (erase m l n).2 (a.set l (ys ++ zs)) := by
  have her := H.rep.erased (i := ⟨l, hl⟩) hx
  have hmem : ∀ x, x ∈ a.xs l ↔ x = n ∨ x ∈ ys ++ zs := fun x => by
    rw [hx, mem_append, mem_append, mem_cons]
    tauto
  refine ⟨her.1, H.change hl (H.rep.erase (i := ⟨l, hl⟩) hx) (fun x hm => H.inside l hl x ((hmem x).2 (.inr hm)))
    (fun x hm h => ?_) fun x hxr hxin h y hy1 hy2 => ?_⟩
  · obtain rfl := ((hmem x).1 hm).resolve_right h
    exact H.rep.erase_isFree (i := ⟨l, hl⟩) hx
  · refine H.rep.erase_frame (i := ⟨l, hl⟩) hx (fun z hz => ?_) ?_
    · have := H.apart (H.ready hxr) hxin ⟨l, hl⟩ z hz
      unfold Apart at this
      omega
    · have := A.list_node l (H.live hl) x (H.ready hxr)
      dsimp only
      omega

theorem nodeInit (H : Holds A m a) (hn : n ∈ A.nodes) (hin : ¬ a.InList n) :
    Holds A (ListNode.init m n) { a with ready := a.ready ∪ {n} } := by
  refine ⟨?_, H.live, ?_, fun l hl x hx => .inl (H.inside l hl x hx), fun x hx hxin => ?_⟩
  · refine H.rep.congr (fun i x hx y h1 h2 => ListNode.init_apply m ?_) fun i y h1 h2 => ListNode.init_apply m ?_
    · have := H.apart hn hin i x hx
      unfold Apart at this
      omega
    · have := A.list_node i (H.live i.2) n hn
      omega
  · rintro x (hx | rfl)
    · exact H.ready hx
    · exact hn
  · by_cases hxn : x = n
    · subst hxn
      exact ListNode.isFree_init m x
    · have hxr : x ∈ a.ready := hx.resolve_right hxn
      refine H.isFree_congr hxr hxin fun y h1 h2 => ListNode.init_apply m ?_
      have := A.nodes_apart x (H.ready hxr) n hn hxn
      unfold Apart at this
      omega

theorem listInit (H : Holds A m a) (hl : l ∈ A.lists) (he : l ∈ a.live → a.xs l = []) :
    Holds A (init m l) { a.set l [] with live := a.live ∪ {l} } := by
  have hlb := A.list_bound l hl
  -- the other lists are where they were
  have hother : Represents (init m l) (fun i : (a.live \ {l} : Set Nat) => i.val) fun i => a.xs i := by
    have hsub := H.rep.comp (f := fun i : (a.live \ {l} : Set Nat) => (⟨i.val, i.2.1⟩ : a.live))
      fun i j hij => Subtype.ext (congrArg (fun k : a.live => k.val) hij)
    refine hsub.congr (fun i x hx y h1 h2 => init_apply m ?_) fun i y h1 h2 => init_apply m ?_
    · rcases mem_cons.1 hx with rfl | hx
      · have := A.lists_apart i (H.live i.2.1) l hl i.2.2
        unfold sentinel at h1 h2
        dsimp only at h1 h2
        omega
      · have := A.list_node l hl x (H.ready (H.inside i i.2.1 x hx))
        omega
    · have := A.lists_apart i (H.live i.2.1) l hl i.2.2
      dsimp only at h1 h2
      omega
  have hnew := hother.adjoin (init_empty m (by omega)) ⟨hlb.1, by omega⟩
    (fun i x hx => by
      rcases mem_cons.1 hx with rfl | hx
      · have := A.lists_apart i (H.live i.2.1) l hl i.2.2
        unfold sentinel
        dsimp only
        omega
      · have := A.list_node l hl x (H.ready (H.inside i i.2.1 x hx))
        omega)
    fun i => by
      have := A.lists_apart i (H.live i.2.1) l hl i.2.2
      omega
  refine ⟨?_, ?_, H.ready, ?_, fun x hx hxin => ?_⟩
  · let f : (a.live ∪ {l} : Set Nat) → Option (a.live \ {l} : Set Nat) := fun i =>
      if h : i.val = l then none else some ⟨i.val, i.2.resolve_right h, h⟩
    have hf : Function.Injective f := by
      intro i j hij
      by_cases hi : i.val = l
      · by_cases hj : j.val = l
        · exact Subtype.ext (hi.trans hj.symm)
        · simp [f, hi, hj] at hij
      · by_cases hj : j.val = l
        · simp [f, hi, hj] at hij
        · simp only [f, hi, hj, dif_neg, not_false_iff, Option.some.injEq] at hij
          exact Subtype.ext (congrArg (fun k : (a.live \ {l} : Set Nat) => k.val) hij)
    have hcomp := hnew.comp hf
    convert hcomp using 2 with i i
    · by_cases hi : i.val = l
      · simp [f, hi]
      · simp [f, hi]
    · by_cases hi : i.val = l
      · simp [f, hi, Seqs.set]
      · simp [f, hi, Seqs.set]
  · rintro x (hx | rfl)
    · exact H.live hx
    · exact hl
  · rintro l' hl' x hx
    by_cases hll : l' = l
    · simp [Seqs.set, hll] at hx
    · exact H.inside l' (hl'.resolve_right hll) x (by simpa [Seqs.set, hll] using hx)
  · have hxin' : ¬ a.InList x := by
      rintro ⟨l', hl', hxl⟩
      by_cases hll : l' = l
      · subst hll
        rw [he hl'] at hxl
        cases hxl
      · exact hxin ⟨l', .inl hl', by simpa [Seqs.set, hll] using hxl⟩
    refine H.isFree_congr hx hxin' fun y h1 h2 => init_apply m ?_
    have := A.list_node l hl x (H.ready hx)
    omega

/-! ### Calls that are refused -/

theorem insert_refused (H : Holds A m a) (hn : n ∈ a.ready) (hin : a.InList n) : insert m l pos n = (0, m) :=
  if_neg fun hf => (H.isFree_iff hn).1 hf hin

theorem erase_refused (H : Holds A m a) (hl : l ∈ a.live) (hp : pos ∈ a.ready ∨ ∃ l' ∈ a.live, pos = sentinel l')
    (hx : pos ∉ a.xs l) : erase m l pos = (0, m) := by
  unfold erase
  split
  · rfl
  · next hs =>
    refine if_pos fun ho => ?_
    rcases hp with hp | ⟨l', hl', rfl⟩
    · exact hx ((H.owner_iff hl hp).1 ho)
    · have howner : list m (sentinel l') = l' := H.rep.owner ⟨l', hl'⟩ _ (sentinel_mem_nodes _)
      exact hs (congrArg sentinel (ho.symm.trans howner).symm)

theorem first_eq (H : Holds A m a) (hl : l ∈ a.live) : first m l = (a.xs l).headD (sentinel l) :=
  H.rep.first_eq (i := ⟨l, hl⟩)

theorem last_eq (H : Holds A m a) (hl : l ∈ a.live) :
    minus m (sentinel l) 1 = (a.xs l).reverse.headD (sentinel l) := by
  have hminus := H.rep.minus_eq (i := ⟨l, hl⟩) (k := 1) (sentinel_mem_nodes _)
  rw [hminus]
  cases (a.xs l).reverse <;> simp [ahead]

/-- A call that is refused changes no byte. -/
theorem refused (H : Holds A m a) (he : op.enabled A a) (hr : op.Refused a) : op.run m = (0, m) := by
  cases op with
  | insert l pos n => exact H.insert_refused he.2 hr
  | erase l pos => exact H.erase_refused he.1 he.2 hr
  | pushFront l n =>
    have hins : List2.insert m l (List2.first m l) n = (0, m) := H.insert_refused he.2 hr
    simp [Op.run, List2.pushFront, hins]
  | pushBack l n =>
    have hins : List2.insert m l (sentinel l) n = (0, m) := H.insert_refused he.2 hr
    simp [Op.run, List2.pushBack, hins]
  | popFront l =>
    have hxs : a.xs l = [] := hr
    simp [Op.run, List2.popFront, List2.erase, H.first_eq he, hxs]
  | popBack l =>
    have hxs : a.xs l = [] := hr
    simp [Op.run, List2.popBack, List2.erase, H.last_eq he, hxs]
  | _ => exact absurd hr id

/-! ### Calls that are carried out -/

theorem set_self (a : Seqs) (l : Nat) : a.set l (a.xs l) = a := by
  unfold Seqs.set
  rw [update_eq_self]

/-- A refused call has no effect on the sequences and returns `error()`. -/
theorem effect_of_refused (hr : op.Refused a) : op.result a = 0 ∧ op.effect a = a := by
  cases op with
  | insert l pos n => exact ⟨if_pos hr, if_pos hr⟩
  | erase l pos =>
    refine ⟨if_neg hr, ?_⟩
    rw [Op.effect, erase_of_not_mem hr, set_self]
  | pushFront l n => exact ⟨if_pos hr, if_pos hr⟩
  | pushBack l n => exact ⟨if_pos hr, if_pos hr⟩
  | popFront l =>
    have hxs : a.xs l = [] := hr
    refine ⟨if_pos hxs, ?_⟩
    have hset := set_self a l
    rw [hxs] at hset
    rw [Op.effect, hxs, tail_nil, hset]
  | popBack l =>
    have hxs : a.xs l = [] := hr
    refine ⟨if_pos hxs, ?_⟩
    have hset := set_self a l
    rw [hxs] at hset
    rw [Op.effect, hxs, dropLast_nil, hset]
  | _ => exact absurd hr id

section

variable (H : Holds A m a)

include H

theorem nodes_nodup (hl : l ∈ a.live) : (sentinel l :: a.xs l).Nodup := H.rep.nodup ⟨l, hl⟩

theorem insert_step (hp : a.Iterator l pos) (hn : n ∈ a.ready) (hin : ¬ a.InList n) :
    (insert m l pos n).1 = n ∧ Holds A (insert m l pos n).2
      (a.set l ((a.xs l).takeWhile (· ≠ pos) ++ n :: (a.xs l).dropWhile (· ≠ pos))) := by
  have hins := H.insertAt hp.1 (takeWhile_append_dropWhile (p := (· ≠ pos))).symm hn hin
  rwa [headD_dropWhile hp.2] at hins

theorem erase_step (hl : l ∈ a.live) (hp : pos ∈ a.xs l) :
    (erase m l pos).1 = ahead (sentinel l) pos (a.xs l) 1 ∧
      Holds A (erase m l pos).2 (a.set l ((a.xs l).erase pos)) := by
  obtain ⟨ys, zs, -, hx, her⟩ := exists_erase_eq hp
  have hd := H.nodes_nodup hl
  have hsplit : sentinel l :: a.xs l = (sentinel l :: ys) ++ pos :: zs := by rw [hx, cons_append]
  rw [ahead_split hsplit hd, her]
  have hE := H.eraseAt hl hx
  refine ⟨hE.1.trans ?_, hE.2⟩
  cases zs <;> rfl

theorem insert_ne_zero (hn : n ∈ a.ready) : n ≠ 0 :=
  Nat.ne_of_gt (A.node_bound n (H.ready hn)).1

theorem pushFront_step (hl : l ∈ a.live) (hn : n ∈ a.ready) (hin : ¬ a.InList n) :
    (pushFront m l n).1 = true ∧ Holds A (pushFront m l n).2 (a.set l (n :: a.xs l)) := by
  have hins := H.insertAt hl (nil_append (a.xs l)).symm hn hin
  rw [← H.first_eq hl] at hins
  exact ⟨by simp [pushFront, hins.1, H.insert_ne_zero hn], hins.2⟩

theorem pushBack_step (hl : l ∈ a.live) (hn : n ∈ a.ready) (hin : ¬ a.InList n) :
    (pushBack m l n).1 = true ∧ Holds A (pushBack m l n).2 (a.set l (a.xs l ++ [n])) := by
  have hins := H.insertAt hl (append_nil (a.xs l)).symm hn hin
  rw [headD_nil] at hins
  exact ⟨by simp [pushBack, hins.1, H.insert_ne_zero hn], hins.2⟩

theorem popFront_step (hl : l ∈ a.live) (hx : a.xs l ≠ []) :
    (popFront m l).1 = true ∧ Holds A (popFront m l).2 (a.set l (a.xs l).tail) := by
  cases hxs : a.xs l with
  | nil => exact absurd hxs hx
  | cons n zs =>
    have hsplit : a.xs l = [] ++ n :: zs := hxs
    have hE := H.eraseAt hl hsplit
    have hne := H.rep.erase_ne_zero (i := ⟨l, hl⟩) hsplit
    dsimp only at hne
    unfold popFront
    rw [H.first_eq hl, hxs, headD_cons]
    exact ⟨by simpa using hne, hE.2⟩

theorem popBack_step (hl : l ∈ a.live) (hx : a.xs l ≠ []) :
    (popBack m l).1 = true ∧ Holds A (popBack m l).2 (a.set l (a.xs l).dropLast) := by
  obtain ⟨ys, n, hxs⟩ := (a.xs l).eq_nil_or_concat.resolve_left hx
  rw [concat_eq_append] at hxs
  have hE := H.eraseAt hl hxs
  have hne := H.rep.erase_ne_zero (i := ⟨l, hl⟩) hxs
  dsimp only at hne
  unfold popBack
  rw [H.last_eq hl, hxs]
  simp only [reverse_append, reverse_singleton, singleton_append, headD_cons,
    dropLast_concat]
  rw [append_nil] at hE
  exact ⟨by simpa using hne, hE.2⟩

/-- One call: what it returns and what it leaves. -/
theorem step (he : op.enabled A a) (hi : op.InitsUnused a) :
    (op.run m).1 = op.result a ∧ Holds A (op.run m).2 (op.effect a) := by
  by_cases hr : op.Refused a
  · rw [H.refused he hr, (effect_of_refused hr).1, (effect_of_refused hr).2]
    exact ⟨rfl, H⟩
  cases op with
  | listInit l => exact ⟨rfl, H.listInit he hi⟩
  | nodeInit n => exact ⟨rfl, H.nodeInit he hi⟩
  | insert l pos n =>
    have hin : ¬ a.InList n := hr
    rw [Op.result, Op.effect, if_neg hin, if_neg hin]
    exact H.insert_step he.1 he.2 hr
  | erase l pos =>
    have hp : pos ∈ a.xs l := not_not.1 hr
    rw [Op.result, if_pos hp]
    exact H.erase_step he.1 hp
  | pushFront l n =>
    have hin : ¬ a.InList n := hr
    rw [Op.result, Op.effect, if_neg hin, if_neg hin]
    have hpush := H.pushFront_step he.1 he.2 hr
    exact ⟨congrArg Bool.toNat hpush.1, hpush.2⟩
  | pushBack l n =>
    have hin : ¬ a.InList n := hr
    rw [Op.result, Op.effect, if_neg hin, if_neg hin]
    have hpush := H.pushBack_step he.1 he.2 hr
    exact ⟨congrArg Bool.toNat hpush.1, hpush.2⟩
  | popFront l =>
    have hne : a.xs l ≠ [] := hr
    rw [Op.result, if_neg hne]
    have hpop := H.popFront_step he hr
    exact ⟨congrArg Bool.toNat hpop.1, hpop.2⟩
  | popBack l =>
    have hne : a.xs l ≠ [] := hr
    rw [Op.result, if_neg hne]
    have hpop := H.popBack_step he hr
    exact ⟨congrArg Bool.toNat hpop.1, hpop.2⟩
  | size l => exact ⟨H.rep.size ⟨l, he⟩, H⟩
  | first l => exact ⟨H.first_eq he, H⟩
  | next l pos =>
    obtain ⟨hl, hp⟩ := he
    have hpos := H.rep.next_ahead (i := ⟨l, hl⟩) hp
    exact ⟨hpos, H⟩
  | prev l pos =>
    obtain ⟨hl, hp⟩ := he
    have hpos := H.rep.prev_ahead (i := ⟨l, hl⟩) hp
    exact ⟨hpos, H⟩
  | plus l pos k =>
    obtain ⟨hl, hp⟩ := he
    have hpos := H.rep.plus_eq (i := ⟨l, hl⟩) (k := k) hp
    exact ⟨hpos, H⟩
  | minus l pos k =>
    obtain ⟨hl, hp⟩ := he
    have hpos := H.rep.minus_eq (i := ⟨l, hl⟩) (k := k) hp
    exact ⟨hpos, H⟩

end

end Holds

/-! ## Runs -/

/-- The memory, and the sequences the calls so far have made. -/
structure Config where
  mem : Mem
  seqs : Seqs

/-- Nothing is initialised at first, whatever the memory has; every call is one
that `ok` allows. -/
def system (A : Arena) (ok : Seqs → Op → Prop) : System Config where
  init c := c.seqs.live = ∅ ∧ c.seqs.ready = ∅
  step c c' := ∃ op : Op, op.enabled A c.seqs ∧ ok c.seqs op ∧ c' = ⟨(op.run c.mem).2, op.effect c.seqs⟩

/-- The lists are the sequences, and the next call does to them what it should. -/
structure Sound (A : Arena) (c : Config) : Prop where
  /-- `__next` goes from the sentinel through the sequence and back to the
  sentinel, `__prev` the other way round. -/
  ring : ∀ l ∈ c.seqs.live, Seg c.mem (sentinel l) (c.seqs.xs l) (sentinel l)
  prev_next : ∀ l ∈ c.seqs.live, ∀ n ∈ sentinel l :: c.seqs.xs l,
    prev c.mem (next c.mem n) = n ∧ next c.mem (prev c.mem n) = n
  nodup : ∀ l ∈ c.seqs.live, (sentinel l :: c.seqs.xs l).Nodup
  size : ∀ l ∈ c.seqs.live, size c.mem l = (c.seqs.xs l).length
  owner : ∀ l ∈ c.seqs.live, ∀ n ∈ c.seqs.ready, list c.mem n = l ↔ n ∈ c.seqs.xs l
  /-- Only nodes that were initialised are in lists. -/
  inside : ∀ l ∈ c.seqs.live, ∀ n ∈ c.seqs.xs l, n ∈ c.seqs.ready
  returns : ∀ op : Op, op.enabled A c.seqs → op.InitsUnused c.seqs → (op.run c.mem).1 = op.result c.seqs
  refused : ∀ op : Op, op.enabled A c.seqs → op.Refused c.seqs →
    op.run c.mem = (0, c.mem) ∧ op.effect c.seqs = c.seqs

theorem Holds.sound {c : Config} (H : Holds A c.mem c.seqs) : Sound A c where
  ring l hl := H.rep.ring ⟨l, hl⟩
  prev_next l hl _ hn := ⟨(H.rep.ring ⟨l, hl⟩).prev_next hn, (H.rep.ring ⟨l, hl⟩).next_prev hn⟩
  nodup _ hl := H.nodes_nodup hl
  size l hl := H.rep.size ⟨l, hl⟩
  owner _ hl _ hn := H.owner_iff hl hn
  inside := H.inside
  returns _ he hi := (H.step he hi).1
  refused _ he hr := ⟨H.refused he hr, (Holds.effect_of_refused hr).2⟩

theorem Holds.init {c : Config} (h : c.seqs.live = ∅ ∧ c.seqs.ready = ∅) : Holds A c.mem c.seqs where
  rep := by
    have hempty : IsEmpty c.seqs.live := Set.isEmpty_coe_sort.2 h.1
    exact ⟨isEmptyElim, isEmptyElim, isEmptyElim, isEmptyElim, isEmptyElim, isEmptyElim, isEmptyElim, isEmptyElim,
      isEmptyElim, isEmptyElim⟩
  live := h.1 ▸ Set.empty_subset _
  ready := h.2 ▸ Set.empty_subset _
  inside l hl := by simp [h.1] at hl
  free _ hn := by simp [h.2] at hn

/-- The lists refine sequences in every run in which `init` is called on what is
not in use. -/
theorem lists_refine_sequences (A : Arena) {c : Config} (h : (system A fun a op => op.InitsUnused a).Reachable c) :
    Sound A c := by
  refine Holds.sound (h.invariant (I := fun c => Holds A c.mem c.seqs) (fun c hc => Holds.init hc) ?_)
  rintro c c' H ⟨op, he, hi, rfl⟩
  exact (H.step he hi).2

/-- A list and a node. -/
def smallArena : Arena where
  lists := {16}
  nodes := {64}
  list_bound := by simp
  node_bound := by simp
  lists_apart := by simp
  nodes_apart := by simp
  list_node := by simp

/-- The list and the node are initialised and the node is pushed. -/
theorem reachable_pushed (ok : Seqs → Op → Prop) (hok : ∀ a (op : Op), op.InitsUnused a → ok a op) :
    ∃ c, (system smallArena ok).Reachable c ∧ c.seqs.live = {16} ∧ c.seqs.ready = {64} ∧ c.seqs.xs 16 = [64] ∧
      c.mem = (List2.pushBack (ListNode.init (List2.init ⟨fun _ => 0⟩ 16) 64) 16 64).2 := by
  let a₀ : Seqs := ⟨∅, ∅, fun _ => []⟩
  let a₁ := Op.effect a₀ (.listInit 16)
  let a₂ := Op.effect a₁ (.nodeInit 64)
  have hlive : a₂.live = {16} := by simp [a₂, a₁, a₀, Op.effect, Seqs.set]
  have hready : a₂.ready = {64} := by simp [a₂, a₁, a₀, Op.effect, Seqs.set]
  have hxs : ∀ l, a₂.xs l = [] := fun l => by simp [a₂, a₁, a₀, Op.effect, Seqs.set]
  have hin : ∀ n, ¬ a₂.InList n := by
    rintro n ⟨l, -, hn⟩
    rw [hxs] at hn
    cases hn
  have h₀ : (system smallArena ok).Reachable ⟨⟨fun _ => 0⟩, a₀⟩ := .init ⟨rfl, rfl⟩
  have h₁ := h₀.step ⟨.listInit 16, rfl, hok _ _ fun _ => rfl, rfl⟩
  have h₂ := h₁.step ⟨.nodeInit 64, rfl, hok _ _ (fun hl => hin 64 hl), rfl⟩
  have h₃ := h₂.step ⟨.pushBack 16 64, ⟨hlive ▸ rfl, hready ▸ rfl⟩, hok _ _ trivial, rfl⟩
  refine ⟨_, h₃, ?_⟩
  have heffect : Op.effect a₂ (.pushBack 16 64) = a₂.set 16 [64] := by
    rw [Op.effect, if_neg (hin 64), hxs, nil_append]
  have hgoal : (Op.effect a₂ (.pushBack 16 64)).live = {16} ∧ (Op.effect a₂ (.pushBack 16 64)).ready = {64} ∧
      (Op.effect a₂ (.pushBack 16 64)).xs 16 = [64] := by
    rw [heffect]
    exact ⟨hlive, hready, by simp [Seqs.set]⟩
  exact ⟨hgoal.1, hgoal.2.1, hgoal.2.2, rfl⟩

theorem lists_refine_sequences_pushed : ∃ c, c.seqs.xs 16 = [64] ∧ Sound smallArena c := by
  obtain ⟨c, hc, -, -, hxs, -⟩ := reachable_pushed (fun a op => op.InitsUnused a) fun _ _ h => h
  exact ⟨c, hxs, lists_refine_sequences smallArena hc⟩

/-- `init` of a list that has a node: the list is empty behind it, and the node
still says that it is in the list. -/
theorem init_strands_node : ∃ c, (system smallArena fun _ _ => True).Reachable c ∧
    ∃ l ∈ c.seqs.live, ∃ n ∈ c.seqs.ready, c.seqs.xs l = [] ∧ list c.mem n = l := by
  obtain ⟨c, hc, hlive, hready, -, hmem⟩ := reachable_pushed (fun _ _ => True) fun _ _ _ => trivial
  refine ⟨_, hc.step ⟨.listInit 16, rfl, trivial, rfl⟩, 16, .inr rfl, 64, hready ▸ rfl,
    by simp [Op.effect, Seqs.set], ?_⟩
  show list (init c.mem 16) 64 = 16
  rw [hmem]
  decide +kernel

end List2

end MakarnaX
