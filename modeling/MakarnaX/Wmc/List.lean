import MakarnaX.Library.Ring
import Mathlib.Data.Finset.Card

/-!
# The intrusive list of `wmc/__list.h`

`List_2` of the source: a node holds its neighbours and the list it belongs
to, a list holds its size and a sentinel node (`__`) between its last and its
first element.  Everything is an address in one byte memory, laid out as the
structs are: `__prev`, `__next`, `__list` in a node, `__size`, the sentinel
and `lock` in a list.  Iterators are node addresses and `error()` is `NULL`.

`Represents` ties a memory to a family of sequences, one per list.  It is the
only way the rest of the development looks at lists: `Represents.insert` and
`Represents.erase` say which sequence an operation leaves, and the frame
lemmas which bytes it may change.
-/

namespace MakarnaX

open Function List

open Library (Mem)
open Library.Ring (prev next linkBefore unlink Apart Seg)

namespace ListNode

/-- `__list`, the list a node belongs to. -/
def list (m : Mem) (n : Nat) : Nat := m.read32 (n + 8)

def setList (m : Mem) (n v : Nat) : Mem := m.write32 (n + 8) v

/-- `ListNode::init`. -/
def init (m : Mem) (n : Nat) : Mem :=
  ((setList m n 0).write32 (n + 4) 0).write32 n 0

/-- `ListNode::is_free`. -/
def isFree (m : Mem) (n : Nat) : Prop := list m n = 0

instance (m : Mem) (n : Nat) : Decidable (isFree m n) := inferInstanceAs (Decidable (_ = _))

/-- `ListNode::set_free`. -/
def setFree (m : Mem) (n : Nat) : Mem := setList m n 0

theorem isFree_init (m : Mem) (n : Nat) : isFree (init m n) n := by
  unfold isFree list init setList
  rw [Mem.read32_ne _ _ (by omega), Mem.read32_ne _ _ (by omega),
    Mem.read32_self _ _ (by omega)]

theorem init_apply (m : Mem) {n x : Nat} (h : x < n ∨ n + 12 ≤ x) : init m n x = m x := by
  unfold init setList
  rw [Mem.write32_apply _ _ (by omega), Mem.write32_apply _ _ (by omega),
    Mem.write32_apply _ _ (by omega)]

end ListNode

namespace List2

open ListNode (list setList)

/-! ## Operations -/

/-- `__`, the sentinel of the list at `l`. -/
def sentinel (l : Nat) : Nat := l + 4

/-- `size()`. -/
def size (m : Mem) (l : Nat) : Nat := m.read32 l

/-- `List::init`. -/
def init (m : Mem) (l : Nat) : Mem :=
  let m := m.write32 l 0
  let m := m.write32 (l + 16) 0
  let m := Library.Ring.setNext m (sentinel l) (sentinel l)
  let m := Library.Ring.setPrev m (sentinel l) (sentinel l)
  setList m (sentinel l) l

/-- `List::insert`: the new iterator, or `error()`. -/
def insert (m : Mem) (l pos n : Nat) : Nat × Mem :=
  if ListNode.isFree m n then
    let m := setList m n l
    let m := linkBefore m pos n
    (n, m.write32 l (size m l + 1))
  else (0, m)

/-- `List::erase`: the iterator after the erased one, or `error()`. -/
def erase (m : Mem) (l pos : Nat) : Nat × Mem :=
  if pos = sentinel l then (0, m)
  else if list m pos ≠ l then (0, m)
  else
    let m := unlink m pos
    let nxt := next m pos
    let m := ListNode.setFree m pos
    (nxt, m.write32 l (size m l + 2 ^ 32 - 1))

/-- `begin()`. -/
def first (m : Mem) (l : Nat) : Nat := next m (sentinel l)

/-- `push_front`. -/
def pushFront (m : Mem) (l n : Nat) : Bool × Mem :=
  let r := insert m l (first m l) n
  (r.1 ≠ 0, r.2)

/-- `push_back`. -/
def pushBack (m : Mem) (l n : Nat) : Bool × Mem :=
  let r := insert m l (sentinel l) n
  (r.1 ≠ 0, r.2)

/-- `pop_front`. -/
def popFront (m : Mem) (l : Nat) : Bool × Mem :=
  let r := erase m l (first m l)
  (r.1 ≠ 0, r.2)

/-! ## Sequences -/

variable {ι : Type*} {x n : Nat} {i j : ι} {ys zs : List Nat}

/-- The nodes of a list, its sentinel first. -/
def nodes (addr : ι → Nat) (xs : ι → List Nat) (i : ι) : List Nat := sentinel (addr i) :: xs i

/-- The memory holds the lists at `addr`, with contents `xs`, and no two of
their nodes or size fields overlap. -/
structure Represents (m : Mem) (addr : ι → Nat) (xs : ι → List Nat) : Prop where
  ring : ∀ i, Seg m (sentinel (addr i)) (xs i) (sentinel (addr i))
  owner : ∀ i, ∀ n ∈ nodes addr xs i, list m n = addr i
  size : ∀ i, size m (addr i) = (xs i).length
  nodup : ∀ i, (nodes addr xs i).Nodup
  apart : ∀ i j, ∀ n ∈ nodes addr xs i, ∀ n' ∈ nodes addr xs j, n ≠ n' → Apart n n'
  sizeApart : ∀ i j, ∀ n ∈ nodes addr xs j, addr i + 4 ≤ n ∨ n + 12 ≤ addr i
  heads : ∀ i j, i ≠ j → addr i + 4 ≤ addr j ∨ addr j + 4 ≤ addr i
  bound : ∀ i, ∀ n ∈ nodes addr xs i, n + 12 ≤ 2 ^ 32
  pos : ∀ i, 0 < addr i
  nodePos : ∀ i, ∀ n ∈ nodes addr xs i, 0 < n

/-- The `k` nodes behind `n`. -/
def elementsFrom (m : Mem) : Nat → Nat → List Nat
  | 0, _ => []
  | k + 1, n => next m n :: elementsFrom m k (next m n)

/-- The nodes of the list at `l`, from the first on. -/
def elements (m : Mem) (l : Nat) : List Nat := elementsFrom m (size m l) (sentinel l)

theorem elementsFrom_seg {m : Mem} {b : Nat} :
    ∀ {xs : List Nat} {a : Nat}, Seg m a xs b → elementsFrom m xs.length a = xs
  | [], _, _ => rfl
  | x :: xs, a, h => by
    rw [length_cons, elementsFrom, h.1.1, elementsFrom_seg h.2]

theorem Represents.elements {m : Mem} {addr : ι → Nat} {xs : ι → List Nat} (h : Represents m addr xs) (i : ι) :
    elements m (addr i) = xs i := by
  rw [List2.elements, h.size, elementsFrom_seg (h.ring i)]

/-- A node address that no list uses. -/
structure Fresh (addr : ι → Nat) (xs : ι → List Nat) (n : Nat) : Prop where
  apart : ∀ i, ∀ x ∈ nodes addr xs i, Apart x n
  sizeApart : ∀ i, addr i + 4 ≤ n ∨ n + 12 ≤ addr i
  bound : n + 12 ≤ 2 ^ 32
  pos : 0 < n

variable {m : Mem} {addr : ι → Nat} {xs : ι → List Nat}

theorem sentinel_mem_nodes (i : ι) : sentinel (addr i) ∈ nodes addr xs i := mem_cons_self

theorem mem_nodes (h : n ∈ xs i) : n ∈ nodes addr xs i :=
  mem_cons_of_mem _ h

/-- The nodes of a ring, its sentinel counted at both ends. -/
theorem mem_nodes_of_ring (h : n ∈ sentinel (addr i) :: (xs i ++ [sentinel (addr i)])) : n ∈ nodes addr xs i := by
  rcases mem_cons.1 h with rfl | h
  · exact sentinel_mem_nodes i
  · rcases mem_append.1 h with h | h
    · exact mem_nodes h
    · simp only [mem_singleton] at h
      exact h ▸ sentinel_mem_nodes i

namespace Represents

section

variable (h : Represents m addr xs)

include h

theorem addr_ne (hij : i ≠ j) : addr i ≠ addr j := by
  have := h.heads i j hij
  omega

theorem addr_lt (i : ι) : addr i < 2 ^ 32 := by
  have := h.bound i _ (sentinel_mem_nodes i)
  unfold sentinel at this
  omega

/-- A node belongs to one list only. -/
theorem disjoint (hij : i ≠ j) (hn : n ∈ nodes addr xs i) : n ∉ nodes addr xs j := fun hn' =>
  h.addr_ne hij ((h.owner i n hn).symm.trans (h.owner j n hn'))

/-- Only the addresses the lists use matter. -/
theorem congr {m' : Mem} (hn : ∀ i, ∀ n ∈ nodes addr xs i, ∀ x, n ≤ x → x < n + 12 → m' x = m x)
    (hs : ∀ i x, addr i ≤ x → x < addr i + 4 → m' x = m x) : Represents m' addr xs := by
  have hread : ∀ i, ∀ n ∈ nodes addr xs i, ∀ k ≤ 8, m'.read32 (n + k) = m.read32 (n + k) := by
    intro i n hni k hk
    unfold Mem.read32
    rw [hn i n hni _ (by omega) (by omega), hn i n hni _ (by omega) (by omega),
      hn i n hni _ (by omega) (by omega), hn i n hni _ (by omega) (by omega)]
  refine { h with ring := fun i => ?_, owner := fun i n hni => ?_, size := fun i => ?_ }
  · refine (h.ring i).congr (fun n hni => hread i n hni 4 (by omega)) (fun n hni => ?_)
    exact hread i n (mem_nodes_of_ring (mem_cons_of_mem _ hni)) 0 (by omega)
  · exact (hread i n hni 8 (by omega)).trans (h.owner i n hni)
  · refine Eq.trans ?_ (h.size i)
    unfold List2.size Mem.read32
    rw [hs i _ (by omega) (by omega), hs i _ (by omega) (by omega), hs i _ (by omega) (by omega),
      hs i _ (by omega) (by omega)]

end

end Represents

/-! ## What an operation does to the memory -/

/-- `m'` is `m` after `n` was put between `q` and `pos` into the list at `l`. -/
structure Inserted (m m' : Mem) (l q pos n : Nat) : Prop where
  next_self : next m' n = pos
  prev_self : prev m' n = q
  next_before : next m' q = n
  prev_pos : prev m' pos = n
  owner : list m' n = l
  size : size m' l = size m l + 1
  frame : ∀ x, (x < n ∨ n + 12 ≤ x) → (x < q + 4 ∨ q + 8 ≤ x) → (x < pos ∨ pos + 4 ≤ x) →
    (x < l ∨ l + 4 ≤ x) → m' x = m x

theorem insert_inserted {l q pos n : Nat} (hf : ListNode.isFree m n) (hp : prev m pos = q)
    (hn : Apart n pos) (hq : Apart n q) (hqp : q = pos ∨ Apart q pos)
    (hnb : n < 2 ^ 32) (hpb : pos < 2 ^ 32) (hlb : l < 2 ^ 32) (hs : size m l + 1 < 2 ^ 32)
    (hln : l + 4 ≤ n ∨ n + 12 ≤ l) (hlq : l + 4 ≤ q ∨ q + 12 ≤ l) (hlp : l + 4 ≤ pos ∨ pos + 12 ≤ l) :
    (insert m l pos n).1 = n ∧ Inserted m (insert m l pos n).2 l q pos n := by
  unfold insert
  rw [if_pos hf]
  refine ⟨rfl, ?_⟩
  dsimp only
  have hn' := hn
  unfold Apart at hn'
  have hp1 : prev (setList m n l) pos = q := by
    rw [← hp]
    exact Mem.read32_ne _ _ (by omega)
  obtain ⟨hL1, hL2, hL3, hL4⟩ := Library.Ring.linkBefore_links hp1 hn hq hqp hnb hpb
  have hF : ∀ x, (x < n ∨ n + 8 ≤ x) → (x < q + 4 ∨ q + 8 ≤ x) → (x < pos ∨ pos + 4 ≤ x) →
      linkBefore (setList m n l) pos n x = setList m n l x := fun x h1 h2 h3 =>
    Library.Ring.linkBefore_frame hp1 hn h1 h2 h3
  generalize linkBefore (setList m n l) pos n = m2 at hL1 hL2 hL3 hL4 hF ⊢
  have hS : size m2 l = size m l :=
    Mem.read32_congr fun x h1 h2 =>
      (hF x (by omega) (by omega) (by omega)).trans (Mem.write32_apply _ _ (by omega))
  have hpost : ∀ x, (l + 4 ≤ x ∨ x + 12 ≤ l) → ∀ k ≤ 8,
      (m2.write32 l (size m2 l + 1)).read32 (x + k) = m2.read32 (x + k) :=
    fun x hx k hk => Mem.read32_ne _ _ (by omega)
  refine ⟨?_, ?_, ?_, ?_, ?_, ?_, ?_⟩
  · exact (hpost n hln 4 (by omega)).trans hL1
  · exact (hpost n hln 0 (by omega)).trans hL2
  · exact (hpost q hlq 4 (by omega)).trans hL3
  · exact (hpost pos hlp 0 (by omega)).trans hL4
  · refine (hpost n hln 8 (by omega)).trans ?_
    unfold Apart at hq
    rw [Mem.read32_congr fun x h1 h2 => hF x (by omega) (by omega) (by omega)]
    exact Mem.read32_self _ _ hlb
  · rw [← hS] at hs ⊢
    exact Mem.read32_self _ _ hs
  · intro x h1 h2 h3 h4
    rw [Mem.write32_apply _ _ (by omega), hF x (by omega) h2 h3]
    exact Mem.write32_apply _ _ (by omega)

/-- `m'` is `m` after `n`, between `q` and `r`, was taken out of the list at `l`. -/
structure Erased (m m' : Mem) (l q r n : Nat) : Prop where
  next_before : next m' q = r
  prev_after : prev m' r = q
  owner : list m' n = 0
  size : size m' l + 1 = size m l
  frame : ∀ x, (x < n + 8 ∨ n + 12 ≤ x) → (x < q + 4 ∨ q + 8 ≤ x) → (x < r ∨ r + 4 ≤ x) →
    (x < l ∨ l + 4 ≤ x) → m' x = m x

theorem erase_erased {l q r n : Nat} (hs : n ≠ sentinel l) (hl : list m n = l)
    (hp : prev m n = q) (hr : next m n = r) (hq : Apart n q) (hnr : Apart n r)
    (hqr : q = r ∨ Apart q r) (hsize : 0 < size m l) (hln : l + 4 ≤ n ∨ n + 12 ≤ l) (hlq : l + 4 ≤ q ∨ q + 12 ≤ l)
    (hlr : l + 4 ≤ r ∨ r + 12 ≤ l) :
    (erase m l n).1 = r ∧ Erased m (erase m l n).2 l q r n := by
  unfold erase
  rw [if_neg hs, if_neg (not_not.2 hl)]
  dsimp only
  obtain ⟨hL1, hL2⟩ := Library.Ring.unlink_links hp hr hq hqr
  have hF : ∀ x, (x < q + 4 ∨ q + 8 ≤ x) → (x < r ∨ r + 4 ≤ x) → unlink m n x = m x :=
    fun x h1 h2 => Library.Ring.unlink_frame hp hr hq h1 h2
  unfold Apart at hq hnr hqr
  have hnext : next (unlink m n) n = r := by
    rw [← hr]
    exact Mem.read32_congr fun x h1 h2 => hF x (by omega) (by omega)
  generalize unlink m n = m2 at hL1 hL2 hF hnext ⊢
  refine ⟨hnext, ?_⟩
  have hS : size (ListNode.setFree m2 n) l = size m l :=
    Mem.read32_congr fun x h1 h2 =>
      (Mem.write32_apply _ _ (by omega)).trans (hF x (by omega) (by omega))
  have hlt : size m l < 2 ^ 32 := Mem.read32_lt _ _
  have hpost : ∀ x, (l + 4 ≤ x ∨ x + 12 ≤ l) → ∀ k ≤ 8, ∀ v,
      ((ListNode.setFree m2 n).write32 l v).read32 (x + k) = (ListNode.setFree m2 n).read32 (x + k) :=
    fun x hx k hk v => Mem.read32_ne _ _ (by omega)
  refine ⟨?_, ?_, ?_, ?_, ?_⟩
  · refine ((hpost q hlq 4 (by omega) _).trans ?_).trans hL1
    exact Mem.read32_ne _ _ (by omega)
  · refine ((hpost r hlr 0 (by omega) _).trans ?_).trans hL2
    exact Mem.read32_ne _ _ (by omega)
  · exact (hpost n hln 8 (by omega) _).trans (Mem.read32_self _ _ (by omega))
  · -- the decrement is written modulo 2^32
    have hw := Mem.read32_write32 (ListNode.setFree m2 n) l (size (ListNode.setFree m2 n) l + 2 ^ 32 - 1)
    have hw' : size ((ListNode.setFree m2 n).write32 l
        (size (ListNode.setFree m2 n) l + 2 ^ 32 - 1)) l = _ := hw
    rw [hw', hS]
    omega
  · intro x h1 h2 h3 h4
    rw [Mem.write32_apply _ _ (by omega)]
    exact (Mem.write32_apply _ _ (by omega)).trans (hF x h2 h3)

/-! ## Insertion and erasure on sequences -/

theorem headD_mem_nodes (hx : xs i = ys ++ zs) :
    zs.headD (sentinel (addr i)) ∈ nodes addr xs i := by
  cases zs with
  | nil => exact sentinel_mem_nodes i
  | cons z zs => exact mem_nodes (hx ▸ mem_append_right _ mem_cons_self)

/-- The node after `n`. -/
theorem headD_mem_nodes_of_cons (hx : xs i = ys ++ n :: zs) :
    zs.headD (sentinel (addr i)) ∈ nodes addr xs i := by
  have hx' : xs i = (ys ++ [n]) ++ zs := by
    rw [hx, append_assoc]
    rfl
  exact headD_mem_nodes hx'

namespace Represents

/-- A 32-bit address space has no room for 2^32 nodes. -/
theorem length_lt (h : Represents m addr xs) (hn : Fresh addr xs n) (i : ι) :
    (xs i).length + 1 < 2 ^ 32 := by
  have hnd : (n :: nodes addr xs i).Nodup :=
    nodup_cons.2 ⟨fun hm => (hn.apart i n hm).ne rfl, h.nodup i⟩
  have hsub : (n :: nodes addr xs i).toFinset ⊆ Finset.range (2 ^ 32) := by
    intro x hx
    rw [mem_toFinset] at hx
    rw [Finset.mem_range]
    rcases mem_cons.1 hx with rfl | hx
    · have := hn.bound
      omega
    · have := h.bound i x hx
      omega
  have hcard := Finset.card_le_card hsub
  rw [toFinset_card_of_nodup hnd, Finset.card_range] at hcard
  simp only [nodes, length_cons] at hcard
  omega

/-- The node before any node of a list is a node of the list. -/
theorem prev_mem (h : Represents m addr xs) (hx : x ∈ nodes addr xs i) :
    prev m x ∈ nodes addr xs i := by
  rcases mem_cons.1 hx with rfl | hx
  · exact (h.ring i).prev_end_mem
  · obtain ⟨l1, l2, hl⟩ := append_of_mem hx
    have hseg := h.ring i
    rw [hl] at hseg
    have := (Library.Ring.seg_append.1 hseg).1.prev_end_mem
    rcases mem_cons.1 this with he | he
    · exact he ▸ sentinel_mem_nodes i
    · exact mem_nodes (hl ▸ mem_append_left _ he)

theorem eq_or_apart (h : Represents m addr xs) {x y : Nat} (hx : x ∈ nodes addr xs i)
    (hy : y ∈ nodes addr xs j) : x = y ∨ Apart x y := by
  by_cases hxy : x = y
  · exact Or.inl hxy
  · exact Or.inr (h.apart i j x hx y hy hxy)

section Relink

variable [DecidableEq ι]

/-- The links of one list change at the node `n`, behind `q` and before `r`, and nothing
else does: the nodes of the list are then those of `l`. -/
theorem relink {m' : Mem} {q r : Nat} {l : List Nat} (h : Represents m addr xs) (hq : q ∈ nodes addr xs i)
    (hr : r ∈ nodes addr xs i) (hn : ∀ j, ∀ x ∈ nodes addr xs j, x ≠ n → Apart x n)
    (hns : ∀ j, addr j + 4 ≤ n ∨ n + 12 ≤ addr j) (hother : ∀ j, j ≠ i → n ∉ nodes addr xs j)
    (hm : ∀ x, (x < n ∨ n + 12 ≤ x) → (x < q + 4 ∨ q + 8 ≤ x) → (x < r ∨ r + 4 ≤ x) →
      (x < addr i ∨ addr i + 4 ≤ x) → m' x = m x)
    (hring : (∀ x ∈ nodes addr xs i, x ≠ n → x ≠ q → next m' x = next m x) →
      (∀ x ∈ nodes addr xs i, x ≠ n → x ≠ r → prev m' x = prev m x) → Seg m' (sentinel (addr i)) l (sentinel (addr i)))
    (hl : ∀ x ∈ sentinel (addr i) :: l, x = n ∨ x ∈ nodes addr xs i)
    (hnew : n ∈ sentinel (addr i) :: l → list m' n = addr i ∧ n + 12 ≤ 2 ^ 32 ∧ 0 < n)
    (hsize : List2.size m' (addr i) = l.length) (hnd : (sentinel (addr i) :: l).Nodup) :
    Represents m' addr (update xs i l) := by
  -- words of a node away from the four that changed
  have hword : ∀ j, ∀ x ∈ nodes addr xs j, ∀ k ≤ 8, x ≠ n → (x = q → k ≠ 4) → (x = r → k ≠ 0) →
      k = 0 ∨ k = 4 ∨ k = 8 → m'.read32 (x + k) = m.read32 (x + k) := by
    intro j x hxj k hk hxn hkq hkr hk3
    refine Mem.read32_congr fun y h1 h2 => hm y ?_ ?_ ?_ ?_
    · have := hn j x hxj hxn
      unfold Apart at this
      omega
    · rcases h.eq_or_apart hxj hq with he | he
      · have := hkq he
        omega
      · unfold Apart at he
        omega
    · rcases h.eq_or_apart hxj hr with he | he
      · have := hkr he
        omega
      · unfold Apart at he
        omega
    · have := h.sizeApart i j x hxj
      omega
  have hcases : ∀ j, ∀ x ∈ nodes addr (update xs i l) j, (j = i ∧ x = n) ∨ (x ∈ nodes addr xs j ∧ x ≠ n) := by
    intro j x hxj
    unfold nodes at hxj
    by_cases hj : j = i
    · subst hj
      rw [update_self] at hxj
      by_cases hxn : x = n
      · exact .inl ⟨rfl, hxn⟩
      · exact .inr ⟨(hl x hxj).resolve_left hxn, hxn⟩
    · rw [update_of_ne hj] at hxj
      exact .inr ⟨hxj, fun he => hother j hj (he ▸ hxj)⟩
  have hnew' : ∀ j, n ∈ nodes addr (update xs i l) j → list m' n = addr i ∧ n + 12 ≤ 2 ^ 32 ∧ 0 < n := by
    intro j hnj
    rcases hcases j n hnj with ⟨rfl, -⟩ | ⟨-, hne⟩
    · unfold nodes at hnj
      rw [update_self] at hnj
      exact hnew hnj
    · exact absurd rfl hne
  refine { ring := fun j => ?_, owner := fun j x hxj => ?_, size := fun j => ?_,
           nodup := fun j => ?_, apart := fun j k x hxj y hyk hxy => ?_,
           sizeApart := fun j k x hxk => ?_, heads := h.heads, bound := fun j x hxj => ?_,
           pos := h.pos, nodePos := fun j x hxj => ?_ }
  · by_cases hj : j = i
    · subst hj
      rw [update_self]
      refine hring (fun x hxm hxn hxq => ?_) (fun x hxm hxn hxr => ?_)
      · exact hword j x hxm 4 (by omega) hxn (fun he => absurd he hxq) (by omega) (by omega)
      · exact hword j x hxm 0 (by omega) hxn (by omega) (fun he => absurd he hxr) (by omega)
    · rw [update_of_ne hj]
      have hne : ∀ x ∈ nodes addr xs j, x ≠ n ∧ ∀ y ∈ nodes addr xs i, x ≠ y := fun x hxm =>
        ⟨fun he => hother j hj (he ▸ hxm), fun y hym he => h.disjoint (Ne.symm hj) hym (he ▸ hxm)⟩
      refine (h.ring j).congr (fun x hxm => ?_) (fun x hxm => ?_)
      · exact hword j x hxm 4 (by omega) (hne x hxm).1 (fun he => absurd he ((hne x hxm).2 _ hq)) (by omega) (by omega)
      · have hxm' := mem_nodes_of_ring (mem_cons_of_mem _ hxm)
        exact hword j x hxm' 0 (by omega) (hne x hxm').1 (by omega) (fun he => absurd he ((hne x hxm').2 _ hr))
          (by omega)
  · rcases hcases j x hxj with ⟨rfl, rfl⟩ | ⟨hx', hxn⟩
    · exact (hnew' j hxj).1
    · exact (hword j x hx' 8 (by omega) hxn (by omega) (by omega) (by omega)).trans (h.owner j x hx')
  · by_cases hj : j = i
    · subst hj
      rw [update_self, hsize]
    · rw [update_of_ne hj, ← h.size j]
      refine Mem.read32_congr fun y h1 h2 => hm y ?_ ?_ ?_ ?_
      · have := hns j
        omega
      · have := h.sizeApart j i _ hq
        omega
      · have := h.sizeApart j i _ hr
        omega
      · have := h.heads i j (Ne.symm hj)
        omega
  · unfold nodes
    by_cases hj : j = i
    · subst hj
      rwa [update_self]
    · rw [update_of_ne hj]
      exact h.nodup j
  · rcases hcases j x hxj with ⟨rfl, rfl⟩ | ⟨hx', hxn⟩
    · rcases hcases k y hyk with ⟨rfl, rfl⟩ | ⟨hy', hyn⟩
      · exact absurd rfl hxy
      · exact (hn k y hy' hyn).symm
    · rcases hcases k y hyk with ⟨rfl, rfl⟩ | ⟨hy', hyn⟩
      · exact hn j x hx' hxn
      · exact h.apart j k x hx' y hy' hxy
  · rcases hcases k x hxk with ⟨rfl, rfl⟩ | ⟨hx', -⟩
    · exact hns j
    · exact h.sizeApart j k x hx'
  · rcases hcases j x hxj with ⟨rfl, rfl⟩ | ⟨hx', -⟩
    · exact (hnew' j hxj).2.1
    · exact h.bound j x hx'
  · rcases hcases j x hxj with ⟨rfl, rfl⟩ | ⟨hx', -⟩
    · exact (hnew' j hxj).2.2
    · exact h.nodePos j x hx'

end Relink

section Insert

variable {i : ι} {n : Nat} {ys zs : List Nat}

section

variable (h : Represents m addr xs) (hx : xs i = ys ++ zs) (hn : Fresh addr xs n) (hf : ListNode.isFree m n)

include h hx hn hf

/-- What `insert` does at a position of a represented list. -/
theorem inserted :
    (List2.insert m (addr i) (zs.headD (sentinel (addr i))) n).1 = n ∧
      Inserted m (List2.insert m (addr i) (zs.headD (sentinel (addr i))) n).2 (addr i)
        (prev m (zs.headD (sentinel (addr i)))) (zs.headD (sentinel (addr i))) n := by
  have hpos : zs.headD (sentinel (addr i)) ∈ nodes addr xs i := headD_mem_nodes hx
  have hq := h.prev_mem hpos
  refine insert_inserted hf rfl (hn.apart i _ hpos).symm (hn.apart i _ hq).symm
    (h.eq_or_apart hq hpos) ?_ ?_ (h.addr_lt i) ?_ (hn.sizeApart i) (h.sizeApart i i _ hq)
    (h.sizeApart i i _ hpos)
  · have := hn.bound
    omega
  · have := h.bound i _ hpos
    omega
  · rw [h.size i]
    exact h.length_lt hn i

/-- An insertion changes only the new node, the links of the list and its size. -/
theorem insert_frame (hxn : x < n ∨ n + 12 ≤ x)
    (hxs : ∀ y ∈ nodes addr xs i, x < y ∨ y + 8 ≤ x) (hxl : x < addr i ∨ addr i + 4 ≤ x) :
    (List2.insert m (addr i) (zs.headD (sentinel (addr i))) n).2 x = m x := by
  have hpos : zs.headD (sentinel (addr i)) ∈ nodes addr xs i := headD_mem_nodes hx
  have hq := hxs _ (h.prev_mem hpos)
  have hp := hxs _ hpos
  exact (h.inserted hx hn hf).2.frame x hxn (by omega) (by omega) hxl

end

variable [DecidableEq ι]

theorem insert (h : Represents m addr xs) (hx : xs i = ys ++ zs) (hn : Fresh addr xs n) (hf : ListNode.isFree m n) :
    Represents (List2.insert m (addr i) (zs.headD (sentinel (addr i))) n).2 addr
      (update xs i (ys ++ n :: zs)) := by
  have hI := (h.inserted hx hn hf).2
  have hpos : zs.headD (sentinel (addr i)) ∈ nodes addr xs i := headD_mem_nodes hx
  have hnm : ∀ j, n ∉ nodes addr xs j := fun j hm => (hn.apart j n hm).ne rfl
  have hnd := h.nodup i
  have hperm : (sentinel (addr i) :: (ys ++ n :: zs)).Perm (n :: nodes addr xs i) := by
    unfold nodes
    rw [hx]
    exact (List.Perm.cons _ perm_middle).trans (List.Perm.swap _ _ _)
  refine h.relink (h.prev_mem hpos) hpos (fun j x hxj _ => hn.apart j x hxj) hn.sizeApart (fun j _ => hnm j)
    hI.frame (fun h1 h2 => ?_) (fun x hxm => ?_) (fun _ => ⟨hI.owner, hn.bound, hn.pos⟩) ?_
    (hperm.nodup_iff.2 (nodup_cons.2 ⟨hnm i, hnd⟩))
  · have hne : ∀ x ∈ nodes addr xs i, x ≠ n := fun x hxm he => hnm i (he ▸ hxm)
    have hseg := h.ring i
    unfold nodes at hnd h1 h2 hne
    rw [hx] at hseg hnd h1 h2 hne
    exact hseg.link hnd rfl rfl ⟨hI.next_self, hI.prev_self, hI.next_before, hI.prev_pos,
      fun x hxm => h1 x hxm (hne x hxm), fun x hxm => h2 x hxm (hne x hxm)⟩
  · exact mem_cons.1 (hperm.subset hxm)
  · rw [hI.size, h.size i, hx]
    simp only [length_append, length_cons]
    omega

end Insert

section Erase

variable {i : ι} {n : Nat} {ys zs : List Nat}

section

variable (h : Represents m addr xs) (hx : xs i = ys ++ n :: zs)

include h hx

theorem next_of_split :
    next m n = zs.headD (sentinel (addr i)) := by
  have hseg := h.ring i
  rw [hx] at hseg
  have h2 := (Library.Ring.seg_append.1 hseg).2
  cases zs with
  | nil => exact h2.1
  | cons z zs => exact h2.1.1

theorem prev_of_split :
    prev m n ∈ sentinel (addr i) :: ys := by
  have hseg := h.ring i
  rw [hx] at hseg
  exact (Library.Ring.seg_append.1 hseg).1.prev_end_mem

/-- What `erase` does to a node of a represented list. -/
theorem erased :
    (List2.erase m (addr i) n).1 = zs.headD (sentinel (addr i)) ∧
      Erased m (List2.erase m (addr i) n).2 (addr i) (prev m n) (zs.headD (sentinel (addr i))) n := by
  have hn : n ∈ nodes addr xs i := mem_nodes (hx ▸ mem_append_right _ mem_cons_self)
  have hq := h.prev_mem hn
  have hr : zs.headD (sentinel (addr i)) ∈ nodes addr xs i := headD_mem_nodes_of_cons hx
  have hnd := h.nodup i
  unfold nodes at hnd
  rw [hx] at hnd
  obtain ⟨hnd1, hnd2, hdis⟩ := Library.Ring.nodup_split hnd
  have hs : n ≠ sentinel (addr i) := fun he =>
    hdis _ mem_cons_self (he ▸ mem_cons_self)
  have hnq : n ≠ prev m n := fun he =>
    hdis _ (h.prev_of_split hx) (he ▸ mem_cons_self)
  have hnr : n ≠ zs.headD (sentinel (addr i)) := by
    cases zs with
    | nil => exact hs
    | cons z zs => exact fun he => (nodup_cons.1 hnd2).1 (he ▸ mem_cons_self)
  refine erase_erased hs (h.owner i n hn) rfl (h.next_of_split hx) (h.apart i i n hn _ hq hnq)
    (h.apart i i n hn _ hr hnr) (h.eq_or_apart hq hr) ?_ (h.sizeApart i i _ hn)
    (h.sizeApart i i _ hq) (h.sizeApart i i _ hr)
  rw [h.size i, hx]
  simp only [length_append, length_cons]
  omega

/-- An erasure changes only the owner of the node, the links of the list and its
size. -/
theorem erase_frame (hxs : ∀ y ∈ nodes addr xs i, x < y ∨ y + 12 ≤ x) (hxl : x < addr i ∨ addr i + 4 ≤ x) :
    (List2.erase m (addr i) n).2 x = m x := by
  have hn : n ∈ nodes addr xs i := mem_nodes (hx ▸ mem_append_right _ mem_cons_self)
  have hq := hxs _ (h.prev_mem hn)
  have hr := hxs _ (headD_mem_nodes_of_cons hx)
  have hn' := hxs _ hn
  exact (h.erased hx).2.frame x (by omega) (by omega) (by omega) hxl

/-- The erased node is no longer in its list. -/
theorem not_mem_erase :
    n ∉ sentinel (addr i) :: (ys ++ zs) := by
  have hnd := h.nodup i
  unfold nodes at hnd
  rw [hx] at hnd
  have hperm : (sentinel (addr i) :: (ys ++ n :: zs)).Perm
      (n :: sentinel (addr i) :: (ys ++ zs)) :=
    (List.Perm.cons _ perm_middle).trans (List.Perm.swap _ _ _)
  exact (nodup_cons.1 (hperm.nodup_iff.1 hnd)).1

end

variable [DecidableEq ι]

theorem erase (h : Represents m addr xs) (hx : xs i = ys ++ n :: zs) :
    Represents (List2.erase m (addr i) n).2 addr (update xs i (ys ++ zs)) := by
  have hE := (h.erased hx).2
  have hn : n ∈ nodes addr xs i := mem_nodes (hx ▸ mem_append_right _ mem_cons_self)
  have hout := h.not_mem_erase hx
  have hnd := h.nodup i
  have hsub : (sentinel (addr i) :: (ys ++ zs)).Sublist (nodes addr xs i) := by
    unfold nodes
    rw [hx]
    exact List.Sublist.cons_cons _ ((sublist_cons_self n zs).append_left ys)
  refine h.relink (h.prev_mem hn) (headD_mem_nodes_of_cons hx) (fun j x hxj hxn => h.apart j i x hxj n hn hxn)
    (fun j => h.sizeApart j i n hn) (fun j hj => h.disjoint (Ne.symm hj) hn)
    (fun x hxn => hE.frame x (by omega)) (fun h1 h2 => ?_) (fun x hxm => .inr (hsub.subset hxm))
    (fun hm => absurd hm hout) ?_ (hnd.sublist hsub)
  · have hne : ∀ x ∈ sentinel (addr i) :: (ys ++ zs), x ≠ n := fun x hxm he => hout (he ▸ hxm)
    have hseg := h.ring i
    have hnd' := hnd
    unfold nodes at hnd'
    rw [hx] at hseg hnd'
    exact hseg.unlink hnd' rfl (h.next_of_split hx) ⟨hE.next_before, hE.prev_after,
      fun x hxm => h1 x (hsub.subset hxm) (hne x hxm), fun x hxm => h2 x (hsub.subset hxm) (hne x hxm)⟩
  · have h1 := hE.size
    have h2 := h.size i
    rw [hx] at h2
    simp only [length_append, length_cons] at h2 ⊢
    omega

end Erase

/-! ## Pushing, popping, and empty lists -/

section Queue

variable {i : ι} {n : Nat} {zs : List Nat}

section

variable (h : Represents m addr xs)

include h

theorem first_eq : List2.first m (addr i) =
    (xs i).headD (sentinel (addr i)) := by
  have hseg := h.ring i
  cases hx : xs i with
  | nil =>
    rw [hx] at hseg
    exact hseg.1
  | cons y ys =>
    rw [hx] at hseg
    exact hseg.1.1

theorem erase_isFree {ys : List Nat} (hx : xs i = ys ++ n :: zs) :
    ListNode.isFree (List2.erase m (addr i) n).2 n := (h.erased hx).2.owner

theorem erase_ne_zero {ys : List Nat} (hx : xs i = ys ++ n :: zs) :
    (List2.erase m (addr i) n).1 ≠ 0 := by
  rw [(h.erased hx).1]
  have hr : zs.headD (sentinel (addr i)) ∈ nodes addr xs i := headD_mem_nodes_of_cons hx
  exact Nat.ne_of_gt (h.nodePos i _ hr)

theorem pushBack_eq (hn : Fresh addr xs n) (hf : ListNode.isFree m n) :
    List2.pushBack m (addr i) n = (true, (List2.insert m (addr i) (sentinel (addr i)) n).2) := by
  have hI := (h.inserted (i := i) (append_nil _).symm hn hf).1
  have hp := Nat.ne_of_gt hn.pos
  unfold List2.pushBack
  simp only [headD_nil] at hI
  simp only [hI, ne_eq, hp, not_false_eq_true, decide_true]

theorem pushFront_eq (hn : Fresh addr xs n) (hf : ListNode.isFree m n) :
    List2.pushFront m (addr i) n =
      (true, (List2.insert m (addr i) ((xs i).headD (sentinel (addr i))) n).2) := by
  have hI := (h.inserted (i := i) (nil_append _).symm hn hf).1
  have hp := Nat.ne_of_gt hn.pos
  unfold List2.pushFront
  simp only [h.first_eq, hI, ne_eq, hp, not_false_eq_true, decide_true]

theorem popFront_eq (hx : xs i = n :: zs) :
    List2.popFront m (addr i) = (true, (List2.erase m (addr i) n).2) := by
  have hx' : xs i = [] ++ n :: zs := hx
  have hE := h.erase_ne_zero hx'
  unfold List2.popFront
  simp only [h.first_eq, hx, headD_cons, hE, ne_eq, not_false_eq_true, decide_true]

end

variable [DecidableEq ι]

theorem pushBack (h : Represents m addr xs) (hn : Fresh addr xs n) (hf : ListNode.isFree m n) :
    Represents (List2.pushBack m (addr i) n).2 addr (update xs i (xs i ++ [n])) := by
  rw [h.pushBack_eq hn hf]
  have hx : xs i = xs i ++ [] := (append_nil _).symm
  have hI := h.insert hx hn hf
  exact hI

theorem pushFront (h : Represents m addr xs) (hn : Fresh addr xs n) (hf : ListNode.isFree m n) :
    Represents (List2.pushFront m (addr i) n).2 addr (update xs i (n :: xs i)) := by
  rw [h.pushFront_eq hn hf]
  exact h.insert (nil_append _).symm hn hf

end Queue

end Represents

/-- The list at `l` is empty. -/
structure Empty (m : Mem) (l : Nat) : Prop where
  next : next m (sentinel l) = sentinel l
  prev : prev m (sentinel l) = sentinel l
  owner : list m (sentinel l) = l
  size : size m l = 0

theorem init_empty (m : Mem) {l : Nat} (hl : l + 4 < 2 ^ 32) : Empty (init m l) l := by
  unfold init sentinel Library.Ring.setNext Library.Ring.setPrev setList
  refine ⟨?_, ?_, ?_, ?_⟩
  · unfold Library.Ring.next sentinel
    rw [Mem.read32_ne _ _ (by omega), Mem.read32_ne _ _ (by omega),
      Mem.read32_self _ _ hl]
  · unfold Library.Ring.prev sentinel
    rw [Mem.read32_ne _ _ (by omega), Mem.read32_self _ _ hl]
  · unfold list sentinel
    rw [Mem.read32_self _ _ (by omega)]
  · unfold size
    rw [Mem.read32_ne _ _ (by omega), Mem.read32_ne _ _ (by omega),
      Mem.read32_ne _ _ (by omega), Mem.read32_ne _ _ (by omega),
      Mem.read32_self _ _ (by omega)]

theorem init_apply (m : Mem) {l x : Nat} (h : x < l ∨ l + 20 ≤ x) : init m l x = m x := by
  unfold init sentinel Library.Ring.setNext Library.Ring.setPrev setList
  rw [Mem.write32_apply _ _ (by omega), Mem.write32_apply _ _ (by omega),
    Mem.write32_apply _ _ (by omega), Mem.write32_apply _ _ (by omega),
    Mem.write32_apply _ _ (by omega)]

theorem Empty.congr {m' : Mem} {l : Nat} (h : Empty m l) (hm : ∀ x, l ≤ x → x < l + 16 → m' x = m x) : Empty m' l := by
  have hread : ∀ k ≤ 12, m'.read32 (l + k) = m.read32 (l + k) := fun k hk =>
    Mem.read32_congr fun x h1 h2 => hm x (by omega) (by omega)
  exact ⟨(hread 8 (by omega)).trans h.next, (hread 4 (by omega)).trans h.prev,
    (hread 12 (by omega)).trans h.owner, (hread 0 (by omega)).trans h.size⟩

/-- Empty lists that do not overlap are represented. -/
theorem Represents.empty (h : ∀ i, Empty m (addr i)) (ha : ∀ i j, i ≠ j → addr i + 16 ≤ addr j ∨ addr j + 16 ≤ addr i)
    (hb : ∀ i, 0 < addr i ∧ addr i + 16 ≤ 2 ^ 32) : Represents m addr fun _ => [] := by
  have hmem : ∀ i, ∀ n ∈ nodes addr (fun _ => []) i, n = addr i + 4 := fun i n hn => by
    simpa only [nodes, sentinel, mem_singleton] using hn
  refine ⟨fun i => ⟨(h i).next, (h i).prev⟩, fun i n hn => ?_, fun i => (h i).size,
    fun i => nodup_singleton _, fun i j n hn n' hn' hne => ?_, fun i j n hn => ?_,
    fun i j hij => ?_, fun i n hn => ?_, fun i => (hb i).1, fun i n hn => ?_⟩
  · rw [hmem i n hn]
    exact (h i).owner
  · have h1 := hmem i n hn
    have h2 := hmem j n' hn'
    have := ha i j fun he => hne (by rw [h1, h2, he])
    unfold Apart
    omega
  · have h1 := hmem j n hn
    rcases eq_or_ne i j with rfl | hij
    · omega
    · have := ha i j hij
      omega
  · have := ha i j hij
    omega
  · have h1 := hmem i n hn
    have := (hb i).2
    omega
  · have h1 := hmem i n hn
    omega

end List2

end MakarnaX
