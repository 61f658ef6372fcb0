import MakarnaX.Library.Buddy
import Mathlib.Tactic.IntervalCases
import Mathlib.Data.Finset.Max
import Mathlib.Data.List.Nodup

/-!
# The abstract heap of the kernel allocator

What the allocator's pages mean: a tiling of the pages by buddy blocks, of
which some are in use, one may be *held* by a call that is under way, and the
others are free, each in the list of its class.  The moves of the allocator
(`take` a block from its list, `split` and `merge` the held block, `use` it,
`unuse` a block, `put` it back, `addPage` and `dropPage`) keep a heap well
formed.  Nothing here mentions memory.
-/

namespace MakarnaX.Kmalloc

open Library.Buddy Function Finset Option Block

/-- The page of tmp page `i` among all pages of the kernel segment. -/
def pageNo (i : Nat) : Nat := 0x10000 + i

/-- The block lies in tmp page `i`. -/
def InPage (i : Nat) (b : Block) : Prop := b.addr / 0x1000 = pageNo i

instance (i : Nat) (b : Block) : Decidable (InPage i b) := inferInstanceAs (Decidable (_ = _))

/-- The addresses of a set of tmp pages. -/
def region (pages : Finset Nat) : Set Nat := {x | ∃ i ∈ pages, x / 0x1000 = pageNo i}

@[ext]
structure Heap where
  tiles : Finset Block
  used : Finset Block
  held : Option Block
  lists : Fin 7 → List Nat
  pages : Finset Nat

namespace Heap

/-- A block in a free list. -/
def Free (H : Heap) (b : Block) : Prop := b ∈ H.tiles ∧ b ∉ H.used ∧ H.held ≠ some b

structure WF (H : Heap) : Prop where
  tiling : Tiling 32 H.tiles (region H.pages)
  cls : ∀ b ∈ H.tiles, b.cls ≤ 6 ∨ (b.cls = 7 ∧ H.held = some b)
  used : ∀ b ∈ H.used, b ∈ H.tiles
  held : ∀ b, H.held = some b → b ∈ H.tiles ∧ b ∉ H.used
  lists : ∀ (k : Fin 7) a, a ∈ H.lists k ↔ H.Free ⟨a, k⟩
  nodup : ∀ k, (H.lists k).Nodup
  pages : ∀ i ∈ H.pages, i < 1024

/-- No two halves of one block are both free. -/
def NoFreeBuddies (H : Heap) : Prop :=
  ∀ b, H.Free b → ¬ H.Free ⟨b.buddy 32, b.cls⟩

/-- Blocks of class `k` in page `i`. -/
def count (H : Heap) (i k : Nat) : Nat := Library.Buddy.count (fun b => InPage i b ∧ b.cls = k) H.tiles

/-- Used blocks of class `k` in page `i`. -/
def countUsed (H : Heap) (i k : Nat) : Nat :=
  Library.Buddy.count (fun b => InPage i b ∧ b.cls = k) H.used

/-! ## Blocks and pages -/

theorem size_values {k : Nat} (hk : k ≤ 7) : size 32 k * 2 ^ (7 - k) = 0x1000 := by
  unfold size
  interval_cases k <;> rfl

theorem size_le {k : Nat} (hk : k ≤ 7) : size 32 k ≤ 0x1000 :=
  (Nat.le_mul_of_pos_right _ (Nat.two_pow_pos (7 - k))).trans (Nat.le_of_eq (size_values hk))

theorem le_size (k : Nat) : 32 ≤ size 32 k := by
  have := Nat.two_pow_pos k
  unfold size
  omega

/-- A block lies in one page. -/
theorem page_of_covers {a k x : Nat} (hk : k ≤ 7) (ha : size 32 k ∣ a)
    (hx : Block.Covers 32 ⟨a, k⟩ x) : x / 0x1000 = a / 0x1000 := by
  unfold Block.Covers at hx
  unfold size at *
  dsimp only at hx
  interval_cases k <;> omega

variable {b : Block}

/-- The buddy of a block below the page size lies in the same page. -/
theorem buddy_page (hk : b.cls ≤ 6) (ha : size 32 b.cls ∣ b.addr) :
    b.buddy 32 / 0x1000 = b.addr / 0x1000 := by
  obtain ⟨a, k⟩ := b
  unfold buddy size at *
  dsimp only at *
  interval_cases k <;> split <;> omega

namespace WF

variable {H : Heap} {c : Block}

section

variable (h : H.WF)

include h

theorem cls_le (hb : b ∈ H.tiles) : b.cls ≤ 7 := by
  rcases h.cls b hb with h1 | h1 <;> omega

/-- Every block lies in one page of the heap. -/
theorem page (hb : b ∈ H.tiles) : ∃ i ∈ H.pages, InPage i b := by
  obtain ⟨i, hi, hx⟩ := (h.tiling.cover b.addr).2 ⟨b, hb, b.covers_addr (by omega)⟩
  exact ⟨i, hi, hx⟩

theorem covers_page (hb : b ∈ H.tiles) {i x : Nat} (hi : InPage i b) (hx : b.Covers 32 x) : x / 0x1000 = pageNo i :=
  (page_of_covers (h.cls_le hb) (h.tiling.aligned b hb) hx).trans hi

/-- Where the blocks of a heap can be. -/
theorem bounds (hb : b ∈ H.tiles) :
    0x10000000 ≤ b.addr ∧ b.addr + size 32 b.cls ≤ 0x10400000 ∧ 32 ≤ size 32 b.cls := by
  obtain ⟨i, hi, hp⟩ := h.page hb
  have hi' := h.pages i hi
  have hsz := le_size b.cls
  have hend := h.covers_page hb hp (x := b.addr + size 32 b.cls - 1)
    ⟨by omega, by omega⟩
  unfold InPage pageNo at *
  omega

theorem used_cls (hb : b ∈ H.used) : b.cls ≤ 6 := by
  rcases h.cls b (h.used b hb) with h1 | ⟨-, h2⟩
  · exact h1
  · exact absurd hb (h.held b h2).2

theorem free_cls (hb : H.Free b) : b.cls ≤ 6 := by
  rcases h.cls b hb.1 with h1 | ⟨-, h2⟩
  · exact h1
  · exact absurd h2 hb.2.2

theorem eq_of_addr {b c : Block} (hb : b ∈ H.tiles) (hc : c ∈ H.tiles)
    (he : b.addr = c.addr) : b = c := h.tiling.eq_of_addr (by omega) hb hc he

theorem apart {b c : Block} (hb : b ∈ H.tiles) (hc : c ∈ H.tiles) (hne : b ≠ c) :
    b.addr + size 32 b.cls ≤ c.addr ∨ c.addr + size 32 c.cls ≤ b.addr :=
  h.tiling.apart (by omega) hb hc hne

/-- The buddy of a block starts a block of its page that is no larger. -/
theorem buddy_start (hb : b ∈ H.tiles) (hk : b.cls ≤ 6) :
    ∃ j ≤ b.cls, ⟨b.buddy 32, j⟩ ∈ H.tiles := by
  refine h.tiling.buddy_start (by omega) hb ?_
  obtain ⟨i, hi, hp⟩ := h.page hb
  exact ⟨i, hi, (buddy_page hk (h.tiling.aligned b hb)).trans hp⟩

/-- A page has room for `2 ^ (7 - k)` blocks of class `k`. -/
theorem count_le (i : Nat) {k : Nat} (hk : k ≤ 6) : H.count i k ≤ 2 ^ (7 - k) := by
  refine card_le (u := 32) (by omega) (k := k) (l := pageNo i * 2 ^ (7 - k)) fun b hb => ?_
  obtain ⟨hbt, hp, rfl⟩ := mem_filter.1 hb
  have hsz := size_values (k := b.cls) (by omega)
  refine ⟨rfl, h.tiling.aligned b hbt, ?_, ?_⟩
  · rw [Nat.mul_left_comm, hsz]
    unfold InPage at hp
    omega
  · rw [Nat.mul_add, Nat.mul_left_comm, hsz]
    unfold InPage at hp
    omega

theorem countUsed_le_count (i k : Nat) : H.countUsed i k ≤ H.count i k :=
  card_le_card (filter_subset_filter _ h.used)

end

end WF

/-! ## Moves -/

/-- Hold a free block; its list becomes `l`. -/
def take (H : Heap) (k : Fin 7) (a : Nat) (l : List Nat) : Heap :=
  { H with held := some ⟨a, k⟩, lists := update H.lists k l }

/-- Free the held block; its list becomes `l`. -/
def put (H : Heap) (k : Fin 7) (l : List Nat) : Heap :=
  { H with held := none, lists := update H.lists k l }

/-- Hand the held block to a client. -/
def use (H : Heap) (b : Block) : Heap := { H with used := insert b H.used, held := none }

/-- Take a block back from its client. -/
def unuse (H : Heap) (b : Block) : Heap := { H with used := H.used.erase b, held := some b }

/-- Cut the held block; its upper half goes to the end of the list of its class. -/
def split (H : Heap) (a : Nat) (k : Fin 7) : Heap :=
  { H with
    tiles := insert (.upper 32 a k) (insert (.lower a k) (H.tiles.erase ⟨a, k + 1⟩))
    held := some (.lower a k)
    lists := update H.lists k (H.lists k ++ [a + size 32 k]) }

/-- Join the held block with its free buddy into the block at `a`; the list of
the buddy becomes `l`. -/
def merge (H : Heap) (a : Nat) (k : Fin 7) (l : List Nat) : Heap :=
  { H with
    tiles := insert ⟨a, k + 1⟩ ((H.tiles.erase (.lower a k)).erase (.upper 32 a k))
    held := some ⟨a, k + 1⟩
    lists := update H.lists k l }

/-- The block of a whole page. -/
def pageBlock (i : Nat) : Block := ⟨pageNo i * 0x1000, 7⟩

/-- Hold a new page. -/
def addPage (H : Heap) (i : Nat) : Heap :=
  { H with
    tiles := insert (pageBlock i) H.tiles
    held := some (pageBlock i)
    pages := insert i H.pages }

/-- Give the held page away. -/
def dropPage (H : Heap) (i : Nat) : Heap :=
  { H with tiles := H.tiles.erase (pageBlock i), held := none, pages := H.pages.erase i }

section Moves

variable {H : Heap} {a i : Nat} {k : Fin 7} {l : List Nat} {b : Block}

theorem take_free (hn : H.held = none) :
    (H.take k a l).Free c ↔ H.Free c ∧ c ≠ ⟨a, k⟩ := by
  unfold Free take
  simp only [hn, ne_eq, some.injEq, reduceCtorEq, not_false_eq_true, and_true, and_assoc]
  exact ⟨fun h => ⟨h.1, h.2.1, fun he => h.2.2 he.symm⟩, fun h => ⟨h.1, h.2.1, fun he => h.2.2 he.symm⟩⟩

theorem WF.take (h : H.WF) (hn : H.held = none) (hl : (H.lists k).Perm (a :: l)) :
    (H.take k a l).WF := by
  have ha : H.Free ⟨a, k⟩ := (h.lists k a).1 (hl.mem_iff.2 List.mem_cons_self)
  have hnd : (a :: l).Nodup := hl.nodup_iff.1 (h.nodup k)
  refine { h with cls := fun b hb => ?_, held := fun b hb => ?_, lists := fun j x => ?_,
                  nodup := fun j => ?_ }
  · rcases h.cls b hb with h1 | ⟨-, h1⟩
    · exact Or.inl h1
    · rw [hn] at h1
      cases h1
  · cases hb
    exact ⟨ha.1, ha.2.1⟩
  · rw [take_free hn]
    by_cases hj : j = k
    · subst hj
      have hmem := (h.lists j x).symm.trans (hl.mem_iff (a := x))
      simp only [Heap.take, update_self, hmem, List.mem_cons, ne_eq, Block.mk.injEq,
        and_true]
      constructor
      · intro hx
        exact ⟨Or.inr hx, fun he => (List.nodup_cons.1 hnd).1 (he ▸ hx)⟩
      · exact fun hx => hx.1.resolve_left hx.2
    · have hne : (⟨x, j⟩ : Block) ≠ ⟨a, k⟩ := fun he => hj (Fin.ext (congrArg Block.cls he))
      simp only [Heap.take, update_of_ne hj, h.lists j x, hne, ne_eq, not_false_eq_true,
        and_true]
  · by_cases hj : j = k
    · subst hj
      simp only [Heap.take, update_self]
      exact (List.nodup_cons.1 hnd).2
    · simp only [Heap.take, update_of_ne hj]
      exact h.nodup j

theorem put_free (h : H.WF) (hh : H.held = some b) :
    (H.put k l).Free c ↔ H.Free c ∨ c = b := by
  unfold Free put
  have hb := h.held b hh
  simp only [hh, ne_eq, some.injEq, reduceCtorEq, not_false_eq_true, and_true]
  constructor
  · intro hc
    by_cases he : c = b
    · exact Or.inr he
    · exact Or.inl ⟨hc.1, hc.2, fun h => he h.symm⟩
  · rintro (hc | rfl)
    · exact ⟨hc.1, hc.2.1⟩
    · exact hb

theorem WF.put (h : H.WF) (hh : H.held = some ⟨a, k⟩) (hl : l.Perm (a :: H.lists k)) :
    (H.put k l).WF := by
  have hnot : a ∉ H.lists k := fun hm => ((h.lists k a).1 hm).2.2 hh
  refine { h with cls := fun b hb => ?_, held := fun b hb => ?_, lists := fun j x => ?_,
                  nodup := fun j => ?_ }
  · rcases h.cls b hb with h1 | ⟨h2, h1⟩
    · exact Or.inl h1
    · rw [hh] at h1
      cases h1
      have h2 : (k : Nat) = 7 := h2
      omega
  · cases hb
  · rw [put_free h hh]
    by_cases hj : j = k
    · subst hj
      simp only [Heap.put, update_self, hl.mem_iff, List.mem_cons, h.lists j x,
        Block.mk.injEq, and_true]
      exact or_comm
    · have hne : (⟨x, j⟩ : Block) ≠ ⟨a, k⟩ := fun he => hj (Fin.ext (congrArg Block.cls he))
      simp only [Heap.put, update_of_ne hj, h.lists j x, hne, or_false]
  · by_cases hj : j = k
    · subst hj
      simp only [Heap.put, update_self, hl.nodup_iff]
      exact List.nodup_cons.2 ⟨hnot, h.nodup j⟩
    · simp only [Heap.put, update_of_ne hj]
      exact h.nodup j

theorem use_free (hh : H.held = some b) : (H.use b).Free c ↔ H.Free c := by
  unfold Free use
  simp only [hh, ne_eq, some.injEq, reduceCtorEq, not_false_eq_true, and_true,
    mem_insert, not_or]
  exact ⟨fun h => ⟨h.1, h.2.2, fun he => h.2.1 he.symm⟩, fun h => ⟨h.1, fun he => h.2.2 he.symm, h.2.1⟩⟩

theorem WF.use (h : H.WF) (hh : H.held = some b) (hk : b.cls ≤ 6) : (H.use b).WF := by
  refine { h with cls := fun c hc => ?_, used := fun c hc => ?_, held := fun c hc => ?_,
                  lists := fun j x => ?_ }
  · rcases h.cls c hc with h1 | ⟨h2, h1⟩
    · exact Or.inl h1
    · rw [hh] at h1
      cases h1
      omega
  · rcases mem_insert.1 hc with rfl | hc
    · exact (h.held c hh).1
    · exact h.used c hc
  · cases hc
  · exact (h.lists j x).trans (use_free hh).symm

theorem unuse_free (hn : H.held = none) (hb : b ∈ H.used) :
    (H.unuse b).Free c ↔ H.Free c := by
  unfold Free unuse
  simp only [hn, ne_eq, some.injEq, reduceCtorEq, not_false_eq_true, and_true,
    mem_erase, not_and]
  constructor
  · rintro ⟨h1, h2, h3⟩
    exact ⟨h1, h2 fun he => h3 he.symm⟩
  · rintro ⟨h1, h2⟩
    exact ⟨h1, fun _ => h2, fun he => h2 (he ▸ hb)⟩

theorem WF.unuse (h : H.WF) (hn : H.held = none) (hb : b ∈ H.used) : (H.unuse b).WF := by
  refine { h with cls := fun c hc => ?_, used := fun c hc => h.used c (mem_of_mem_erase hc),
                  held := fun c hc => ?_, lists := fun j x => ?_ }
  · rcases h.cls c hc with h1 | ⟨-, h1⟩
    · exact Or.inl h1
    · rw [hn] at h1
      cases h1
  · cases hc
    exact ⟨h.used b hb, notMem_erase b _⟩
  · exact (h.lists j x).trans (unuse_free hn hb).symm

theorem split_mem : c ∈ (H.split a k).tiles ↔
    c = .upper 32 a k ∨ c = .lower a k ∨ (c ∈ H.tiles ∧ c ≠ ⟨a, k + 1⟩) := by
  unfold split
  rw [mem_insert, mem_insert, mem_erase, and_comm]

/-- The halves of a block of the heap are not themselves blocks of it. -/
theorem WF.halves_not_mem (h : H.WF) (hb : ⟨a, k + 1⟩ ∈ H.tiles) :
    lower a k ∉ H.tiles ∧ upper 32 a k ∉ H.tiles := by
  have hs := size_succ 32 k
  have hp := size_pos (u := 32) (by omega) k
  exact ⟨h.tiling.not_mem_of_cls_ne (by omega) hb (by omega),
    h.tiling.not_mem_inside (by omega) hb (by dsimp only; omega) (by dsimp only; omega)⟩

theorem upper_ne_lower : upper 32 a k ≠ lower a k := fun he => by
  have hp := size_pos (u := 32) (by omega) k
  have := congrArg addr he
  simp only [upper, lower] at this
  omega

theorem split_free (h : H.WF) (hh : H.held = some ⟨a, k + 1⟩) :
    (H.split a k).Free c ↔ H.Free c ∨ c = .upper 32 a k := by
  have hb := (h.held _ hh).1
  obtain ⟨hl, hu⟩ := h.halves_not_mem hb
  unfold Free
  rw [split_mem]
  simp only [split, hh, ne_eq, some.injEq]
  constructor
  · rintro ⟨rfl | rfl | ⟨h1, h2⟩, h3, h4⟩
    · exact Or.inr rfl
    · exact absurd rfl h4
    · exact Or.inl ⟨h1, h3, fun he => h2 he.symm⟩
  · rintro (⟨h1, h2, h3⟩ | rfl)
    · exact ⟨Or.inr (Or.inr ⟨h1, fun he => h3 he.symm⟩), h2, fun he => hl (he ▸ h1)⟩
    · exact ⟨Or.inl rfl, fun hm => hu (h.used _ hm), fun he => upper_ne_lower he.symm⟩

theorem WF.split (h : H.WF) (hh : H.held = some ⟨a, k + 1⟩) : (H.split a k).WF := by
  have hb := h.held _ hh
  obtain ⟨hl, hu⟩ := h.halves_not_mem hb.1
  have hnot : a + size 32 k ∉ H.lists k := fun hm => hu ((h.lists k _).1 hm).1
  refine ⟨h.tiling.split hb.1, fun c hc => ?_, fun c hc => ?_, fun c hc => ?_, fun j x => ?_,
    fun j => ?_, h.pages⟩
  · rcases split_mem.1 hc with rfl | rfl | ⟨h1, h2⟩
    · exact Or.inl (by simp only [Block.upper]; omega)
    · exact Or.inl (by simp only [Block.lower]; omega)
    · rcases h.cls c h1 with h3 | ⟨-, h3⟩
      · exact Or.inl h3
      · rw [hh] at h3
        exact absurd (some.inj h3).symm h2
  · exact split_mem.2 (Or.inr (Or.inr ⟨h.used c hc, fun he => hb.2 (he ▸ hc)⟩))
  · cases hc
    exact ⟨split_mem.2 (Or.inr (Or.inl rfl)), fun hm => hl (h.used _ hm)⟩
  · rw [split_free h hh, ← h.lists j x]
    by_cases hj : j = k
    · subst hj
      simp only [Heap.split, update_self, List.mem_append, List.mem_singleton, Block.upper,
        Block.mk.injEq, and_true]
    · have hne : (⟨x, j⟩ : Block) ≠ .upper 32 a k := fun he => hj (Fin.ext (congrArg Block.cls he))
      simp only [Heap.split, update_of_ne hj, hne, or_false]
  · by_cases hj : j = k
    · subst hj
      simp only [Heap.split, update_self]
      exact List.Nodup.append (h.nodup j) (List.nodup_singleton _)
        (List.disjoint_singleton.2 hnot)
    · simp only [Heap.split, update_of_ne hj]
      exact h.nodup j

theorem merge_mem : c ∈ (H.merge a k l).tiles ↔
    c = ⟨a, k + 1⟩ ∨ (c ∈ H.tiles ∧ c ≠ .lower a k ∧ c ≠ .upper 32 a k) := by
  unfold merge
  rw [mem_insert, mem_erase, mem_erase]
  tauto

/-- The two halves of the block at `a`, one held and one free. -/
structure Halves (H : Heap) (a : Nat) (k : Fin 7) (b c : Block) : Prop where
  held : H.held = some b
  free : H.Free c
  aligned : size 32 (k + 1) ∣ a
  halves : (b = .lower a k ∧ c = .upper 32 a k) ∨ (b = .upper 32 a k ∧ c = .lower a k)

section

variable (h : H.WF) (hc : H.Halves a k b c)

include h hc

theorem Halves.mem :
    lower a k ∈ H.tiles ∧ upper 32 a k ∈ H.tiles := by
  have h1 := (h.held b hc.held).1
  have h2 := hc.free.1
  rcases hc.halves with ⟨rfl, rfl⟩ | ⟨rfl, rfl⟩
  · exact ⟨h1, h2⟩
  · exact ⟨h2, h1⟩

theorem Halves.not_used :
    lower a k ∉ H.used ∧ upper 32 a k ∉ H.used := by
  have h1 := (h.held b hc.held).2
  have h2 := hc.free.2.1
  rcases hc.halves with ⟨rfl, rfl⟩ | ⟨rfl, rfl⟩
  · exact ⟨h1, h2⟩
  · exact ⟨h2, h1⟩

theorem Halves.whole_not_mem :
    (⟨a, k + 1⟩ : Block) ∉ H.tiles :=
  h.tiling.not_mem_of_cls_ne (by omega) (hc.mem h).1 (by omega)

theorem merge_free {d : Block} :
    (H.merge a k l).Free d ↔ H.Free d ∧ d ≠ c := by
  have hm := hc.mem h
  unfold Free
  rw [merge_mem]
  simp only [merge, hc.held, ne_eq, some.injEq]
  constructor
  · rintro ⟨rfl | ⟨h1, h2, h3⟩, h4, h5⟩
    · exact absurd rfl h5
    · rcases hc.halves with ⟨rfl, rfl⟩ | ⟨rfl, rfl⟩
      · exact ⟨⟨h1, h4, fun he => h2 he.symm⟩, h3⟩
      · exact ⟨⟨h1, h4, fun he => h3 he.symm⟩, h2⟩
  · rintro ⟨⟨h1, h2, h3⟩, h4⟩
    refine ⟨Or.inr ⟨h1, ?_⟩, h2, fun he => hc.whole_not_mem h (he ▸ h1)⟩
    rcases hc.halves with ⟨rfl, rfl⟩ | ⟨rfl, rfl⟩
    · exact ⟨fun he => h3 he.symm, h4⟩
    · exact ⟨h4, fun he => h3 he.symm⟩

theorem WF.merge (hl : (H.lists k).Perm (c.addr :: l)) : (H.merge a k l).WF := by
  obtain ⟨hlo, hup⟩ := hc.mem h
  have hnu := hc.not_used h
  have hck : c.cls = k := by
    rcases hc.halves with ⟨-, rfl⟩ | ⟨-, rfl⟩ <;> rfl
  have hnd : (c.addr :: l).Nodup := hl.nodup_iff.1 (h.nodup k)
  refine ⟨h.tiling.merge hc.aligned hlo hup upper_ne_lower, fun d hd => ?_, fun d hd => ?_,
    fun d hd => ?_, fun j x => ?_, fun j => ?_, h.pages⟩
  · rcases merge_mem.1 hd with rfl | ⟨h1, h2, h3⟩
    · rcases Nat.lt_or_ge k 6 with hk | hk
      · exact Or.inl (by dsimp only; omega)
      · exact Or.inr ⟨by dsimp only; omega, rfl⟩
    · rcases h.cls d h1 with h4 | ⟨-, h4⟩
      · exact Or.inl h4
      · rw [hc.held] at h4
        cases h4
        rcases hc.halves with ⟨h5, -⟩ | ⟨h5, -⟩
        · exact absurd h5 h2
        · exact absurd h5 h3
  · exact merge_mem.2 (Or.inr ⟨h.used d hd, fun he => hnu.1 (he ▸ hd), fun he => hnu.2 (he ▸ hd)⟩)
  · cases hd
    exact ⟨merge_mem.2 (Or.inl rfl), fun hm => hc.whole_not_mem h (h.used _ hm)⟩
  · rw [merge_free h hc, ← h.lists j x]
    by_cases hj : j = k
    · subst hj
      have hne : (⟨x, j⟩ : Block) ≠ c ↔ x ≠ c.addr := by
        cases c
        simp only at hck
        simp only [ne_eq, Block.mk.injEq, hck, and_true]
      simp only [Heap.merge, update_self, hl.mem_iff, List.mem_cons, hne]
      constructor
      · exact fun hx => ⟨Or.inr hx, fun he => (List.nodup_cons.1 hnd).1 (he ▸ hx)⟩
      · exact fun hx => hx.1.resolve_left hx.2
    · have hne : (⟨x, j⟩ : Block) ≠ c := fun he => hj (Fin.ext ((congrArg Block.cls he).trans hck))
      simp only [Heap.merge, update_of_ne hj, hne, ne_eq, not_false_eq_true, and_true]
  · by_cases hj : j = k
    · subst hj
      simp only [Heap.merge, update_self]
      exact (List.nodup_cons.1 hnd).2
    · simp only [Heap.merge, update_of_ne hj]
      exact h.nodup j

end

theorem pageBlock_covers {x : Nat} : (pageBlock i).Covers 32 x ↔ x / 0x1000 = pageNo i := by
  unfold pageBlock Block.Covers size
  dsimp only
  omega

theorem addPage_free (h : H.WF) (hn : H.held = none) (hi : i ∉ H.pages) :
    (H.addPage i).Free c ↔ H.Free c := by
  have hnew : pageBlock i ∉ H.tiles := fun hm => by
    obtain ⟨j, hj, hp⟩ := h.page hm
    have : j = i := by
      unfold InPage pageBlock pageNo at hp
      dsimp only at hp
      omega
    exact hi (this ▸ hj)
  unfold Free addPage
  simp only [hn, mem_insert, ne_eq, some.injEq, reduceCtorEq, not_false_eq_true,
    and_true]
  constructor
  · rintro ⟨rfl | h1, h2, h3⟩
    · exact absurd rfl h3
    · exact ⟨h1, h2⟩
  · rintro ⟨h1, h2⟩
    exact ⟨Or.inr h1, h2, fun he => hnew (he ▸ h1)⟩

theorem WF.addPage (h : H.WF) (hn : H.held = none) (hi : i ∉ H.pages) (hb : i < 1024) :
    (H.addPage i).WF := by
  have hout : ∀ x, (pageBlock i).Covers 32 x → x ∉ region H.pages := by
    rintro x hx ⟨j, hj, hp⟩
    have hx' := pageBlock_covers.1 hx
    have : j = i := by
      unfold pageNo at *
      omega
    exact hi (this ▸ hj)
  have hal : size 32 (pageBlock i).cls ∣ (pageBlock i).addr := Nat.dvd_mul_left _ _
  refine ⟨(h.tiling.add hal hout).congr_region fun x => ?_, fun c hc => ?_, fun c hc => ?_,
    fun c hc => ?_, fun j x => ?_, h.nodup, fun j hj => ?_⟩
  · constructor
    · rintro ⟨j, hj, hp⟩
      rcases mem_insert.1 hj with rfl | hj
      · exact Or.inr (pageBlock_covers.2 hp)
      · exact Or.inl ⟨j, hj, hp⟩
    · rintro (⟨j, hj, hp⟩ | hx)
      · exact ⟨j, mem_insert_of_mem hj, hp⟩
      · exact ⟨i, mem_insert_self _ _, pageBlock_covers.1 hx⟩
  · rcases mem_insert.1 hc with rfl | hc
    · exact Or.inr ⟨rfl, rfl⟩
    · rcases h.cls c hc with h1 | ⟨-, h1⟩
      · exact Or.inl h1
      · rw [hn] at h1
        cases h1
  · exact mem_insert_of_mem (h.used c hc)
  · cases hc
    refine ⟨mem_insert_self _ _, fun hm => ?_⟩
    have := h.used_cls hm
    unfold pageBlock at this
    dsimp only at this
    omega
  · exact (h.lists j x).trans (addPage_free h hn hi).symm
  · rcases mem_insert.1 hj with rfl | hj
    · exact hb
    · exact h.pages j hj

theorem dropPage_free (hh : H.held = some (pageBlock i)) :
    (H.dropPage i).Free c ↔ H.Free c := by
  unfold Free dropPage
  simp only [hh, mem_erase, ne_eq, some.injEq, reduceCtorEq, not_false_eq_true,
    and_true]
  constructor
  · rintro ⟨⟨h1, h2⟩, h3⟩
    exact ⟨h2, h3, fun he => h1 he.symm⟩
  · rintro ⟨h1, h2, h3⟩
    exact ⟨⟨fun he => h3 he.symm, h1⟩, h2⟩

theorem WF.dropPage (h : H.WF) (hh : H.held = some (pageBlock i)) : (H.dropPage i).WF := by
  have hb := h.held _ hh
  refine ⟨(h.tiling.remove hb.1).congr_region fun x => ?_, fun c hc => ?_, fun c hc => ?_,
    fun c hc => ?_, fun j x => ?_, h.nodup, fun j hj => h.pages j (mem_of_mem_erase hj)⟩
  · constructor
    · rintro ⟨j, hj, hp⟩
      obtain ⟨hne, hj⟩ := mem_erase.1 hj
      refine ⟨⟨j, hj, hp⟩, fun hx => hne ?_⟩
      have := pageBlock_covers.1 hx
      unfold pageNo at *
      omega
    · rintro ⟨⟨j, hj, hp⟩, hx⟩
      exact ⟨j, mem_erase.2 ⟨fun he => hx (pageBlock_covers.2 (he ▸ hp)), hj⟩, hp⟩
  · obtain ⟨hne, hc⟩ := mem_erase.1 hc
    rcases h.cls c hc with h1 | ⟨-, h1⟩
    · exact Or.inl h1
    · rw [hh] at h1
      exact absurd (some.inj h1).symm hne
  · exact mem_erase.2 ⟨fun he => hb.2 (he ▸ hc), h.used c hc⟩
  · cases hc
  · exact (h.lists j x).trans (dropPage_free hh).symm

/-! ### Moves that undo each other -/

theorem put_take (hn : H.held = none) (hl : H.lists k = a :: l) : (H.take k a l).put k (a :: l) = H := by
  refine Heap.ext rfl rfl hn.symm ?_ rfl
  show update (update H.lists k l) k (a :: l) = H.lists
  rw [update_idem, ← hl, update_eq_self]

theorem unuse_use (hh : H.held = some b) (hb : b ∉ H.used) : (H.use b).unuse b = H :=
  Heap.ext rfl (erase_insert hb) hh.symm rfl rfl

theorem merge_split (h : H.WF) (hh : H.held = some ⟨a, k + 1⟩) : (H.split a k).merge a k (H.lists k) = H := by
  have hb := (h.held _ hh).1
  obtain ⟨hl, hu⟩ := h.halves_not_mem hb
  refine Heap.ext (ext fun c => ?_) rfl hh.symm ?_ rfl
  · rw [merge_mem, split_mem]
    constructor
    · rintro (rfl | ⟨rfl | rfl | hc, h1, h2⟩)
      · exact hb
      · exact absurd rfl h2
      · exact absurd rfl h1
      · exact hc.1
    · intro hc
      by_cases he : c = ⟨a, k + 1⟩
      · exact Or.inl he
      · exact Or.inr ⟨Or.inr (Or.inr ⟨hc, he⟩), fun h' => hl (h' ▸ hc), fun h' => hu (h' ▸ hc)⟩
  · show update (update H.lists k _) k (H.lists k) = H.lists
    rw [update_idem, update_eq_self]

theorem dropPage_addPage (h : H.WF) (hn : H.held = none) (hi : i ∉ H.pages) : (H.addPage i).dropPage i = H := by
  have hb : pageBlock i ∉ H.tiles := fun hb => by
    rcases h.cls _ hb with h7 | ⟨-, h7⟩
    · exact absurd h7 (show ¬ 7 ≤ 6 by decide)
    · rw [hn] at h7
      cases h7
  exact Heap.ext (erase_insert hb) rfl hn.symm rfl (erase_insert hi)

end Moves

/-! ## Counters under the moves -/

section Counters

variable {H : Heap} {a i j : Nat} {k : Fin 7} {l : List Nat} {b : Block}

/-- The upper half of an aligned block is in the page of the block. -/
theorem inPage_upper_iff (ha : size 32 (k + 1) ∣ a) :
    InPage i (.upper 32 a k) ↔ a / 0x1000 = pageNo i := by
  have hs := size_succ 32 k
  have hp := size_pos (u := 32) (by omega) k
  have hpage : (a + size 32 k) / 0x1000 = a / 0x1000 :=
    page_of_covers (k := k + 1) (by omega) ha ⟨by dsimp only; omega, by dsimp only; omega⟩
  unfold InPage upper
  rw [hpage]

/-- What one half counts for. -/
theorem ite_lower (i j : Nat) : (if InPage i (.lower a k) ∧ (lower a k).cls = j then 1 else 0) =
    if a / 0x1000 = pageNo i ∧ k = j then 1 else 0 := rfl

theorem ite_upper (ha : size 32 (k + 1) ∣ a) (i j : Nat) :
    (if InPage i (.upper 32 a k) ∧ (upper 32 a k).cls = j then 1 else 0) =
      if a / 0x1000 = pageNo i ∧ k = j then 1 else 0 :=
  if_congr (and_congr_left' (inPage_upper_iff ha)) rfl rfl

theorem ite_two (p : Prop) [Decidable p] :
    (if p then 2 else 0) = (if p then 1 else 0) + if p then 1 else 0 := by
  split <;> rfl

theorem split_count (h : H.WF) (hh : H.held = some ⟨a, k + 1⟩) (i j : Nat) :
    (H.split a k).count i j + (if a / 0x1000 = pageNo i ∧ k + 1 = j then 1 else 0) =
      H.count i j + if a / 0x1000 = pageNo i ∧ k = j then 2 else 0 := by
  have hb := (h.held _ hh).1
  obtain ⟨hl, hu⟩ := h.halves_not_mem hb
  have hl' : lower a k ∉ H.tiles.erase ⟨a, k + 1⟩ := fun hm =>
    hl (mem_of_mem_erase hm)
  have hu' : upper 32 a k ∉ insert (.lower a k) (H.tiles.erase ⟨a, k + 1⟩) := fun hm => by
    rcases mem_insert.1 hm with he | hm
    · exact upper_ne_lower he
    · exact hu (mem_of_mem_erase hm)
  have he := count_erase (fun b => InPage i b ∧ b.cls = j) hb
  have hw : InPage i ⟨a, k + 1⟩ ↔ a / 0x1000 = pageNo i := Iff.rfl
  unfold count split
  rw [count_insert _ hu', count_insert _ hl', ite_upper (h.tiling.aligned _ hb), ite_lower, ite_two,
    ← he]
  simp only [hw]
  omega

theorem merge_count (h : H.WF) (hc : H.Halves a k b c) (i j : Nat) :
    (H.merge a k l).count i j + (if a / 0x1000 = pageNo i ∧ k = j then 2 else 0) =
      H.count i j + if a / 0x1000 = pageNo i ∧ k + 1 = j then 1 else 0 := by
  obtain ⟨hl, hu⟩ := hc.mem h
  have h1 := count_erase (fun b => InPage i b ∧ b.cls = j) hl
  have h2 := count_erase (fun b => InPage i b ∧ b.cls = j)
    (mem_erase.2 ⟨upper_ne_lower, hu⟩)
  have hnot : (⟨a, k + 1⟩ : Block) ∉ (H.tiles.erase (.lower a k)).erase (.upper 32 a k) :=
    fun hm => hc.whole_not_mem h (mem_of_mem_erase (mem_of_mem_erase hm))
  have hw : InPage i ⟨a, k + 1⟩ ↔ a / 0x1000 = pageNo i := Iff.rfl
  rw [ite_lower] at h1
  rw [ite_upper hc.aligned] at h2
  unfold count merge
  rw [count_insert _ hnot, ite_two, ← h1, ← h2]
  simp only [hw]
  omega

theorem use_countUsed (h : H.WF) (hh : H.held = some b) (i j : Nat) :
    (H.use b).countUsed i j = H.countUsed i j + if InPage i b ∧ b.cls = j then 1 else 0 :=
  count_insert _ (h.held b hh).2

theorem unuse_countUsed (hb : b ∈ H.used) (i j : Nat) :
    (H.unuse b).countUsed i j + (if InPage i b ∧ b.cls = j then 1 else 0) = H.countUsed i j :=
  count_erase _ hb

theorem inPage_pageBlock : InPage i (pageBlock j) ↔ i = j := by
  unfold InPage pageBlock pageNo
  dsimp only
  omega

/-- A page that is not of the heap has no blocks. -/
theorem WF.count_of_not_page (h : H.WF) (hi : i ∉ H.pages) (k : Nat) : H.count i k = 0 := by
  refine count_eq_zero _ fun b hb hp => ?_
  obtain ⟨j, hj, hp'⟩ := h.page hb
  have : j = i := by
    unfold InPage pageNo at *
    omega
  exact hi (this ▸ hj)

theorem addPage_count (h : H.WF) (hi : i ∉ H.pages) (j : Nat) {k : Nat} (hk : k ≤ 6) :
    (H.addPage i).count j k = H.count j k := by
  unfold count addPage
  rw [count_insert, if_neg, Nat.add_zero]
  · rintro ⟨-, h2⟩
    have h2 : 7 = k := h2
    omega
  · intro hm
    obtain ⟨j, hj, hp⟩ := h.page hm
    exact hi (inPage_pageBlock.1 hp ▸ hj)

theorem dropPage_count (h : H.WF) (hh : H.held = some (pageBlock i)) (j : Nat) {k : Nat}
    (hk : k ≤ 6) : (H.dropPage i).count j k = H.count j k := by
  have he := count_erase (fun b => InPage j b ∧ b.cls = k) (h.held _ hh).1
  rw [if_neg] at he
  · exact he
  · rintro ⟨-, h2⟩
    have h2 : 7 = k := h2
    omega

/-- The counters of a class agree when its free list is empty and no block of
it is held. -/
theorem WF.count_eq_countUsed (h : H.WF) (hl : H.lists k = [])
    (hh : ∀ b, H.held = some b → b.cls ≠ k) (i : Nat) : H.count i k = H.countUsed i k := by
  refine count_eq_of_subset _ h.used fun b hb hp => ?_
  by_contra hu
  have hfree : H.Free b := ⟨hb, hu, fun he => hh b he hp.2⟩
  have hmem := (h.lists k b.addr).2 (by rw [← hp.2]; exact hfree)
  rw [hl] at hmem
  cases hmem

end Counters

/-! ## Free buddies under the moves -/

section Buddies

variable {H H' : Heap} {b : Block}

theorem NoFreeBuddies.mono (h : H.NoFreeBuddies) (hsub : ∀ c, H'.Free c → H.Free c) :
    H'.NoFreeBuddies := fun c hc hc' => h c (hsub c hc) (hsub _ hc')

/-- One more free block, whose buddy is not free. -/
theorem NoFreeBuddies.insert (h : H.NoFreeBuddies) (hwf : H.WF)
    (hsub : ∀ c, H'.Free c → H.Free c ∨ c = b) (hb : ¬ H'.Free ⟨b.buddy 32, b.cls⟩) :
    H'.NoFreeBuddies := by
  intro c hc hc'
  rcases hsub c hc with h1 | rfl
  · rcases hsub _ hc' with h2 | h2
    · exact h c h1 h2
    · -- the buddy of `c` is `b`, so the buddy of `b` is `c`
      have hbud := buddy_buddy (u := 32) (by omega) (hwf.tiling.aligned c h1.1)
      rw [h2] at hbud
      have hcls : b.cls = c.cls := (congrArg cls h2).symm
      exact hb (by rw [hbud, hcls]; exact hc)
  · exact hb hc'

/-- When nothing is in use and no two buddies are free, there is no block: the
buddy of a smallest block would be as large and free too. -/
theorem WF.tiles_eq_empty (h : H.WF) (hn : H.held = none) (hu : H.used = ∅) (hb : H.NoFreeBuddies) :
    H.tiles = ∅ := by
  by_contra hne
  obtain ⟨b, hbt, hmin⟩ := exists_min_image H.tiles Block.cls (nonempty_iff_ne_empty.mpr hne)
  have hfree : ∀ c ∈ H.tiles, H.Free c := fun c hc => by
    refine ⟨hc, ?_, ?_⟩
    · rw [hu]
      exact notMem_empty c
    · rw [hn]
      exact (some_ne_none c).symm
  obtain ⟨j, hj, hbud⟩ := h.buddy_start hbt (h.free_cls (hfree b hbt))
  have hle : b.cls ≤ j := hmin _ hbud
  obtain rfl : j = b.cls := Nat.le_antisymm hj hle
  exact hb b (hfree b hbt) (hfree _ hbud)

theorem WF.pages_eq_empty (h : H.WF) (ht : H.tiles = ∅) : H.pages = ∅ := by
  by_contra hne
  obtain ⟨i, hi⟩ := nonempty_iff_ne_empty.mpr hne
  obtain ⟨b, hb, -⟩ := (h.tiling.cover (pageNo i * 0x1000)).1 ⟨i, hi, Nat.mul_div_cancel _ (by omega)⟩
  rw [ht] at hb
  exact notMem_empty b hb

end Buddies

end Heap

end MakarnaX.Kmalloc
