import Mathlib.Data.Finset.Card
import Mathlib.Order.Interval.Finset.Nat
import Mathlib.Tactic.Ring

/-!
# Buddy blocks

A block of class `k` has `u * 2 ^ k` bytes, where `u` is the smallest block
size, and its address is a multiple of its size.  A *tiling* of a set of
addresses is a finite set of such blocks that covers every address of the set
exactly once and nothing else.

The facts below are the ones a buddy allocator needs.  Splitting a block into
its two halves and merging two halves keep the tiling (`Tiling.split`,
`Tiling.merge`), a block can be added to and taken out of it (`Tiling.add`,
`Tiling.remove`), and the buddy of a block is the start of a block no larger
than it (`Tiling.buddy_start`).  The last one is what lets an allocator read a
header at the buddy's address without knowing how the buddy is cut.
-/

namespace Library.Buddy

open Finset Nat

/-- Bytes in a block of class `k`. -/
def size (u k : Nat) : Nat := u * 2 ^ k

theorem size_succ (u k : Nat) : size u (k + 1) = 2 * size u k := by
  unfold size
  ring

variable {u a k : Nat} {T : Finset Block}

theorem size_pos (hu : 0 < u) (k : Nat) : 0 < size u k :=
  Nat.mul_pos hu (Nat.two_pow_pos k)

theorem size_dvd_size (u : Nat) {j k : Nat} (h : j ≤ k) : size u j ∣ size u k :=
  mul_dvd_mul_left u (pow_dvd_pow 2 h)

/-- A block: its address and its class. -/
structure Block where
  addr : Nat
  cls : Nat
deriving DecidableEq

namespace Block

/-- The addresses of a block. -/
def Covers (u : Nat) (b : Block) (x : Nat) : Prop := b.addr ≤ x ∧ x < b.addr + size u b.cls

/-- The lower half of a block of class `k + 1`. -/
def lower (a k : Nat) : Block := ⟨a, k⟩

/-- The upper half of the block of class `k + 1` at `a`. -/
def upper (u a k : Nat) : Block := ⟨a + size u k, k⟩

theorem covers_addr (hu : 0 < u) (b : Block) : b.Covers u b.addr :=
  ⟨Nat.le_refl _, Nat.lt_add_of_pos_right (size_pos hu _)⟩

/-- A block is the disjoint union of its halves. -/
theorem covers_succ {u a k x : Nat} :
    Covers u ⟨a, k + 1⟩ x ↔ (lower a k).Covers u x ∨ (upper u a k).Covers u x := by
  unfold Covers lower upper
  rw [size_succ]
  dsimp only
  omega

theorem lower_upper_disjoint {u a k x : Nat} (hl : (lower a k).Covers u x) :
    ¬ (upper u a k).Covers u x := by
  unfold Covers lower upper at *
  dsimp only at *
  omega

/-- The other half of the block of twice the size. -/
def buddy (u : Nat) (b : Block) : Nat :=
  if b.addr / size u b.cls % 2 = 0 then b.addr + size u b.cls else b.addr - size u b.cls

/-- A block is the lower or the upper half of an aligned block, and its buddy is
the other half. -/
theorem buddy_cases (hu : 0 < u) {b : Block} (ha : size u b.cls ∣ b.addr) :
    (size u (b.cls + 1) ∣ b.addr ∧ b.buddy u = b.addr + size u b.cls) ∨
      (size u (b.cls + 1) ∣ b.buddy u ∧ b.addr = b.buddy u + size u b.cls) := by
  obtain ⟨q, hq⟩ := ha
  have hpos := size_pos hu b.cls
  have hdiv : b.addr / size u b.cls = q := by
    rw [hq, Nat.mul_div_cancel_left _ hpos]
  unfold buddy
  rw [hdiv, size_succ]
  rcases Nat.mod_two_eq_zero_or_one q with hmod | hmod
  · left
    rw [if_pos hmod]
    refine ⟨⟨q / 2, ?_⟩, rfl⟩
    obtain ⟨r, rfl⟩ : ∃ r, q = 2 * r := ⟨q / 2, by omega⟩
    rw [hq, Nat.mul_div_cancel_left r Nat.two_pos]
    ring
  · right
    rw [if_neg (by omega)]
    obtain ⟨r, rfl⟩ : ∃ r, q = 2 * r + 1 := ⟨q / 2, by omega⟩
    have hexp : b.addr = 2 * size u b.cls * r + size u b.cls := by
      rw [hq]
      ring
    refine ⟨⟨r, by omega⟩, by omega⟩

/-- The lower half has the upper one as its buddy. -/
theorem buddy_lower {u a k : Nat} (hu : 0 < u) (ha : size u (k + 1) ∣ a) :
    (lower a k).buddy u = a + size u k := by
  obtain ⟨q, hq⟩ := ha
  have hpos := size_pos hu k
  rw [size_succ] at hq
  have hdiv : a / size u k = 2 * q := by
    rw [hq, Nat.mul_comm 2, Nat.mul_assoc, Nat.mul_div_cancel_left _ hpos]
  unfold buddy lower
  rw [hdiv, if_pos (by omega)]

/-- The upper half has the lower one as its buddy. -/
theorem buddy_upper {u a k : Nat} (hu : 0 < u) (ha : size u (k + 1) ∣ a) :
    (upper u a k).buddy u = a := by
  obtain ⟨q, hq⟩ := ha
  have hpos := size_pos hu k
  rw [size_succ] at hq
  have hdiv : (a + size u k) / size u k = 2 * q + 1 := by
    rw [Nat.add_div_right _ hpos, hq, Nat.mul_comm 2, Nat.mul_assoc,
      Nat.mul_div_cancel_left _ hpos]
  unfold buddy upper
  rw [hdiv, if_neg (by omega), Nat.add_sub_cancel]

theorem buddy_buddy (hu : 0 < u) {b : Block} (ha : size u b.cls ∣ b.addr) :
    Block.buddy u ⟨b.buddy u, b.cls⟩ = b.addr := by
  rcases buddy_cases hu ha with ⟨h1, h2⟩ | ⟨h1, h2⟩
  · rw [h2]
    exact buddy_upper hu h1
  · exact (buddy_lower hu h1).trans h2.symm

end Block

/-- A block that holds an aligned address holds the aligned region around it:
two aligned blocks are nested or disjoint. -/
theorem nested {u a x : Nat} {j k : Nat} (hjk : j ≤ k) {b : Block} (hbk : b.cls = k)
    (hb : size u k ∣ b.addr) (ha : size u j ∣ a) (hx : b.Covers u x)
    (hax : a ≤ x ∧ x < a + size u j) : b.addr ≤ a ∧ a + size u j ≤ b.addr + size u k := by
  obtain ⟨p, hp⟩ := Nat.dvd_trans (size_dvd_size u hjk) hb
  obtain ⟨q, hq⟩ := ha
  obtain ⟨r, hr⟩ := size_dvd_size u hjk
  unfold Block.Covers at hx
  rw [hbk, hp, hr, ← Nat.mul_add] at hx
  rw [hq] at hax
  rw [hp, hq, hr]
  have hpos : 0 < size u j := by omega
  have h1 : p < q + 1 := by
    refine Nat.lt_of_mul_lt_mul_left (a := size u j) ?_
    rw [Nat.mul_add, Nat.mul_one]
    omega
  have h2 : q < p + r := Nat.lt_of_mul_lt_mul_left (a := size u j) (by omega)
  constructor
  · exact Nat.mul_le_mul_left _ (by omega)
  · rw [← Nat.mul_add]
    have h3 : size u j * q + size u j = size u j * (q + 1) := by ring
    rw [h3]
    exact Nat.mul_le_mul_left _ (by omega)

/-- `S` covers exactly the addresses of `R`, each once, with aligned blocks. -/
structure Tiling (u : Nat) (S : Finset Block) (R : Set Nat) : Prop where
  aligned : ∀ b ∈ S, size u b.cls ∣ b.addr
  disjoint : ∀ b ∈ S, ∀ c ∈ S, ∀ x, b.Covers u x → c.Covers u x → b = c
  cover : ∀ x, x ∈ R ↔ ∃ b ∈ S, b.Covers u x

namespace Tiling

variable {u : Nat} {S : Finset Block} {R : Set Nat}

theorem empty (u : Nat) : Tiling u ∅ ∅ :=
  ⟨fun b hb => absurd hb (notMem_empty b), fun b hb => absurd hb (notMem_empty b),
    fun _ => ⟨fun hx => hx.elim, fun ⟨b, hb, _⟩ => absurd hb (notMem_empty b)⟩⟩

section

variable (hu : 0 < u) (h : Tiling u S R)

include hu h

/-- Two blocks with one address are the same block. -/
theorem eq_of_addr {b c : Block} (hb : b ∈ S) (hc : c ∈ S) (he : b.addr = c.addr) : b = c :=
  h.disjoint b hb c hc b.addr (b.covers_addr hu) (he ▸ c.covers_addr hu)

/-- Different blocks do not overlap. -/
theorem apart {b c : Block} (hb : b ∈ S) (hc : c ∈ S)
    (hne : b ≠ c) : b.addr + size u b.cls ≤ c.addr ∨ c.addr + size u c.cls ≤ b.addr := by
  by_contra hcon
  rw [not_or, not_le, not_le] at hcon
  have hbp := size_pos hu b.cls
  have hcp := size_pos hu c.cls
  refine hne (h.disjoint b hb c hc (max b.addr c.addr) ⟨?_, ?_⟩ ⟨?_, ?_⟩) <;> omega

/-- A block with one address but another class is not in the tiling. -/
theorem not_mem_of_cls_ne {a j k : Nat} (hb : ⟨a, j⟩ ∈ S) (hjk : k ≠ j) : ⟨a, k⟩ ∉ S := fun hc =>
  hjk (congrArg Block.cls (h.eq_of_addr hu hc hb rfl))

/-- Inside a block no other block starts. -/
theorem not_mem_inside {b : Block} (hb : b ∈ S)
    (h1 : b.addr < a) (h2 : a < b.addr + size u b.cls) : ⟨a, k⟩ ∉ S := fun hc => by
  have he := h.disjoint b hb _ hc a ⟨le_of_lt h1, h2⟩ (Block.covers_addr hu ⟨a, k⟩)
  rw [he] at h1
  exact lt_irrefl _ h1

end

theorem add (h : Tiling u S R) {b : Block} (ha : size u b.cls ∣ b.addr)
    (hd : ∀ x, b.Covers u x → x ∉ R) : Tiling u (insert b S) (R ∪ {x | b.Covers u x}) := by
  have hno : ∀ c ∈ S, ∀ x, b.Covers u x → ¬ c.Covers u x := fun c hc x hbx hcx =>
    hd x hbx ((h.cover x).2 ⟨c, hc, hcx⟩)
  refine ⟨fun c hc => ?_, fun c hc d hd' x hcx hdx => ?_, fun x => ?_⟩
  · rcases mem_insert.1 hc with rfl | hc
    · exact ha
    · exact h.aligned c hc
  · rcases mem_insert.1 hc with rfl | hcS
    · rcases mem_insert.1 hd' with rfl | hdS
      · rfl
      · exact absurd hdx (hno d hdS x hcx)
    · rcases mem_insert.1 hd' with rfl | hdS
      · exact absurd hcx (hno c hcS x hdx)
      · exact h.disjoint c hcS d hdS x hcx hdx
  · constructor
    · rintro (hx | hx)
      · obtain ⟨c, hc, hcx⟩ := (h.cover x).1 hx
        exact ⟨c, mem_insert_of_mem hc, hcx⟩
      · exact ⟨b, mem_insert_self _ _, hx⟩
    · rintro ⟨c, hc, hcx⟩
      rcases mem_insert.1 hc with rfl | hc
      · exact Or.inr hcx
      · exact Or.inl ((h.cover x).2 ⟨c, hc, hcx⟩)

theorem remove (h : Tiling u S R) {b : Block} (hb : b ∈ S) :
    Tiling u (S.erase b) (R \ {x | b.Covers u x}) := by
  refine ⟨fun c hc => h.aligned c (mem_of_mem_erase hc), fun c hc d hd x hcx hdx =>
    h.disjoint c (mem_of_mem_erase hc) d (mem_of_mem_erase hd) x hcx hdx,
    fun x => ⟨?_, ?_⟩⟩
  · rintro ⟨hx, hxb⟩
    obtain ⟨c, hc, hcx⟩ := (h.cover x).1 hx
    exact ⟨c, mem_erase.2 ⟨fun he => hxb (he ▸ hcx), hc⟩, hcx⟩
  · rintro ⟨c, hc, hcx⟩
    obtain ⟨hne, hc⟩ := mem_erase.1 hc
    exact ⟨(h.cover x).2 ⟨c, hc, hcx⟩, fun hbx => hne (h.disjoint c hc b hb x hcx hbx)⟩

theorem congr_region (h : Tiling u S R) {R' : Set Nat} (he : ∀ x, x ∈ R' ↔ x ∈ R) :
    Tiling u S R' := ⟨h.aligned, h.disjoint, fun x => (he x).trans (h.cover x)⟩

/-- Cutting a block into its halves. -/
theorem split (h : Tiling u S R) (hb : ⟨a, k + 1⟩ ∈ S) :
    Tiling u (insert (.upper u a k) (insert (.lower a k) (S.erase ⟨a, k + 1⟩))) R := by
  have ha := h.aligned _ hb
  have hsz : size u k ∣ a := Nat.dvd_trans (size_dvd_size u (Nat.le_succ k)) ha
  have h1 := (h.remove hb).add (b := .lower a k) hsz fun x hx hxR =>
    hxR.2 (Block.covers_succ.2 (Or.inl hx))
  have h2 := h1.add (b := .upper u a k) (Nat.dvd_add hsz (Nat.dvd_refl _)) fun x hx hxR => by
    rcases hxR with hxR | hxR
    · exact hxR.2 (Block.covers_succ.2 (Or.inr hx))
    · exact Block.lower_upper_disjoint hxR hx
  refine h2.congr_region fun x => ⟨fun hx => ?_, ?_⟩
  · by_cases hxb : Block.Covers u ⟨a, k + 1⟩ x
    · rcases Block.covers_succ.1 hxb with hxb | hxb
      · exact Or.inl (Or.inr hxb)
      · exact Or.inr hxb
    · exact Or.inl (Or.inl ⟨hx, hxb⟩)
  · have hin : ∀ y, Block.Covers u ⟨a, k + 1⟩ y → y ∈ R := fun y hy => (h.cover y).2 ⟨_, hb, hy⟩
    rintro ((hx | hx) | hx)
    · exact hx.1
    · exact hin x (Block.covers_succ.2 (Or.inl hx))
    · exact hin x (Block.covers_succ.2 (Or.inr hx))

/-- Joining two halves. -/
theorem merge (h : Tiling u S R) (ha : size u (k + 1) ∣ a) (hl : .lower a k ∈ S)
    (hr : .upper u a k ∈ S) (hne : Block.upper u a k ≠ Block.lower a k) :
    Tiling u (insert ⟨a, k + 1⟩ ((S.erase (.lower a k)).erase (.upper u a k))) R := by
  have h1 := (h.remove hl).remove (mem_erase.2 ⟨hne, hr⟩)
  have h2 := h1.add (b := ⟨a, k + 1⟩) ha fun x hx hxR => by
    rcases Block.covers_succ.1 hx with hx | hx
    · exact hxR.1.2 hx
    · exact hxR.2 hx
  refine h2.congr_region fun x => ⟨fun hx => ?_, ?_⟩
  · by_cases hxl : (Block.lower a k).Covers u x
    · exact Or.inr (Block.covers_succ.2 (Or.inl hxl))
    · by_cases hxr : (Block.upper u a k).Covers u x
      · exact Or.inr (Block.covers_succ.2 (Or.inr hxr))
      · exact Or.inl ⟨⟨hx, hxl⟩, hxr⟩
  · rintro (hx | hx)
    · exact hx.1.1
    · rcases Block.covers_succ.1 hx with hx | hx
      · exact (h.cover x).2 ⟨_, hl, hx⟩
      · exact (h.cover x).2 ⟨_, hr, hx⟩

/-- The buddy of a block starts a block no larger than it. -/
theorem buddy_start (hu : 0 < u) (h : Tiling u S R) {b : Block} (hb : b ∈ S)
    (hR : b.buddy u ∈ R) : ∃ j ≤ b.cls, ⟨b.buddy u, j⟩ ∈ S := by
  obtain ⟨c, hc, hcx⟩ := (h.cover _).1 hR
  have hpos := size_pos hu b.cls
  have hcpos := size_pos hu c.cls
  have hba := h.aligned b hb
  have hca := h.aligned c hc
  have hbud : size u b.cls ∣ b.buddy u := by
    rcases Block.buddy_cases hu hba with ⟨-, h2⟩ | ⟨h1, -⟩
    · exact h2 ▸ Nat.dvd_add hba (Nat.dvd_refl _)
    · exact Nat.dvd_trans (size_dvd_size u (Nat.le_succ _)) h1
  rcases Nat.lt_or_ge b.cls c.cls with hlt | hle
  · -- a larger block at the buddy would hold the whole pair, `b` included
    have hbc : b = c := by
      refine h.disjoint b hb c hc b.addr (b.covers_addr hu) ?_
      have hsucc := size_succ u b.cls
      have hlt : b.cls + 1 ≤ c.cls := hlt
      rcases Block.buddy_cases hu hba with ⟨h1, h2⟩ | ⟨h1, h2⟩
      · have := nested hlt rfl hca h1 hcx (by omega)
        unfold Block.Covers
        omega
      · have := nested hlt rfl hca h1 hcx (by omega)
        unfold Block.Covers
        omega
    rw [hbc] at hlt
    exact absurd hlt (Nat.lt_irrefl _)
  · refine ⟨c.cls, hle, ?_⟩
    have hnest := nested (Nat.le_refl _) rfl hca (Nat.dvd_trans (size_dvd_size u hle) hbud) hcx
      (by omega)
    have he : c.addr = b.buddy u := by omega
    exact he ▸ hc

end Tiling

/-! ## Counting blocks -/

section Count

variable {S : Finset Block} {b : Block} (P : Block → Prop) [DecidablePred P]

/-- The number of blocks of a set with a property. -/
def count (S : Finset Block) : Nat := (S.filter P).card

theorem count_insert (hb : b ∉ S) : count P (insert b S) = count P S + if P b then 1 else 0 := by
  unfold count
  rw [filter_insert]
  split
  · rw [card_insert_of_notMem fun hm => hb (mem_filter.1 hm).1]
  · rfl

theorem count_erase (hb : b ∈ S) : count P (S.erase b) + (if P b then 1 else 0) = count P S := by
  have h := count_insert P (notMem_erase b S)
  rw [insert_erase hb] at h
  exact h.symm

theorem count_eq_zero (h : ∀ b ∈ S, ¬ P b) : count P S = 0 :=
  card_eq_zero.2 (filter_eq_empty_iff.2 fun _ hb => h _ hb)

/-- If all blocks with the property lie in a subset, counting there is enough. -/
theorem count_eq_of_subset (hT : T ⊆ S) (h : ∀ b ∈ S, P b → b ∈ T) :
    count P S = count P T := by
  unfold count
  congr 1
  ext b
  rw [mem_filter, mem_filter]
  exact ⟨fun hb => ⟨h b hb.1 hb.2, hb.2⟩, fun hb => ⟨hT hb.1, hb.2⟩⟩

end Count

/-- An interval of `n` blocks of class `k` holds at most `n` of them. -/
theorem card_le (hu : 0 < u) {k l n : Nat} (hT : ∀ b ∈ T, b.cls = k ∧ size u k ∣ b.addr ∧ size u k * l ≤ b.addr ∧
      b.addr < size u k * (l + n)) : T.card ≤ n := by
  have hpos := size_pos hu k
  have hmaps : ∀ b ∈ T, b.addr / size u k ∈ Finset.Ico l (l + n) := fun b hb => by
    obtain ⟨-, -, h1, h2⟩ := hT b hb
    rw [mem_Ico, Nat.le_div_iff_mul_le hpos, Nat.div_lt_iff_lt_mul hpos]
    rw [Nat.mul_comm l, Nat.mul_comm (l + n)]
    exact ⟨h1, h2⟩
  have hinj : ∀ b ∈ T, ∀ c ∈ T, b.addr / size u k = c.addr / size u k → b = c := by
    intro b hb c hc he
    obtain ⟨hbk, hbd, -⟩ := hT b hb
    obtain ⟨hck, hcd, -⟩ := hT c hc
    have hba : b.addr = c.addr := by
      rw [← Nat.mul_div_cancel' hbd, he, Nat.mul_div_cancel' hcd]
    cases b
    cases c
    simp only at hba hbk hck
    rw [hba, hbk, hck]
  have hcard := card_le_card_of_injOn _ hmaps hinj
  rw [Nat.card_Ico] at hcard
  omega

end Library.Buddy
