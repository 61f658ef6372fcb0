import MakarnaX.Memory.Kmalloc.Spec
import MakarnaX.Library.System

/-!
# The allocator and its clients

A configuration is a state of the allocator and the pointers its clients hold,
each with the size that was asked for.  A run starts at `kmalloc_init`; its
steps are calls of `kmalloc`, calls of `kfree` on a pointer that is held, and
whatever the rest of the kernel does in between, which may write the bytes that
were asked for and all memory that is not the allocator's.
-/

namespace MakarnaX.Kmalloc

open Library (Mem)
open Library.Buddy Function Finset
open FreeBlock (listNode)

variable {L : Layout} {c : Config} {H : Heap} {src : Option TmpPage}

/-- `live p = some n`: `kmalloc(n)` returned `p`, which was not freed since. -/
structure Config where
  st : State
  live : Nat → Option Nat

namespace Config

/-- A byte some client asked for. -/
def Requested (c : Config) (x : Nat) : Prop := ∃ p n, c.live p = some n ∧ p ≤ x ∧ x < p + n

/-- A byte outside the pages and the free lists of the allocator. -/
def Foreign (L : Layout) (c : Config) (x : Nat) : Prop :=
  x ∉ region c.st.tmpPages ∧ (x < L.sizes ∨ L.sizes + 7 * 24 ≤ x)

end Config

inductive Step (L : Layout) : Config → Config → Prop
  | kmalloc {c : Config} {src : Option TmpPage} {n p : Nat} {st : State} : Unused c.st src →
      kmalloc L src c.st n = .ok (p, st) →
      Step L c ⟨st, if p = 0 then c.live else update c.live p (some n)⟩
  | kfree {c : Config} {p : Nat} {st : State} : c.live p ≠ none → kfree L c.st p = .ok st →
      Step L c ⟨st, update c.live p none⟩
  | client {c : Config} {m : Mem} {cpu : Cpu} :
      (∀ x, m x ≠ c.st.mem x → c.Requested x ∨ c.Foreign L x) → 0 ≤ cpu.nCli →
      Step L c ⟨{ c.st with mem := m, cpu := cpu }, c.live⟩

/-- After `kmalloc_init`, with no page taken yet. -/
def Boot (L : Layout) (c : Config) : Prop :=
  ∃ s : State, s.tmpPages = ∅ ∧ 0 ≤ s.cpu.nCli ∧ c = ⟨kmallocInit L s, fun _ => none⟩

def system (L : Layout) : Library.System Config where
  init := Boot L
  step := Step L

/-! ## The invariant -/

/-- The heap a configuration represents, and its used blocks are those the
clients hold. -/
structure Invariant (L : Layout) (c : Config) (H : Heap) : Prop where
  settled : Settled L c.st H
  live : ∀ p n, c.live p = some n → ∃ b ∈ H.used, p = b.addr + 4 ∧ n + 4 ≤ size 32 b.cls
  used : ∀ b ∈ H.used, ∃ n, c.live (b.addr + 4) = some n

/-! ## Boot -/

/-- `kmalloc_init` over the classes in `ks`. -/
theorem foldl_init_empty (L : Layout) : ∀ (ks : List Nat) (m : Mem), (∀ k ∈ ks, k < 7) →
    ∀ k < 7, k ∈ ks ∨ List2.Empty m (L.list k) →
      List2.Empty (ks.foldl (fun m k => List2.init m (L.list k)) m) (L.list k) := by
  intro ks
  induction ks with
  | nil => exact fun m _ k _ h => h.resolve_left (List.not_mem_nil)
  | cons j ks ih =>
    intro m hks k hk h
    have hj := hks j List.mem_cons_self
    have hL := L.bound
    refine ih _ (fun i hi => hks i (List.mem_cons_of_mem _ hi)) k hk ?_
    by_cases hkj : k = j
    · subst hkj
      refine Or.inr (List2.init_empty m ?_)
      unfold Layout.list
      omega
    · rcases h with h | h
      · exact Or.inl ((List.mem_cons.1 h).resolve_left hkj)
      · refine Or.inr (h.congr fun x h1 h2 => List2.init_apply m ?_)
        unfold Layout.list at *
        omega

theorem foldl_init_represents (L : Layout) (m : Mem) :
    List2.Represents ((List.range 7).foldl (fun m k => List2.init m (L.list k)) m) L.lists
      fun _ => [] := by
  have hL := L.bound
  refine List2.Represents.empty (fun k => ?_) (fun j k hjk => ?_) fun k => ?_
  · exact foldl_init_empty L (List.range 7) m (fun k hk => List.mem_range.1 hk) k k.isLt
      (Or.inl (List.mem_range.2 k.isLt))
  · have : (j : Nat) ≠ k := fun he => hjk (Fin.ext he)
    unfold Layout.lists Layout.list
    omega
  · unfold Layout.lists Layout.list
    omega

/-- The heap without pages. -/
def Heap.empty : Heap := ⟨∅, ∅, none, fun _ => [], ∅⟩

theorem Invariant.boot (h : Boot L c) : Invariant L c Heap.empty := by
  obtain ⟨s, hpages, hcli, rfl⟩ := h
  refine ⟨⟨⟨⟨?_, ?_, ?_, ?_, ?_, ?_, ?_⟩, ⟨?_, ?_, ?_⟩, ⟨?_, ?_⟩, hpages⟩, rfl, ?_, hcli⟩, ?_, ?_⟩
  · refine (Tiling.empty 32).congr_region fun x => ?_
    simp only [region, Heap.empty, notMem_empty, false_and, exists_false, Set.ofPred_false]
  all_goals simp only [Heap.empty, Heap.Free, Heap.NoFreeBuddies, notMem_empty, List.not_mem_nil,
    IsEmpty.forall_iff, implies_true, reduceCtorEq, List.nodup_nil, false_and, not_false_eq_true]
  exact foldl_init_represents L s.mem

/-! ## Steps -/

section Steps

variable {c : Config} {H : Heap}

section

variable (h : Invariant L c H)

include h

/-- The block of a live pointer is determined by it. -/
theorem Invariant.block_unique {b d : Block} (hb : b ∈ H.used) (hd : d ∈ H.used)
    (he : b.addr + 4 = d.addr + 4) : b = d :=
  h.settled.rep.wf.eq_of_addr (h.settled.rep.wf.used b hb) (h.settled.rep.wf.used d hd) (by omega)

theorem Invariant.kmalloc {n p : Nat} {st : State}
    (hsrc : Unused c.st src) (hcall : Kmalloc.kmalloc L src c.st n = .ok (p, st)) :
    ∃ H', Invariant L ⟨st, if p = 0 then c.live else update c.live p (some n)⟩ H' ∧
      H.used ⊆ H'.used ∧ Keeps H.used c.st.mem st.mem ∧ (p = 0 → 2044 < n ∨ src = none) ∧
      (p ≠ 0 → c.live p = none) := by
  rcases kmalloc_spec (n := n) h.settled hsrc with ⟨hn, hk⟩ | ⟨hnone, s', u, hk, hs', hm, -⟩ |
    ⟨q, s', b, H', hk, ha⟩
  · rw [hcall] at hk
    cases hk
    exact ⟨H, h, Finset.Subset.refl _, Keeps.refl _ _, fun _ => Or.inl hn, fun h0 => absurd rfl h0⟩
  · rw [hcall] at hk
    cases hk
    exact ⟨H, ⟨hs', h.live, h.used⟩, Finset.Subset.refl _, hm ▸ Keeps.refl _ _,
      fun _ => Or.inr hnone, fun h0 => absurd rfl h0⟩
  · rw [hcall] at hk
    cases hk
    have hp0 : p ≠ 0 := by
      have := ha.ptr
      omega
    have hbu : b ∈ H'.used := ha.used ▸ mem_insert_self _ _
    have hsub : H.used ⊆ H'.used := ha.used ▸ subset_insert _ _
    have hnew : c.live p = none := by
      cases hl : c.live p with
      | none => rfl
      | some m =>
        obtain ⟨d, hd, hpd, -⟩ := h.live p m hl
        have hbd : b = d := ha.settled.rep.wf.eq_of_addr (ha.settled.rep.wf.used b hbu)
          (ha.settled.rep.wf.used d (hsub hd)) (by have := ha.ptr; omega)
        exact absurd (hbd ▸ hd) ha.fresh
    refine ⟨H', ⟨ha.settled, fun q m hq => ?_, fun d hd => ?_⟩, hsub, ha.keeps,
      fun h0 => absurd h0 hp0, fun _ => hnew⟩
    · dsimp only at hq
      rw [if_neg hp0] at hq
      by_cases hqp : q = p
      · subst hqp
        rw [update_self] at hq
        cases hq
        exact ⟨b, hbu, ha.ptr, ha.fits⟩
      · rw [update_of_ne hqp] at hq
        obtain ⟨d, hd, h1⟩ := h.live q m hq
        exact ⟨d, hsub hd, h1⟩
    · dsimp only
      rw [if_neg hp0]
      by_cases hdp : d.addr + 4 = p
      · rw [hdp]
        exact ⟨n, update_self _ _ _⟩
      · rw [update_of_ne hdp]
        rw [ha.used] at hd
        rcases mem_insert.1 hd with rfl | hd
        · exact absurd ha.ptr.symm hdp
        · exact h.used d hd

theorem Invariant.kfree {p : Nat} {st : State} (hp : c.live p ≠ none) (hcall : Kmalloc.kfree L c.st p = .ok st) :
    ∃ H' b, Invariant L ⟨st, update c.live p none⟩ H' ∧ p = b.addr + 4 ∧
      Keeps (H.used.erase b) c.st.mem st.mem := by
  obtain ⟨n, hn⟩ := Option.ne_none_iff_exists'.1 hp
  obtain ⟨b, hb, rfl, -⟩ := h.live p n hn
  obtain ⟨s', H', hk, hf⟩ := kfree_spec h.settled hb
  rw [hcall] at hk
  cases hk
  refine ⟨H', b, ⟨hf.settled, fun q m hq => ?_, fun d hd => ?_⟩, rfl, hf.keeps⟩
  · dsimp only at hq
    by_cases hqp : q = b.addr + 4
    · rw [hqp, update_self] at hq
      cases hq
    · rw [update_of_ne hqp] at hq
      obtain ⟨d, hd, h1, h2⟩ := h.live q m hq
      refine ⟨d, ?_, h1, h2⟩
      rw [hf.used]
      exact mem_erase.2 ⟨fun he => hqp (he ▸ h1), hd⟩
  · rw [hf.used] at hd
    obtain ⟨hne, hd⟩ := mem_erase.1 hd
    dsimp only
    rw [update_of_ne fun he => hne (h.block_unique hd hb he)]
    exact h.used d hd

/-- A byte a client asked for lies behind the header of a used block. -/
theorem Invariant.requested {x : Nat} (hx : c.Requested x) :
    ∃ b ∈ H.used, b.addr + 4 ≤ x ∧ x < b.addr + size 32 b.cls := by
  obtain ⟨p, n, hp, h1, h2⟩ := hx
  obtain ⟨b, hb, rfl, hn⟩ := h.live p n hp
  exact ⟨b, hb, h1, by omega⟩

/-- What the rest of the kernel writes is no list byte and no header. -/
theorem Invariant.client_bytes {x : Nat} (hx : c.Requested x ∨ c.Foreign L x) :
    ¬ ListByte L H.lists x ∧ ∀ b ∈ H.tiles, x < b.addr ∨ b.addr + 4 ≤ x := by
  have hwf := h.settled.rep.wf
  rcases hx with hx | ⟨hreg, hsizes⟩
  · obtain ⟨b, hb, h1, h2⟩ := h.requested hx
    have hbt := hwf.used b hb
    refine ⟨hwf.not_free_not_listByte hbt (hwf.not_free_of_used hb) (by omega) h2, fun d hd => ?_⟩
    have hdsz := Heap.le_size d.cls
    by_cases hbd : b = d
    · exact Or.inr (hbd ▸ h1)
    · have := hwf.apart hbt hd hbd
      omega
  · rw [h.settled.rep.pages, hwf.tiling.cover] at hreg
    have hno : ∀ b ∈ H.tiles, ¬ b.Covers 32 x := fun b hb hbx => hreg ⟨b, hb, hbx⟩
    refine ⟨?_, fun b hb => ?_⟩
    · rintro (hl | ⟨k, a, ha, h1, h2⟩)
      · omega
      · have hsz := Heap.le_size k
        exact hno _ ((hwf.lists k a).1 ha).1 ⟨by dsimp only; omega, by dsimp only; omega⟩
    · have hsz := Heap.le_size b.cls
      by_contra hcon
      exact hno b hb ⟨by omega, by omega⟩

theorem Invariant.client {m : Mem} {cpu : Cpu}
    (hm : ∀ x, m x ≠ c.st.mem x → c.Requested x ∨ c.Foreign L x) (hcli : 0 ≤ cpu.nCli) :
    Invariant L ⟨{ c.st with mem := m, cpu := cpu }, c.live⟩ H := by
  have hr := h.settled.rep
  have hsame : ∀ x, ListByte L H.lists x ∨ (∃ b ∈ H.tiles, b.addr ≤ x ∧ x < b.addr + 4) →
      m x = c.st.mem x := by
    intro x hx
    by_contra hne
    obtain ⟨h1, h2⟩ := h.client_bytes (hm x hne)
    rcases hx with hx | ⟨b, hb, h3, h4⟩
    · exact h1 hx
    · have := h2 b hb
      omega
  refine ⟨⟨⟨hr.wf, ⟨lists_congr hr.image.lists fun x hx => hsame x (Or.inl hx), fun b hb => ?_,
    fun b hb => ?_⟩, hr.counters, hr.pages⟩, h.settled.held, h.settled.buddies, hcli⟩,
    h.live, h.used⟩
  · exact (Mem.read32_congr fun x h1 h2 => hsame x (Or.inr ⟨b, hb, h1, h2⟩)).trans
      (hr.image.header b hb)
  · rw [h.settled.held] at hb
    cases hb

theorem Invariant.step {c' : Config} (hstep : Step L c c') :
    ∃ H', Invariant L c' H' := by
  cases hstep with
  | kmalloc hsrc hcall =>
    obtain ⟨H', h', -⟩ := h.kmalloc hsrc hcall
    exact ⟨H', h'⟩
  | kfree hp hcall =>
    obtain ⟨H', b, h', -⟩ := h.kfree hp hcall
    exact ⟨H', h'⟩
  | client hm hcli => exact ⟨H, h.client hm hcli⟩

end

end Steps

theorem invariant_of_reachable (h : (system L).Reachable c) : ∃ H, Invariant L c H :=
  h.invariant (I := fun c => ∃ H, Invariant L c H) (fun _ h => ⟨_, Invariant.boot h⟩)
    fun _ _ ⟨_, h⟩ hstep => h.step hstep

/-! ## Calls do not fail -/

theorem Invariant.kmalloc_returns (h : Invariant L c H) (hsrc : Unused c.st src) (n : Nat) :
    ∃ r, Kmalloc.kmalloc L src c.st n = .ok r := by
  rcases kmalloc_spec (n := n) h.settled hsrc with ⟨-, hk⟩ | ⟨-, s', u, hk, -⟩ | ⟨q, s', b, H', hk, -⟩
  · exact ⟨_, hk⟩
  · exact ⟨_, hk⟩
  · exact ⟨_, hk⟩

theorem Invariant.kfree_returns (h : Invariant L c H) {p : Nat}
    (hp : c.live p ≠ none) : ∃ s, Kmalloc.kfree L c.st p = .ok s := by
  obtain ⟨n, hn⟩ := Option.ne_none_iff_exists'.1 hp
  obtain ⟨b, hb, rfl, -⟩ := h.live p n hn
  obtain ⟨s', H', hk, -⟩ := kfree_spec h.settled hb
  exact ⟨s', hk⟩

/-! ## Main results -/

/-- The pages of the allocator are cut into the blocks `tiles`, of which `used`
are held by clients, and the memory says so. -/
structure Sound (L : Layout) (c : Config) (tiles used : Finset Block) (lists : Fin 7 → List Nat) :
    Prop where
  partition : Tiling 32 tiles (region c.st.tmpPages)
  classes : ∀ b ∈ tiles, b.cls ≤ 6
  used_iff : ∀ b, b ∈ used ↔ b ∈ tiles ∧ ∃ n, c.live (b.addr + 4) = some n
  live : ∀ p n, c.live p = some n → ∃ b ∈ used, p = b.addr + 4 ∧ n + 4 ≤ size 32 b.cls
  listed : List2.Represents c.st.mem L.lists (listNodes lists)
  free_iff : ∀ (k : Fin 7) a, a ∈ lists k ↔ ⟨a, k⟩ ∈ tiles ∧ ⟨a, k⟩ ∉ used
  once : ∀ k, (lists k).Nodup
  header : ∀ b ∈ tiles, c.st.mem.read32 b.addr = headerWord b.cls (b ∈ used)
  count : ∀ i ∈ c.st.tmpPages, ∀ k ≤ 6,
    (c.st.pageHeaders i).count.get k = (tiles.filter fun b => InPage i b ∧ b.cls = k).card
  countUsed : ∀ i ∈ c.st.tmpPages, ∀ k ≤ 6,
    (c.st.pageHeaders i).countUsed.get k = (used.filter fun b => InPage i b ∧ b.cls = k).card
  buddies : ∀ b ∈ tiles, b ∉ used → ⟨b.buddy 32, b.cls⟩ ∈ tiles → ⟨b.buddy 32, b.cls⟩ ∈ used

theorem Invariant.sound (h : Invariant L c H) :
    Sound L c H.tiles H.used H.lists := by
  have hr := h.settled.rep
  have hheld := h.settled.held
  have hfree : ∀ b, H.Free b ↔ b ∈ H.tiles ∧ b ∉ H.used := fun b => by
    unfold Heap.Free
    rw [hheld]
    simp only [ne_eq, reduceCtorEq, not_false_eq_true, and_true]
  refine ⟨hr.pages ▸ hr.wf.tiling, fun b hb => ?_, fun b => ⟨fun hb => ⟨hr.wf.used b hb, h.used b hb⟩,
    fun hb => ?_⟩, h.live, hr.image.lists, fun k a => (hr.wf.lists k a).trans (hfree _), hr.wf.nodup,
    hr.image.header, hr.pages ▸ hr.counters.count, hr.pages ▸ hr.counters.countUsed,
    fun b hb hbu hbud => ?_⟩
  · rcases hr.wf.cls b hb with h1 | ⟨-, h1⟩
    · exact h1
    · rw [hheld] at h1
      cases h1
  · obtain ⟨hb, n, hn⟩ := hb
    obtain ⟨d, hd, he, -⟩ := h.live _ n hn
    exact hr.wf.eq_of_addr hb (hr.wf.used d hd) (by omega) ▸ hd
  · by_contra hcon
    exact h.settled.buddies b ((hfree b).2 ⟨hb, hbu⟩) ((hfree _).2 ⟨hbud, hcon⟩)

/-- A kernel image with `sizes` at 2 MiB, just booted. -/
def bootLayout : Layout := ⟨0x200000, by decide, by decide⟩

def bootState : State where
  mem := ⟨fun _ => 0⟩
  pageHeaders := fun _ => PageHeader.zero
  locked := 0
  cpu := ⟨true, 0, false⟩
  tmpPages := ∅

def bootConfig : Config := ⟨kmallocInit bootLayout bootState, fun _ => none⟩

/-- The `n` bytes at `p` belong to the client that holds `p`. -/
structure Exclusive (L : Layout) (c : Config) (p n : Nat) : Prop where
  /-- They lie in one page of the allocator. -/
  page : ∃ i ∈ c.st.tmpPages, ∀ x, p ≤ x → x < p + n → x / 0x1000 = pageNo i
  /-- No other client has any of them. -/
  disjoint : ∀ p' n', p' ≠ p → c.live p' = some n' → p + n ≤ p' ∨ p' + n' ≤ p
  /-- No header and no free-list node is among them. -/
  metadata : ∃ tiles used lists, Sound L c tiles used lists ∧ ∀ x, p ≤ x → x < p + n →
    ¬ ListByte L lists x ∧ ∀ b ∈ tiles, x < b.addr ∨ b.addr + 4 ≤ x
  /-- A call of `kmalloc` leaves them. -/
  kmalloc : ∀ src n' q s, Unused c.st src → Kmalloc.kmalloc L src c.st n' = .ok (q, s) →
    ∀ x, p ≤ x → x < p + n → s.mem x = c.st.mem x
  /-- A call of `kfree` on another block leaves them. -/
  kfree : ∀ q s, q ≠ p → c.live q ≠ none → Kmalloc.kfree L c.st q = .ok s →
    ∀ x, p ≤ x → x < p + n → s.mem x = c.st.mem x

theorem Invariant.exclusive (h : Invariant L c H) {p n : Nat} (hp : c.live p = some n) : Exclusive L c p n := by
  have hwf := h.settled.rep.wf
  obtain ⟨b, hb, rfl, hn⟩ := h.live p n hp
  have hbt := hwf.used b hb
  obtain ⟨i, hi, hpage⟩ := hwf.page hbt
  refine ⟨⟨i, h.settled.rep.pages ▸ hi, fun x h1 h2 => ?_⟩, fun p' n' hne hp' => ?_,
    ⟨H.tiles, H.used, H.lists, h.sound, fun x h1 h2 => ?_⟩,
    fun src n' q s hsrc hcall x h1 h2 => ?_, fun q s hne hq hcall x h1 h2 => ?_⟩
  · exact hwf.covers_page hbt hpage ⟨by omega, by omega⟩
  · obtain ⟨d, hd, rfl, hn'⟩ := h.live p' n' hp'
    have := hwf.apart hbt (hwf.used d hd) fun he => hne (by rw [he])
    omega
  · exact h.client_bytes (Or.inl ⟨_, n, hp, h1, h2⟩)
  · obtain ⟨H', -, -, hkeep, -⟩ := h.kmalloc hsrc hcall
    exact hkeep b hb x h1 (by omega)
  · obtain ⟨H', d, -, rfl, hkeep⟩ := h.kfree hq hcall
    exact hkeep b (mem_erase.2 ⟨fun he => hne (by rw [he]), hb⟩) x h1 (by omega)

/-- Memory that `kmalloc` handed out is never shared: as long as a pointer is
held, its bytes belong to its holder only and no call changes them.  `kmalloc`
returns such a pointer, unless the request is too large or there is no page. -/
theorem allocated_memory_exclusive {c : Config} (h : (system L).Reachable c) :
    (∀ p n, c.live p = some n → Exclusive L c p n) ∧
      ∀ src n p s, Unused c.st src → kmalloc L src c.st n = .ok (p, s) →
        (p = 0 → 2044 < n ∨ src = none) ∧
        (p ≠ 0 → c.live p = none ∧ Exclusive L ⟨s, update c.live p (some n)⟩ p n) := by
  obtain ⟨H, hI⟩ := invariant_of_reachable h
  refine ⟨fun p n hp => hI.exclusive hp, fun src n p s hsrc hcall => ?_⟩
  obtain ⟨H', hI', -, -, h0, hnew⟩ := hI.kmalloc hsrc hcall
  refine ⟨h0, fun hp => ⟨hnew hp, ?_⟩⟩
  rw [if_neg hp] at hI'
  exact hI'.exclusive (update_self _ _ _)

theorem allocated_memory_exclusive_boot :
    (∀ p n, bootConfig.live p = some n → Exclusive bootLayout bootConfig p n) ∧
      ∀ src n p s, Unused bootConfig.st src → kmalloc bootLayout src bootConfig.st n = .ok (p, s) →
        (p = 0 → 2044 < n ∨ src = none) ∧
        (p ≠ 0 → bootConfig.live p = none ∧
          Exclusive bootLayout ⟨s, update bootConfig.live p (some n)⟩ p n) :=
  allocated_memory_exclusive (.init ⟨bootState, rfl, by decide, rfl⟩)

end MakarnaX.Kmalloc
