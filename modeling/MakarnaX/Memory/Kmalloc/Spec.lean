import MakarnaX.Memory.Kmalloc.Rep

/-!
# What `kmalloc` and `kfree` do to the heap

The loops of the two calls, each by its own induction: the search of the free
lists, the splitting of the block found, the merging of a freed block with its
buddies.  `kmalloc_spec` and `kfree_spec` put them together: called with a well
represented heap they run through, without a failed assertion, and leave a
well represented heap in which no two buddies are free.
-/

namespace MakarnaX.Kmalloc

open Library Heap
open Library.Buddy Function Finset
open FreeBlock (listNode ofNode)
open BlockHeader (sizeno setSizeno ph)

variable {L : Layout} {s s' : State} {H : Heap} {k : Fin 7} {a n : Nat} {P : Finset Nat} {src : Option Nat}

/-! ## A new page -/

/-- Freeing the held block and taking it again changes nothing. -/
theorem Heap.take_put {l : List Nat} (hh : H.held = some ⟨a, k⟩) :
    (H.put k l).take k a (H.lists k) = H := by
  obtain ⟨tiles, used, held, lists, pages⟩ := H
  simp only [put, take, update_idem, update_eq_self] at hh ⊢
  rw [hh]

/-- `init` on a new page: it is cut in two, and both halves are listed. -/
theorem init_spec {p : TmpPage} (hr : Rep L s H) (hn : H.held = none)
    (hk : (k : Nat) = 6) (hl : H.lists k = []) (hi : s.cpu.ifl = false) (hpi : p.index < 1024)
    (hpn : p.index ∉ s.tmpPages) (ha : (pageBlock p.index).addr = a) :
    ∃ s', FreeBlock.init L (tmpPageAllocMap s p) a = .ok s' ∧
      Next L H.used s s' (((H.addPage p.index).split a k).put k
        (((H.addPage p.index).split a k).lists k ++ [a])) := by
  have hpb : pageBlock p.index = ⟨a, k + 1⟩ := by
    rw [← ha, hk]
    rfl
  have h1 := addPage_next hr hn hpi hpn
  rw [ha] at h1
  obtain ⟨s2, hs2, h2⟩ := split_spec h1.rep (congrArg some hpb) hi hl
  have hheld : ((H.addPage p.index).split a k).held = some ⟨a, k⟩ := rfl
  obtain ⟨hok, hrel⟩ := pushBack_relisted (k := k) h2.rep.image.lists
    (h2.rep.wf.held_apart hheld) (h2.rep.image.held _ hheld)
  have hsz2 : sizeno s2.mem a = k := h2.rep.sizeno_eq (h2.rep.wf.held _ hheld).1
  have h3 := put_next h2.rep hheld (List.perm_append_singleton _ _) hrel
  refine ⟨_, ?_, (h1.trans h2).trans h3⟩
  have hsz1 := sizeno_of_header (by omega) (initMem_header (tmpPageAllocMap s p).mem a).1
  have hpage : a / 0x1000 = pageNo p.index := by
    rw [← ha]
    exact inPage_pageBlock.2 rfl
  unfold FreeBlock.init
  rw [tmpPageAllocMap_cpu, Cpu.assertIntDisable_ok hi, ok_bind]
  dsimp only
  rw [ph_ok (by exact Nat.le_of_eq hsz1) hpage hpi, ok_bind]
  unfold tmpPageAllocMap at hs2 ⊢
  unfold initMem at hs2
  dsimp only at hs2 ⊢
  rw [hs2, ok_bind]
  dsimp only
  rw [hsz2, ASSERT_ok hok]
  rfl

theorem newPage_spec {p : TmpPage} (hr : Rep L s H) (hn : H.held = none)
    (hk : (k : Nat) = 6) (hl : H.lists k = []) (hi : s.cpu.ifl = false) (hpi : p.index < 1024)
    (hpn : p.index ∉ s.tmpPages) (ha : (pageBlock p.index).addr = a) :
    ∃ s', newPage L (some p) s = .ok (some a, s') ∧
      Next L H.used s s' ((H.addPage p.index).split a k) := by
  obtain ⟨s2, hs2, h2⟩ := init_spec hr hn hk hl hi hpi hpn ha
  have hheld : ((H.addPage p.index).split a k).held = some ⟨a, k⟩ := rfl
  have hu : ((H.addPage p.index).split a k).used = H.used := rfl
  generalize (H.addPage p.index).split a k = H1 at h2 hheld hu ⊢
  have hlist : (H1.put k (H1.lists k ++ [a])).lists k = H1.lists k ++ a :: [] := by
    unfold put
    dsimp only
    rw [update_self]
  have hmem : a ∈ (H1.put k (H1.lists k ++ [a])).lists k := by
    rw [hlist]
    exact List.mem_append_right _ List.mem_cons_self
  have hown : ListNode.list s2.mem (listNode a) = L.list k :=
    list_of_listed h2.rep.image.lists hmem
  have h3 := take_next h2.rep rfl hlist
  rw [List.append_nil, take_put hheld] at h3
  refine ⟨_, ?_, h2.trans (hu ▸ h3)⟩
  have hsize : List2.size s.mem (L.list LAST_SIZENO) = 0 := by
    have hlen := size_eq_length hr.image.lists k
    rw [hl, hk] at hlen
    exact hlen
  unfold newPage
  rw [ASSERT_ok hsize, ok_bind, Cpu.assertIntDisable_ok hi, ok_bind]
  dsimp only
  rw [tmpPageKaddr_eq hpi, ha, hs2, ok_bind, hown,
    ASSERT_ok (erase_relisted h2.rep.image.lists hlist).1]
  rfl

/-! ## The search -/

/-- `u` is the smallest class that has room for `n` bytes. -/
structure LeastFit (n u : Nat) : Prop where
  fits : n + 4 ≤ size 32 u
  least : ∀ k < u, size 32 k < n + 4

/-- What the search of the free lists finds: `u` is the smallest class that fits,
and the lists from it up to the one a block came from are empty. -/
inductive Found (L : Layout) (s : State) (H : Heap) (n : Nat) : Search × State → Prop
  | nothing {u : Nat} : LeastFit n u → u ≤ 6 →
      (∀ k : Fin 7, u ≤ k → H.lists k = []) → Found L s H n (⟨7, some u, none⟩, s)
  | block {u a : Nat} {i : Fin 7} {l : List Nat} {s' : State} :
      LeastFit n u → u ≤ i → (∀ k : Fin 7, u ≤ k → k < i → H.lists k = []) →
      H.lists i = a :: l → Next L H.used s s' (H.take i a l) →
      Found L s H n (⟨i, some u, some a⟩, s')

theorem sizesSize_eq (k : Nat) : sizesSize k = size 32 k := by
  unfold sizesSize size
  rw [Nat.shiftLeft_eq]

theorem search_spec (hr : Rep L s H) (hn : H.held = none) (hsize : n ≤ 2044) :
    ∀ (c j : Nat) (uygun : Option Nat), j + c = 7 →
      (uygun = none → ∀ k < j, size 32 k < n + 4) →
      (∀ u, uygun = some u → LeastFit n u ∧ u < j ∧
        ∀ k : Fin 7, u ≤ k → k < j → H.lists k = []) →
      ∃ r, search L n (List.range' j c) uygun s = .ok r ∧ Found L s H n r := by
  intro c
  -- `c` classes are left to try, from `j` on
  induction c with
  | zero =>
    intro j uygun hj hnone hsome
    cases uygun with
    | none =>
      have h6 := hnone rfl 6 (by omega)
      unfold size at h6
      omega
    | some u =>
      obtain ⟨hfit, huj, hempty⟩ := hsome u rfl
      exact ⟨_, rfl, .nothing hfit (by omega) fun k hk => hempty k hk (by omega)⟩
  | succ c ih =>
    intro j uygun hj hnone hsome
    have hsz := le_size j
    rw [List.range'_succ]
    unfold search
    rw [sizesSize_eq]
    by_cases hfit : n ≤ size 32 j - 4
    · rw [if_pos hfit]
      obtain ⟨u, hu, hfitu, huj, hempty⟩ : ∃ u, uygun.or (some j) = some u ∧ LeastFit n u ∧
          u ≤ j ∧ ∀ k : Fin 7, u ≤ k → k < j → H.lists k = [] := by
        cases uygun with
        | none => exact ⟨j, rfl, ⟨by omega, hnone rfl⟩, Nat.le_refl _, fun k h1 h2 => by omega⟩
        | some u =>
          obtain ⟨h1, h2, h3⟩ := hsome u rfl
          exact ⟨u, rfl, h1, Nat.le_of_lt h2, h3⟩
      dsimp only
      rw [hu]
      have hlen := size_eq_length hr.image.lists ⟨j, by omega⟩
      dsimp only at hlen
      cases hx : H.lists ⟨j, by omega⟩ with
      | nil =>
        rw [hx] at hlen
        rw [if_neg (by rw [hlen]; exact Nat.lt_irrefl _)]
        refine ih (j + 1) (some u) (by omega) (fun h => by cases h) fun u' hu' => ?_
        cases hu'
        refine ⟨hfitu, by omega, fun k h1 h2 => ?_⟩
        by_cases hkj : (k : Nat) = j
        · have hk : k = ⟨j, by omega⟩ := Fin.ext hkj
          rw [hk, hx]
        · exact hempty k h1 (by omega)
      | cons a l =>
        rw [hx] at hlen
        obtain ⟨hfirst, hpop, hnext⟩ := popFront_next hr hn hx
        have hfree : H.Free ⟨a, j⟩ := (hr.wf.lists ⟨j, by omega⟩ a).1 (hx ▸ List.mem_cons_self)
        have hofNode : ofNode (List2.first s.mem (L.list j)) = a := by
          rw [hfirst]
          exact Nat.add_sub_cancel _ _
        have hsizeno : sizeno s.mem a = j := hr.sizeno_eq hfree.1
        rw [if_pos (by rw [hlen]; exact Nat.succ_pos _), hofNode, ASSERT_ok hsizeno, ok_bind]
        dsimp only at hpop hnext ⊢
        rw [ASSERT_ok hpop]
        exact ⟨_, rfl, .block (i := ⟨j, by omega⟩) hfitu huj hempty hx hnext⟩
    · rw [if_neg hfit]
      have hun : uygun = none := by
        cases uygun with
        | none => rfl
        | some u =>
          obtain ⟨⟨h1, -⟩, h2, -⟩ := hsome u rfl
          have hle : size 32 u ≤ size 32 j :=
            Nat.mul_le_mul_left _ (Nat.pow_le_pow_right (by omega) (by omega))
          omega
      refine ih (j + 1) uygun (by omega) (fun _ k hk => ?_) fun u hu => ?_
      · rcases Nat.lt_succ_iff_lt_or_eq.1 hk with h | rfl
        · exact hnone hun k h
        · omega
      · rw [hun] at hu
        cases hu

/-! ## Calls that ended -/

theorem popif_ok {c : Cpu} (h : 1 ≤ c.nCli) : ∃ c', c.popif = .ok c' ∧ c'.nCli = c.nCli - 1 := by
  unfold Cpu.popif
  rw [if_neg (by omega)]
  exact ⟨_, rfl, rfl⟩

theorem Rep.congr (hr : Rep L s H) (hm : s'.mem = s.mem)
    (hp : s'.pageHeaders = s.pageHeaders) (ht : s'.tmpPages = s.tmpPages) : Rep L s' H :=
  ⟨hr.wf, hm ▸ hr.image, hp ▸ hr.counters, ht ▸ hr.pages⟩

/-- A call of `kmalloc` or `kfree` that ended: the heap is well represented, no
block is held and no two buddies are free. -/
structure Settled (L : Layout) (s : State) (H : Heap) : Prop where
  rep : Rep L s H
  held : H.held = none
  buddies : H.NoFreeBuddies
  nCli : 0 ≤ s.cpu.nCli

/-! ## Merging up -/

/-- The condition of the merging loop says that the buddy is free. -/
theorem merge_cond_iff {b : Block} (hr : Rep L s H) (hh : H.held = some b) :
    (sizeno s.mem b.addr < LAST_SIZENO + 1 ∧
        BlockHeader.isFree s.mem (FreeBlock.pair s.mem b.addr) ∧
        sizeno s.mem (FreeBlock.pair s.mem b.addr) = sizeno s.mem b.addr) ↔
      b.cls ≤ 6 ∧ H.Free ⟨b.buddy 32, b.cls⟩ := by
  have hwf := hr.wf
  obtain ⟨hb, hbu⟩ := hwf.held _ hh
  have hbnd := hwf.bounds hb
  have hcls := hwf.cls_le hb
  have hsz : sizeno s.mem b.addr = b.cls := hr.sizeno_eq hb
  rw [hsz]
  have hlast : LAST_SIZENO = 6 := rfl
  by_cases hk : b.cls ≤ 6
  · have hpair : FreeBlock.pair s.mem b.addr = b.buddy 32 := by
      have hsmall : size 32 b.cls ≤ 0x1000 := size_le hcls
      exact pair_eq hsz hk (by omega) (by omega)
    obtain ⟨j, hj, hbud⟩ := hwf.buddy_start hb hk
    have hw := hr.image.header _ hbud
    dsimp only at hw
    rw [hpair, sizeno_of_header (by omega) hw, isFree_of_header (by omega) hw]
    constructor
    · rintro ⟨-, h1, rfl⟩
      refine ⟨hk, hbud, h1, fun he => ?_⟩
      rw [hh] at he
      have hne : b.buddy 32 = b.addr := (congrArg Block.addr (Option.some.inj he)).symm
      have hpos := le_size b.cls
      rcases Block.buddy_cases (by omega) (hwf.tiling.aligned b hb) with ⟨-, h2⟩ | ⟨-, h2⟩ <;> omega
    · rintro ⟨-, hf⟩
      have he := hwf.eq_of_addr hbud hf.1 rfl
      have hjc : j = b.cls := congrArg Block.cls he
      subst hjc
      exact ⟨by omega, hf.2.1, rfl⟩
  · constructor
    · rintro ⟨h1, -⟩
      omega
    · rintro ⟨h1, -⟩
      exact absurd h1 hk

theorem mergeUp_spec :
    ∀ (fuel : Nat) {s : State} {H : Heap} {b : Block}, s.cpu.ifl = false → Rep L s H →
      H.held = some b → H.NoFreeBuddies → 8 ≤ fuel + b.cls →
      ∃ b' s' H', mergeUp fuel s b.addr = .ok (b'.addr, s') ∧ Next L H.used s s' H' ∧
        H'.held = some b' ∧ H'.used = H.used ∧ H'.pages = H.pages ∧ H'.NoFreeBuddies ∧
        (b'.cls ≤ 6 → ¬ H'.Free ⟨b'.buddy 32, b'.cls⟩) := by
  intro fuel
  -- each merge raises the class, and no block is larger than a page
  induction fuel with
  | zero =>
    intro s H b _ hr hh _ hfuel
    have := hr.wf.cls_le (hr.wf.held _ hh).1
    omega
  | succ fuel ih =>
    intro s H b hi hr hh hnb hfuel
    unfold mergeUp
    by_cases hcond : b.cls ≤ 6 ∧ H.Free ⟨b.buddy 32, b.cls⟩
    · rw [if_pos ((merge_cond_iff hr hh).2 hcond)]
      obtain ⟨a, ys, zs, s1, hs1, -, hc, h1⟩ := merge_spec (k := ⟨b.cls, by omega⟩) hr hh rfl hcond.2 hi
      rw [hs1, ok_bind]
      obtain ⟨b2, s2, H2, hs2, h2, hh2, hu2, hp2, hnb2, hbud⟩ := ih (b := ⟨a, b.cls + 1⟩) (h1.cpu ▸ hi)
        h1.rep rfl (hnb.mono fun c hc' => ((merge_free hr.wf hc).1 hc').1)
        (by dsimp only; omega)
      exact ⟨b2, s2, H2, hs2, h1.trans h2, hh2, hu2, hp2, hnb2, hbud⟩
    · rw [if_neg fun h => hcond ((merge_cond_iff hr hh).1 h)]
      exact ⟨b, s, H, rfl, ⟨hr, Keeps.refl _ _, rfl, id⟩, hh, rfl, rfl, hnb,
        fun hk hf => hcond ⟨hk, hf⟩⟩

/-- A block of the largest class is a page. -/
theorem pageBlock_of_cls {b : Block} (hwf : H.WF) (hb : b ∈ H.tiles) (hk : b.cls = 7) :
    ∃ i ∈ H.pages, b = pageBlock i := by
  obtain ⟨i, hi, hp⟩ := hwf.page hb
  have hal := hwf.tiling.aligned b hb
  obtain ⟨a, k⟩ := b
  dsimp only at hk hal
  subst hk
  refine ⟨i, hi, ?_⟩
  unfold pageBlock
  have hsz : size 32 7 = 0x1000 := rfl
  rw [hsz] at hal
  unfold InPage at hp
  dsimp only at hp
  congr 1
  omega

/-- At most one page went back. -/
def Shrinks (P P' : Finset Nat) : Prop := P' = P ∨ ∃ i ∈ P, P' = P.erase i

/-- The held block goes to the front of its list. -/
theorem putBack_listed (hr : Rep L s H) (hh : H.held = some ⟨a, k⟩) :
    ∃ s', putBack L s a = .ok s' ∧ Next L H.used s s' (H.put k (a :: H.lists k)) := by
  have hb := (hr.wf.held _ hh).1
  have hsz : sizeno s.mem a = k := hr.sizeno_eq hb
  obtain ⟨hok, hrel⟩ := pushFront_relisted (k := k) hr.image.lists (hr.wf.held_apart hh)
    (hr.image.held _ hh)
  have h1 := put_next hr hh (List.Perm.refl _) hrel
  dsimp only at hok
  unfold putBack
  rw [ASSERT_ok (hr.image.held _ hh), ok_bind, hsz, if_pos (show (k : Nat) ≤ LAST_SIZENO from Nat.le_of_lt_succ k.isLt)]
  dsimp only
  rw [ASSERT_ok hok]
  exact ⟨_, rfl, h1⟩

/-- The held page goes back. -/
theorem putBack_page {i : Nat} (hr : Rep L s H) (hh : H.held = some (pageBlock i))
    (hip : i ∈ H.pages) (hi : s.cpu.ifl = false) :
    ∃ s', putBack L s (pageBlock i).addr = .ok s' ∧ Next L H.used s s' (H.dropPage i) := by
  have hwf := hr.wf
  have hb := (hwf.held _ hh).1
  have hsz : sizeno s.mem (pageBlock i).addr = 7 := hr.sizeno_eq hb
  have hib := hwf.pages i hip
  have hva : va2kaddr (kaddr2va (BlockHeader.pageAddr (pageBlock i).addr)) =
      MMAP_KERNEL_TMP_PAGE_BASE + i * 0x1000 := by
    have haddr : (pageBlock i).addr = pageNo i * 0x1000 := rfl
    rw [haddr]
    unfold BlockHeader.pageAddr va2kaddr kaddr2va roundDown sub32 add32 pageNo
      MMAP_KERNEL_TMP_PAGE_BASE MMAP_KERNEL_BASE
    omega
  have hidx : (MMAP_KERNEL_TMP_PAGE_BASE + i * 0x1000 - MMAP_KERNEL_TMP_PAGE_BASE) / 0x1000 = i := by
    omega
  have hsize : FreeBlock.size s.mem (pageBlock i).addr = 0x1000 := size_of_sizeno hsz
  unfold putBack
  rw [ASSERT_ok (hr.image.held _ hh), ok_bind, hsz, if_neg (by unfold LAST_SIZENO; omega),
    ASSERT_ok hsize, ok_bind, hva]
  unfold tmpPageFree
  rw [Cpu.assertIntDisable_ok hi, ok_bind, ASSERT_ok ⟨Nat.le_add_right _ _, by
    unfold MMAP_KERNEL_TMP_PAGE_BASE MMAP_KERNEL_TOP
    omega⟩, hidx]
  refine ⟨_, rfl, ⟨hwf.dropPage hh, hr.image.dropPage, ⟨fun q hq k hk => ?_, fun q hq k hk => ?_⟩, ?_⟩,
    Keeps.refl _ _, rfl, fun hclear q hq => ?_⟩
  · rw [dropPage_count hwf hh q hk]
    exact hr.counters.count q (mem_of_mem_erase hq) k hk
  · exact hr.counters.countUsed q (mem_of_mem_erase hq) k hk
  · exact congrArg (erase · i) hr.pages
  · by_cases hqi : q = i
    · subst hqi
      have h0 : ∀ k ≤ 6, H.count q k = 0 := fun k hk => by
        rw [← dropPage_count hwf hh q hk]
        exact (hwf.dropPage hh).count_of_not_page (notMem_erase q _) k
      refine PageHeader.ext_get (fun k hk => ?_) fun k hk => ?_
      · exact (hr.counters.count q hip k hk).trans ((h0 k hk).trans (PHCount.get_zero hk).1.symm)
      · have hle := hwf.countUsed_le_count q k
        rw [h0 k hk] at hle
        exact (hr.counters.countUsed q hip k hk).trans
          ((Nat.le_zero.1 hle).trans (PHCount.get_zero hk).2.symm)
    · exact hclear q fun hmem => hq (mem_erase.2 ⟨hqi, hmem⟩)

theorem putBack_spec {b : Block} (hr : Rep L s H) (hh : H.held = some b) (hi : s.cpu.ifl = false)
    (hnb : H.NoFreeBuddies) (hbud : b.cls ≤ 6 → ¬ H.Free ⟨b.buddy 32, b.cls⟩) :
    ∃ s' H', putBack L s b.addr = .ok s' ∧ Next L H.used s s' H' ∧ H'.held = none ∧
      H'.used = H.used ∧ H'.NoFreeBuddies ∧ Shrinks H.pages H'.pages := by
  have hwf := hr.wf
  have hb := (hwf.held _ hh).1
  by_cases hk : b.cls ≤ 6
  · obtain ⟨a, c⟩ := b
    dsimp only at hk
    obtain ⟨k, rfl⟩ : ∃ k : Fin 7, c = k := ⟨⟨c, by omega⟩, rfl⟩
    obtain ⟨s1, hs1, h1⟩ := putBack_listed hr hh
    refine ⟨s1, _, hs1, h1, rfl, rfl, ?_, Or.inl rfl⟩
    refine hnb.insert hwf (fun d hd => (put_free hwf hh).1 hd) fun hf => ?_
    rcases (put_free hwf hh).1 hf with hf | he
    · exact hbud hk hf
    · -- a block is not its own buddy
      have hpos := le_size k
      have hself : Block.buddy 32 ⟨a, k⟩ = a := congrArg Block.addr he
      rcases Block.buddy_cases (u := 32) (by omega) (hwf.tiling.aligned _ hb) with ⟨-, h2⟩ | ⟨-, h2⟩
      · dsimp only at h2
        omega
      · dsimp only at h2
        omega
  · obtain ⟨i, hip, rfl⟩ := pageBlock_of_cls hwf hb (by have := hwf.cls_le hb; omega)
    obtain ⟨s1, hs1, h1⟩ := putBack_page hr hh hip hi
    exact ⟨s1, _, hs1, h1, rfl, rfl, hnb.mono fun c hc => (dropPage_free hh).1 hc,
      Or.inr ⟨i, hip, rfl⟩⟩

/-! ## `kfree` -/

/-- `kfree` marks the block as free, merges it with its buddies and puts the result back. -/
theorem kfree_steps {b : Block} (hs : Settled L s H) (hb : b ∈ H.used) :
    ∃ s₁, s₁.cpu.ifl = false ∧ Rep L s₁ (H.unuse b) ∧ Keeps (H.used.erase b) s.mem s₁.mem ∧
      (Clear s → Clear s₁) ∧ ∀ a s₂ s₃, mergeUp (LAST_SIZENO + 2) s₁ b.addr = .ok (a, s₂) →
        putBack L s₂ a = .ok s₃ → s₃.cpu = s₁.cpu →
        ∃ c, kfree L s (b.addr + 4) = .ok { s₃ with cpu := c, locked := 0 } ∧ 0 ≤ c.nCli := by
  have hr0 : Rep L { s with cpu := s.cpu.pushcli, locked := 1 } H := hs.rep.congr rfl rfl rfl
  have hbt := hr0.wf.used b hb
  have hbnd := hr0.wf.bounds hbt
  have hbh : BlockHeader.bh (b.addr + 4) = b.addr := by
    unfold BlockHeader.bh sub32
    omega
  have hflags : BlockHeader.flags s.mem b.addr = BlockFlag_used := by
    rw [flags_of_header (by have := hr0.wf.used_cls hb; omega) (hs.rep.image.header b hbt),
      if_pos hb]
  obtain ⟨s1, hs1, h1⟩ := setFree_spec hr0 hs.held hb
  refine ⟨s1, h1.cpu ▸ rfl, h1.rep, h1.keeps, h1.clear, fun a s2 s3 hs2 hs3 hcpu => ?_⟩
  have hcli : s3.cpu.nCli = s.cpu.nCli + 1 := by
    rw [hcpu, h1.cpu]
    rfl
  have hnCli := hs.nCli
  obtain ⟨c, hc, hnc⟩ := popif_ok (c := s3.cpu) (by omega)
  refine ⟨c, ?_, by omega⟩
  unfold kfree spinlockAcquire
  dsimp only
  rw [hbh, ASSERT_ok hflags, ok_bind, hs1, ok_bind, hs2, ok_bind]
  dsimp only
  rw [hs3, ok_bind]
  unfold spinlockRelease
  rw [hc]
  rfl

/-- `kfree(p)` took the block `b` back. -/
structure Freed (L : Layout) (s : State) (H : Heap) (s' : State) (b : Block) (H' : Heap) : Prop where
  settled : Settled L s' H'
  used : H'.used = H.used.erase b
  pages : Shrinks H.pages H'.pages
  keeps : Keeps (H.used.erase b) s.mem s'.mem
  clear : Clear s → Clear s'

theorem kfree_spec {b : Block} (hs : Settled L s H) (hb : b ∈ H.used) :
    ∃ s' H', kfree L s (b.addr + 4) = .ok s' ∧ Freed L s H s' b H' := by
  obtain ⟨s1, hi1, hr1, hk1, hc1, hrest⟩ := kfree_steps hs hb
  have hnb1 : (H.unuse b).NoFreeBuddies :=
    hs.buddies.mono fun c hc => (unuse_free hs.held hb).1 hc
  obtain ⟨b2, s2, H2, hs2, h2, hh2, hu2, hp2, hnb2, hbud2⟩ := mergeUp_spec (LAST_SIZENO + 2)
    (b := b) hi1 hr1 rfl hnb1 (by unfold LAST_SIZENO; omega)
  obtain ⟨s3, H3, hs3, h3, hh3, hu3, hnb3, hp3⟩ := putBack_spec h2.rep hh2 (h2.cpu ▸ hi1) hnb2 hbud2
  obtain ⟨c, hcall, hnc⟩ := hrest _ s2 s3 hs2 hs3 (h3.cpu.trans h2.cpu)
  have hkeep3 := h3.keeps
  rw [hu2] at hkeep3
  exact ⟨_, H3, hcall, ⟨h3.rep.congr rfl rfl rfl, hh3, hnb3, hnc⟩, hu3.trans hu2,
    hp2 ▸ hp3, (hk1.trans h2.keeps).trans hkeep3, h3.clear ∘ h2.clear ∘ hc1⟩

/-! ## Splitting down -/

theorem NoFreeBuddies_split (h : H.NoFreeBuddies) (hwf : H.WF)
    (hh : H.held = some ⟨a, k + 1⟩) : (H.split a k).NoFreeBuddies := by
  refine h.insert hwf (fun c hc => (split_free hwf hh).1 hc) fun hf => ?_
  rw [Block.buddy_upper (by omega) (hwf.tiling.aligned _ (hwf.held _ hh).1)] at hf
  exact hf.2.2 rfl

/-- In a state with the heap `H₁`, `n` turns of the merging loop lead to the heap `H`. -/
def MergesBack (L : Layout) (n a : Nat) (H₁ H : Heap) : Prop :=
  ∀ fuel (t : State), t.cpu.ifl = false → Rep L t H₁ →
    ∃ t', mergeUp (fuel + n) t a = mergeUp fuel t' a ∧ Next L H.used t t' H

theorem MergesBack.refl (L : Layout) (a : Nat) (H : Heap) : MergesBack L 0 a H H :=
  fun _ t _ hr => ⟨t, rfl, hr, Keeps.refl _ _, rfl, id⟩

theorem MergesBack.trans {n m a : Nat} {H₁ H₂ : Heap} (h₁ : MergesBack L n a H₂ H₁)
    (h₂ : MergesBack L m a H₁ H) (hu : H₁.used = H.used) : MergesBack L (m + n) a H₂ H := by
  intro fuel t hi hr
  obtain ⟨t1, heq1, hn1⟩ := h₁ (fuel + m) t hi hr
  obtain ⟨t2, heq2, hn2⟩ := h₂ fuel t1 (hn1.cpu ▸ hi) hn1.rep
  rw [hu] at hn1
  exact ⟨t2, by rw [← Nat.add_assoc, heq1, heq2], hn1.trans hn2⟩

/-- A merge undoes a split. -/
theorem MergesBack.split (hwf : H.WF) (hh : H.held = some ⟨a, k + 1⟩)
    (hl : H.lists k = []) : MergesBack L 1 a (H.split a k) H := by
  intro fuel t hi hr
  have hbud : (Block.lower a k).buddy 32 = a + size 32 k :=
    Block.buddy_lower (by omega) (hwf.tiling.aligned _ (hwf.held _ hh).1)
  have hfree : (H.split a k).Free ⟨(Block.lower a k).buddy 32, (Block.lower a k).cls⟩ := by
    refine (split_free hwf hh).2 (Or.inr ?_)
    rw [hbud]
    rfl
  have hlist : (H.split a k).lists k = [a + size 32 k] := by
    show update H.lists k (H.lists k ++ [a + size 32 k]) k = _
    rw [update_self, hl, List.nil_append]
  have hcond := (merge_cond_iff (b := .lower a k) hr rfl).2 ⟨Nat.le_of_lt_succ k.isLt, hfree⟩
  obtain ⟨a', ys, zs, t1, hcall, hx, hc, hn⟩ := merge_spec (k := k) hr rfl rfl hfree hi
  -- the lower half is held, so the joined block starts where it starts
  have ha : a' = a := by
    rcases hc.halves with ⟨h1, -⟩ | ⟨-, h2⟩
    · exact (congrArg Block.addr h1).symm
    · have h3 : (Block.lower a k).buddy 32 = a' := congrArg Block.addr h2
      have hpos := le_size k
      have h4 := congrArg Block.addr (hc.halves.resolve_left fun h => by
        have h5 : a = a' := congrArg Block.addr h.1
        omega).1
      simp only [Block.lower, Block.upper] at h4
      omega
  subst ha
  rw [hlist] at hx
  have hnil : ys ++ zs = H.lists k := by
    rw [hl]
    cases ys with
    | nil =>
      rw [List.nil_append] at hx
      rw [← (List.cons.inj hx).2]
      rfl
    | cons y ys => simp at hx
  rw [hnil, merge_split hwf hh] at hn
  have hcall' : FreeBlock.merge t a' = .ok (a', t1) := hcall
  refine ⟨t1, ?_, hn⟩
  rw [mergeUp]
  refine (if_pos hcond).trans ?_
  rw [hcall']
  rfl

theorem splitDown_spec {u a : Nat} :
    ∀ (i : Nat) {s : State} {H : Heap}, s.cpu.ifl = false → Rep L s H → i ≤ 6 → u ≤ i →
      H.held = some ⟨a, i⟩ → (∀ k : Fin 7, u ≤ k → k < i → H.lists k = []) → H.NoFreeBuddies →
      ∃ s' H', splitDown L u i a s = .ok (a, s') ∧ Next L H.used s s' H' ∧
        H'.held = some ⟨a, u⟩ ∧ H'.used = H.used ∧ H'.pages = H.pages ∧ H'.NoFreeBuddies ∧
        MergesBack L (i - u) a H' H := by
  intro i
  induction i with
  | zero =>
    intro s H hi hr _ hu hh _ hnb
    have hu0 : u = 0 := by omega
    subst hu0
    exact ⟨s, H, rfl, ⟨hr, Keeps.refl _ _, rfl, id⟩, hh, rfl, rfl, hnb, .refl L a H⟩
  | succ i ih =>
    intro s H hi hr hi6 hu hh hempty hnb
    unfold splitDown
    by_cases hgt : i + 1 > u
    · have hb := hr.wf.held _ hh
      have hsz : sizeno s.mem a = i + 1 := hr.sizeno_eq hb.1
      have hk : i < 7 := by omega
      have hlist : H.lists ⟨i, hk⟩ = [] :=
        hempty ⟨i, hk⟩ (by dsimp only; omega) (by dsimp only; omega)
      obtain ⟨s1, hs1, h1⟩ := split_spec (k := ⟨i, hk⟩) hr hh hi hlist
      rw [if_pos hgt, ASSERT_ok hsz, ok_bind, hs1, ok_bind]
      obtain ⟨s2, H2, hs2, h2, hh2, hu2, hp2, hnb2, hback⟩ := ih (h1.cpu ▸ hi) h1.rep (by omega)
        (by omega) rfl
        (fun k hk1 hk2 => by
          have hne : k ≠ ⟨i, hk⟩ := fun he => by
            rw [he] at hk2
            exact absurd hk2 (Nat.lt_irrefl _)
          unfold split
          dsimp only
          rw [update_of_ne hne]
          exact hempty k hk1 (by omega))
        (NoFreeBuddies_split hnb hr.wf hh)
      have hone : MergesBack L 1 a (H.split a ⟨i, hk⟩) H := .split hr.wf hh hlist
      have hturns : i + 1 - u = 1 + (i - u) := by omega
      exact ⟨s2, H2, hs2, h1.trans h2, hh2, hu2, hp2, hnb2, hturns ▸ hback.trans hone rfl⟩
    · have hui : u = i + 1 := by omega
      subst hui
      rw [if_neg hgt, Nat.sub_self]
      exact ⟨s, H, rfl, ⟨hr, Keeps.refl _ _, rfl, id⟩, hh, rfl, rfl, hnb, .refl L a H⟩

/-! ## `kmalloc` -/

/-- No free block is large enough: `u` is the class of `n`, and its list and all above it are empty. -/
structure Bare (H : Heap) (n u : Nat) : Prop where
  fit : LeastFit n u
  le : u ≤ 6
  empty : ∀ k : Fin 7, u ≤ k → H.lists k = []

/-- The block `kmalloc(n)` takes, and the pages afterwards, when `src` is the index
of the next temporary page. -/
inductive Picks (H : Heap) (n : Nat) (src : Option Nat) : Block → Finset Nat → Prop
  | listed {u a : Nat} {i : Fin 7} {l : List Nat} : LeastFit n u → u ≤ i →
      (∀ k : Fin 7, u ≤ k → k < i → H.lists k = []) → H.lists i = a :: l → Picks H n src ⟨a, u⟩ H.pages
  | page {u i : Nat} : src = some i → Bare H n u →
      Picks H n src ⟨(pageBlock i).addr, u⟩ (insert i H.pages)

theorem LeastFit.unique {n u v : Nat} (hu : LeastFit n u) (hv : LeastFit n v) : u = v := by
  have h1 := hu.fits
  have h2 := hv.fits
  rcases Nat.lt_trichotomy u v with h | h | h
  · have := hv.least u h
    omega
  · exact h
  · have := hu.least v h
    omega

theorem Bare.not_listed {n u v : Nat} {i : Fin 7} {l : List Nat} (hb : Bare H n u)
    (hv : LeastFit n v) (hvi : v ≤ i) (hl : H.lists i = a :: l) : False := by
  rw [hb.empty i (hb.fit.unique hv ▸ hvi)] at hl
  cases hl

/-- The heap and the next temporary page determine what `kmalloc` does. -/
theorem Picks.unique {b b' : Block} {P P' : Finset Nat}
    (h : Picks H n src b P) (h' : Picks H n src b' P') : b = b' ∧ P = P' := by
  cases h with
  | @listed u a i l hu hui hempty hl =>
    cases h' with
    | @listed v a' j l' hv hvj hempty' hl' =>
      obtain rfl := hu.unique hv
      obtain rfl : i = j := by
        rcases lt_trichotomy i j with hij | hij | hij
        · rw [hempty' i hui hij] at hl
          cases hl
        · exact hij
        · rw [hempty j hvj hij] at hl'
          cases hl'
      rw [hl] at hl'
      cases hl'
      exact ⟨rfl, rfl⟩
    | page hsrc hb => exact (hb.not_listed hu hui hl).elim
  | page hsrc hb =>
    cases h' with
    | listed hv hvj hempty hl => exact (hb.not_listed hv hvj hl).elim
    | page hsrc' hb' =>
      rw [hsrc] at hsrc'
      cases hsrc'
      exact ⟨by rw [hb.fit.unique hb'.fit], rfl⟩

theorem Picks.pages_none {b : Block} (h : Picks H n none b P) : P = H.pages := by
  cases h with
  | listed => rfl
  | page hsrc => cases hsrc

theorem Bare.no_room {n u : Nat} (hb : Bare H n u) (k : Fin 7) (hk : n + 4 ≤ size 32 k) : H.lists k = [] :=
  hb.empty k (not_lt.mp fun h => absurd (hb.fit.least k h) (by omega))

theorem Picks.room {n : Nat} {b : Block} (h : Picks H n none b P)
    (hno : ∀ k : Fin 7, n + 4 ≤ size 32 k → H.lists k = []) : False := by
  cases h with
  | listed hv hvi _ hl =>
    rw [hno _ (hv.fits.trans (Nat.le_of_dvd (size_pos (by decide) _) (size_dvd_size 32 hvi)))] at hl
    cases hl
  | page hsrc => cases hsrc

theorem Picks.not_bare {n u : Nat} {b : Block} (h : Picks H n none b P) (hb : Bare H n u) : False := h.room hb.no_room

theorem Picks.pages_of_bare {n u i : Nat} {b : Block} (h : Picks H n (some i) b P)
    (hb : Bare H n u) : P = insert i H.pages := by
  cases h with
  | listed hv hvi _ hl => exact (hb.not_listed hv hvi hl).elim
  | page hsrc =>
    cases hsrc
    rfl

/-- A call of `kfree(p)` leads from the heap `H'` back to `H`. -/
def Undoes (L : Layout) (p : Nat) (H' H : Heap) : Prop :=
  ∀ t, Settled L t H' → ∃ t', kfree L t p = .ok t' ∧ Settled L t' H ∧ (Clear t → Clear t')

/-- `kmalloc(n)` returned the user bytes of the new block `b`. -/
structure Allocated (L : Layout) (s : State) (H : Heap) (n : Nat) (src : Option Nat) (p : Nat)
    (s' : State) (b : Block) (H' : Heap) : Prop where
  settled : Settled L s' H'
  ptr : p = b.addr + 4
  fits : n + 4 ≤ size 32 b.cls
  fresh : b ∉ H.used
  used : H'.used = insert b H.used
  keeps : Keeps H.used s.mem s'.mem
  clear : Clear s → Clear s'
  picks : Picks H n src b H'.pages
  undoes : Undoes L p H' H

theorem Allocated.le {n p : Nat} {b : Block} {H' : Heap} (h : Allocated L s H n src p s' b H') : n ≤ 2044 := by
  have hcls := h.settled.rep.wf.used_cls (h.used ▸ mem_insert_self b _)
  have hsz : size 32 b.cls ≤ size 32 6 := Nat.mul_le_mul_left _ (Nat.pow_le_pow_right (by omega) hcls)
  have h6 : size 32 6 = 2048 := rfl
  have := h.fits
  omega

/-- The rest of `kmalloc` cut the held block down to `b`, in the heap `H₁`, and handed it out. -/
structure Finished (L : Layout) (s : State) (H : Heap) (turns p : Nat) (s' : State) (b : Block) (H₁ : Heap) : Prop where
  settled : Settled L s' (H₁.use b)
  ptr : p = b.addr + 4
  held : H₁.held = some b
  fresh : b ∉ H₁.used
  used : H₁.used = H.used
  pages : H₁.pages = H.pages
  keeps : Keeps H.used s.mem s'.mem
  clear : Clear s → Clear s'
  back : MergesBack L turns b.addr H₁ H

theorem finish_spec {u a i : Nat} (hr : Rep L s H) (hi : s.cpu.ifl = false)
    (hcli : 1 ≤ s.cpu.nCli) (hi6 : i ≤ 6) (hui : u ≤ i) (hh : H.held = some ⟨a, i⟩)
    (hempty : ∀ k : Fin 7, u ≤ k → k < i → H.lists k = []) (hnb : H.NoFreeBuddies) :
    ∃ p s' H₁, finish L u i a s = .ok (p, s') ∧ Finished L s H (i - u) p s' ⟨a, u⟩ H₁ := by
  have hb := hr.wf.bounds (hr.wf.held _ hh).1
  dsimp only at hb
  obtain ⟨s1, H1, hs1, h1, hh1, hu1, hp1, hnb1, hback⟩ := splitDown_spec i hi hr hi6 hui hh hempty hnb
  obtain ⟨s2, hs2, h2⟩ := setUsed_spec h1.rep hh1 (by dsimp only; omega)
  have hcpu2 : s2.cpu = s.cpu := h2.cpu.trans h1.cpu
  obtain ⟨c, hc, hnc⟩ := popif_ok (hcpu2 ▸ hcli)
  have haddr : FreeBlock.addr a = a + 4 := by
    unfold FreeBlock.addr add32
    omega
  refine ⟨a + 4, { s2 with cpu := c, locked := 0 }, H1, ?_, ?_⟩
  · unfold finish
    rw [ASSERT_ok (by omega), ok_bind, ASSERT_ok (hr.image.held _ hh), ok_bind, hs1,
      ok_bind]
    dsimp only at hs2 ⊢
    rw [hs2, ok_bind]
    unfold spinlockRelease
    rw [hc, haddr]
    rfl
  · refine ⟨⟨h2.rep.congr rfl rfl rfl, rfl, ?_, ?_⟩, rfl, hh1, (h1.rep.wf.held _ hh1).2, hu1, hp1,
      h1.keeps.trans (hu1 ▸ h2.keeps), h2.clear ∘ h1.clear, hback⟩
    · exact hnb1.mono fun c hc => (use_free hh1).1 hc
    · show 0 ≤ c.nCli
      rw [hnc, hcpu2]
      omega

/-- The loop of `kfree` stops when the buddy is not free. -/
theorem mergeUp_stop {b : Block} (hr : Rep L s H) (hh : H.held = some b)
    (hstop : ¬ (b.cls ≤ 6 ∧ H.Free ⟨b.buddy 32, b.cls⟩)) (fuel : Nat) :
    mergeUp (fuel + 1) s b.addr = .ok (b.addr, s) := by
  unfold mergeUp
  exact if_neg fun h => hstop ((merge_cond_iff hr hh).1 h)

/-- When the merges lead back to the heap `H₂`, where they stop at the block `d`,
and from there `d` goes back to where it was taken from. -/
theorem Finished.undoes {H₀ H₁ H₂ : Heap} {turns p : Nat} {b d : Block} {s₀ : State}
    (hf : Finished L s H turns p s' b H₁) {m : Nat} (hm : m ≤ 7) (hback : MergesBack L m b.addr H₁ H₂)
    (hs₀ : Settled L s₀ H₀) (hd : H₂.held = some d) (haddr : d.addr = b.addr)
    (hstop : ¬ (d.cls ≤ 6 ∧ H₂.Free ⟨d.buddy 32, d.cls⟩)) (hput : ∀ t, t.cpu.ifl = false → Rep L t H₂ →
      ∃ t', putBack L t d.addr = .ok t' ∧ Next L H₂.used t t' H₀) : Undoes L p (H₁.use b) H₀ := by
  intro t ht
  obtain ⟨t1, hi1, hr1, -, hc1, hrest⟩ := kfree_steps (b := b) ht (mem_insert_self b _)
  rw [unuse_use hf.held hf.fresh] at hr1
  obtain ⟨t2, heq, hn2⟩ := hback (LAST_SIZENO + 2 - m) t1 hi1 hr1
  have hfuel : LAST_SIZENO + 2 - m + m = LAST_SIZENO + 2 := Nat.sub_add_cancel (by unfold LAST_SIZENO; omega)
  obtain ⟨fuel, hfuel'⟩ : ∃ fuel, LAST_SIZENO + 2 - m = fuel + 1 := ⟨7 - m, by unfold LAST_SIZENO; omega⟩
  rw [hfuel, hfuel', ← haddr, mergeUp_stop hn2.rep hd hstop, haddr] at heq
  obtain ⟨t3, hput3, hn3⟩ := hput t2 (hn2.cpu ▸ hi1) hn2.rep
  rw [haddr] at hput3
  obtain ⟨c, hcall, hnc⟩ := hrest _ t2 t3 heq hput3 (hn3.cpu.trans hn2.cpu)
  exact ⟨{ t3 with cpu := c, locked := 0 }, hf.ptr ▸ hcall,
    ⟨hn3.rep.congr rfl rfl rfl, hs₀.held, hs₀.buddies, hnc⟩, hn3.clear ∘ hn2.clear ∘ hc1⟩

/-- What `tmp_page_alloc_map` may answer: nothing, or a page nobody holds. -/
def Unused (s : State) (src : Option TmpPage) : Prop :=
  ∀ p, src = some p → p.index < 1024 ∧ p.index ∉ s.tmpPages

theorem addPage_split_free {i : Nat} (hwf : H.WF) (hn : H.held = none)
    (hi : i ∉ H.pages) (hib : i < 1024) (hk : (pageBlock i) = ⟨a, k + 1⟩)
    (hnb : H.NoFreeBuddies) : ((H.addPage i).split a k).NoFreeBuddies :=
  NoFreeBuddies_split (hnb.mono fun _ hc => (addPage_free hwf hn hi).1 hc)
    (hwf.addPage hn hi hib) (congrArg some hk)

/-- The outcomes of `kmalloc`: too large, out of pages, or a block. -/
theorem kmalloc_spec {src : Option TmpPage} (hs : Settled L s H) (hsrc : Unused s src) :
    (2044 < n ∧ kmalloc L src s n = .ok (0, s)) ∨
    (src = none ∧ ∃ s' u, kmalloc L src s n = .ok (0, s') ∧ Settled L s' H ∧ s'.mem = s.mem ∧
      s'.pageHeaders = s.pageHeaders ∧ n ≤ 2044 ∧ Bare H n u) ∨
    ∃ p s' b H', kmalloc L src s n = .ok (p, s') ∧
      Allocated L s H n (src.map TmpPage.index) p s' b H' := by
  unfold kmalloc
  by_cases hbig : n > 2048 - 4
  · exact Or.inl ⟨hbig, if_pos hbig⟩
  right
  rw [if_neg hbig]
  unfold spinlockAcquire
  dsimp only
  have hr0 : Rep L { s with cpu := s.cpu.pushcli, locked := 1 } H := hs.rep.congr rfl rfl rfl
  have hcli0 : 1 ≤ s.cpu.pushcli.nCli := by
    have := hs.nCli
    unfold Cpu.pushcli
    dsimp only
    omega
  obtain ⟨r, hsearch, hfound⟩ := search_spec (n := n) hr0 hs.held (by omega) 7 0 none (by omega)
    (fun _ k hk => absurd hk (Nat.not_lt_zero k)) (fun u hu => by cases hu)
  have hrange : List.range (LAST_SIZENO + 1) = List.range' 0 7 := rfl
  rw [hrange, hsearch, ok_bind]
  cases hfound with
  | @nothing u hfit hu6 hempty =>
    have h7 : 7 = LAST_SIZENO + 1 := rfl
    have hbare : Bare H n u := ⟨hfit, hu6, hempty⟩
    dsimp only
    rw [if_pos h7]
    cases src with
    | none =>
      left
      have hsize : List2.size s.mem (L.list LAST_SIZENO) = 0 := by
        refine (size_eq_length hs.rep.image.lists 6).trans ?_
        rw [hempty 6 hu6]
        rfl
      unfold newPage
      rw [ASSERT_ok hsize, ok_bind, Cpu.assertIntDisable_ok rfl]
      exact ⟨rfl, _, u, rfl, ⟨hr0, hs.held, hs.buddies, by dsimp only; omega⟩, rfl, rfl, by omega,
        hbare⟩
    | some p =>
      right
      obtain ⟨hpi, hpn⟩ := hsrc p rfl
      have hpn' : p.index ∉ H.pages := hs.rep.pages ▸ hpn
      obtain ⟨k, hk⟩ : ∃ k : Fin 7, (k : Nat) = 6 := ⟨6, rfl⟩
      have hpb : pageBlock p.index = ⟨(pageBlock p.index).addr, k + 1⟩ := by
        rw [hk]
        rfl
      have hlk : H.lists k = [] := hempty k (by omega)
      obtain ⟨s1, hs1, h1⟩ := newPage_spec hr0 hs.held hk hlk rfl hpi hpn rfl
      rw [hs1, ok_bind]
      dsimp only
      have hheld : ((H.addPage p.index).split (pageBlock p.index).addr k).held =
          some ⟨(pageBlock p.index).addr, 6⟩ := by
        rw [← hk]
        rfl
      have hlist : ∀ j : Fin 7, u ≤ j → (j : Nat) < 6 →
          ((H.addPage p.index).split (pageBlock p.index).addr k).lists j = [] := by
        intro j hj1 hj2
        have hne : j ≠ k := fun he => by
          rw [he, hk] at hj2
          exact absurd hj2 (Nat.lt_irrefl _)
        unfold split
        dsimp only
        rw [update_of_ne hne]
        exact hempty j hj1
      obtain ⟨q, s2, H1, hs2, h2⟩ := finish_spec (u := u) h1.rep (h1.cpu ▸ rfl)
        (h1.cpu ▸ hcli0) (Nat.le_refl 6) hu6 hheld hlist
        (addPage_split_free hs.rep.wf hs.held hpn' hpi hpb hs.buddies)
      have hwf := hs.rep.wf.addPage hs.held hpn' hpi
      have hback : MergesBack L 1 (pageBlock p.index).addr _ (H.addPage p.index) :=
        .split hwf (congrArg some hpb) hlk
      have hundo : Undoes L q (H1.use _) H := h2.undoes (d := pageBlock p.index) (by omega)
        (h2.back.trans hback rfl) hs rfl rfl (fun h => absurd h.1 (show ¬ 7 ≤ 6 by decide))
        fun t hi hr => by
          have hput := putBack_page hr rfl (mem_insert_self _ _) hi
          rwa [dropPage_addPage hs.rep.wf hs.held hpn'] at hput
      have hused : H1.used = H.used := h2.used
      have hpages : (H1.use ⟨(pageBlock p.index).addr, u⟩).pages = insert p.index H.pages := h2.pages
      exact ⟨q, s2, _, _, hs2, h2.settled, h2.ptr, hfit.fits, hused ▸ h2.fresh, hused ▸ rfl,
        h1.keeps.trans h2.keeps, h2.clear ∘ h1.clear, hpages ▸ .page rfl hbare, hundo⟩
  | @block u a i l s1 hfit hui hempty hx h1 =>
    right
    dsimp only
    rw [if_neg (by unfold LAST_SIZENO; omega), Option.getD_some]
    have hnb1 : (H.take i a l).NoFreeBuddies :=
      hs.buddies.mono fun c hc => ((take_free hs.held).1 hc).1
    have hlist : ∀ j : Fin 7, u ≤ j → j < i → (H.take i a l).lists j = [] := by
      intro j hj1 hj2
      unfold take
      dsimp only
      rw [update_of_ne (Fin.ne_of_lt hj2)]
      exact hempty j hj1 hj2
    obtain ⟨q, s2, H1, hs2, h2⟩ := finish_spec (u := u) h1.rep (h1.cpu ▸ rfl)
      (h1.cpu ▸ hcli0) (by omega) hui rfl hlist hnb1
    have hundo : Undoes L q (H1.use _) H := h2.undoes (d := ⟨a, i⟩) (by omega) h2.back hs rfl rfl
      (fun h => hs.buddies ⟨a, i⟩ ((hs.rep.wf.lists i a).1 (hx ▸ List.mem_cons_self))
        ((take_free hs.held).1 h.2).1)
      fun t hi hr => by
        have hput := putBack_listed hr rfl
        have hl : (H.take i a l).lists i = l := update_self ..
        rwa [hl, put_take hs.held hx] at hput
    have hused : H1.used = H.used := h2.used
    have hpages : (H1.use ⟨a, u⟩).pages = H.pages := h2.pages
    exact ⟨q, s2, _, _, hs2, h2.settled, h2.ptr, hfit.fits, hused ▸ h2.fresh, hused ▸ rfl,
      h1.keeps.trans h2.keeps, h2.clear ∘ h1.clear, hpages ▸ .listed hfit hui hempty hx, hundo⟩

end MakarnaX.Kmalloc
