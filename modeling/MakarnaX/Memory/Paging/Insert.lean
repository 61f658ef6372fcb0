import MakarnaX.Memory.Paging.TmpPages

/-!
# `page_insert` maps one page

What `page_insert` should do, said without the page tables: the address maps the
frame, every other address maps what it did, the counts of the two frames involved
are adjusted and the counters of the directory still say how many pages it has.
It does so unless the frame is at the address already and has no other reference:
then `page_remove` puts it on the free list before the new reference is taken.

When a page table has to be made, the table itself becomes visible at a temporary
address that was free.
-/

namespace MakarnaX

open Function Finset Option Vm

open Library

/-- What `va` is mapped to. -/
def Vm.lookup (s : Vm) (d va : Nat) : Option PTE :=
  (pageGet s d va).bind fun e => if (s.pte e).present then some (s.pte e) else none

variable {S : Setup} {ty : Nat → PageType} {s s' : Vm} {L L' : Ledger Nat} {holds : Nat → Nat} {c : Cpu}
  {d va p f k t i j n N : Nat} {perm : Perm} {rest : List Nat} {I J : Finset Nat} {q : Phys} {r : Int}
  {X : Finset (Nat × Nat)} {v : PTE}

theorem Vm.lookup_congr {d' va' : Nat} (hget : pageGet s' d' va' = pageGet s d' va')
    (hpte : ∀ e, pageGet s d' va' = some e → s'.pte e = s.pte e) : s'.lookup d' va' = s.lookup d' va' := by
  unfold lookup
  rw [hget]
  cases he : pageGet s d' va' with
  | none => rfl
  | some e => rw [bind_some, bind_some, hpte e he]

theorem Vm.lookup_none (h : s.Absent d va) : s.lookup d va = none := by
  unfold lookup
  by_cases h0 : (s.dirs d).pgtables (pdx va) = 0
  · rw [pageGet_none h0]
    rfl
  · rw [pageGet_table h0, bind_some, h.resolve_left h0]
    rfl

/-! ## The counters -/

/-- The page of `d` with the indices `i` and `j` is present. -/
def Vm.PresentAt (s : Vm) (d i j : Nat) : Prop :=
  (s.dirs d).pgtables i ≠ 0 ∧ (s.pte ((s.dirs d).pgtables i, j)).present = true

instance (i j : Nat) : Decidable (s.PresentAt d i j) := inferInstanceAs (Decidable (_ ∧ _))

/-- The present pages of `d` in the directory entries `J`. -/
def pagesIn (s : Vm) (d : Nat) (J : Finset Nat) : Finset (Nat × Nat) :=
  (J ×ˢ range 1024).filter fun e => s.PresentAt d e.1 e.2

/-- The page tables of `d` in the directory entries `J`. -/
def tablesIn (s : Vm) (d : Nat) (J : Finset Nat) : Finset Nat := J.filter fun i => (s.dirs d).pgtables i ≠ 0

def userEntries (I : Finset Nat) : Finset Nat := I.filter (· < 768)

def kernelEntries (I : Finset Nat) : Finset Nat := I.filter (768 ≤ ·)

/-- The counters of `d` say how many pages and page tables there are in the entries `I`. -/
structure CountsAgree (s : Vm) (d : Nat) (I : Finset Nat) : Prop where
  user : (s.dirs d).countUser = (pagesIn s d (userEntries I)).card
  kernel : (s.dirs d).countKernel = (pagesIn s d (kernelEntries I)).card + (tablesIn s d I).card

/-- The entries of `d` that its counters cover: not those it shares with
`kernel_dir`, whose temporary pages are counted there. -/
structure Covers (S : Setup) (s : Vm) (d va : Nat) (I : Finset Nat) : Prop where
  sub : ∀ i ∈ I, i < 1024
  mem : pdx va ∈ I
  tmp : 832 ∈ I ↔ d = 0
  own : ∀ i ∈ I, i ≠ 832 → (s.dirs d).pgtables i ≠ S.tmpTable
  once : ∀ i ∈ I, ∀ j ∈ I, (s.dirs d).pgtables i = (s.dirs d).pgtables j → (s.dirs d).pgtables i ≠ 0 → i = j

theorem mem_pagesIn {e : Nat × Nat} :
    e ∈ pagesIn s d J ↔ (e.1 ∈ J ∧ e.2 < 1024) ∧ s.PresentAt d e.1 e.2 := by
  rw [pagesIn, mem_filter, mem_product, mem_range]

theorem card_pagesIn_le (h : ∀ i ∈ J, i < 1024) : (pagesIn s d J).card ≤ 2 ^ 20 := by
  have hJ : J.card ≤ 1024 := by
    have hsub : J ⊆ range 1024 := fun i hi => mem_range.mpr (h i hi)
    exact (card_le_card hsub).trans_eq (card_range 1024)
  have hprod : (J ×ˢ range 1024).card = J.card * 1024 :=
    (card_product ..).trans (congrArg (J.card * ·) (card_range 1024))
  have hle : (pagesIn s d J).card ≤ (J ×ˢ range 1024).card := card_filter_le ..
  rw [hprod] at hle
  omega

theorem card_tablesIn_le (h : ∀ i ∈ J, i < 1024) : (tablesIn s d J).card ≤ 1024 := by
  have hsub : tablesIn s d J ⊆ range 1024 := fun i hi => mem_range.mpr (h i (mem_filter.mp hi).1)
  have hcard := card_le_card hsub
  rwa [card_range] at hcard

/-- The pages `X` are new. -/
theorem card_pagesIn_add {I J : Finset Nat} (hJ : J ⊆ I)
    (h : ∀ i ∈ I, ∀ j < 1024, s'.PresentAt d i j ↔ s.PresentAt d i j ∨ (i, j) ∈ X)
    (hX : ∀ e ∈ X, e.2 < 1024 ∧ ¬ s.PresentAt d e.1 e.2) :
    (pagesIn s' d J).card = (pagesIn s d J).card + (X.filter (·.1 ∈ J)).card := by
  rw [← card_union_of_disjoint]
  · refine congrArg card (ext fun e => ?_)
    rw [mem_pagesIn, mem_union, mem_pagesIn, mem_filter]
    constructor
    · rintro ⟨⟨h1, h2⟩, h3⟩
      exact ((h _ (hJ h1) _ h2).mp h3).imp (fun h => ⟨⟨h1, h2⟩, h⟩) fun h => ⟨h, h1⟩
    · rintro (⟨⟨h1, h2⟩, h3⟩ | ⟨h1, h2⟩)
      · exact ⟨⟨h1, h2⟩, (h _ (hJ h1) _ h2).mpr (.inl h3)⟩
      · have hlt := (hX e h1).1
        exact ⟨⟨h2, hlt⟩, (h _ (hJ h2) _ hlt).mpr (.inr h1)⟩
  · refine disjoint_left.mpr fun e he he' => ?_
    exact (hX e (mem_filter.mp he').1).2 (mem_pagesIn.mp he).2

theorem userEntries_subset (I : Finset Nat) : userEntries I ⊆ I := filter_subset ..

theorem kernelEntries_subset (I : Finset Nat) : kernelEntries I ⊆ I := filter_subset ..

/-- The window of an address, by its directory entry. -/
theorem user_iff_pdx (va : Nat) : vaAddr va < MMAP_USER_TOP ↔ pdx va < 768 := by
  have h := ptx_lt va
  unfold vaAddr MMAP_USER_TOP
  omega

theorem mem_userEntries {i : Nat} (hi : i ∈ I) : i ∈ userEntries I ↔ i < 768 := by
  rw [userEntries, mem_filter]
  exact and_iff_right hi

theorem mem_kernelEntries {i : Nat} (hi : i ∈ I) : i ∈ kernelEntries I ↔ 768 ≤ i := by
  rw [kernelEntries, mem_filter]
  exact and_iff_right hi

theorem card_filter_singleton (e : Nat × Nat) (J : Finset Nat) :
    (({e} : Finset (Nat × Nat)).filter (·.1 ∈ J)).card = if e.1 ∈ J then 1 else 0 := by
  rw [filter_singleton]
  split <;> rfl

/-- The counters grow with the pages and page tables. -/
theorem CountsAgree.add (hc : CountsAgree s d I)
    (h : ∀ i ∈ I, ∀ j < 1024, s'.PresentAt d i j ↔ s.PresentAt d i j ∨ (i, j) ∈ X)
    (hX : ∀ e ∈ X, e.2 < 1024 ∧ ¬ s.PresentAt d e.1 e.2) (ht : (tablesIn s' d I).card = (tablesIn s d I).card + n)
    (hu : (s'.dirs d).countUser = (s.dirs d).countUser + (X.filter (·.1 ∈ userEntries I)).card)
    (hk : (s'.dirs d).countKernel = (s.dirs d).countKernel + (X.filter (·.1 ∈ kernelEntries I)).card + n) :
    CountsAgree s' d I := by
  have h1 := hc.user
  have h2 := hc.kernel
  refine ⟨?_, ?_⟩
  · rw [hu, card_pagesIn_add (userEntries_subset I) h hX]
    omega
  · rw [hk, card_pagesIn_add (kernelEntries_subset I) h hX, ht]
    omega

theorem CountsAgree.phys (hc : CountsAgree s d I) (q : Phys) : CountsAgree { s with phys := q } d I :=
  ⟨hc.user, hc.kernel⟩

/-- The counters are far from wrapping around. -/
theorem CountsAgree.small (hc : CountsAgree s d I) (hI : ∀ i ∈ I, i < 1024) :
    (s.dirs d).countUser ≤ 2 ^ 20 ∧ (s.dirs d).countKernel ≤ 2 ^ 20 + 1024 := by
  have h1 := hc.user
  have h2 := hc.kernel
  have h3 := card_pagesIn_le (s := s) (d := d) fun i hi => hI i (userEntries_subset I hi)
  have h4 := card_pagesIn_le (s := s) (d := d) fun i hi => hI i (kernelEntries_subset I hi)
  have h5 := card_tablesIn_le (s := s) (d := d) hI
  omega

theorem add32_one (h : n ≤ 2 ^ 21) : add32 n 1 = n + 1 := by
  unfold add32
  omega

theorem add32_sub32_one (h : n ≤ 2 ^ 21) : add32 (sub32 n 1) 1 = n := by
  unfold add32 sub32
  omega

/-! ### One page more -/

theorem Covers.entry_eq (C : Covers S s d va I) (hi : i ∈ I)
    (ht : (s.dirs d).pgtables i ≠ 0) : ((s.dirs d).pgtables i, j) = s.entry d va ↔ (i, j) = (pdx va, ptx va) := by
  constructor
  · intro h
    have hpdx := C.once i hi _ C.mem (congrArg Prod.fst h) ht
    have hptx : j = ptx va := congrArg Prod.snd h
    rw [hpdx, hptx]
  · intro h
    obtain ⟨rfl, rfl⟩ := Prod.mk.inj h
    rfl

theorem countAt_user (pd : PageDirInfo) (va : Nat) (g : Nat → Nat) :
    (pd.countAt va g).countUser = if pdx va < 768 then g pd.countUser else pd.countUser := by
  simp only [PageDirInfo.countAt, user_iff_pdx]

theorem countAt_kernel (pd : PageDirInfo) (va : Nat) (g : Nat → Nat) :
    (pd.countAt va g).countKernel = if 768 ≤ pdx va then g pd.countKernel else pd.countKernel := by
  simp only [PageDirInfo.countAt, user_iff_pdx]
  split <;> split <;> first | rfl | omega

theorem tablesIn_congr (h : ∀ i, (s'.dirs d).pgtables i = (s.dirs d).pgtables i) :
    tablesIn s' d I = tablesIn s d I := by
  unfold tablesIn
  simp only [h]

/-- A page is present where it was, but for the page of an entry that is written. -/
theorem Covers.presentAt (C : Covers S s d va I) (ht : (s.dirs d).pgtables (pdx va) ≠ 0)
    (hpg : ∀ i, (s'.dirs d).pgtables i = (s.dirs d).pgtables i)
    (hpte : ∀ e, s'.pte e = if e = s.entry d va then v else s.pte e) (hv : v.present = true) (hi : i ∈ I) :
    s'.PresentAt d i j ↔ s.PresentAt d i j ∨ (i, j) = (pdx va, ptx va) := by
  unfold Vm.PresentAt
  rw [hpg, hpte]
  by_cases h0 : (s.dirs d).pgtables i = 0
  · have hne : (i, j) ≠ (pdx va, ptx va) := fun h => by
      obtain ⟨rfl, -⟩ := Prod.mk.inj h
      exact ht h0
    simp [h0, hne]
  · by_cases he : (i, j) = (pdx va, ptx va)
    · rw [if_pos ((C.entry_eq hi h0).mpr he)]
      simp [he, hv, h0]
    · rw [if_neg fun h => he ((C.entry_eq hi h0).mp h)]
      simp [he]

theorem CountsAgree.map (C : Covers S s d va I) (hc : CountsAgree s d I)
    (ht : (s.dirs d).pgtables (pdx va) ≠ 0) (habs : (s.pte (s.entry d va)).present = false)
    (hperm : perm.getLsbD 0 = true) : CountsAgree (s.map d p va perm) d I := by
  obtain ⟨hu, hk⟩ := hc.small C.sub
  have hdir : (s.map d p va perm).dirs d = (s.dirs d).countAt va (add32 · 1) := (map_dirs d).trans (if_pos rfl)
  refine hc.add (X := {(pdx va, ptx va)}) (n := 0) (fun i hi j _ => ?_) (fun e he => ?_) ?_ ?_ ?_
  · rw [mem_singleton]
    exact C.presentAt ht (fun i => map_pgtables d i) (fun e => map_pte e) (ofAddr_present hperm) hi
  · obtain rfl := mem_singleton.mp he
    refine ⟨ptx_lt va, fun h => ?_⟩
    have hpres : (s.pte (s.entry d va)).present = true := h.2
    rw [habs] at hpres
    cases hpres
  · rw [tablesIn_congr fun i => map_pgtables d i, Nat.add_zero]
  · rw [hdir, countAt_user, card_filter_singleton]
    simp only [mem_userEntries C.mem]
    split
    · exact add32_one (by omega)
    · rfl
  · rw [hdir, countAt_kernel, card_filter_singleton]
    simp only [mem_kernelEntries C.mem]
    split
    · exact add32_one (by omega)
    · rfl

theorem CountsAgree.remap (C : Covers S s d va I) (hc : CountsAgree s d I) (hm : s.Maps d va f)
    (hperm : perm.getLsbD 0 = true) : CountsAgree ((s.unmap d va).map d p va perm) d I := by
  obtain ⟨hu, hk⟩ := hc.small C.sub
  have hpg : ∀ i, (((s.unmap d va).map d p va perm).dirs d).pgtables i = (s.dirs d).pgtables i := fun i =>
    (map_pgtables d i).trans (unmap_pgtables d i)
  have hpte : ∀ e, ((s.unmap d va).map d p va perm).pte e =
      if e = s.entry d va then .ofAddr (p * 0x1000) perm else s.pte e := fun e => by
    rw [map_pte, unmap_entry, unmap_pte]
    split <;> rfl
  have hdir : ((s.unmap d va).map d p va perm).dirs d =
      ((s.dirs d).countAt va (sub32 · 1)).countAt va (add32 · 1) := by
    rw [map_dirs, if_pos rfl, unmap_dirs, if_pos rfl]
  refine hc.add (X := ∅) (n := 0) (fun i hi j _ => ?_) (fun e he => absurd he (notMem_empty e)) ?_ ?_ ?_
  · rw [C.presentAt hm.table hpg hpte (ofAddr_present hperm) hi]
    constructor
    · rintro (h | h)
      · exact .inl h
      · obtain ⟨rfl, rfl⟩ := Prod.mk.inj h
        exact .inl ⟨hm.table, hm.present⟩
    · rintro (h | h)
      · exact .inl h
      · exact absurd h (notMem_empty _)
  · rw [tablesIn_congr hpg, Nat.add_zero]
  · rw [hdir, countAt_user, countAt_user, filter_empty]
    split
    · exact add32_sub32_one (by omega)
    · rfl
  · rw [hdir, countAt_kernel, countAt_kernel, filter_empty]
    split
    · exact add32_sub32_one (by omega)
    · rfl

/-! ### A page table more -/

section NewTable

variable {I : Finset Nat}

/-- The temporary address of a new page table is that of no other. -/
theorem Ready.fresh (R : Ready S ty s L holds c) (M : CanMap s L k t rest) {e i : Nat} (he : e < s.dirsNr) (hi : i < 1024) :
    (s.dirs e).pgtables i ≠ tmpKaddr k := fun h => by
  have hlive : tmpKaddr k ∈ liveTables S s :=
    mem_liveTables.mpr ⟨⟨e, i, he, hi, h⟩, tmpKaddr_ne_zero k, S.direct_slot k M.lt⟩
  have hbit := M.bit
  rw [R.owned.taken k M.lt hlive] at hbit
  cases hbit

theorem Covers.withTable (C : Covers S s d va I) (R : Ready S ty s L holds c) (hd : d < s.dirsNr) (M : CanMap s L k t rest) :
    Covers S (s.withTable d va k t) d va I := by
  refine ⟨C.sub, C.mem, C.tmp, fun i hi h832 => ?_, fun i hi j hj => ?_⟩
  · rw [withTable_pgtables]
    split
    · exact S.tmpTable_slot k M.lt
    · exact C.own i hi h832
  · have hfi := R.fresh M hd (C.sub i hi)
    have hfj := R.fresh M hd (C.sub j hj)
    simp only [withTable_pgtables, true_and]
    split <;> split
    · next h1 h2 => exact fun _ _ => h1.trans h2.symm
    · exact fun h => absurd h.symm hfj
    · exact fun h => absurd h hfi
    · exact C.once i hi j hj

theorem Vm.mapTmp_dirs (e : Nat) :
    (s.mapTmp k t perm).dirs e = if e = 0 then (s.dirs 0).countAt (tmpVa k) (add32 · 1) else s.dirs e :=
  map_dirs (s := { s with tmpPages := s.tmpPages.set k }) e

theorem Vm.withTable_counts :
    ((s.withTable d va k t).dirs d).countUser = ((s.mapTmp k t (PTE_P ||| PTE_W)).dirs d).countUser ∧
      ((s.withTable d va k t).dirs d).countKernel =
        add32 ((s.mapTmp k t (PTE_P ||| PTE_W)).dirs d).countKernel 1 := by
  unfold withTable setTable setDir
  simp

/-- The pages of `d` after a page table was made: only `kernel_dir` has one more,
the page table itself. -/
theorem Covers.presentAt_withTable (C : Covers S s d va I) (R : Ready S ty s L holds c) (hd : d < s.dirsNr)
    (h0 : (s.dirs d).pgtables (pdx va) = 0) (M : CanMap s L k t rest) (hi : i ∈ I) :
    (s.withTable d va k t).PresentAt d i j ↔ s.PresentAt d i j ∨ (i, j) ∈ if d = 0 then {(832, k)} else (∅ : Finset (Nat × Nat)) := by
  have htab := R.owned.tmpTable
  have hX : (i, j) ∈ (if d = 0 then {(832, k)} else (∅ : Finset (Nat × Nat))) ↔ d = 0 ∧ (i, j) = (832, k) := by
    split
    · next h => simp [h]
    · next h => simp [h]
  rw [hX]
  unfold Vm.PresentAt
  by_cases hiv : i = pdx va
  · subst hiv
    have hpg : ((s.withTable d va k t).dirs d).pgtables (pdx va) = tmpKaddr k := by
      rw [withTable_pgtables, if_pos ⟨rfl, rfl⟩]
    have habs : ((s.withTable d va k t).pte (tmpKaddr k, j)).present = false := by
      rw [withTable_pte_new]
      rfl
    rw [hpg, habs, h0]
    simp only [Bool.false_eq_true, and_false, ne_eq, not_true_eq_false, false_and, false_or, false_iff, not_and]
    intro hd0 he
    rw [hd0, (Prod.mk.inj he).1, htab] at h0
    exact S.tmpTable_ne h0
  · have hpg : ((s.withTable d va k t).dirs d).pgtables i = (s.dirs d).pgtables i := by
      rw [withTable_pgtables, if_neg fun h => hiv h.2]
    rw [hpg, R.withTable_pte _ _ _ M.lt, if_neg (R.fresh M hd (C.sub i hi))]
    by_cases he : ((s.dirs d).pgtables i, j) = (S.tmpTable, k)
    · obtain ⟨hti, rfl⟩ := Prod.mk.inj he
      have h832 : i = 832 := by
        by_contra hne
        exact C.own i hi hne hti
      have hd0 : d = 0 := C.tmp.mp (h832 ▸ hi)
      rw [if_pos he, hti]
      simp [S.tmpTable_ne, ofAddr_present perm_PW, hd0, h832]
    · rw [if_neg he]
      refine ⟨.inl, fun h => h.resolve_right fun ⟨hd0, hij⟩ => he ?_⟩
      obtain ⟨rfl, rfl⟩ := Prod.mk.inj hij
      rw [hd0, htab]

theorem CountsAgree.withTable (C : Covers S s d va I) (hc : CountsAgree s d I) (R : Ready S ty s L holds c)
    (hd : d < s.dirsNr) (h0 : (s.dirs d).pgtables (pdx va) = 0) (M : CanMap s L k t rest) :
    CountsAgree (s.withTable d va k t) d I := by
  obtain ⟨hu, hk⟩ := hc.small C.sub
  obtain ⟨hcu, hck⟩ := withTable_counts (s := s) (d := d) (k := k) (t := t)
  refine hc.add (X := if d = 0 then {(832, k)} else ∅) (n := 1)
    (fun i hi j _ => C.presentAt_withTable R hd h0 M hi) (fun e he => ?_) ?_ ?_ ?_
  · split at he
    · next hd0 =>
      obtain rfl := mem_singleton.mp he
      refine ⟨M.lt, fun h => ?_⟩
      have hpres : (s.tables ((s.dirs d).pgtables 832) k).present = true := h.2
      rw [hd0, M.clear] at hpres
      cases hpres
    · exact absurd he (notMem_empty e)
  · have hins : tablesIn (s.withTable d va k t) d I = insert (pdx va) (tablesIn s d I) := by
      ext i
      rw [mem_insert, tablesIn, tablesIn, mem_filter, mem_filter, withTable_pgtables]
      by_cases hiv : i = pdx va
      · simp [hiv, C.mem, tmpKaddr_ne_zero]
      · simp [hiv]
    rw [hins, card_insert_of_notMem]
    rw [tablesIn, mem_filter, not_and_not_right]
    exact fun _ => h0
  · rw [hcu, mapTmp_dirs]
    split
    · next hd0 =>
      have h832 := C.tmp.mpr hd0
      rw [countAt_user, pdx_tmpVa M.lt, if_neg (by decide), card_filter_singleton]
      simp only [mem_userEntries h832, hd0]
      rfl
    · rfl
  · rw [hck, mapTmp_dirs]
    split
    · next hd0 =>
      have h832 := C.tmp.mpr hd0
      rw [hd0] at hk ⊢
      rw [countAt_kernel, pdx_tmpVa M.lt, if_pos (by decide), card_filter_singleton]
      simp only [mem_kernelEntries h832]
      have h1 : add32 (s.dirs 0).countKernel 1 = (s.dirs 0).countKernel + 1 := add32_one (by omega)
      rw [if_pos (by decide), h1, add32_one (by omega)]
    · exact add32_one (by omega)

end NewTable

/-! ## What a call does -/

/-- `page_insert` mapped the frame `p` at `va`. -/
structure MapsOnePage (S : Setup) (s s' : Vm) (d p va : Nat) (perm : Perm) : Prop where
  maps : s'.lookup d va = some (.ofAddr (p * 0x1000) perm)
  /-- The temporary addresses that were free are left out: a new page table is mapped at one of them. -/
  others : ∀ d' va', d' < s.dirsNr → pageGet s' d' va' ≠ pageGet s' d va →
    (∀ k < 1024, s.tmpPages.test k = false → pageGet s' d' va' ≠ some (S.tmpTable, k)) →
    s'.lookup d' va' = s.lookup d' va'
  frame : (s'.phys.pages p).refcountGet = (s.phys.pages p).refcountGet +
    if (s.lookup d va).map PTE.physPgno = some p then 0 else 1
  old : ∀ f, f ≠ p → s.Maps d va f → (s'.phys.pages f).refcountGet + 1 = (s.phys.pages f).refcountGet
  counts : ∀ I, Covers S s d va I → CountsAgree s d I → CountsAgree s' d I

theorem Phys.Account.refcountGet (A : q.Account N ty L c) (f : Nat) :
    (q.pages f).refcountGet = L.refs f := by
  by_cases hf : f ∈ L.free
  · rw [Page.refcountGet, (A.rep.free f).mpr hf, if_pos rfl, L.unreferenced f hf]
  · rw [Page.refcountGet, A.free_eq_false hf, if_neg Bool.false_ne_true, A.rep.refs f hf]

theorem Vm.lookup_of_pte (ht : (s.dirs d).pgtables (pdx va) ≠ 0) (hpte : s.pte (s.entry d va) = v)
    (hv : v.present = true) : s.lookup d va = some v := by
  rw [lookup, pageGet_table ht, bind_some, hpte, if_pos hv]

theorem Vm.Maps.lookup (h : s.Maps d va f) : (s.lookup d va).map PTE.physPgno = some f := by
  rw [lookup_of_pte h.table rfl h.present, map_some, h.frame]

theorem Vm.Absent.not_maps (h : s.Absent d va) : ¬ s.Maps d va f := fun hm => by
  rcases h with h | h
  · exact hm.table h
  · have := hm.present
    rw [h] at this
    cases this

theorem Vm.absent_or_maps (s : Vm) (d va : Nat) : s.Absent d va ∨ ∃ f, s.Maps d va f := by
  by_cases ht : (s.dirs d).pgtables (pdx va) = 0
  · exact .inl (.inl ht)
  · cases hp : (s.pte (s.entry d va)).present with
    | false => exact .inl (.inr hp)
    | true => exact .inr ⟨_, ht, hp, rfl⟩

/-- When the page tables stay and one entry is written, the other addresses are mapped as before. -/
theorem lookup_others (ht : (s.dirs d).pgtables (pdx va) ≠ 0)
    (hpg : ∀ e i, (s'.dirs e).pgtables i = (s.dirs e).pgtables i)
    (hpte : ∀ e, s'.pte e = if e = s.entry d va then v else s.pte e) {d' va' : Nat}
    (hne : pageGet s' d' va' ≠ pageGet s' d va) : s'.lookup d' va' = s.lookup d' va' := by
  have hget : ∀ e w, pageGet s' e w = pageGet s e w := fun e w => by
    unfold pageGet
    rw [hpg]
  rw [hget, hget, pageGet_table ht] at hne
  refine lookup_congr (hget d' va') fun e he => ?_
  rw [hpte, if_neg fun h => hne (he.trans (congrArg some h))]

theorem mapsOnePage_absent (A : s.phys.Account S.pagesNr ty L c)
    (ht : (s.dirs d).pgtables (pdx va) ≠ 0) (habs : (s.pte (s.entry d va)).present = false) (hperm : perm.getLsbD 0 = true)
    (Sh : Sharable L p) (Aq : q.Account S.pagesNr ty (L.setRefs p (L.refs p + 1) Sh.notMem) c) :
    MapsOnePage S s { s.map d p va perm with phys := q } d p va perm := by
  have hAbs : s.Absent d va := .inr habs
  refine ⟨?_, fun d' va' _ hne _ => ?_, ?_, fun f _ hm => absurd hm hAbs.not_maps, fun I C hc => ?_⟩
  · refine lookup_of_pte (s := { s.map d p va perm with phys := q }) ?_ ?_ (ofAddr_present hperm)
    · rw [map_pgtables]
      exact ht
    · exact (map_pte _).trans (if_pos (map_entry d va))
  · exact lookup_others ht (fun e i => map_pgtables e i)
      (fun e => map_pte e) hne
  · rw [A.refcountGet, Aq.refcountGet, lookup_none hAbs, if_neg (by simp)]
    exact update_self ..
  · exact (hc.map C ht habs hperm).phys q

theorem mapsOnePage_maps (A : s.phys.Account S.pagesNr ty L c) (hm : s.Maps d va f) (hperm : perm.getLsbD 0 = true)
    (hf : f ∉ L.free) (hpos : 0 < L.refs f) (Sh : Sharable (L.drop f hf) p)
    (Aq : q.Account S.pagesNr ty ((L.drop f hf).setRefs p ((L.drop f hf).refs p + 1) Sh.notMem) c) :
    MapsOnePage S s { (s.unmap d va).map d p va perm with phys := q } d p va perm := by
  let s' : Vm := { (s.unmap d va).map d p va perm with phys := q }
  change MapsOnePage S s s' d p va perm
  have hpg : ∀ e i, (s'.dirs e).pgtables i = (s.dirs e).pgtables i := fun e i =>
    (map_pgtables e i).trans (unmap_pgtables e i)
  have hpte : ∀ e, s'.pte e = if e = s.entry d va then .ofAddr (p * 0x1000) perm else s.pte e := fun e => by
    refine (map_pte e).trans ?_
    rw [unmap_entry, unmap_pte]
    split <;> rfl
  have hent : s'.entry d va = s.entry d va := congrArg (·, ptx va) (hpg d (pdx va))
  refine ⟨?_, fun d' va' _ hne _ => lookup_others hm.table hpg hpte hne, ?_, fun g hgp hmg => ?_, fun I C hc => ?_⟩
  · refine lookup_of_pte (s := s') ?_ ?_ (ofAddr_present hperm)
    · rw [hpg]
      exact hm.table
    · rw [hpte, hent, if_pos rfl]
  · rw [A.refcountGet, Aq.refcountGet, hm.lookup]
    have hnew : ((L.drop f hf).setRefs p ((L.drop f hf).refs p + 1) Sh.notMem).refs p = (L.drop f hf).refs p + 1 :=
      update_self ..
    rw [hnew]
    by_cases hfp : f = p
    · subst hfp
      have hdrop : (L.drop f hf).refs f = L.refs f - 1 := update_self ..
      rw [if_pos rfl, hdrop]
      omega
    · have hdrop : (L.drop f hf).refs p = L.refs p := update_of_ne (Ne.symm hfp) ..
      rw [if_neg fun h => hfp (some.inj h), hdrop]
  · obtain rfl : g = f := hmg.frame.symm.trans hm.frame
    have hdrop : (L.drop g hf).refs g = L.refs g - 1 := update_self ..
    have hnew : ((L.drop g hf).setRefs p ((L.drop g hf).refs p + 1) Sh.notMem).refs g = (L.drop g hf).refs g :=
      update_of_ne hgp ..
    rw [A.refcountGet, Aq.refcountGet, hnew, hdrop]
    omega
  · exact (hc.remap C hm hperm).phys q

theorem mapsOnePage_newTable (R : Ready S ty s L holds c) (hd : d < s.dirsNr)
    (h0 : (s.dirs d).pgtables (pdx va) = 0) (hperm : perm.getLsbD 0 = true) (M : CanMap s L k t rest) (hp : p ∉ L.free)
    (Sh : Sharable M.ledger p) (Aq : q.Account S.pagesNr ty (M.ledger.setRefs p (M.ledger.refs p + 1) Sh.notMem) c) :
    MapsOnePage S s { (s.withTable d va k t).map d p va perm with phys := q } d p va perm := by
  let s' : Vm := { (s.withTable d va k t).map d p va perm with phys := q }
  change MapsOnePage S s s' d p va perm
  have hAbs : s.Absent d va := .inl h0
  have hpg : ∀ e i, (s'.dirs e).pgtables i =
      if e = d ∧ i = pdx va then tmpKaddr k else (s.dirs e).pgtables i := fun e i =>
    (map_pgtables e i).trans (withTable_pgtables e i)
  have hent : s'.entry d va = (tmpKaddr k, ptx va) := (map_entry d va).trans withTable_entry
  have hpte : ∀ e, s'.pte e =
      if e = (tmpKaddr k, ptx va) then .ofAddr (p * 0x1000) perm else (s.withTable d va k t).pte e := fun e => by
    refine (map_pte e).trans ?_
    rw [withTable_entry]
  have ht : (s'.dirs d).pgtables (pdx va) ≠ 0 := by
    rw [hpg, if_pos ⟨rfl, rfl⟩]
    exact tmpKaddr_ne_zero k
  refine ⟨?_, fun d' va' hd' hne hslot => ?_, ?_, fun f _ hm => absurd hm hAbs.not_maps, fun I C hc => ?_⟩
  · refine lookup_of_pte ht ?_ (ofAddr_present hperm)
    rw [hpte, hent, if_pos rfl]
  · rw [pageGet_table ht, hent] at hne
    by_cases hnew : d' = d ∧ pdx va' = pdx va
    · -- an address of the new page table
      have htab : (s'.dirs d').pgtables (pdx va') = tmpKaddr k := by rw [hpg, if_pos hnew]
      have hget := pageGet_table (s := s') (d := d') (by rw [htab]; exact tmpKaddr_ne_zero k)
      have hentry : s'.entry d' va' = (tmpKaddr k, ptx va') := by rw [entry, htab]
      rw [hentry] at hget
      rw [hget] at hne
      have hwas : s.Absent d' va' := .inl (by rw [hnew.1, hnew.2]; exact h0)
      rw [lookup_none hwas, lookup, hget, bind_some, hpte, if_neg fun h => hne (congrArg some h),
        withTable_pte_new]
      rfl
    · have hget : pageGet s' d' va' = pageGet s d' va' := by
        unfold pageGet
        rw [hpg, if_neg hnew]
      refine lookup_congr hget fun e he => ?_
      have hfst : e.1 ≠ tmpKaddr k := by
        have hpgt : (s.dirs d').pgtables (pdx va') = e.1 := by
          unfold pageGet at he
          split at he
          · cases he
          · exact congrArg Prod.fst (some.inj he)
        rw [← hpgt]
        exact R.fresh M hd' (pdx_lt va')
      have hne' : e ≠ (S.tmpTable, k) := fun h => hslot k M.lt M.bit (hget.trans (he.trans (congrArg some h)))
      rw [hpte, if_neg fun h => hfst (congrArg Prod.fst h), R.withTable_pte _ _ _ M.lt, if_neg hfst, if_neg hne']
  · have hpt : p ≠ t := fun h => hp (h ▸ M.free ▸ List.mem_cons_self)
    have hrefs : M.ledger.refs p = L.refs p := update_of_ne hpt ..
    have hnew : (M.ledger.setRefs p (M.ledger.refs p + 1) Sh.notMem).refs p = M.ledger.refs p + 1 :=
      update_self ..
    rw [R.account.refcountGet, Aq.refcountGet, hnew, hrefs, lookup_none hAbs, if_neg (by simp)]
  · have hpte₁ : ((s.withTable d va k t).pte ((s.withTable d va k t).entry d va)).present = false := by
      rw [withTable_entry, withTable_pte_new]
      rfl
    have ht₁ : ((s.withTable d va k t).dirs d).pgtables (pdx va) ≠ 0 := by
      rw [withTable_pgtables, if_pos ⟨rfl, rfl⟩]
      exact tmpKaddr_ne_zero k
    exact ((hc.withTable C R hd h0 M).map (C.withTable R hd M) ht₁ hpte₁ hperm).phys q

/-! ## When it does so -/

/-- `page_insert` returns, and maps one page or fails and changes nothing. -/
def InsertsOnePage (S : Setup) (s : Vm) (d p va : Nat) (perm : Perm) : Prop :=
  ∃ r s', pageInsert d p va perm s = .ok (r, s') ∧ (0 ≤ r → MapsOnePage S s s' d p va perm) ∧
    (r < 0 → r = -ENOMEM ∧ ∃ q, s' = { s with phys := q } ∧ q.pages = s.phys.pages ∧ q.freePageList = s.phys.freePageList)

/-- There is no page table for `va` and none can be made. -/
def NoTable (s : Vm) (d va : Nat) : Prop :=
  (s.dirs d).pgtables (pdx va) = 0 ∧
    (s.tmpPages.findFirstZero (TMP_PAGE_COUNT / 32 * 4) = none ∨ s.phys.freePageList.beginPage = none)

structure CanInsert (s : Vm) (d p va : Nat) : Prop where
  /-- The frame at `va` can give up a reference, and `p` keeps one if it is that frame. -/
  old : ∀ f, s.Maps d va f → f ≠ 0 ∧ (s.phys.pages f).free = false ∧
    ((s.phys.pages f).refcountGet = 1 → (s.phys.pages f).type = .available ∧ f ≠ p)
  room : s.Maps d va p ∨ (s.phys.pages p).refcountGet + 1 < 2 ^ 20 ∨ NoTable s d va

theorem Ready.noTable_iff (R : Ready S ty s L holds c) (h0 : (s.dirs d).pgtables (pdx va) = 0) :
    NoTable s d va ↔ Exhausted s L := by
  unfold NoTable Exhausted
  rw [R.account.rep.first, List.head?_eq_none_iff]
  exact and_iff_right h0

theorem Ready.notMem_free (R : Ready S ty s L holds c) (h : (s.phys.pages p).free = false) : p ∉ L.free := fun hp => by
  rw [(R.account.rep.free p).mpr hp] at h
  cases h

/-- The condition is enough. -/
theorem Ready.insertsOnePage (R : Ready S ty s L holds c) (hd : d < s.dirsNr) (hva : vaAddr va < MMAP_KERNEL_TOP)
    (hperm : perm.getLsbD 0 = true) (hp : p ∉ L.free)
    (hcounted : ∀ f, s.Maps d va f → f < S.pagesNr ∧ 0 < L.refs f) (hcan : CanInsert s d p va) :
    InsertsOnePage S s d p va perm := by
  have hrc := R.account.refcountGet
  have hroom : ¬ s.Maps d va p → ¬ NoTable s d va → L.refs p + 1 < 2 ^ 20 := fun h1 h2 =>
    hrc p ▸ (hcan.room.resolve_left h1).resolve_right h2
  rcases s.absent_or_maps d va with habs | ⟨f, hm⟩
  · have hnot : ¬ s.Maps d va p := habs.not_maps
    by_cases h0 : (s.dirs d).pgtables (pdx va) = 0
    · by_cases hex : Exhausted s L
      · obtain ⟨q, hcall, -, hpages, hlist⟩ := pageInsert_exhausted (p := p) R.account R.sane h0 hex
        exact ⟨_, _, hcall, fun h => absurd h (by decide), fun _ => ⟨rfl, q, rfl, hpages, hlist⟩⟩
      · obtain ⟨k, t, rest, M⟩ := R.canMap hex
        have hpt : p ≠ t := fun h => hp (h ▸ M.free ▸ List.mem_cons_self)
        have hrefs : M.ledger.refs p = L.refs p := update_of_ne hpt ..
        have hsmall := hroom hnot fun h => hex ((R.noTable_iff h0).mp h)
        have Sh : Sharable M.ledger p :=
          ⟨fun h => hp (M.free ▸ List.mem_cons_of_mem _ h), by rw [hrefs]; exact hsmall⟩
        obtain ⟨q, hcall, Aq⟩ := pageInsert_newTable R.account R.sane hva h0 M Sh
        exact ⟨_, _, hcall, fun _ => mapsOnePage_newTable R hd h0 hperm M hp Sh Aq, fun h => by omega⟩
    · have hpres := habs.resolve_left h0
      have Sh : Sharable L p := ⟨hp, hroom hnot fun h => h0 h.1⟩
      obtain ⟨q, hcall, Aq⟩ := pageInsertWith_absent R.account R.sane hva h0 hpres Sh
      exact ⟨_, _, hcall, fun _ => mapsOnePage_absent R.account h0 hpres hperm Sh Aq, fun h => by omega⟩
  · obtain ⟨hlt, hpos⟩ := hcounted f hm
    obtain ⟨hne, hfree, hlast⟩ := hcan.old f hm
    rw [hrc] at hlast
    have hf := R.notMem_free hfree
    have D : Droppable S.pagesNr ty L f := ⟨hlt, hne, hf, hpos, fun h => R.account.types f ▸ (hlast h).1⟩
    have Sh : Sharable (L.drop f hf) p := by
      refine ⟨fun h => ?_, ?_⟩
      · by_cases h1 : L.refs f = 1
        · have hdrop : (L.drop f hf).free = L.free ++ [f] := if_pos h1
          rw [hdrop] at h
          rcases List.mem_append.mp h with h | h
          · exact hp h
          · exact (hlast h1).2 (List.mem_singleton.mp h).symm
        · have hdrop : (L.drop f hf).free = L.free := if_neg h1
          exact hp (hdrop ▸ h)
      · by_cases hfp : p = f
        · subst hfp
          have hdrop : (L.drop p hf).refs p = L.refs p - 1 := update_self ..
          have hsmall := R.account.rep.small p
          omega
        · have hdrop : (L.drop f hf).refs p = L.refs p := update_of_ne hfp ..
          rw [hdrop]
          exact hroom (fun h => hfp (h.frame.symm.trans hm.frame)) fun h => hm.table h.1
    obtain ⟨q, hcall, Aq⟩ := pageInsertWith_maps R.account R.sane hva hm D Sh
    exact ⟨_, _, hcall, fun _ => mapsOnePage_maps R.account hm hperm hf hpos Sh Aq, fun h => by omega⟩

/-! ### The condition is needed -/

/-- `refcount_dec` returned, so the frame could give up a reference. -/
theorem Phys.Account.of_refcountDec {q q' : Phys} (A : q.Account N ty L c)
    (h : MakarnaX.refcountDec f q = .ok (r, q')) : f ≠ 0 ∧ f ∉ L.free ∧ (L.refs f = 1 → ty f = .available) := by
  simp [MakarnaX.refcountDec, ASSERT] at h
  obtain ⟨hfree, hf0, -, h⟩ := h
  have hfL := A.rep.notMem_of_not_free hfree
  refine ⟨hf0, hfL, fun hlast => ?_⟩
  have hdec : ((q.pages f).nextFreeIndexOrRefCount + 1048575) % 1048576 = 0 := by
    rw [A.rep.refs f hfL, hlast]
  rw [hdec] at h
  have htype : ((({ q with cpu := q.cpu.pushcli } : Phys).setNext f 0).pages f).type = ty f :=
    (Phys.setNext_type ..).trans (A.types f)
  generalize hq1 : ({ q with cpu := q.cpu.pushcli } : Phys).setNext f 0 = q1 at h htype
  have hrc : (q1.pages f).refcountGet = 0 := by
    rw [← hq1]
    simp [Page.refcountGet, Phys.setNext]
  rw [if_pos hrc] at h
  simp at h
  obtain ⟨_, q2, hpf, -⟩ := h
  simp [MakarnaX.pageFree, ASSERT] at hpf
  exact htype.symm.trans hpf.2.1

/-- The counters know the window of the address. -/
theorem count_window {g : Nat → Nat} (h : count d va g s = .ok ((), s')) : vaAddr va < MMAP_KERNEL_TOP := by
  unfold count at h
  split at h
  · next hu => exact hu.2.trans (by decide)
  · split at h
    · next hk => exact hk.2
    · cases h

/-- `page_remove` returned, so the frame could give up a reference. -/
theorem pageRemove_old (A : s.phys.Account S.pagesNr ty L c) (hc : c.Sane) (hm : s.Maps d va f)
    (h : pageRemove d va s = .ok (r, s')) :
    vaAddr va < MMAP_KERNEL_TOP ∧ f ≠ 0 ∧ f ∉ L.free ∧ (L.refs f = 1 → ty f = .available) := by
  have hpres : (s.entered.pte (s.entered.entry d va)).present = true := hm.present
  have haddr : (s.entered.pte (s.entered.entry d va)).physAddr = f * 0x1000 := congrArg (· * 0x1000) hm.frame
  have hidx : pageIndex (f * 0x1000) = f := Nat.mul_div_cancel f (by decide)
  unfold pageRemove at h
  rw [bind_run pushcli_apply, get_run, pageGet_table (s := s.entered) hm.table] at h
  dsimp only at h
  rw [if_pos hpres, haddr, bind_apply_ok] at h
  obtain ⟨rc, s1, hdec, h⟩ := h
  obtain ⟨q, hq, -⟩ := onPhys_ok.mp hdec
  simp [pageDecRefCount, ASSERT, hidx] at hq
  rw [modify_run, bind_apply_ok] at h
  obtain ⟨_, s2, hcount, -⟩ := h
  exact ⟨count_window hcount, (A.pushcli hc).of_refcountDec hq.2.2⟩

/-- `refcount_inc` returned, so there was room for a reference. -/
theorem Phys.Account.of_refcountInc {q q' : Phys} (A : q.Account N ty L c)
    (h : MakarnaX.refcountInc p q = .ok (r, q')) : p ∉ L.free ∧ L.refs p + 1 < 2 ^ 20 := by
  obtain ⟨hp, -, R⟩ := refcountInc_spec A.rep h
  have hsmall := R.small p
  have hnew : (L.setRefs p (L.refs p + 1) hp).refs p = L.refs p + 1 := update_self ..
  rw [hnew] at hsmall
  exact ⟨hp, hsmall⟩

/-- The condition is needed. -/
theorem Ready.canInsert (R : Ready S ty s L holds c) (hva : vaAddr va < MMAP_KERNEL_TOP)
    (hcounted : ∀ f, s.Maps d va f → f < S.pagesNr ∧ 0 < L.refs f)
    (h : pageInsert d p va perm s = .ok (r, s')) : CanInsert s d p va := by
  have hrc := R.account.refcountGet
  have A₀ := R.account.entered R.sane
  unfold pageInsert pageInsertWith at h
  rw [bind_run pushcli_apply] at h
  rcases s.absent_or_maps d va with habs | ⟨f, hm⟩
  · refine ⟨fun f hm => absurd hm habs.not_maps, .inr ?_⟩
    rw [hrc]
    by_cases h0 : (s.dirs d).pgtables (pdx va) = 0
    · by_cases hex : Exhausted s L
      · exact .inr ((R.noTable_iff h0).mpr hex)
      · obtain ⟨k, t, rest, M⟩ := R.canMap hex
        obtain ⟨q, hget, Aq⟩ := pageGetC_newTable R.account R.sane h0 M
        have hpte : ¬ (({ s.withTable d va k t with phys := q } : Vm).pte
            ((s.withTable d va k t).entry d va)).present = true := withTable_absent
        rw [bind_run hget] at h
        dsimp only at h
        rw [get_run, if_neg hpte, bind_apply_ok] at h
        obtain ⟨rc, s1, hinc, -⟩ := h
        obtain ⟨q', hq', -⟩ := onPhys_ok.mp hinc
        obtain ⟨hpM, hsmall⟩ := Aq.of_refcountInc hq'
        left
        by_cases hpt : p = t
        · rw [hpt, L.unreferenced t (M.free ▸ List.mem_cons_self)]
          decide
        · have hrefs : M.ledger.refs p = L.refs p := update_of_ne hpt ..
          exact hrefs ▸ hsmall
    · have hpte : ¬ (s.entered.pte (s.entered.entry d va)).present = true := by
        show ¬ (s.pte (s.entry d va)).present = true
        rw [habs.resolve_left h0]
        exact Bool.false_ne_true
      rw [bind_run (pageGetCWith_table (s := s.entered) h0)] at h
      dsimp only at h
      rw [get_run, if_neg hpte, bind_apply_ok] at h
      obtain ⟨rc, s1, hinc, -⟩ := h
      obtain ⟨q', hq', -⟩ := onPhys_ok.mp hinc
      exact .inl (A₀.of_refcountInc hq').2
  · obtain ⟨hlt, hpos⟩ := hcounted f hm
    have hpte : (s.entered.pte (s.entered.entry d va)).present = true := hm.present
    rw [bind_run (pageGetCWith_table (s := s.entered) hm.table)] at h
    dsimp only at h
    rw [get_run, if_pos hpte, bind_apply_ok] at h
    obtain ⟨r1, s1, hrm, h⟩ := h
    have hm₀ : s.entered.Maps d va f := ⟨hm.table, hm.present, hm.frame⟩
    obtain ⟨-, hne, hf, havail⟩ := pageRemove_old A₀ R.sane.pushcli hm₀ hrm
    obtain ⟨q, hrm', Aq⟩ := pageRemove_maps A₀ R.sane.pushcli hva hm₀ ⟨hlt, hne, hf, hpos, havail⟩
    rw [hrm] at hrm'
    cases hrm'
    rw [ASSERT_lift (by omega), bind_apply_ok] at h
    obtain ⟨rc, s2, hinc, -⟩ := h
    obtain ⟨q', hq', -⟩ := onPhys_ok.mp hinc
    obtain ⟨hpd, hsmall⟩ := Aq.of_refcountInc hq'
    refine ⟨fun g hmg => ?_, ?_⟩
    · obtain rfl : g = f := hmg.frame.symm.trans hm.frame
      rw [hrc]
      refine ⟨hne, R.account.free_eq_false hf, fun h1 => ⟨(R.account.types g).trans (havail h1), fun hgp => hpd ?_⟩⟩
      have hdrop : (L.drop g hf).free = L.free ++ [g] := if_pos h1
      rw [hdrop, ← hgp]
      exact List.mem_append_right _ (List.mem_singleton.mpr rfl)
    · rw [hrc]
      by_cases hfp : p = f
      · exact .inl (hfp ▸ hm)
      · have hdrop : (L.drop f hf).refs p = L.refs p := update_of_ne hfp ..
        exact .inr (.inl (hdrop ▸ hsmall))

/-- Unless the frame at `va` cannot give up its reference, or `p` would lose its
last one, or the count of `p` is at its limit, `page_insert` maps one page or fails
and changes nothing; and only then. -/
theorem page_insert_maps_one_page (R : Ready S ty s L holds c) (hd : d < s.dirsNr) (hva : vaAddr va < MMAP_KERNEL_TOP)
    (hperm : perm.getLsbD 0 = true) (hp : (s.phys.pages p).free = false)
    (hcounted : ∀ f, s.Maps d va f → f < S.pagesNr ∧ 0 < (s.phys.pages f).refcountGet) :
    InsertsOnePage S s d p va perm ↔ CanInsert s d p va := by
  have hcounted' : ∀ f, s.Maps d va f → f < S.pagesNr ∧ 0 < L.refs f := fun f hm => by
    rw [← R.account.refcountGet]
    exact hcounted f hm
  constructor
  · rintro ⟨r, s', hcall, -⟩
    exact R.canInsert hva hcounted' hcall
  · exact R.insertsOnePage hd hva hperm (R.notMem_free hp) hcounted'

theorem page_insert_maps_one_page_small :
    InsertsOnePage Frames.smallSetup TmpPages.smallStart.vm 0 5 0x1000 (PTE_P ||| PTE_U) := by
  obtain ⟨L, c, I⟩ := TmpPages.smallStart_start.invariant
  have hnone : (TmpPages.smallStart.vm.dirs 0).pgtables 0 = 0 := by decide +kernel
  have habs : ∀ f, ¬ TmpPages.smallStart.vm.Maps 0 0x1000 f := fun f h => h.table hnone
  have hrc : (TmpPages.smallStart.vm.phys.pages 5).refcountGet = 1 := by decide +kernel
  refine (page_insert_maps_one_page I.ready (by decide) (by decide) (by decide) (by decide +kernel)
    fun f h => absurd h (habs f)).mpr ⟨fun f h => absurd h (habs f), .inr (.inl ?_)⟩
  rw [hrc]
  decide

/-- A page that is mapped where it is inserted once more, and nowhere else, is freed on the way. -/
theorem page_insert_same_page_fails :
    ∃ s, pageAllocInsert 0 0x1000 (PTE_P ||| PTE_U) TmpPages.smallStart.vm = .ok (1, s) ∧ s.Maps 0 0x1000 0x100 ∧
      (s.phys.pages 0x100).free = false ∧ (s.phys.pages 0x100).refcountGet = 1 ∧
      pageInsert 0 0x100 0x1000 (PTE_P ||| PTE_U) s = .error (.assert "!free") := by
  have hrun : (pageAllocInsert 0 0x1000 (PTE_P ||| PTE_U) TmpPages.smallStart.vm).toOption.map (fun r =>
      (r.1, (r.2.pte (r.2.entry 0 0x1000)).present, (r.2.pte (r.2.entry 0 0x1000)).physPgno,
        (r.2.dirs 0).pgtables (pdx 0x1000), (r.2.phys.pages 0x100).free, (r.2.phys.pages 0x100).refcountGet)) =
      some (1, true, 0x100, 0x10000000, false, 1) := by decide +kernel
  have hfail : (pageAllocInsert 0 0x1000 (PTE_P ||| PTE_U) TmpPages.smallStart.vm).toOption.bind (fun r =>
      failure (pageInsert 0 0x100 0x1000 (PTE_P ||| PTE_U) r.2)) = some (.assert "!free") := by decide +kernel
  obtain ⟨⟨r, s⟩, hok, hv⟩ := map_eq_some_iff.mp hrun
  rw [hok, bind_some] at hfail
  simp only [Prod.mk.injEq] at hv
  obtain ⟨rfl, hpres, hframe, htab, hfree, hrc⟩ := hv
  refine ⟨s, of_toOption hok, ⟨?_, hpres, hframe⟩, hfree, hrc, of_failure hfail⟩
  rw [htab]
  decide

end MakarnaX
