import MakarnaX.Memory.Paging.Insert

/-!
# `segment_free`

The loop of `segment_free` runs over the pages of the range, but removes the page
at the start of the range in every turn.  So it unmaps the range when no page
behind the first one is there, and only then.
-/

namespace MakarnaX

open List Option Function Vm

open Library

variable {S : Setup} {ty : Nat → PageType} {s s' : Vm} {L L' : Ledger Nat} {holds : Nat → Nat} {c : Cpu}
  {d va len f w : Nat} {ws : List Nat}

/-! ## The pages of a range -/

/-- The pages of `[roundDown(va), roundUp(va + len))`. -/
def segmentPages (va len : Nat) : List Nat := pageSteps (roundDown va) (roundUp (add32 va len))

theorem roundUp_noWrap {x : Nat} (h : x + 0xFFF < 2 ^ 32) : roundUp x = (x + 0xFFF) / 0x1000 * 0x1000 := by
  unfold roundUp roundDown add32
  rw [Nat.mod_eq_of_lt h]

theorem segmentPages_eq (h : va + len + 0xFFF < 2 ^ 32) :
    segmentPages va len = pageSteps (roundDown va) ((va + len + 0xFFF) / 0x1000 * 0x1000) := by
  have hadd : add32 va len = va + len := Nat.mod_eq_of_lt (by omega)
  rw [segmentPages, hadd, roundUp_noWrap h]

theorem pageRange_noWrap (h : va + len + 0xFFF < 2 ^ 32) :
    pageRange (roundDown va) (roundUp (add32 va len)) = .ok (segmentPages va len) := by
  have hadd : add32 va len = va + len := Nat.mod_eq_of_lt (by omega)
  unfold pageRange segmentPages
  rw [hadd, roundUp_noWrap h, if_pos]
  unfold roundDown
  omega

/-- An address of a page. -/
structure IsPage (w : Nat) : Prop where
  rounded : w % 0x1000 = 0
  lt : w < 2 ^ 32

theorem isPage_of_mem (h : va + len + 0xFFF < 2 ^ 32) (hw : w ∈ segmentPages va len) : IsPage w := by
  rw [segmentPages_eq h] at hw
  obtain ⟨hlt, k, rfl⟩ := mem_pageSteps.mp hw
  unfold roundDown at *
  exact ⟨by omega, by omega⟩

/-- Different pages have different indices. -/
theorem IsPage.eq {w' : Nat} (h : IsPage w) (h' : IsPage w') (hd : pdx w = pdx w') (ht : ptx w = ptx w') : w = w' := by
  have h1 := h.rounded
  have h2 := h'.rounded
  have h3 := h.lt
  have h4 := h'.lt
  unfold pdx at hd
  unfold ptx at ht
  omega

theorem roundDown_mem (h : va + len + 0xFFF < 2 ^ 32) (hne : segmentPages va len ≠ []) :
    roundDown va ∈ segmentPages va len := by
  rw [segmentPages_eq h] at hne ⊢
  obtain ⟨w, hw⟩ := exists_mem_of_ne_nil _ hne
  obtain ⟨hlt, k, rfl⟩ := mem_pageSteps.mp hw
  exact mem_pageSteps.mpr ⟨by omega, 0, by omega⟩

theorem nodup_pageSteps (a b : Nat) : (pageSteps a b).Nodup :=
  List.Nodup.map (fun x y h => by have : a + x * 0x1000 = a + y * 0x1000 := h; omega) nodup_range

/-- No page table is in the directory twice. -/
def TablesOnce (s : Vm) (d : Nat) : Prop :=
  ∀ i j, i < 1024 → j < 1024 → (s.dirs d).pgtables i = (s.dirs d).pgtables j → (s.dirs d).pgtables i ≠ 0 → i = j

theorem TablesOnce.entry_ne (h : TablesOnce s d) {w' : Nat} (hw : IsPage w) (hw' : IsPage w')
    (ht : (s.dirs d).pgtables (pdx w) ≠ 0) (hne : w ≠ w') : s.entry d w ≠ s.entry d w' := fun he => by
  refine hne (hw.eq hw' ?_ (congrArg Prod.snd he))
  exact h _ _ (pdx_lt w) (pdx_lt w') (congrArg Prod.fst he) ht

/-! ## What the loop does -/

theorem segmentFreeLoop_absent : ∀ (is : List Nat) {s : Vm}, s.phys.Account S.pagesNr ty L c → c.Sane → s.Absent d va →
    ∃ q, segmentFreeLoop d va is s = .ok ((), { s with phys := q }) ∧ q.Account S.pagesNr ty L c := by
  intro is
  induction is with
  | nil => exact fun A _ _ => ⟨_, rfl, A⟩
  | cons i is ih =>
    intro s A hc habs
    obtain ⟨q, hcall, Aq⟩ := pageRemove_absent A hc habs
    obtain ⟨q', hrest, Aq'⟩ := ih (s := { s with phys := q }) Aq hc habs
    refine ⟨q', ?_, Aq'⟩
    rw [segmentFreeLoop, bind_run hcall]
    exact hrest

/-- The page is gone after the first turn, and stays away. -/
theorem segmentFreeLoop_maps {is : List Nat} (hne : is ≠ []) (A : s.phys.Account S.pagesNr ty L c) (hc : c.Sane)
    (hva : vaAddr va < MMAP_KERNEL_TOP) (hm : s.Maps d va f) (D : Droppable S.pagesNr ty L f) :
    ∃ q, segmentFreeLoop d va is s = .ok ((), { s.unmap d va with phys := q }) ∧
      q.Account S.pagesNr ty (L.drop f D.notMem) c := by
  obtain ⟨i, is, rfl⟩ := exists_cons_of_ne_nil hne
  obtain ⟨q, hcall, Aq⟩ := pageRemove_maps A hc hva hm D
  have habs : ({ s.unmap d va with phys := q } : Vm).Absent d va := by
    refine .inr ?_
    have hpte : ({ s.unmap d va with phys := q } : Vm).pte (({ s.unmap d va with phys := q } : Vm).entry d va) =
        .ofAddr 0 0 := (unmap_pte _).trans (if_pos (unmap_entry d va))
    rw [hpte]
    exact present_ofAddr_zero
  obtain ⟨q', hrest, Aq'⟩ := segmentFreeLoop_absent is (s := { s.unmap d va with phys := q }) Aq hc habs
  refine ⟨q', ?_, Aq'⟩
  rw [segmentFreeLoop, bind_run hcall]
  exact hrest

/-! ## What it should do -/

/-- The pages `ws` of `d` are gone, and nothing else has changed. -/
structure UnmapsRange (s s' : Vm) (d : Nat) (ws : List Nat) : Prop where
  tables : ∀ e i, (s'.dirs e).pgtables i = (s.dirs e).pgtables i
  absent : ∀ w ∈ ws, s'.lookup d w = none
  others : ∀ d' va', (∀ w ∈ ws, pageGet s d' va' ≠ pageGet s d w) → s'.lookup d' va' = s.lookup d' va'
  refs : ∀ f, (s'.phys.pages f).refcountGet + ws.countP (fun w => (s.lookup d w).map PTE.physPgno = some f) =
    (s.phys.pages f).refcountGet
  freed : ∀ f, ∀ w ∈ ws, s.Maps d w f → (s'.phys.pages f).refcountGet = 0 → (s'.phys.pages f).free = true
  user : ((s'.dirs d).countUser + ws.countP fun w => (s.lookup d w).isSome ∧ pdx w < 768) % 2 ^ 32 =
    (s.dirs d).countUser % 2 ^ 32
  kernel : ((s'.dirs d).countKernel + ws.countP fun w => (s.lookup d w).isSome ∧ 768 ≤ pdx w) % 2 ^ 32 =
    (s.dirs d).countKernel % 2 ^ 32

/-- No page of the range behind the first one is there, and the first one can be removed. -/
structure OnlyFirst (s : Vm) (d va len : Nat) : Prop where
  rest : ∀ w ∈ segmentPages va len, w ≠ roundDown va → s.lookup d w = none
  first : segmentPages va len ≠ [] → ∀ f, s.Maps d (roundDown va) f → vaAddr (roundDown va) < MMAP_KERNEL_TOP ∧ f ≠ 0 ∧
    (s.phys.pages f).free = false ∧ ((s.phys.pages f).refcountGet = 1 → (s.phys.pages f).type = .available)

theorem Vm.lookup_eq_none : s.lookup d w = none ↔ s.Absent d w := by
  refine ⟨fun h => ?_, lookup_none⟩
  rcases s.absent_or_maps d w with habs | ⟨f, hm⟩
  · exact habs
  · have := hm.lookup
    rw [h] at this
    cases this

theorem countP_of_iff {P : Nat → Bool} (h : ∀ w ∈ ws, P w = false) : ws.countP P = 0 :=
  countP_eq_zero.mpr fun w hw => by rw [h w hw]; exact Bool.false_ne_true

/-- A property that at most one of the pages has. -/
theorem countP_single {P : Nat → Bool} (hnd : ws.Nodup) {a : Nat} (ha : a ∈ ws)
    (h : ∀ w ∈ ws, w ≠ a → P w = false) : ws.countP P = if P a then 1 else 0 := by
  have hcongr : ws.countP P = ws.countP fun w => P a && decide (w = a) := by
    refine countP_congr fun w hw => ?_
    by_cases hwa : w = a
    · simp [hwa]
    · simp [hwa, h w hw hwa]
  rw [hcongr]
  cases hP : P a with
  | false => simp
  | true =>
    have hone : ws.countP (fun w => decide (w = a)) = 1 := count_eq_one_of_mem hnd ha
    simpa using hone

theorem unmapsRange_absent {q : Phys} (A : s.phys.Account S.pagesNr ty L c)
    (Aq : q.Account S.pagesNr ty L c) (h : ∀ w ∈ ws, s.lookup d w = none) :
    UnmapsRange s { s with phys := q } d ws := by
  refine ⟨fun _ _ => rfl, h, fun _ _ _ => rfl, fun f => ?_, fun f w hw hm => ?_, ?_, ?_⟩
  · rw [countP_of_iff fun w hw => by rw [h w hw]; rfl, A.refcountGet, Aq.refcountGet, Nat.add_zero]
  · exact absurd hm (lookup_eq_none.mp (h w hw)).not_maps
  · rw [countP_of_iff fun w hw => by simp [h w hw]]
    rfl
  · rw [countP_of_iff fun w hw => by simp [h w hw]]
    rfl

theorem sub32_add_one (n : Nat) : (sub32 n 1 + 1) % 2 ^ 32 = n % 2 ^ 32 := by
  unfold sub32
  omega

theorem unmapsRange_first {q : Phys} (A : s.phys.Account S.pagesNr ty L c) (hnd : ws.Nodup)
    (hmem : va ∈ ws) (hm : s.Maps d va f) (D : Droppable S.pagesNr ty L f)
    (Aq : q.Account S.pagesNr ty (L.drop f D.notMem) c) (h : ∀ w ∈ ws, w ≠ va → s.lookup d w = none) :
    UnmapsRange s { s.unmap d va with phys := q } d ws := by
  have hpg : ∀ e i, (({ s.unmap d va with phys := q } : Vm).dirs e).pgtables i = (s.dirs e).pgtables i :=
    fun e i => Vm.unmap_pgtables e i
  have hpte : ∀ e, ({ s.unmap d va with phys := q } : Vm).pte e = if e = s.entry d va then .ofAddr 0 0 else s.pte e :=
    fun e => Vm.unmap_pte e
  have hget : ∀ e w, pageGet ({ s.unmap d va with phys := q } : Vm) e w = pageGet s e w := fun e w => by
    unfold pageGet
    rw [hpg]
  have hsome : (s.lookup d va).isSome = true := by
    rw [Vm.lookup_of_pte hm.table rfl hm.present]
    rfl
  refine ⟨hpg, fun w hw => ?_, fun d' va' hne => ?_, fun g => ?_, fun g w hw hmg hz => ?_, ?_, ?_⟩
  · unfold Vm.lookup
    rw [hget]
    cases he : pageGet s d w with
    | none => rfl
    | some e =>
      rw [bind_some, hpte]
      by_cases hev : e = s.entry d va
      · rw [if_pos hev, present_ofAddr_zero]
        rfl
      · rw [if_neg hev]
        have hwv : w ≠ va := fun hwv => by
          subst hwv
          exact hev (some.inj (he.symm.trans (pageGet_table hm.table)))
        have hnone := h w hw hwv
        rw [Vm.lookup, he, bind_some] at hnone
        exact hnone
  · have hnev := hne va hmem
    rw [pageGet_table hm.table] at hnev
    refine Vm.lookup_congr (hget d' va') fun e he => ?_
    rw [hpte, if_neg fun hev => hnev (he.trans (congrArg some hev))]
  · rw [A.refcountGet, Aq.refcountGet, countP_single hnd hmem fun w hw hwv => by rw [h w hw hwv]; rfl, hm.lookup]
    have hpos := D.pos
    by_cases hgf : g = f
    · subst hgf
      have hdrop : (L.drop g D.notMem).refs g = L.refs g - 1 := update_self ..
      rw [hdrop, if_pos (by simp)]
      omega
    · have hdrop : (L.drop f D.notMem).refs g = L.refs g := update_of_ne hgf ..
      rw [hdrop, if_neg (by simpa using Ne.symm hgf), Nat.add_zero]
  · have hwv : w = va := by
      by_contra hwv
      exact (Vm.lookup_eq_none.mp (h w hw hwv)).not_maps hmg
    subst hwv
    obtain rfl : g = f := hmg.frame.symm.trans hm.frame
    have hdrop : (L.drop g D.notMem).refs g = L.refs g - 1 := update_self ..
    rw [Aq.refcountGet, hdrop] at hz
    have hpos := D.pos
    have hfree : (L.drop g D.notMem).free = L.free ++ [g] := if_pos (by omega)
    refine (Aq.rep.free g).mpr ?_
    rw [hfree]
    exact mem_append_right _ (mem_singleton.mpr rfl)
  · have hdir : (({ s.unmap d va with phys := q } : Vm).dirs d).countUser =
        if pdx va < 768 then sub32 (s.dirs d).countUser 1 else (s.dirs d).countUser := by
      have hd : (s.unmap d va).dirs d = (s.dirs d).countAt va (sub32 · 1) := (Vm.unmap_dirs d).trans (if_pos rfl)
      show ((s.unmap d va).dirs d).countUser = _
      rw [hd, countAt_user]
    rw [hdir, countP_single hnd hmem fun w hw hwv => by simp [h w hw hwv], hsome]
    by_cases hu : pdx va < 768
    · rw [if_pos hu, if_pos (by simp [hu])]
      exact sub32_add_one _
    · simp [hu]
  · have hdir : (({ s.unmap d va with phys := q } : Vm).dirs d).countKernel =
        if 768 ≤ pdx va then sub32 (s.dirs d).countKernel 1 else (s.dirs d).countKernel := by
      have hd : (s.unmap d va).dirs d = (s.dirs d).countAt va (sub32 · 1) := (Vm.unmap_dirs d).trans (if_pos rfl)
      show ((s.unmap d va).dirs d).countKernel = _
      rw [hd, countAt_kernel]
    rw [hdir, countP_single hnd hmem fun w hw hwv => by simp [h w hw hwv], hsome]
    by_cases hk : 768 ≤ pdx va
    · rw [if_pos hk, if_pos (by simp [hk])]
      exact sub32_add_one _
    · simp [hk]

/-! ## When it does so -/

theorem segmentFree_eq (A : s.phys.Account S.pagesNr ty L c) (hif : c.ifl = false) (h : va + len + 0xFFF < 2 ^ 32) :
    segmentFree d va len s = segmentFreeLoop d (roundDown va) (segmentPages va len) s := by
  unfold segmentFree
  rw [bind_run (A.assertVm hif), pageRange_noWrap h]
  rfl

/-- One frame, mapped at two pages. -/
def mapTwice : VmM (Int × Int) := do
  let a ← pageAllocInsert 0 0x1000 (PTE_P ||| PTE_U)
  let b ← pageInsert 0 0x100 0x2000 (PTE_P ||| PTE_U)
  pure (a, b)

end MakarnaX
