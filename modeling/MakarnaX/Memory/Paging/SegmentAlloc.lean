import MakarnaX.Memory.Paging.Added

/-!
# `segment_alloc`

`segment_alloc` maps the pages of a range one after the other.  When a frame or a
page table is missing it removes the pages it has mapped, and then releases the
page tables from that of the first page up to that of the page it could not map,
whether it made them or not.  So a failed call leaves everything as it was if these
are just the tables it made.
-/

namespace MakarnaX

open Finset

open Library

variable {S : Setup} {ty : Nat → PageType} {s₀ s s' : Vm} {L₀ L : Ledger Nat} {holds : Nat → Nat} {c : Cpu}
  {d va len w j k i : Nat} {perm : Perm} {ws vs js : Finset Nat} {r : Int} {P : Finset Nat → Prop}

/-! ## What the pages of a range need -/

/-- The page tables that have to be made for the pages `ws`. -/
def missingTables (s : Vm) (d : Nat) (ws : Finset Nat) : Finset Nat :=
  (ws.image pdx).filter fun j => (s.dirs d).pgtables j = 0

/-- The number of temporary addresses that are free. -/
def freeSlots (s : Vm) : Nat := ((range 1024).filter fun k => s.tmpPages.test k = false).card

/-- There are frames for the pages `ws` and their missing page tables, and
temporary addresses for the tables. -/
structure Enough (s : Vm) (d : Nat) (ws : Finset Nat) : Prop where
  frames : ws.card + (missingTables s d ws).card ≤ s.phys.freePageList.count
  slots : (missingTables s d ws).card ≤ freeSlots s

theorem mem_missingTables : j ∈ missingTables s d ws ↔ (∃ w ∈ ws, pdx w = j) ∧ (s.dirs d).pgtables j = 0 := by
  rw [missingTables, mem_filter, mem_image]

theorem missingTables_mono (h : ws ⊆ vs) : missingTables s d ws ⊆ missingTables s d vs :=
  filter_subset_filter _ (image_subset_image h)

theorem Enough.mono (h : ws ⊆ vs) (E : Enough s d vs) : Enough s d ws := by
  have hws := card_le_card h
  have hjs := card_le_card (missingTables_mono (s := s) (d := d) h)
  exact ⟨(Nat.add_le_add hws hjs).trans E.frames, hjs.trans E.slots⟩

theorem missingTables_insert_of_mem (h : pdx w ∈ missingTables s d ws ∨ (s.dirs d).pgtables (pdx w) ≠ 0) :
    missingTables s d (insert w ws) = missingTables s d ws := by
  refine Finset.Subset.antisymm (fun j hj => ?_) (missingTables_mono (subset_insert w ws))
  obtain ⟨⟨v, hv, rfl⟩, h0⟩ := mem_missingTables.mp hj
  rcases mem_insert.mp hv with rfl | hv
  · exact h.resolve_right fun h => h h0
  · exact mem_missingTables.mpr ⟨⟨v, hv, rfl⟩, h0⟩

theorem missingTables_insert (h : (s.dirs d).pgtables (pdx w) = 0) :
    missingTables s d (insert w ws) = insert (pdx w) (missingTables s d ws) := by
  rw [missingTables, image_insert, filter_insert, if_pos h]
  rfl

/-- The ledger of frames is not longer than the counter can say. -/
theorem Ready.count_eq (R : Ready S ty s L holds c) : s.phys.freePageList.count = L.free.length := by
  have hsub : L.free.toFinset ⊆ range S.pagesNr := fun f hf =>
    mem_range.mpr (R.owned.rep.bound f (List.mem_toFinset.mp hf)).2
  have hle := card_le_card hsub
  rw [List.toFinset_card_of_nodup L.nodup, card_range] at hle
  have hN := S.pagesNr_le
  rw [R.account.rep.count, Nat.mod_eq_of_lt (by omega)]

namespace Added

/-- The temporary addresses of the new tables. -/
def newSlots (s : Vm) (d : Nat) (js : Finset Nat) : Finset Nat :=
  (range 1024).filter fun k => ∃ j ∈ js, (s.dirs d).pgtables j = tmpKaddr k

theorem card_newSlots (A : Added S ty holds c s₀ L₀ d perm ws js s L) : (newSlots s d js).card = js.card := by
  refine (card_bij (fun j _ => ((s.dirs d).pgtables j - 0x10000000) / 0x1000) (fun j hj => ?_)
    (fun i hi j hj h => ?_) fun k hk => ?_).symm
  · obtain ⟨k, t, N⟩ := A.fresh j hj
    have hslot : ((s.dirs d).pgtables j - 0x10000000) / 0x1000 = k := by
      rw [N.table]
      unfold tmpKaddr
      omega
    rw [hslot]
    exact mem_filter.mpr ⟨mem_range.mpr N.slot, j, hj, N.table⟩
  · obtain ⟨k, t, N⟩ := A.fresh i hi
    obtain ⟨k', t', N'⟩ := A.fresh j hj
    refine A.inj i hi j hj ?_
    rw [N.table, N'.table] at h ⊢
    unfold tmpKaddr at h ⊢
    omega
  · obtain ⟨-, j, hj, h⟩ := mem_filter.mp hk
    refine ⟨j, hj, ?_⟩
    rw [h]
    unfold tmpKaddr
    omega

theorem slots_eq (A : Added S ty holds c s₀ L₀ d perm ws js s L) : freeSlots s + js.card = freeSlots s₀ := by
  have hmem : ∀ k < 1024, s₀.tmpPages.test k = false ↔ s.tmpPages.test k = false ∨ k ∈ newSlots s d js := by
    intro k hk
    have hbits := A.bits k hk
    have hnew : k ∈ newSlots s d js → s₀.tmpPages.test k = false := fun h => by
      obtain ⟨-, j, hj, htab⟩ := mem_filter.mp h
      obtain ⟨k', t, N⟩ := A.fresh j hj
      rw [tmpKaddr_inj (htab.symm.trans N.table)]
      exact N.clear
    have hdef : k ∈ newSlots s d js ↔ ∃ j ∈ js, (s.dirs d).pgtables j = tmpKaddr k := by
      rw [newSlots, mem_filter, and_iff_right (mem_range.mpr hk)]
    rw [← hdef] at hbits
    cases h₀ : s₀.tmpPages.test k with
    | false =>
      cases h : s.tmpPages.test k with
      | false => simp
      | true => simpa [h₀, h] using hbits
    | true =>
      rw [hbits.mpr (.inl h₀)]
      simpa using fun h => by simpa [h₀] using hnew h
  rw [← card_newSlots A, freeSlots, freeSlots, ← card_union_of_disjoint]
  · refine congrArg card (ext fun k => ?_)
    rw [mem_union, mem_filter, mem_filter, mem_range]
    constructor
    · rintro (⟨hk, h⟩ | h)
      · exact ⟨hk, (hmem k hk).mpr (.inl h)⟩
      · have hk := mem_range.mp (mem_filter.mp h).1
        exact ⟨hk, (hmem k hk).mpr (.inr h)⟩
    · rintro ⟨hk, h⟩
      exact ((hmem k hk).mp h).imp_left fun h => ⟨hk, h⟩
  · refine disjoint_left.mpr fun k h h' => ?_
    obtain ⟨hk, hbit⟩ := mem_filter.mp h
    obtain ⟨-, j, hj, htab⟩ := mem_filter.mp h'
    rw [(A.bits k (mem_range.mp hk)).mpr (.inr ⟨j, hj, htab⟩)] at hbit
    cases hbit

section

variable (R₀ : Ready S ty s₀ L₀ holds c) (A : Added S ty holds c s₀ L₀ d perm ws (missingTables s₀ d ws) s L)

include R₀ A in
theorem enough : Enough s₀ d ws := by
  have hfree := A.free
  have hslots := A.slots_eq
  refine ⟨?_, by omega⟩
  rw [R₀.count_eq]
  omega

include A in
theorem missing_new (h0 : (s.dirs d).pgtables (pdx w) = 0) : pdx w ∉ missingTables s₀ d ws ∧
    missingTables s₀ d (insert w ws) = insert (pdx w) (missingTables s₀ d ws) := by
  have hjs : pdx w ∉ missingTables s₀ d ws := fun h => by
    obtain ⟨k, t, N⟩ := A.fresh _ h
    exact tmpKaddr_ne_zero k (N.table.symm.trans h0)
  exact ⟨hjs, missingTables_insert ((A.missing_iff hjs).mp h0)⟩

include A in
theorem missing_there (h0 : (s.dirs d).pgtables (pdx w) ≠ 0) :
    missingTables s₀ d (insert w ws) = missingTables s₀ d ws := by
  refine missingTables_insert_of_mem ?_
  by_cases hjs : pdx w ∈ missingTables s₀ d ws
  · exact .inl hjs
  · exact .inr fun h => h0 ((A.missing_iff hjs).mpr h)

include R₀ A in
/-- What is left when the pages `ws` are mapped decides about one more. -/
theorem enough_insert (hnew : w ∉ ws) :
    Enough s₀ d (insert w ws) ↔ L.free ≠ [] ∧
      ((s.dirs d).pgtables (pdx w) = 0 → 2 ≤ L.free.length ∧ 0 < freeSlots s) := by
  have hfree := A.free
  have hslots := A.slots_eq
  have hcard := card_insert_of_notMem hnew
  have hpos : L.free ≠ [] ↔ 1 ≤ L.free.length := by rw [← List.length_pos_iff]; rfl
  rw [hpos]
  by_cases h0 : (s.dirs d).pgtables (pdx w) = 0
  · have hmiss : (missingTables s₀ d (insert w ws)).card = (missingTables s₀ d ws).card + 1 := by
      rw [(A.missing_new h0).2, card_insert_of_notMem (A.missing_new h0).1]
    refine ⟨fun E => ?_, fun h => ?_⟩
    · have h1 := E.frames
      have h2 := E.slots
      rw [R₀.count_eq] at h1
      exact ⟨by omega, fun _ => ⟨by omega, by omega⟩⟩
    · obtain ⟨h1, h2⟩ := h.2 h0
      refine ⟨?_, by omega⟩
      rw [R₀.count_eq]
      omega
  · have hmiss := A.missing_there h0
    refine ⟨fun E => ⟨?_, fun h => absurd h h0⟩, fun h => ⟨?_, ?_⟩⟩
    · have h1 := E.frames
      rw [hmiss, R₀.count_eq] at h1
      omega
    · rw [hmiss, R₀.count_eq]
      omega
    · rw [hmiss]
      omega

theorem freeSlots_eq_zero : freeSlots s = 0 ↔ s.tmpPages.findFirstZero (TMP_PAGE_COUNT / 32 * 4) = none := by
  rw [Bitmap.findFirstZero_eq_none, freeSlots, card_eq_zero, filter_eq_empty_iff]
  refine ⟨fun h q hq => ?_, fun h k hk => ?_⟩
  · exact Bool.eq_true_of_not_eq_false (h (mem_range.mpr hq))
  · rw [h k (mem_range.mp hk)]
    simp

/-- Without a frame and a temporary address there is no page table to be had. -/
theorem exhausted_iff {p : Nat} {rest : List Nat} (hL : L.free = p :: rest) :
    Exhausted s (L.take hL) ↔ ¬ (2 ≤ L.free.length ∧ 0 < freeSlots s) := by
  have hrest : (L.take hL).free = rest := rfl
  rw [Exhausted, hrest, ← freeSlots_eq_zero, hL, List.length_cons, ← List.length_eq_zero_iff]
  omega

/-- Only the list of free frames has changed. -/
theorem phys {q : Phys} {L' : Ledger Nat} (A : Added S ty holds c s₀ L₀ d perm ws js s L)
    (R : Ready S ty { s with phys := q } L' holds c) (hfree : L'.free.length = L.free.length) (hrefs : L'.refs = L.refs) :
    Added S ty holds c s₀ L₀ d perm ws js { s with phys := q } L' where
  ready := R
  dirsNr := A.dirsNr
  words := A.words
  charge := A.charge
  free := hfree ▸ A.free
  kept := A.kept
  fresh j hj := by
    obtain ⟨k, t, N⟩ := A.fresh j hj
    exact ⟨k, t, N.missing, N.index, N.slot, N.table, N.clear, N.frame, hrefs ▸ N.refs⟩
  inj := A.inj
  bits := A.bits
  place := A.place
  tables := A.tables
  pages w hw := by
    obtain ⟨f, hf, hpte, h⟩ := A.pages w hw
    exact ⟨f, hf, hpte, hrefs ▸ h⟩
  seen := A.seen
  empty := A.empty

section

variable (R₀ : Ready S ty s₀ L₀ holds c) (hd : d < s₀.dirsNr) (T : TablesOnce s₀ d) (hif : c.ifl = false) (hperm : perm.getLsbD 0 = true)

include R₀ hd T hif hperm

/-- One turn of the loop: the page is mapped, or there is not enough for it. -/
theorem turn (A : Added S ty holds c s₀ L₀ d perm ws (missingTables s₀ d ws) s L)
    (hw : Place S s₀ d w) (hnew : w ∉ ws) (is : List Nat) :
    (∃ s' L', Enough s₀ d (insert w ws) ∧
      Added S ty holds c s₀ L₀ d perm (insert w ws) (missingTables s₀ d (insert w ws)) s' L' ∧
      segmentAllocLoop d perm (w :: is) s = segmentAllocLoop d perm is s') ∨
    (∃ s' L', ¬ Enough s₀ d (insert w ws) ∧
      Added S ty holds c s₀ L₀ d perm ws (missingTables s₀ d ws) s' L' ∧
      segmentAllocLoop d perm (w :: is) s = .ok (some (w, -ENOMEM), s')) := by
  have hE := A.enough_insert R₀ hnew
  rw [segmentAllocLoop]
  cases hL : L.free with
  | nil =>
    refine .inr ⟨s, L, fun E => (hE.mp E).1 hL, A, ?_⟩
    rw [bind_run (A.ready.alloc_none hif hL)]
    rfl
  | cons p rest =>
    have hne : L.free ≠ [] := hL ▸ List.cons_ne_nil p rest
    by_cases h0 : (s.dirs d).pgtables (pdx w) = 0
    · by_cases hroom : Exhausted s (L.take hL)
      · -- the frame of the page goes back
        obtain ⟨q₁, halloc, R₁⟩ := A.ready.alloc hif hL
        obtain ⟨q₂, hins, R₂⟩ := R₁.insert_exhausted (d := d) (p := p) h0 hroom
        obtain ⟨q₃, hback, R₃⟩ := R₂.free hif (A.ready.mappable_of_free (f := p) (hL ▸ List.mem_cons_self))
          (List.nodup_cons.mp (hL ▸ L.nodup)).1 (L.unreferenced p (hL ▸ List.mem_cons_self))
        refine .inr ⟨{ s with phys := q₃ }, _, fun E => ?_, A.phys R₃ ?_ rfl, ?_⟩
        · exact (exhausted_iff hL).mp hroom ((hE.mp E).2 h0)
        · show (rest ++ [p]).length = L.free.length
          rw [hL, List.length_append, List.length_singleton, List.length_cons]
        · rw [bind_run halloc]
          dsimp only
          rw [bind_run hins, if_pos (by decide), bind_run hback]
          rfl
      · obtain ⟨s₁, s', L', halloc, hins, A'⟩ := A.mapPage_newTable R₀ hd T hif hperm hw hnew h0 hL hroom
        rw [← (A.missing_new h0).2] at A'
        refine .inl ⟨s', L', hE.mpr ⟨hne, fun _ => ?_⟩, A', ?_⟩
        · rw [exhausted_iff] at hroom
          exact Classical.not_not.mp hroom
        · rw [bind_run halloc]
          dsimp only
          rw [bind_run hins, if_neg (by decide)]
    · obtain ⟨s₁, s', L', halloc, hins, A'⟩ := A.mapPage R₀ hd T hif hperm hw hnew h0 hL
      rw [← A.missing_there h0] at A'
      refine .inl ⟨s', L', hE.mpr ⟨hne, fun h => absurd h h0⟩, A', ?_⟩
      rw [bind_run halloc]
      dsimp only
      rw [bind_run hins, if_neg (by decide)]

/-- The whole loop: all pages are mapped, or those before a page there is not enough for. -/
theorem loop : ∀ (is : List Nat) {ws : Finset Nat} {s : Vm} {L : Ledger Nat},
    Added S ty holds c s₀ L₀ d perm ws (missingTables s₀ d ws) s L → (∀ w ∈ is, Place S s₀ d w) → is.Nodup →
    (∀ w ∈ is, w ∉ ws) →
    (∃ s' L', segmentAllocLoop d perm is s = .ok (none, s') ∧
      Added S ty holds c s₀ L₀ d perm (ws ∪ is.toFinset) (missingTables s₀ d (ws ∪ is.toFinset)) s' L') ∨
    ∃ pre i post s' L', is = pre ++ i :: post ∧ segmentAllocLoop d perm is s = .ok (some (i, -ENOMEM), s') ∧
      Added S ty holds c s₀ L₀ d perm (ws ∪ pre.toFinset) (missingTables s₀ d (ws ∪ pre.toFinset)) s' L' ∧
      ¬ Enough s₀ d (insert i (ws ∪ pre.toFinset)) := by
  intro is
  induction is with
  | nil =>
    intro ws s L A _ _ _
    refine .inl ⟨s, L, rfl, ?_⟩
    rw [List.toFinset_nil, union_empty]
    exact A
  | cons w is ih =>
    intro ws s L A hplace hnd hdisj
    obtain ⟨hwis, hnd'⟩ := List.nodup_cons.mp hnd
    rcases A.turn R₀ hd T hif hperm (hplace w List.mem_cons_self) (hdisj w List.mem_cons_self) is with
      ⟨s₁, L₁, -, A₁, hturn⟩ | ⟨s', L', hE, A', hturn⟩
    · have hunion : ∀ l : List Nat, insert w ws ∪ l.toFinset = ws ∪ (w :: l).toFinset := fun l => by
        rw [List.toFinset_cons, insert_union, union_insert]
      have hdisj' : ∀ v ∈ is, v ∉ insert w ws := fun v hv h => by
        rcases mem_insert.mp h with rfl | h
        · exact hwis hv
        · exact hdisj v (List.mem_cons_of_mem _ hv) h
      rw [hturn]
      rcases ih A₁ (fun v hv => hplace v (List.mem_cons_of_mem _ hv)) hnd' hdisj' with
        ⟨s', L', hrun, A'⟩ | ⟨pre, i, post, s', L', rfl, hrun, A', hE⟩
      · rw [hunion] at A'
        exact .inl ⟨s', L', hrun, A'⟩
      · rw [hunion] at A' hE
        exact .inr ⟨w :: pre, i, post, s', L', rfl, hrun, A', hE⟩
    · refine .inr ⟨[], w, is, s', L', rfl, hturn, ?_, ?_⟩
      · rw [List.toFinset_nil, union_empty]
        exact A'
      · rw [List.toFinset_nil, union_empty]
        exact hE

end

/-! ## Going back -/

theorem removeAll (R₀ : Ready S ty s₀ L₀ holds c) (hd : d < s₀.dirsNr) (T : TablesOnce s₀ d)
    (hperm : perm.getLsbD 0 = true) : ∀ (is : List Nat) {s : Vm} {L : Ledger Nat},
    Added S ty holds c s₀ L₀ d perm is.toFinset js s L → is.Nodup →
    ∃ s' L', removeAll d is s = .ok ((), s') ∧ Added S ty holds c s₀ L₀ d perm ∅ js s' L' := by
  intro is
  induction is with
  | nil => exact fun A _ => ⟨_, _, rfl, A⟩
  | cons w is ih =>
    intro s L A hnd
    obtain ⟨hw, hnd'⟩ := List.nodup_cons.mp hnd
    obtain ⟨s₁, L₁, hcall, A₁⟩ := A.remove R₀ hd T hperm (w := w) (List.mem_toFinset.mpr List.mem_cons_self)
    have herase : (w :: is).toFinset.erase w = is.toFinset := by
      rw [List.toFinset_cons, erase_insert (fun h => hw (List.mem_toFinset.mp h))]
    rw [herase] at A₁
    obtain ⟨s', L', hrest, A'⟩ := ih A₁ hnd'
    refine ⟨s', L', ?_, A'⟩
    rw [MakarnaX.removeAll, bind_run hcall, ASSERT_lift rfl]
    exact hrest

theorem pdeFreeAll (R₀ : Ready S ty s₀ L₀ holds c) (hd : d < s₀.dirsNr)
    (hperm : perm.getLsbD 0 = true) : ∀ (is : List Nat) {s : Vm} {L : Ledger Nat},
    Added S ty holds c s₀ L₀ d perm ∅ is.toFinset s L → is.Nodup →
    ∃ s' L', pdeFreeAll d is s = .ok ((), s') ∧ Added S ty holds c s₀ L₀ d perm ∅ ∅ s' L' := by
  intro is
  induction is with
  | nil => exact fun A _ => ⟨_, _, rfl, A⟩
  | cons j is ih =>
    intro s L A hnd
    obtain ⟨hj, hnd'⟩ := List.nodup_cons.mp hnd
    obtain ⟨s₁, L₁, hcall, A₁⟩ := A.release R₀ hd hperm (j := j) (List.mem_toFinset.mpr List.mem_cons_self) (by simp)
    have herase : (j :: is).toFinset.erase j = is.toFinset := by
      rw [List.toFinset_cons, erase_insert (fun h => hj (List.mem_toFinset.mp h))]
    rw [herase] at A₁
    obtain ⟨s', L', hrest, A'⟩ := ih A₁ hnd'
    refine ⟨s', L', ?_, A'⟩
    rw [MakarnaX.pdeFreeAll, bind_run hcall]
    exact hrest

end

end Added

/-! ## Which page tables `pde_free` clears

Whatever it does to the frames. -/

theorem pageRemove_sameTables (h : pageRemove d va s = .ok (r, s')) : SameTables s s' := by
  simp only [pageRemove, bind_apply_ok, get_run] at h
  obtain ⟨_, s₁, hcli, h⟩ := h
  have h₁ := (Vm.pushcli_ok hcli).toSameTables
  cases hget : pageGet s₁ d va with
  | none =>
    simp only [hget, bind_apply_ok, pure_apply, Except.ok.injEq, Prod.mk.injEq] at h
    obtain ⟨_, s₂, hpop, -, rfl⟩ := h
    exact h₁.trans (Vm.popif_ok hpop).toSameTables
  | some e =>
    simp only [hget] at h
    split at h
    · simp only [bind_apply_ok, onPhys_ok, modify_apply, pure_apply, Except.ok.injEq,
        Prod.mk.injEq] at h
      obtain ⟨rc, s₂, ⟨p, -, rfl⟩, _, s₃, ⟨-, rfl⟩, _, s₄, hcount, _, s₅, hpop, -, rfl⟩ := h
      have h₂ : SameTables s₁ (Vm.setPte { s₁ with phys := p } e (.ofAddr 0 0)) := ⟨rfl, fun _ _ => rfl⟩
      exact (h₁.trans h₂).trans ((count_ok hcount).trans (Vm.popif_ok hpop)).toSameTables
    · simp only [bind_apply_ok, pure_apply, Except.ok.injEq, Prod.mk.injEq] at h
      obtain ⟨_, s₂, hpop, -, rfl⟩ := h
      exact h₁.trans (Vm.popif_ok hpop).toSameTables

/-- `tmp_page_put` by the number of the address. -/
def putSlot (k : Nat) : VmM Unit := do
  Vm.assertIntDisable
  ASSERT ((← get).tmpPages.test k) "bitmap_test(tmp_pages, i)"
  modify fun s => { s with tmpPages := s.tmpPages.reset k }

theorem putSlot_ok {u : Unit} (h : putSlot k s = .ok (u, s')) : s' = { s with tmpPages := s.tmpPages.reset k } := by
  simp [putSlot, ASSERT] at h
  exact h.2.2.symm

theorem tmpPagePut_sameTables {u : Unit} (h : tmpPagePut va s = .ok (u, s')) : SameTables s s' := by
  have hput : putSlot (sub32 va MMAP_KERNEL_TMP_PAGE_BASE / 0x1000) s = .ok (u, s') := h
  rw [putSlot_ok hput]
  exact ⟨rfl, fun _ _ => rfl⟩

theorem tmpPageFree_sameTables (h : tmpPageFree va s = .ok (r, s')) : SameTables s s' := by
  simp only [tmpPageFree, ASSERT, bind_apply_ok, Vm.assertIntDisable_ok, lift_apply_ok,
    check_ok] at h
  obtain ⟨_, _, ⟨-, rfl⟩, _, _, ⟨-, rfl⟩, r₁, s₁, hrm, h⟩ := h
  have h₁ := pageRemove_sameTables hrm
  split at h
  · simp only [bind_apply_ok, pure_apply, Except.ok.injEq, Prod.mk.injEq] at h
    obtain ⟨_, s₂, hput, -, rfl⟩ := h
    exact h₁.trans (tmpPagePut_sameTables hput)
  · simp only [pure_apply, Except.ok.injEq, Prod.mk.injEq] at h
    obtain ⟨-, rfl⟩ := h
    exact h₁

theorem pdeFree_pgtables (h : pdeFree d i s = .ok (r, s')) (e j : Nat) :
    (s'.dirs e).pgtables j = if e = d ∧ j = i then 0 else (s.dirs e).pgtables j := by
  simp only [pdeFree, ASSERT, bind_apply_ok, get_run, lift_apply_ok, check_ok,
    modify_apply, pure_apply, Except.ok.injEq, Prod.mk.injEq] at h
  obtain ⟨_, s₁, hcli, r₁, s₂, hfree, _, _, ⟨-, rfl⟩, _, s₃, ⟨-, rfl⟩, _, s₄, hpop, -, rfl⟩ := h
  have h₂ := (Vm.pushcli_ok hcli).toSameTables.trans (tmpPageFree_sameTables hfree)
  rw [(Vm.popif_ok hpop).pgtables, ← h₂.pgtables]
  exact Vm.clearTable_pgtables e j

theorem pdeFreeAll_pgtables : ∀ (is : List Nat) {s : Vm} {u : Unit}, pdeFreeAll d is s = .ok (u, s') → ∀ j,
    (s'.dirs d).pgtables j = if j ∈ is then 0 else (s.dirs d).pgtables j := by
  intro is
  induction is with
  | nil =>
    intro s u h j
    simp only [pdeFreeAll, pure_apply, Except.ok.injEq, Prod.mk.injEq] at h
    obtain ⟨-, rfl⟩ := h
    simp
  | cons i is ih =>
    intro s u h j
    simp only [pdeFreeAll, bind_apply_ok] at h
    obtain ⟨r, s₁, hfree, h⟩ := h
    rw [ih h j, pdeFree_pgtables hfree]
    by_cases hj : j ∈ is
    · simp [hj]
    · by_cases hji : j = i
      · simp [hji]
      · simp [hj, hji]

/-! ## All or nothing -/

/-- The pages `ws` of `d` are there, each on a frame of its own, and nothing else
has changed; the temporary addresses that were free are left out, as new page
tables are mapped there. -/
structure AllThere (S : Setup) (s s' : Vm) (d : Nat) (perm : Perm) (ws : List Nat) : Prop where
  pages : ∃ frame : Nat → Nat, (∀ w ∈ ws, s'.lookup d w = some (.ofAddr (frame w * 0x1000) perm) ∧
      (s'.phys.pages (frame w)).refcountGet = 1) ∧
    ∀ w ∈ ws, ∀ v ∈ ws, frame w = frame v → w = v
  others : ∀ e va, e < s.dirsNr → (∀ w ∈ ws, pageGet s' e va ≠ pageGet s' d w) →
    (∀ k < 1024, s.tmpPages.test k = false → pageGet s' e va ≠ some (S.tmpTable, k)) → s'.lookup e va = s.lookup e va

/-- `segment_alloc` returns, with all pages or with an error and everything as it was. -/
def AllOrNothing (S : Setup) (s : Vm) (d va len : Nat) (perm : Perm) : Prop :=
  ∃ r s', segmentAlloc d va len perm s = .ok (r, s') ∧
    (r = 0 ∧ AllThere S s s' d perm (segmentPages va len) ∨ r < 0 ∧ Restored s s')

/-- Of the page tables for the pages `pre` and the page `i` behind them, those
before that of `i` were missing, and that of `i` was there if one of `pre` is in it. -/
structure CleanStop (s : Vm) (d : Nat) (pre : List Nat) (i : Nat) : Prop where
  before : ∀ w ∈ pre, pdx w ≠ pdx i → (s.dirs d).pgtables (pdx w) = 0
  here : ∀ w ∈ pre, pdx w = pdx i → (s.dirs d).pgtables (pdx i) ≠ 0

/-- If frames or temporary addresses run out at a page, then the page tables are
such that those behind are the ones that had to be made. -/
def RollsBack (s : Vm) (d : Nat) (ws : List Nat) : Prop :=
  ∀ pre i post, ws = pre ++ i :: post → Enough s d pre.toFinset → ¬ Enough s d (insert i pre.toFinset) →
    CleanStop s d pre i

theorem Added.allThere (R₀ : Ready S ty s₀ L₀ holds c) (hd : d < s₀.dirsNr) (T : TablesOnce s₀ d)
    (hperm : perm.getLsbD 0 = true) {is : List Nat} (A : Added S ty holds c s₀ L₀ d perm is.toFinset js s L) :
    AllThere S s₀ s d perm is := by
  have hmem : ∀ w ∈ is, w ∈ is.toFinset := fun w hw => List.mem_toFinset.mpr hw
  refine ⟨?_, fun e va he hne hslot => ?_⟩
  · choose! frame hframe using A.pages
    refine ⟨frame, fun w hw => ?_, fun w hw v hv h => ?_⟩
    · obtain ⟨hlt, hpte, hrefs⟩ := hframe w (hmem w hw)
      have hpres : (s.pte (s.entry d w)).present = true := by
        rw [hpte]
        exact ofAddr_present hperm
      refine ⟨?_, (A.ready.account.refcountGet _).trans hrefs⟩
      rw [Vm.lookup, pageGet_table (A.tables w (hmem w hw)), Option.bind_some, if_pos hpres, hpte]
    · obtain ⟨hlt, hpte, hrefs⟩ := hframe w (hmem w hw)
      obtain ⟨hlt', hpte', -⟩ := hframe v (hmem v hv)
      have heq : s.entry d w = s.entry d v :=
        A.ready.target_unique (A.mem_entries hd (hmem w hw)) (A.mem_entries hd (hmem v hv))
          (target_page hperm hlt hpte) (h ▸ target_page hperm hlt' hpte') hrefs
      exact Classical.byContradiction fun hwv => (A.tablesOnce R₀ hd T).entry_ne (A.place w (hmem w hw)).page
        (A.place v (hmem v hv)).page (A.tables w (hmem w hw)) hwv heq
  · have hentry : ∀ w ∈ is.toFinset, pageGet s d w = some (s.entry d w) := fun w hw => pageGet_table (A.tables w hw)
    have hne' : ∀ w ∈ is.toFinset, pageGet s e va ≠ some (s.entry d w) := fun w hw =>
      hentry w hw ▸ hne w (List.mem_toFinset.mp hw)
    by_cases hnew : e = d ∧ pdx va ∈ js
    · -- a page of a new table: there was no table, and there is no page
      obtain ⟨rfl, hj⟩ := hnew
      obtain ⟨k, t, N⟩ := A.fresh _ hj
      have ht : (s.dirs e).pgtables (pdx va) ≠ 0 := N.table ▸ tmpKaddr_ne_zero k
      rw [pageGet_table ht] at hne'
      have htgt := A.empty _ hj (ptx va) fun w hw h => hne' w hw (congrArg some h)
      rw [Vm.lookup_none (.inl N.missing)]
      show (pageGet s e va).bind s.seen = none
      rw [pageGet_table ht]
      exact Vm.seen_eq_none.mpr htgt
    · have hget : pageGet s e va = pageGet s₀ e va := by
        unfold pageGet
        rw [A.kept e _ hnew]
      show (pageGet s e va).bind s.seen = (pageGet s₀ e va).bind s₀.seen
      rw [hget] at hne' hslot ⊢
      cases hE : pageGet s₀ e va with
      | none => rfl
      | some E =>
        rw [hE] at hne' hslot
        obtain ⟨-, rfl⟩ := pageGet_eq_some.mp hE
        refine A.seen _ (fun k hk hbit => ⟨old_table R₀ he (pdx_lt va) hk hbit, ?_⟩) fun w hw h => ?_
        · exact fun h => hslot k hk hbit (congrArg some h)
        · exact hne' w hw (congrArg some h)

/-! ## The page tables of a stopped run -/

theorem pageSteps_prefix {a b : Nat} {pre post : List Nat} (h : pageSteps a b = pre ++ i :: post) :
    pageSteps a i = pre ∧ a ≤ i := by
  have hget : (pageSteps a b)[pre.length]? = some i := by simp [h]
  obtain ⟨hlt, hi⟩ : pre.length < (b - a + 0xFFF) / 0x1000 ∧ a + pre.length * 0x1000 = i := by
    simpa [pageSteps, List.getElem?_map, List.getElem?_range, Option.map_eq_some_iff, List.getElem?_eq_some_iff] using hget
  have hpre : (pageSteps a b).take pre.length = pre := by rw [h, List.take_left]
  refine ⟨?_, by omega⟩
  have hlen : (i - a + 0xFFF) / 0x1000 = pre.length := by omega
  rw [← hpre, pageSteps, hlen, pageSteps, ← List.map_take, List.take_range, Nat.min_eq_left (Nat.le_of_lt hlt)]

theorem pdx_eq (h : w < 2 ^ 32) : pdx w = w / 0x400000 := by
  unfold pdx
  omega

/-- The directory entries behind a page of a range are those of the pages before it. -/
theorem mem_pdeRange {a : Nat} (ha : a ≤ i) (hpage : a % 0x1000 = 0) (hi : i < 2 ^ 32) :
    j ∈ pdeRange a i ↔ (∃ w ∈ pageSteps a i, pdx w = j) ∧ j ≠ pdx i := by
  rw [pdeRange, List.mem_range'_1, pdx_eq hi, pdx_eq (Nat.lt_of_le_of_lt ha hi)]
  constructor
  · rintro ⟨hle, hlt⟩
    refine ⟨⟨max a (j * 0x400000), mem_pageSteps.mpr ⟨?_, (max a (j * 0x400000) - a) / 0x1000, ?_⟩, ?_⟩, by omega⟩
    · omega
    · omega
    · rw [pdx_eq (by omega)]
      omega
  · rintro ⟨⟨w, hw, rfl⟩, hne⟩
    obtain ⟨hlt, k, rfl⟩ := mem_pageSteps.mp hw
    rw [pdx_eq (by omega)] at hne ⊢
    omega

section

variable {pre post : List Nat} {s₁ : Vm} {L₁ : Ledger Nat}

/-- `segment_alloc` from the label on, with the state `s₀` before the call. -/
def badSegmentAlloc (s₀ : Vm) (d va i : Nat) : VmM Int := do
  removeAll d (pageSteps (roundDown va) i)
  pdeFreeAll d (pdeRange (roundDown va) i)
  let s ← get
  ASSERT ((s.dirs d).countKernel = (s₀.dirs d).countKernel) "count_kernel == count_kernel_before_segment_alloc"
  ASSERT (s.phys.memFree = s₀.phys.memFree) "mem_free() == mem_before_segment_alloc"
  return -ENOMEM

theorem badSegmentAlloc_eq (h : badSegmentAlloc s₀ d va i s = .ok (r, s')) : r = -ENOMEM := by
  simp only [badSegmentAlloc, ASSERT, bind_apply_ok, get_run, lift_apply_ok,
    check_ok, pure_apply, Except.ok.injEq, Prod.mk.injEq] at h
  obtain ⟨_, _, -, _, _, -, _, _, -, _, _, -, hr, -⟩ := h
  exact hr.symm

/-- What `segment_alloc` does when the loop has stopped at `i`. -/
theorem segmentAlloc_stop (hint : Vm.assertIntDisable s₀ = .ok ((), s₀))
    (hloop : segmentAllocLoop d perm (segmentPages va len) s₀ = .ok (some (i, -ENOMEM), s₁)) :
    segmentAlloc d va len perm s₀ = badSegmentAlloc s₀ d va i s₁ := by
  unfold segmentAlloc
  rw [bind_run hint, get_run]
  exact bind_run hloop

theorem missing_pdeRange (hi : i < 2 ^ 32) (hpre : pageSteps (roundDown va) i = pre) (hle : roundDown va ≤ i)
    (C : CleanStop s₀ d pre i) : missingTables s₀ d pre.toFinset = (pdeRange (roundDown va) i).toFinset := by
  have hpage : roundDown va % 0x1000 = 0 := by
    unfold roundDown
    omega
  ext j
  rw [List.mem_toFinset, mem_pdeRange hle hpage hi, hpre, mem_missingTables]
  simp only [List.mem_toFinset]
  constructor
  · rintro ⟨⟨w, hw, rfl⟩, h0⟩
    exact ⟨⟨w, hw, rfl⟩, fun h => C.here w hw h (h ▸ h0)⟩
  · rintro ⟨⟨w, hw, rfl⟩, hne⟩
    exact ⟨⟨w, hw, rfl⟩, C.before w hw hne⟩

section

variable (R₀ : Ready S ty s₀ L₀ holds c) (hd : d < s₀.dirsNr) (T : TablesOnce s₀ d) (hperm : perm.getLsbD 0 = true)

include R₀ hd T hperm

/-- The page tables that are released are those that were made. -/
theorem Added.stop_clean (hw : s₀.Words) (hi : i < 2 ^ 32) (hpre : pageSteps (roundDown va) i = pre)
    (hle : roundDown va ≤ i) (A : Added S ty holds c s₀ L₀ d perm pre.toFinset (missingTables s₀ d pre.toFinset) s₁ L₁)
    (C : CleanStop s₀ d pre i) :
    ∃ s', badSegmentAlloc s₀ d va i s₁ = .ok (-ENOMEM, s') ∧ Restored s₀ s' := by
  obtain ⟨s₂, L₂, hremove, A₂⟩ := A.removeAll R₀ hd T hperm pre (hpre ▸ nodup_pageSteps ..)
  rw [missing_pdeRange hi hpre hle C] at A₂
  obtain ⟨s', L', hfree, A'⟩ := A₂.pdeFreeAll R₀ hd hperm _ (List.nodup_range' ..)
  have Re := A'.restored R₀ hw
  refine ⟨s', ?_, Re⟩
  unfold badSegmentAlloc
  rw [hpre, bind_run hremove, bind_run hfree, get_run,
    ASSERT_lift (Re.kernel d), ASSERT_lift Re.memFree]
  rfl

/-- If everything is as it was, the tables that were released are those that were made. -/
theorem Added.clean_of_restored (hi : i < 2 ^ 32) (hpre : pageSteps (roundDown va) i = pre)
    (hle : roundDown va ≤ i) (A : Added S ty holds c s₀ L₀ d perm pre.toFinset (missingTables s₀ d pre.toFinset) s₁ L₁)
    (hcall : badSegmentAlloc s₀ d va i s₁ = .ok (r, s')) (htab : ∀ j, (s'.dirs d).pgtables j = (s₀.dirs d).pgtables j) :
    CleanStop s₀ d pre i := by
  obtain ⟨s₂, L₂, hremove, A₂⟩ := A.removeAll R₀ hd T hperm pre (hpre ▸ nodup_pageSteps ..)
  unfold badSegmentAlloc at hcall
  rw [hpre, bind_run hremove] at hcall
  simp only [ASSERT, bind_apply_ok, get_run, lift_apply_ok, check_ok,
    pure_apply, Except.ok.injEq, Prod.mk.injEq] at hcall
  obtain ⟨_, s₃, hfree, _, _, ⟨-, rfl⟩, _, _, ⟨-, rfl⟩, -, rfl⟩ := hcall
  have hfreed := pdeFreeAll_pgtables _ hfree
  have hpage : roundDown va % 0x1000 = 0 := by
    unfold roundDown
    omega
  have hmem : ∀ j, j ∈ pdeRange (roundDown va) i ↔ (∃ w ∈ pre, pdx w = j) ∧ j ≠ pdx i := fun j => by
    rw [mem_pdeRange hle hpage hi, hpre]
  refine ⟨fun w hw hne => ?_, fun w hw heq h0 => ?_⟩
  · rw [← htab, hfreed, if_pos ((hmem _).mpr ⟨⟨w, hw, rfl⟩, hne⟩)]
  · -- the table of `i` was made for `w`, and is not among those released
    have hj : pdx i ∈ missingTables s₀ d pre.toFinset := mem_missingTables.mpr ⟨⟨w, List.mem_toFinset.mpr hw, heq⟩, h0⟩
    obtain ⟨k, t, N⟩ := A₂.fresh _ hj
    have hkeep := hfreed (pdx i)
    rw [htab, h0, if_neg fun h => ((hmem _).mp h).2 rfl, N.table] at hkeep
    exact tmpKaddr_ne_zero k hkeep.symm

end

end

theorem cut_le {pre pre' post post' as : List Nat} {i' : Nat}
    (hmono : ∀ {xs ys : Finset Nat}, xs ⊆ ys → P ys → P xs) (hpre : pre' = pre ++ as) (h : i :: post = as ++ i' :: post')
    (hP' : P pre'.toFinset) (hn : ¬ P (insert i pre.toFinset)) : pre = pre' ∧ i = i' := by
  cases as with
  | nil =>
    rw [List.nil_append] at h
    exact ⟨by rw [hpre, List.append_nil], (List.cons.inj h).1⟩
  | cons a as =>
    obtain rfl : i = a := (List.cons.inj h).1
    refine absurd (hmono (fun x hx => ?_) hP') hn
    rw [hpre, List.toFinset_append, List.toFinset_cons]
    rcases mem_insert.mp hx with rfl | hx
    · exact mem_union_right _ (mem_insert_self ..)
    · exact mem_union_left _ hx

/-- A property that larger sets do not gain cuts a list in one place. -/
theorem cut_unique {pre pre' post post' : List Nat} {i' : Nat}
    (hmono : ∀ {xs ys : Finset Nat}, xs ⊆ ys → P ys → P xs) (h : pre ++ i :: post = pre' ++ i' :: post')
    (hP : P pre.toFinset) (hP' : P pre'.toFinset) (hn : ¬ P (insert i pre.toFinset)) (hn' : ¬ P (insert i' pre'.toFinset)) :
    pre = pre' ∧ i = i' := by
  rcases List.append_eq_append_iff.mp h with ⟨as, hpre, hrest⟩ | ⟨as, hpre, hrest⟩
  · exact cut_le hmono hpre hrest hP' hn
  · obtain ⟨h1, h2⟩ := cut_le hmono hpre hrest hP hn'
    exact ⟨h1.symm, h2.symm⟩

theorem IsPage.vaAddr_eq (h : IsPage w) : vaAddr w = w := by
  have h1 := h.rounded
  have h2 := h.lt
  unfold vaAddr pdx ptx
  omega

end MakarnaX
