import MakarnaX.Memory.Paging.Tables

/-!
# States in which the page functions run through

`Owned` accounts for the references to frames.  `Ready` adds what the assertions
of the code rest on: the interrupt state is sane, a temporary address is marked as
taken when something is mapped there, and a frame that is mapped is not frame 0
and, unless the kernel holds it, available memory.  Then no call on an address
outside the direct map and the temporary addresses fails an assertion, with one
exception: a page may not be replaced by itself when nobody else refers to it.

The account behind a call is the one `Frames.Spec` speaks of, because a state has
only one ledger.
-/

namespace MakarnaX

open Function

open Library (Ledger)

structure Ready (S : Setup) (ty : Nat → PageType) (s : Vm) (L : Ledger Nat) (holds : Nat → Nat) (c : Cpu) : Prop where
  owned : Owned S s L holds
  account : s.phys.Account S.pagesNr ty L c
  sane : c.Sane
  slots : ∀ k < 1024, s.tmpPages.test k = true ↔ s.target (S.tmpTable, k) ≠ none
  typed : ∀ f, 0 < mapped S s f → f ≠ 0 ∧ (ty f = .available ∨ 0 < holds f)

variable {S : Setup} {ty : Nat → PageType} {s s' : Vm} {L L' : Ledger Nat} {holds : Nat → Nat} {c : Cpu}
  {d i va p f k t : Nat} {perm : Perm} {rest : List Nat}

theorem mapped_pos {e : Nat × Nat} (he : e ∈ entries S s) (hf : s.target e = some f) : 0 < mapped S s f :=
  Finset.card_pos.mpr ⟨e, Finset.mem_filter.mpr ⟨he, hf⟩⟩

theorem exists_of_mapped_pos (h : 0 < mapped S s f) : ∃ e ∈ entries S s, s.target e = some f := by
  obtain ⟨e, he⟩ := Finset.card_pos.mp h
  exact ⟨e, (Finset.mem_filter.mp he).1, (Finset.mem_filter.mp he).2⟩

theorem Vm.target_congr {e : Nat × Nat} (h : s'.pte e = s.pte e) : s'.target e = s.target e := by
  rw [Vm.target, Vm.target, h]

theorem Vm.Maps.target (h : s.Maps d va f) : s.target (s.entry d va) = some f := by
  rw [target_of_present h.present, h.frame]

/-- A frame a page function maps: memory that can be freed, or that the kernel holds. -/
structure Mappable (S : Setup) (ty : Nat → PageType) (holds : Nat → Nat) (p : Nat) : Prop where
  lt : p < S.pagesNr
  ne : p ≠ 0
  avail : ty p = .available ∨ 0 < holds p

namespace Ready

section

variable (R : Ready S ty s L holds c)

include R

theorem refs_eq (f : Nat) : L.refs f = mapped S s f + holds f := R.owned.refs f

/-- A reference to a frame that is mapped can be dropped. -/
theorem droppable (hN : f < S.pagesNr) (hf : 0 < mapped S s f) :
    Droppable S.pagesNr ty L f := by
  have hrefs := R.refs_eq f
  obtain ⟨h0, hty⟩ := R.typed f hf
  have hpos : 0 < L.refs f := by omega
  exact ⟨hN, h0, L.notMem_of_refs_pos hpos, hpos, fun h1 => hty.resolve_right (by omega)⟩

theorem droppable_of_maps (U : Usable S s d va) (hm : s.Maps d va f) :
    Droppable S.pagesNr ty L f := by
  have he := U.mem_entries hm.table
  exact R.droppable (R.owned.frames _ he f hm.target) (mapped_pos he hm.target)

/-- A free frame can be mapped. -/
theorem mappable_of_free (hf : f ∈ L.free) : Mappable S ty holds f :=
  ⟨(R.owned.rep.bound f hf).2, Nat.ne_of_gt (R.owned.rep.bound f hf).1, .inl (R.account.avail f hf)⟩

/-- Behind a call that keeps the account. -/
theorem ofCall (hO : ∃ L₁, Owned S s' L₁ holds) (A : s'.phys.Account S.pagesNr ty L' c)
    (hslots : ∀ k < 1024, s'.tmpPages.test k = true ↔ s'.target (S.tmpTable, k) ≠ none)
    (hrefs : ∀ f, L'.refs f ≤ L.refs f ∨ Mappable S ty holds f) : Ready S ty s' L' holds c := by
  obtain ⟨L₁, O⟩ := hO
  obtain rfl : L₁ = L' := O.rep.unique A.rep
  refine ⟨O, A, R.sane, hslots, fun f hf => ?_⟩
  rcases hrefs f with hle | hmap
  · have h1 := O.refs f
    have h2 := R.refs_eq f
    exact R.typed f (by omega)
  · exact ⟨hmap.ne, hmap.avail⟩

theorem ofAccount {q : Phys} (A : q.Account S.pagesNr ty L c) :
    Ready S ty { s with phys := q } L holds c :=
  R.ofCall ⟨L, R.owned.ofRep (sameMaps_phys q) A.rep R.owned.refs⟩ A R.slots fun _ => .inl (Nat.le_refl _)

end

theorem entry_ne_slot (U : Outside S s d va) : s.entry d va ≠ (S.tmpTable, k) := fun h => U.tmp (congrArg Prod.fst h)

/-! ## Unmapping -/

theorem drop_refs_le (hf : f ∉ L.free) (g : Nat) : (L.drop f hf).refs g ≤ L.refs g := by
  show update L.refs f (L.refs f - 1) g ≤ L.refs g
  by_cases h : g = f
  · subst h
    rw [update_self]
    omega
  · rw [update_of_ne h]

theorem remove (R : Ready S ty s L holds c) (U : Outside S s d va) (hva : vaAddr va < MMAP_KERNEL_TOP)
    (hm : s.Maps d va f) :
    ∃ q, ∃ hf : f ∉ L.free, pageRemove d va s = .ok ((L.refs f - 1 : Nat), { s.unmap d va with phys := q }) ∧
      Ready S ty { s.unmap d va with phys := q } (L.drop f hf) holds c := by
  have D := R.droppable_of_maps U.usable hm
  obtain ⟨q, hcall, A⟩ := pageRemove_maps R.account R.sane hva hm D
  refine ⟨q, D.notMem, hcall, R.ofCall (pageRemove_spec R.owned U.usable hcall).owned A (fun k hk => ?_)
    fun g => .inl (drop_refs_le D.notMem g)⟩
  have hpte : ({ s.unmap d va with phys := q } : Vm).pte (S.tmpTable, k) = s.pte (S.tmpTable, k) := by
    refine (Vm.unmap_pte _).trans (if_neg fun h => entry_ne_slot U h.symm)
  rw [Vm.target_congr hpte]
  exact R.slots k hk

/-! ## Frames -/

section

variable (R : Ready S ty s L holds c) (hif : c.ifl = false)

include R hif

theorem alloc (hL : L.free = p :: rest) :
    ∃ q, onPhys pageAlloc s = .ok (some p, { s with phys := q }) ∧ Ready S ty { s with phys := q } (L.take hL) holds c := by
  obtain ⟨q, hcall, A⟩ := R.account.pageAlloc_some hif hL
  refine ⟨q, onPhys_of_ok hcall, R.ofCall ?_ A R.slots fun _ => .inl (Nat.le_refl _)⟩
  exact ⟨_, R.owned.ofRep (sameMaps_phys q) A.rep R.owned.refs⟩

theorem alloc_none (hL : L.free = []) :
    onPhys pageAlloc s = .ok (none, s) := onPhys_of_ok (R.account.pageAlloc_none hif hL)

theorem free (hp : Mappable S ty holds p) (hf : p ∉ L.free) (hrefs : L.refs p = 0) :
    ∃ q, onPhys (pageFree p) s = .ok ((), { s with phys := q }) ∧
      Ready S ty { s with phys := q } (L.give p hf hrefs) holds c := by
  have h0 := R.refs_eq p
  obtain ⟨q, hcall, A⟩ := R.account.pageFree hif hp.lt hp.ne hf hrefs (hp.avail.resolve_right (by omega))
  refine ⟨q, onPhys_of_ok hcall, R.ofCall ?_ A R.slots fun _ => .inl (Nat.le_refl _)⟩
  exact ⟨_, R.owned.ofRep (sameMaps_phys q) A.rep R.owned.refs⟩

end

/-! ## Mapping -/

theorem setRefs_refs_le {n : Nat} (hp : p ∉ L.free) (hmap : Mappable S ty holds p) (g : Nat) :
    (L.setRefs p n hp).refs g ≤ L.refs g ∨ Mappable S ty holds g := by
  by_cases h : g = p
  · exact .inr (h ▸ hmap)
  · exact .inl (Nat.le_of_eq (update_of_ne h ..))

/-- `page_insert` where nothing is mapped. -/
theorem insert_absent (R : Ready S ty s L holds c) (U : Outside S s d va) (hva : vaAddr va < MMAP_KERNEL_TOP)
    (hperm : perm.getLsbD 0 = true) (hmap : Mappable S ty holds p) (Sh : Sharable L p)
    (ht : (s.dirs d).pgtables (pdx va) ≠ 0) (habs : (s.pte (s.entry d va)).present = false) :
    ∃ q, pageInsert d p va perm s = .ok ((L.refs p + 1 : Nat), { s.map d p va perm with phys := q }) ∧
      Ready S ty { s.map d p va perm with phys := q } (L.setRefs p (L.refs p + 1) Sh.notMem) holds c := by
  obtain ⟨q, hcall, A⟩ := pageInsertWith_absent R.account R.sane hva ht habs Sh
  refine ⟨q, hcall, R.ofCall (pageInsert_spec R.owned U.usable hmap.lt hperm hcall).owned A (fun k hk => ?_)
    (setRefs_refs_le Sh.notMem hmap)⟩
  have hpte : ({ s.map d p va perm with phys := q } : Vm).pte (S.tmpTable, k) = s.pte (S.tmpTable, k) :=
    (Vm.map_pte _).trans (if_neg fun h => entry_ne_slot U h.symm)
  rw [Vm.target_congr hpte]
  exact R.slots k hk

/-- `page_insert` without a page table, and without the means for one. -/
theorem insert_exhausted (R : Ready S ty s L holds c) (h0 : (s.dirs d).pgtables (pdx va) = 0) (h : Exhausted s L) :
    ∃ q, pageInsert d p va perm s = .ok (-ENOMEM, { s with phys := q }) ∧ Ready S ty { s with phys := q } L holds c := by
  obtain ⟨q, hcall, A, -⟩ := pageInsert_exhausted R.account R.sane h0 h
  exact ⟨q, hcall, R.ofAccount A⟩

/-! ## Temporary pages -/

section

variable (R : Ready S ty s L holds c)

include R

theorem slot_clear (hk : k < 1024) (hbit : s.tmpPages.test k = false) :
    (s.pte (S.tmpTable, k)).present = false := by
  cases hp : (s.pte (S.tmpTable, k)).present with
  | false => rfl
  | true =>
    have hne : s.target (S.tmpTable, k) ≠ none := by simp [target_of_present hp]
    rw [(R.slots k hk).mpr hne] at hbit
    cases hbit

/-- Unless there is no address or no frame left, `tmp_page_alloc_map` has something to map. -/
theorem canMap (h : ¬ Exhausted s L) : ∃ k p rest, CanMap s L k p rest := by
  rw [Exhausted, not_or] at h
  obtain ⟨k, hslot⟩ := Option.ne_none_iff_exists'.mp h.1
  obtain ⟨p, rest, hfree⟩ := List.exists_cons_of_ne_nil h.2
  obtain ⟨hk, hbit⟩ := Bitmap.findFirstZero_some hslot
  refine ⟨k, p, rest, hslot, hfree, ?_, ?_⟩
  · rw [R.owned.tmpTable]
    exact S.tmpTable_ne
  · rw [R.owned.tmpTable]
    exact R.slot_clear hk hbit

theorem canMap_mappable (M : CanMap s L k p rest) : Mappable S ty holds p :=
  R.mappable_of_free (M.free ▸ List.mem_cons_self)

theorem mapTmp_pte (hk : k < 1024) (e : Nat × Nat) :
    (s.mapTmp k p perm).pte e = if e = (S.tmpTable, k) then .ofAddr (p * 0x1000) perm else s.pte e := by
  have hent : ({ s with tmpPages := s.tmpPages.set k } : Vm).entry 0 (tmpVa k) = (S.tmpTable, k) := by
    rw [entry_tmpVa hk, R.owned.tmpTable]
  rw [Vm.mapTmp, Vm.map_pte, hent]
  rfl

theorem mapTmp_slots (hk : k < 1024) (hperm : perm.getLsbD 0 = true) {j : Nat}
    (hj : j < 1024) : (s.mapTmp k p perm).tmpPages.test j = true ↔ (s.mapTmp k p perm).target (S.tmpTable, j) ≠ none := by
  have hbits : (s.mapTmp k p perm).tmpPages = s.tmpPages.set k := rfl
  rw [hbits, Bitmap.test_set, Vm.target, R.mapTmp_pte hk]
  by_cases hjk : j = k
  · subst hjk
    simp [ofAddr_present hperm]
  · have hne : (S.tmpTable, j) ≠ (S.tmpTable, k) := fun h => hjk (congrArg Prod.snd h)
    rw [if_neg hne, decide_eq_false hjk, Bool.false_or]
    exact R.slots j hj

end

theorem ledger_refs_le (M : CanMap s L k p rest) (hmap : Mappable S ty holds p) (g : Nat) :
    M.ledger.refs g ≤ L.refs g ∨ Mappable S ty holds g :=
  setRefs_refs_le (L := L.take M.free) M.notMem hmap g

section

variable (R : Ready S ty s L holds c)

include R

theorem tmpAlloc (hif : c.ifl = false) (hperm : perm.getLsbD 0 = true) (M : CanMap s L k p rest) :
    ∃ q, tmpPageAllocMap perm s = .ok (some (p, tmpVa k), { s.mapTmp k p perm with phys := q }) ∧
      Ready S ty { s.mapTmp k p perm with phys := q } M.ledger holds c := by
  obtain ⟨q, hcall, A⟩ := tmpPageAllocMap_maps R.account R.sane hif M
  exact ⟨q, hcall, R.ofCall (tmpPageAllocMap_spec R.owned hperm hcall).owned A
    (fun j hj => R.mapTmp_slots M.lt hperm hj) (ledger_refs_le M (R.canMap_mappable M))⟩

theorem unmapTmp_pte (hk : k < 1024) (e : Nat × Nat) :
    (s.unmapTmp k).pte e = if e = (S.tmpTable, k) then .ofAddr 0 0 else s.pte e := by
  have hent : s.entry 0 (tmpVa k) = (S.tmpTable, k) := by rw [entry_tmpVa hk, R.owned.tmpTable]
  have hunmap : (s.unmapTmp k).pte e = _ := Vm.unmap_pte e
  rw [hent] at hunmap
  exact hunmap

theorem unmapTmp_slots (hk : k < 1024) {j : Nat} (hj : j < 1024) :
    (s.unmapTmp k).tmpPages.test j = true ↔ (s.unmapTmp k).target (S.tmpTable, j) ≠ none := by
  have hbits : (s.unmapTmp k).tmpPages = s.tmpPages.reset k := rfl
  rw [hbits, Bitmap.test_reset, Vm.target, R.unmapTmp_pte hk]
  by_cases hjk : j = k
  · subst hjk
    rw [if_pos rfl, present_ofAddr_zero]
    simp
  · have hne : (S.tmpTable, j) ≠ (S.tmpTable, k) := fun h => hjk (congrArg Prod.snd h)
    rw [if_neg hne, decide_eq_false hjk, Bool.not_false, Bool.true_and]
    exact R.slots j hj

/-- A temporary address in use maps a frame. -/
theorem tmpHolds (hk : k < 1024) (hf : s.target (S.tmpTable, k) = some f) :
    TmpHolds s k f := by
  have hpres : (s.pte (S.tmpTable, k)).present = true := by
    cases hp : (s.pte (S.tmpTable, k)).present with
    | true => rfl
    | false =>
      rw [target_of_absent hp] at hf
      cases hf
  have hframe : (s.pte (S.tmpTable, k)).physPgno = f := by
    rw [target_of_present hpres] at hf
    exact Option.some.inj hf
  have htab := R.owned.tmpTable
  exact ⟨hk, (R.slots k hk).mpr (by simp [hf]), htab ▸ S.tmpTable_ne, htab ▸ hpres, htab ▸ hframe⟩

theorem tmp_mem_entries (hk : k < 1024) : (S.tmpTable, k) ∈ entries S s :=
  mem_entries.mpr ⟨mem_liveTables.mpr ⟨⟨0, 832, R.owned.dirs, by decide, R.owned.tmpTable⟩, S.tmpTable_ne,
    S.tmpTable_direct⟩, hk⟩

theorem tmpFree (hif : c.ifl = false) (hk : k < 1024)
    (hf : s.target (S.tmpTable, k) = some f) (hlive : tmpKaddr k ∉ liveTables S s) :
    ∃ q, ∃ hfree : f ∉ L.free, tmpPageFree (tmpVa k) s = .ok ((L.refs f - 1 : Nat), { s.unmapTmp k with phys := q }) ∧
      Ready S ty { s.unmapTmp k with phys := q } (L.drop f hfree) holds c := by
  have he := R.tmp_mem_entries hk
  have D := R.droppable (R.owned.frames _ he f hf) (mapped_pos he hf)
  obtain ⟨q, hcall, A⟩ := tmpPageFree_maps R.account R.sane hif (R.tmpHolds hk hf) D
  exact ⟨q, D.notMem, hcall, R.ofCall (tmpPageFree_spec hk R.owned hlive hcall).1.owned A
    (fun j hj => R.unmapTmp_slots hk hj) fun g => .inl (drop_refs_le D.notMem g)⟩

end

/-! ## New page tables -/

theorem withTable_pte (R : Ready S ty s L holds c) (d va t : Nat) (hk : k < 1024) (e : Nat × Nat) :
    (s.withTable d va k t).pte e = if e.1 = tmpKaddr k then ⟨0, 0⟩
      else if e = (S.tmpTable, k) then .ofAddr (t * 0x1000) (PTE_P ||| PTE_W) else s.pte e := by
  rw [← R.mapTmp_pte hk]
  have htab : (s.withTable d va k t).tables = update (s.mapTmp k t (PTE_P ||| PTE_W)).tables (tmpKaddr k)
      fun _ => ⟨0, 0⟩ := rfl
  rw [Vm.pte, htab]
  split
  · next h => rw [h, update_self]
  · next h =>
    rw [update_of_ne h]
    rfl

/-- `page_insert` where a page table has to be made. -/
theorem insert_newTable (R : Ready S ty s L holds c) (hd : d < s.dirsNr) (hva : vaAddr va < MMAP_KERNEL_TOP)
    (hperm : perm.getLsbD 0 = true) (hmap : Mappable S ty holds p) (h0 : (s.dirs d).pgtables (pdx va) = 0)
    (M : CanMap s L k t rest) (Sh : Sharable M.ledger p) :
    ∃ q, pageInsert d p va perm s =
        .ok ((M.ledger.refs p + 1 : Nat), { (s.withTable d va k t).map d p va perm with phys := q }) ∧
      Ready S ty { (s.withTable d va k t).map d p va perm with phys := q }
        (M.ledger.setRefs p (M.ledger.refs p + 1) Sh.notMem) holds c := by
  obtain ⟨q, hcall, A⟩ := pageInsert_newTable R.account R.sane hva h0 M Sh
  have U : Usable S s d va :=
    ⟨hd, h0 ▸ S.direct_ne, fun h => absurd (h.symm.trans h0) S.tmpTable_ne⟩
  refine ⟨q, hcall, R.ofCall (pageInsert_spec R.owned U hmap.lt hperm hcall).owned A (fun j hj => ?_) fun g => ?_⟩
  · have hpte : ({ (s.withTable d va k t).map d p va perm with phys := q } : Vm).pte (S.tmpTable, j) =
        (s.mapTmp k t (PTE_P ||| PTE_W)).pte (S.tmpTable, j) := by
      refine (Vm.map_pte _).trans ?_
      rw [Vm.withTable_entry, if_neg fun h => S.tmpTable_slot k M.lt (congrArg Prod.fst h).symm, R.withTable_pte _ _ _ M.lt,
        if_neg (S.tmpTable_slot k M.lt).symm, R.mapTmp_pte M.lt]
    rw [Vm.target_congr hpte]
    exact R.mapTmp_slots M.lt perm_PW hj
  · rcases setRefs_refs_le (n := M.ledger.refs p + 1) Sh.notMem hmap g with h | h
    · exact (ledger_refs_le M (R.canMap_mappable M) g).imp_left (Nat.le_trans h)
    · exact .inr h

end Ready

end MakarnaX
