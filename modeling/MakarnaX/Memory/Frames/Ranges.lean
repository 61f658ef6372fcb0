import MakarnaX.Memory.Frames.Spec

/-!
# Ranges of pages

`page_alloc_insert`, `tmp_page_free`, and the functions that work through a range
of pages.  Each turn of their loops keeps the account and may add a page table,
so that the addresses of the pages still to come stay where they were: `Outside`
the direct map and the temporary addresses.
-/

namespace MakarnaX

open List

open Library
open Vm (pushcli popif assertIntDisable)

variable {S : Setup} {s s' s'' : Vm} {L : Ledger Nat} {holds : Nat → Nat} {d va src start stop : Nat} {perm : Perm}
  {is : List Nat}

/-! ## Addresses -/

/-- The address `va` of the directory `d` is neither in the direct map nor one of
the temporary addresses. -/
structure Outside (S : Setup) (s : Vm) (d va : Nat) : Prop where
  dir : d < s.dirsNr
  direct : (s.dirs d).pgtables (pdx va) ∉ S.direct
  tmp : (s.dirs d).pgtables (pdx va) ≠ S.tmpTable

/-- The address `va` of the directory `d` is not in the direct map. -/
structure Readable (S : Setup) (s : Vm) (d va : Nat) : Prop where
  dir : d < s.dirsNr
  direct : (s.dirs d).pgtables (pdx va) ∉ S.direct

theorem Outside.usable (h : Outside S s d va) : Usable S s d va :=
  ⟨h.dir, h.direct, fun ht => absurd ht h.tmp⟩

theorem Outside.grows (h : Outside S s d va) (G : Grows s s') : Outside S s' d va := by
  have hdir : d < s'.dirsNr := G.dirsNr ▸ h.dir
  rcases G.pgtables d (pdx va) with hp | ⟨k, hk, hp, -⟩
  · exact ⟨hdir, hp ▸ h.direct, hp ▸ h.tmp⟩
  · exact ⟨hdir, hp ▸ S.direct_slot k hk, hp ▸ S.tmpTable_slot k hk⟩

theorem Readable.grows (h : Readable S s d va) (G : Grows s s') : Readable S s' d va := by
  have hdir : d < s'.dirsNr := G.dirsNr ▸ h.dir
  rcases G.pgtables d (pdx va) with hp | ⟨k, hk, hp, -⟩
  · exact ⟨hdir, hp ▸ h.direct⟩
  · exact ⟨hdir, hp ▸ S.direct_slot k hk⟩

/-- The account is kept, and page tables are only added. -/
structure Kept (S : Setup) (s s' : Vm) (holds : Nat → Nat) : Prop where
  owned : ∃ L', Owned S s' L' holds
  grows : Grows s s'

theorem Kept.refl (O : Owned S s L holds) : Kept S s s holds := ⟨⟨L, O⟩, (SameMaps.refl s).grows⟩

theorem Kept.trans (h : Grows s s') (h' : Kept S s' s'' holds) : Kept S s s'' holds :=
  ⟨h'.owned, h.trans h'.grows⟩

/-! ## Single pages -/

/-- A frame is allocated and mapped at `va`; if it cannot be mapped it is freed again. -/
theorem allocInsert_spec (O : Owned S s L holds) (U : Outside S s d va)
    (hperm : perm.getLsbD 0 = true) {p : Nat} (hp : p < S.pagesNr) {r : Int} {s1 : Vm}
    (hins : pageInsert d p va perm s = .ok (r, s1)) :
    Kept S s s1 holds ∧
      ∀ {u : Unit} {s2 : Vm}, onPhys (pageFree p) s1 = .ok (u, s2) → Kept S s s2 holds := by
  have I := pageInsert_spec O U.usable hp hperm hins
  refine ⟨⟨I.owned, I.grows⟩, fun hfree => ?_⟩
  obtain ⟨L1, O1⟩ := I.owned
  obtain ⟨M, hO⟩ := O1.pageFree hp hfree
  exact ⟨hO, I.grows.trans M.grows⟩

theorem pageAllocInsert_spec (O : Owned S s L holds) (U : Outside S s d va)
    (hperm : perm.getLsbD 0 = true) {r : Int} (h : pageAllocInsert d va perm s = .ok (r, s')) :
    Kept S s s' holds := by
  simp only [pageAllocInsert, bind_apply_ok] at h
  obtain ⟨_, s0, hcli, pg, s1, halloc, h⟩ := h
  have M0 := Vm.pushcli_ok hcli
  rcases (O.silent M0).pageAlloc halloc with ⟨rfl, rfl⟩ | ⟨p, rfl, hp, -, M1, L1, O1⟩
  · simp at h
    obtain ⟨⟨_, hpop⟩, -⟩ := h
    have M := M0.trans (Vm.popif_ok hpop)
    exact ⟨⟨L, O.silent M⟩, M.grows⟩
  · have G1 : Grows s s1 := M0.grows.trans M1.grows
    simp only [bind_apply_ok] at h
    obtain ⟨r1, s2, hins, h⟩ := h
    obtain ⟨hK, hfree⟩ := allocInsert_spec O1 (U.grows G1) hperm hp hins
    have hpop : ∀ {s3 : Vm}, Kept S s1 s3 holds → (∃ u, popif s3 = .ok (u, s')) → Kept S s s' holds := by
      rintro s3 ⟨⟨L3, O3⟩, G3⟩ ⟨u, hpop⟩
      have M := Vm.popif_ok hpop
      exact ⟨⟨L3, O3.silent M⟩, (G1.trans G3).trans M.grows⟩
    split at h
    · simp only [bind_apply_ok, pure_apply, Except.ok.injEq, Prod.mk.injEq] at h
      obtain ⟨_, s3, hfr, u, s4, hp4, -, rfl⟩ := h
      exact hpop (hfree hfr) ⟨u, hp4⟩
    · simp only [bind_apply_ok, pure_apply, Except.ok.injEq, Prod.mk.injEq] at h
      obtain ⟨u, s4, hp4, -, rfl⟩ := h
      exact hpop hK ⟨u, hp4⟩

/-- `tmp_page_free` on a temporary address that holds no page table: it is
unmapped and released, or it was not mapped. -/
structure TmpFreed (S : Setup) (s s' : Vm) (k : Nat) (holds : Nat → Nat) : Prop where
  owned : ∃ L', Owned S s' L' holds
  tables : SameTables s s'
  bits : ∀ j, j ≠ k → s'.tmpPages.test j = s.tmpPages.test j

theorem tmpPageFree_spec {k : Nat} (hk : k < 1024) (O : Owned S s L holds)
    (hfree : tmpKaddr k ∉ liveTables S s) {r : Int} (h : tmpPageFree (tmpVa k) s = .ok (r, s')) :
    TmpFreed S s s' k holds ∧ (r < 0 → s'.tmpPages = s.tmpPages) := by
  simp only [tmpPageFree, ASSERT, bind_apply_ok, Vm.assertIntDisable_ok, lift_apply_ok,
    check_ok] at h
  obtain ⟨_, _, ⟨-, rfl⟩, _, _, ⟨-, rfl⟩, r1, s1, hrm, h⟩ := h
  have htab : (s.dirs 0).pgtables (pdx (tmpVa k)) = S.tmpTable := by
    rw [pdx_tmpVa hk]
    exact O.tmpTable
  have U : Usable S s 0 (tmpVa k) :=
    ⟨O.dirs, htab ▸ S.tmpTable_direct, fun _ => by rw [ptx_tmpVa hk]; exact hfree⟩
  have R := pageRemove_spec O U hrm
  obtain ⟨L1, O1⟩ := R.owned
  split at h
  · rename_i hpos
    simp only [bind_apply_ok, pure_apply, Except.ok.injEq, Prod.mk.injEq] at h
    obtain ⟨_, s2, hput, rfl, rfl⟩ := h
    cases tmpPagePut_ok hk hput
    refine ⟨⟨⟨L1, O1.setBits fun j hj hl => ?_⟩, ⟨R.tables.dirsNr, R.tables.pgtables⟩, fun j hj => ?_⟩,
      fun h => by omega⟩
    · have hjk : j ≠ k := by
        rintro rfl
        rw [R.tables.liveTables] at hl
        exact hfree hl
      rw [Bitmap.test_reset, O1.taken j hj hl]
      simp [hjk]
    · show (s1.tmpPages.reset k).test j = _
      rw [Bitmap.test_reset, R.tmpPages]
      simp [hj]
  · simp only [pure_apply, Except.ok.injEq, Prod.mk.injEq] at h
    obtain ⟨rfl, rfl⟩ := h
    exact ⟨⟨⟨L1, O1⟩, R.tables, fun j _ => by rw [R.tmpPages]⟩, fun _ => R.tmpPages⟩

/-! ## `segment_alloc` -/

theorem segmentAllocLoop_spec (hperm : perm.getLsbD 0 = true) :
    ∀ {s s' : Vm} {L : Ledger Nat} {r : Option (Nat × Int)}, Owned S s L holds →
      (∀ i ∈ is, Outside S s d i) → segmentAllocLoop d perm is s = .ok (r, s') →
      Kept S s s' holds ∧ ∀ i err, r = some (i, err) → err < 0 := by
  induction is with
  | nil =>
    intro s s' L r O _ h
    cases h
    exact ⟨.refl O, fun _ _ h => (by cases h)⟩
  | cons i is ih =>
    intro s s' L r O U h
    simp only [segmentAllocLoop, bind_apply_ok] at h
    obtain ⟨pg, s1, halloc, h⟩ := h
    rcases O.pageAlloc halloc with ⟨rfl, rfl⟩ | ⟨p, rfl, hp, -, M1, L1, O1⟩
    · cases h
      exact ⟨.refl O, fun _ _ h => by cases h; decide⟩
    · simp only [bind_apply_ok] at h
      obtain ⟨err, s2, hins, h⟩ := h
      obtain ⟨hK, hfree⟩ := allocInsert_spec O1 ((U i mem_cons_self).grows M1.grows) hperm hp hins
      split at h
      · rename_i herr
        simp only [bind_apply_ok, pure_apply, Except.ok.injEq, Prod.mk.injEq] at h
        obtain ⟨_, s3, hfr, rfl, rfl⟩ := h
        exact ⟨(hfree hfr).trans M1.grows, fun _ _ h => by cases h; exact herr⟩
      · obtain ⟨⟨L2, O2⟩, G2⟩ := hK
        have G : Grows s s2 := M1.grows.trans G2
        obtain ⟨hK', herr⟩ := ih O2 (fun j hj => (U j (mem_cons_of_mem _ hj)).grows G) h
        exact ⟨hK'.trans G, herr⟩

theorem segmentAlloc_spec {len : Nat} (hperm : perm.getLsbD 0 = true) (O : Owned S s L holds)
    (U : ∀ i ∈ pageSteps (roundDown va) (roundUp (add32 va len)), Outside S s d i)
    (h : segmentAlloc d va len perm s = .ok (0, s')) : Kept S s s' holds := by
  simp only [segmentAlloc, bind_apply_ok, Vm.assertIntDisable_ok, get_run] at h
  obtain ⟨_, _, ⟨-, rfl⟩, r, s1, hloop, h⟩ := h
  obtain ⟨hK, herr⟩ := segmentAllocLoop_spec hperm O U hloop
  rcases r with _ | ⟨i, err⟩
  · cases h
    exact hK
  · simp [ASSERT] at h
    have := herr i err rfl
    omega

/-! ## `link_pages` -/

theorem linkPagesLoop_spec (hperm : perm.getLsbD 0 = true) :
    ∀ {s s' : Vm} {L : Ledger Nat} {r : Int}, Owned S s L holds → (∀ i ∈ is, Outside S s d i) →
      (∀ i ∈ is, Readable S s src i) → linkPagesLoop d src perm is s = .ok (r, s') →
      Kept S s s' holds := by
  induction is with
  | nil =>
    intro s s' L r O _ _ h
    cases h
    exact .refl O
  | cons i is ih =>
    intro s s' L r O U V h
    have next : ∀ {s1 : Vm} {r : Int}, Kept S s s1 holds → linkPagesLoop d src perm is s1 = .ok (r, s') →
        Kept S s s' holds := by
      rintro s1 r ⟨⟨L1, O1⟩, G⟩ h
      exact (ih O1 (fun j hj => (U j (mem_cons_of_mem _ hj)).grows G)
        (fun j hj => (V j (mem_cons_of_mem _ hj)).grows G) h).trans G
    simp only [linkPagesLoop, get_run] at h
    cases hget : pageGet s src i with
    | none =>
      rw [hget] at h
      exact next (.refl O) h
    | some e =>
      simp only [hget] at h
      cases hpres : (s.pte e).present with
      | false =>
        rw [hpres, if_neg Bool.false_ne_true] at h
        exact next (.refl O) h
      | true =>
        rw [hpres, if_pos rfl, bind_apply_ok] at h
        obtain ⟨r1, s1, hins, h⟩ := h
        obtain ⟨hne, rfl⟩ := pageGet_eq_some.mp hget
        have hV := V i mem_cons_self
        have he : ((s.dirs src).pgtables (pdx i), ptx i) ∈ entries S s :=
          mem_entries.mpr
            ⟨mem_liveTables.mpr ⟨⟨src, pdx i, hV.dir, pdx_lt i, rfl⟩, hne, hV.direct⟩, ptx_lt i⟩
        have hframe := O.frames _ he _ (target_of_present hpres)
        have hidx : pageIndex (s.pte ((s.dirs src).pgtables (pdx i), ptx i)).physAddr =
            (s.pte ((s.dirs src).pgtables (pdx i), ptx i)).physPgno := by
          unfold pageIndex PTE.physAddr
          omega
        rw [hidx] at hins
        obtain ⟨hK, -⟩ := allocInsert_spec O (U i mem_cons_self) hperm hframe hins
        split at h
        · cases h
          exact hK
        · exact next hK h

theorem pageRange_ok {start stop : Nat} (h : pageRange start stop = .ok is) :
    is = pageSteps start stop := by
  unfold pageRange at h
  split at h
  · exact (Except.ok.inj h).symm
  · cases h

theorem linkPages_spec (hperm : perm.getLsbD 0 = true)
    (O : Owned S s L holds) (U : ∀ i ∈ pageSteps start stop, Outside S s d i)
    (V : ∀ i ∈ pageSteps start stop, Readable S s src i)
    (h : linkPages d src start stop perm s = .ok (0, s')) : Kept S s s' holds := by
  simp only [linkPages, bind_apply_ok, Vm.assertIntDisable_ok, lift_apply_ok] at h
  obtain ⟨_, _, ⟨-, rfl⟩, is, _, ⟨his, rfl⟩, r, s1, hloop, h⟩ := h
  cases pageRange_ok his
  have hK := linkPagesLoop_spec hperm O U V hloop
  split at h
  · simp [ENOMEM] at h
  · cases h
    exact hK

/-! ## `copy_pages` -/

theorem perm_and_seven (h : perm.getLsbD 0 = true) : (perm &&& 0x7).getLsbD 0 = true := by
  rw [BitVec.getLsbD_and, h]
  rfl

theorem copyPageFromCurrent_spec (O : Owned S s L holds) (U : Outside S s d va)
    (hperm : perm.getLsbD 0 = true) {r : Int} (h : copyPageFromCurrent d src va perm s = .ok (r, s')) :
    Kept S s s' holds := by
  simp only [copyPageFromCurrent, bind_apply_ok, Vm.assertIntDisable_ok] at h
  obtain ⟨_, _, ⟨-, rfl⟩, pg, s1, hmap, h⟩ := h
  have T := tmpPageAllocMap_spec O perm_PW hmap
  obtain ⟨L1, O1⟩ := T.owned
  rcases pg with _ | ⟨p, tva⟩
  · cases h
    exact ⟨⟨L1, O1⟩, T.tables.dirsNr, fun d i => .inl (T.tables.pgtables d i),
      fun k hk => by rw [T.fail rfl]; exact hk⟩
  obtain ⟨hp, k, hk, rfl, hclear, hfresh, hbits, -⟩ := T.slot p tva rfl
  have G1 : Grows s s1 :=
    ⟨T.tables.dirsNr, fun d i => .inl (T.tables.pgtables d i), fun j hj => by rw [hbits, hj, Bool.or_true]⟩
  simp only [bind_apply_ok, modify_apply, Except.ok.injEq, Prod.mk.injEq] at h
  obtain ⟨_, s2, ⟨-, hs2⟩, r2, s3, hins, h⟩ := h
  have M2 : SameMaps s1 s2 := by
    rw [← hs2]
    exact ⟨⟨rfl, fun _ _ => rfl⟩, rfl, rfl⟩
  have O2 : Owned S s2 L1 holds := O1.congr M2 (by rw [← hs2]) (by rw [← hs2])
  have G2 : Grows s s2 := G1.trans M2.grows
  obtain ⟨⟨⟨L3, O3⟩, G3⟩, -⟩ := allocInsert_spec O2 (U.grows G2) (perm_and_seven hperm) hp hins
  have G : Grows s s3 := G2.trans G3
  -- the temporary address is in use, so the page table `page_insert` may add is another one
  have hfree3 : tmpKaddr k ∉ liveTables S s3 := by
    refine G3.notMem_live ?_ ?_
    · rw [M2.tmpPages, hbits]
      simp
    · rw [M2.liveTables, T.tables.liveTables]
      exact hfresh
  have final : ∀ {r : Int} {s4 : Vm}, tmpPageFree (tmpVa k) s3 = .ok (r, s4) → Kept S s s4 holds := by
    intro r s4 hf
    obtain ⟨F, -⟩ := tmpPageFree_spec hk O3 hfree3 hf
    refine ⟨F.owned, F.tables.dirsNr.trans G.dirsNr, fun d i => ?_, fun j hj => ?_⟩
    · rw [F.tables.pgtables]
      exact G.pgtables d i
    · have hjk : j ≠ k := by
        rintro rfl
        rw [hj] at hclear
        cases hclear
      rw [F.bits j hjk]
      exact G.bits j hj
  split at h
  · simp only [ASSERT, bind_apply_ok, lift_apply_ok, check_ok, pure_apply,
      Except.ok.injEq, Prod.mk.injEq] at h
    obtain ⟨_, s4, hf, _, _, ⟨-, rfl⟩, -, rfl⟩ := h
    exact final hf
  · simp only [ASSERT, bind_apply_ok, lift_apply_ok, check_ok, pure_apply,
      Except.ok.injEq, Prod.mk.injEq] at h
    obtain ⟨_, s4, hf, _, _, ⟨-, rfl⟩, -, rfl⟩ := h
    exact final hf

theorem perm_of_present {e : PTE} (h : e.present = true) : e.perm.getLsbD 0 = true := by
  simpa [PTE.perm, PTE.present] using h

theorem copyPagesLoop_spec :
    ∀ {s s' : Vm} {L : Ledger Nat} {r : Int}, Owned S s L holds → (∀ i ∈ is, Outside S s d i) →
      copyPagesLoop d src is s = .ok (r, s') → Kept S s s' holds := by
  induction is with
  | nil =>
    intro s s' L r O _ h
    cases h
    exact .refl O
  | cons i is ih =>
    intro s s' L r O U h
    have next : ∀ {s1 : Vm} {r : Int}, Kept S s s1 holds → copyPagesLoop d src is s1 = .ok (r, s') →
        Kept S s s' holds := by
      rintro s1 r ⟨⟨L1, O1⟩, G⟩ h
      exact (ih O1 (fun j hj => (U j (mem_cons_of_mem _ hj)).grows G) h).trans G
    simp only [copyPagesLoop, get_run] at h
    cases hget : pageGet s src i with
    | none =>
      rw [hget] at h
      exact next (.refl O) h
    | some e =>
      simp only [hget] at h
      cases hpres : (s.pte e).present with
      | false =>
        rw [hpres, if_neg Bool.false_ne_true] at h
        exact next (.refl O) h
      | true =>
        rw [hpres, if_pos rfl, bind_apply_ok] at h
        obtain ⟨err, s1, hcopy, h⟩ := h
        have hK := copyPageFromCurrent_spec O (U i mem_cons_self) (perm_of_present hpres) hcopy
        split at h
        · cases h
          exact hK
        · exact next hK h

theorem copyPages_spec (O : Owned S s L holds) (U : ∀ i ∈ pageSteps start stop, Outside S s d i) {r : Int}
    (h : copyPages d src start stop s = .ok (r, s')) : Kept S s s' holds := by
  simp only [copyPages, bind_apply_ok, Vm.assertIntDisable_ok, get_run] at h
  obtain ⟨_, _, ⟨-, rfl⟩, h⟩ := h
  split at h
  · simp only [bind_apply_ok, lift_apply_ok] at h
    obtain ⟨is, _, ⟨his, rfl⟩, h⟩ := h
    cases pageRange_ok his
    exact copyPagesLoop_spec O U h
  · simp [PANIC] at h

end MakarnaX
