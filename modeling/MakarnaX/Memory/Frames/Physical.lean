import MakarnaX.Memory.Physical

/-!
# The frames keep the ledger

`Phys.Rep` ties the array `pages` and the list `freePageList` to a ledger: the
list is the ledger's queue, the bit `free` says whether a frame is on it, and
the shared field of a frame in use is the number of its references.  Every
function of `physical.h` that returns has done one move of the ledger.
-/

namespace MakarnaX

open List Function Phys

open Library
open Phys (pushcli popif assertIntDisable)

/-- `s` represents the ledger `L` of the frames below `pagesNr`. -/
structure Phys.Rep (pagesNr : Nat) (s : Phys) (L : Ledger Nat) : Prop where
  first : s.freePageList.beginPage = L.free.head?
  last : s.freePageList.endPage = L.free.getLast?
  count : s.freePageList.count = L.free.length % 2 ^ 32
  linked : Linked (fun f => (s.pages f).nextFreeIndexOrRefCount) L.free
  free : ∀ f, (s.pages f).free = true ↔ f ∈ L.free
  refs : ∀ f, f ∉ L.free → (s.pages f).nextFreeIndexOrRefCount = L.refs f
  bound : ∀ f ∈ L.free, 0 < f ∧ f < pagesNr
  small : ∀ f, L.refs f < 2 ^ 20

variable {pagesNr : Nat} {s s' : Phys} {L : Ledger Nat} {p : Nat}

namespace Phys

@[simp] theorem setPage_pages_self {i : Nat} {pg : Page} : (s.setPage i pg).pages i = pg :=
  update_self ..

theorem setPage_pages_ne {i j : Nat} {pg : Page} (h : j ≠ i) : (s.setPage i pg).pages j = s.pages j :=
  update_of_ne h ..

@[simp] theorem setPage_freePageList {i : Nat} {pg : Page} :
    (s.setPage i pg).freePageList = s.freePageList := rfl

@[simp] theorem setNext_freePageList {i n : Nat} : (s.setNext i n).freePageList = s.freePageList := rfl

@[simp] theorem pushcli_apply : pushcli s = .ok ((), { s with cpu := s.cpu.pushcli }) := rfl

@[simp] theorem assertIntDisable_ok {u : Unit} :
    assertIntDisable s = .ok (u, s') ↔ s.cpu.ifl = false ∧ s = s' := by
  simp [assertIntDisable, Cpu.assertIntDisable, ASSERT]

/-- `popif` changes the interrupt state only. -/
theorem popif_ok {u : Unit} (h : popif s = .ok (u, s')) :
    s'.pages = s.pages ∧ s'.freePageList = s.freePageList := by
  simp [popif] at h
  obtain ⟨cpu, -, rfl⟩ := h
  exact ⟨rfl, rfl⟩

/-- Only the pages and the list matter. -/
theorem Rep.congr (R : s.Rep pagesNr L) (hp : s'.pages = s.pages)
    (hl : s'.freePageList = s.freePageList) : s'.Rep pagesNr L where
  first := by rw [hl]; exact R.first
  last := by rw [hl]; exact R.last
  count := by rw [hl]; exact R.count
  linked := by rw [hp]; exact R.linked
  free := by rw [hp]; exact R.free
  refs := by rw [hp]; exact R.refs
  bound := R.bound
  small := R.small

theorem Rep.notMem_of_not_free (R : s.Rep pagesNr L) (h : (s.pages p).free = false) : p ∉ L.free := by
  intro hp
  rw [(R.free p).mpr hp] at h
  cases h

/-- A change of a frame in use. -/
theorem Rep.setPage (R : s.Rep pagesNr L) (hp : p ∉ L.free) (pg : Page) (hfree : pg.free = false)
    (hn : pg.nextFreeIndexOrRefCount < 2 ^ 20) :
    (s.setPage p pg).Rep pagesNr (L.setRefs p pg.nextFreeIndexOrRefCount hp) where
  first := R.first
  last := R.last
  count := R.count
  linked := R.linked.congr fun f hf => by
    have hfp : f ≠ p := fun h => hp (h ▸ hf)
    rw [setPage_pages_ne hfp]
  free f := by
    by_cases hfp : f = p
    · subst hfp
      simpa [Ledger.setRefs, hfree] using hp
    · rw [setPage_pages_ne hfp]
      exact R.free f
  refs f hf := by
    by_cases hfp : f = p
    · subst hfp
      simp [Ledger.setRefs]
    · rw [setPage_pages_ne hfp, R.refs f hf]
      exact (update_of_ne hfp ..).symm
  bound := R.bound
  small f := by
    by_cases hfp : f = p
    · subst hfp
      simpa [Ledger.setRefs] using hn
    · simpa [Ledger.setRefs, hfp] using R.small f

/-- A change of the references to a frame in use. -/
theorem Rep.setNext (R : s.Rep pagesNr L) (hp : p ∉ L.free) {n : Nat} (hn : n < 2 ^ 20) :
    (s.setNext p n).Rep pagesNr (L.setRefs p n hp) := by
  have hfree : (s.pages p).free = false := by
    rw [Bool.eq_false_iff, Ne, R.free p]
    exact hp
  exact R.setPage hp { s.pages p with nextFreeIndexOrRefCount := n } hfree hn

end Phys

open Phys (Rep)

/-! ## The list of free frames -/

namespace FreePageList

theorem insert_ok {u : Unit} (h : (insert p) s = .ok (u, s')) :
    p ≠ 0 ∧
      ((s.freePageList.beginPage = none ∧ s' = { s.setNext p 0 with
          freePageList := ⟨some p, some p, add32 s.freePageList.count 1⟩ }) ∨
        ∃ b e, s.freePageList.beginPage = some b ∧ s.freePageList.endPage = some e ∧
          s' = { (s.setNext p 0).setNext e p with
            freePageList := ⟨some b, some p, add32 s.freePageList.count 1⟩ }) := by
  simp only [insert, ASSERT, bind_apply_ok, lift_apply_ok, check_ok,
    modify_apply, get_run, Except.ok.injEq, Prod.mk.injEq] at h
  obtain ⟨-, _, ⟨hp, rfl⟩, -, s1, ⟨-, rfl⟩, h⟩ := h
  refine ⟨hp, ?_⟩
  rw [setNext_freePageList] at h
  cases hb : s.freePageList.beginPage with
  | none =>
    simp [hb] at h
    exact .inl ⟨rfl, h.symm⟩
  | some b =>
    cases he : s.freePageList.endPage with
    | none => simp [hb, he] at h
    | some e =>
      simp [hb, he] at h
      exact .inr ⟨b, e, rfl, rfl, h.symm⟩

theorem getFirst_ok {r : Option Nat} (h : getFirst s = .ok (r, s')) :
    (s.freePageList.beginPage = none ∧ r = none ∧ s' = s) ∨
      ∃ p, s.freePageList.beginPage = some p ∧ r = some p ∧
        s' = { s.setNext p 0 with freePageList :=
          if s.freePageList.endPage = some p then ⟨none, none, sub32 s.freePageList.count 1⟩
          else ⟨(s.pages p).nextFree, s.freePageList.endPage, sub32 s.freePageList.count 1⟩ } := by
  rw [getFirst, get_run] at h
  cases hb : s.freePageList.beginPage with
  | none =>
    simp [hb] at h
    exact .inl ⟨rfl, h.1.symm, h.2.symm⟩
  | some p =>
    simp [hb] at h
    obtain ⟨rfl, rfl⟩ := h
    refine .inr ⟨p, rfl, rfl, ?_⟩
    split <;> rfl

end FreePageList

/-! ## Allocation -/

/-- `page_alloc` hands out the first free frame, or there is none. -/
theorem pageAlloc_spec (R : s.Rep pagesNr L) {r : Option Nat} (h : pageAlloc s = .ok (r, s')) :
    (r = none ∧ L.free = [] ∧ s' = s) ∨
      ∃ f rest, ∃ hf : L.free = f :: rest, r = some f ∧ s'.Rep pagesNr (L.take hf) := by
  simp only [pageAlloc, bind_apply_ok, assertIntDisable_ok] at h
  obtain ⟨-, _, ⟨-, rfl⟩, r0, s1, hg, h⟩ := h
  cases FreePageList.getFirst_ok hg with
  | inl hg =>
    obtain ⟨hb, rfl, rfl⟩ := hg
    simp at h
    rw [R.first, head?_eq_none_iff] at hb
    exact .inl ⟨h.1.symm, hb, h.2.symm⟩
  | inr hg =>
    obtain ⟨f, hb, rfl, hs1⟩ := hg
    rw [R.first] at hb
    obtain ⟨rest, hL⟩ := head?_eq_some_iff.mp hb
    simp [ASSERT] at h
    obtain ⟨hfree, hs', rfl⟩ := h
    refine .inr ⟨f, rest, hL, rfl, ?_⟩
    have hnd := hL ▸ L.nodup
    have hfr : f ∉ rest := (nodup_cons.mp hnd).1
    have hne : ∀ g ∈ rest, g ≠ f := fun g hg h => hfr (h ▸ hg)
    have hpages : ∀ g, g ≠ f → s'.pages g = s.pages g := by
      intro g hg
      rw [← hs', setPage_pages_ne hg, hs1]
      exact setPage_pages_ne hg
    have hself : s'.pages f = ⟨0, false, .available⟩ := by
      rw [← hs', setPage_pages_self, hs1]
      simp [setNext]
    have hlist : s'.freePageList = s1.freePageList := by rw [← hs', setPage_freePageList]
    have hend : s.freePageList.endPage = some f ↔ rest = [] := by
      rw [R.last, hL]
      cases rest with
      | nil => simp
      | cons g rest =>
        rw [getLast?_cons_cons]
        refine ⟨fun h => absurd (mem_of_getLast? h) hfr, fun h => by cases h⟩
    have hlen : L.free.length = rest.length + 1 := by rw [hL]; rfl
    have hcount : sub32 s.freePageList.count 1 = rest.length % 2 ^ 32 := by
      rw [R.count, hlen, sub32]
      omega
    exact
      { first := by
          rw [hlist, hs1]
          show (if _ then _ else _ : FreePageList).beginPage = rest.head?
          cases rest with
          | nil => rw [if_pos (hend.mpr rfl)]; rfl
          | cons g rest =>
            rw [if_neg fun h => cons_ne_nil _ _ (hend.mp h)]
            have hlink : (s.pages f).nextFreeIndexOrRefCount = g := (hL ▸ R.linked).next_eq
            have hff : (s.pages f).free = true := (R.free f).mpr (hL ▸ mem_cons_self)
            simp [Page.nextFree, hff, hlink]
        last := by
          rw [hlist, hs1]
          show (if _ then _ else _ : FreePageList).endPage = rest.getLast?
          cases rest with
          | nil => rw [if_pos (hend.mpr rfl)]; rfl
          | cons g rest =>
            rw [if_neg fun h => cons_ne_nil _ _ (hend.mp h)]
            show s.freePageList.endPage = _
            rw [R.last, hL, getLast?_cons_cons]
        count := by
          rw [hlist, hs1]
          show (if _ then _ else _ : FreePageList).count = _
          split <;> exact hcount
        linked := by
          have hl : Linked _ (f :: rest) := hL ▸ R.linked
          exact hl.tail.congr fun g hg => by rw [hpages g (hne g hg)]
        free := by
          intro g
          by_cases hgf : g = f
          · subst hgf
            simpa [hself, Ledger.take] using hfr
          · rw [hpages g hgf, R.free g, hL]
            simp [hgf, Ledger.take]
        refs := by
          intro g hg
          by_cases hgf : g = f
          · subst hgf
            rw [hself]
            exact (L.unreferenced g (hL ▸ mem_cons_self)).symm
          · rw [hpages g hgf]
            refine R.refs g fun hm => ?_
            rw [hL] at hm
            exact hg ((mem_cons.mp hm).resolve_left hgf)
        bound := fun g hg => R.bound g (hL ▸ mem_cons_of_mem _ hg)
        small := R.small }

/-- `page_free` gives back a frame in use that has no references. -/
theorem pageFree_spec (R : s.Rep pagesNr L) (hN : p < pagesNr) {u : Unit} (h : (pageFree p) s = .ok (u, s')) :
    ∃ (hf : p ∉ L.free) (h0 : L.refs p = 0), s'.Rep pagesNr (L.give p hf h0) := by
  simp [pageFree, ASSERT] at h
  obtain ⟨-, -, hfree, hrc, h⟩ := h
  rw [if_pos hrc, bind_apply_ok] at h
  obtain ⟨_, s1, hs1, hins⟩ := h
  rw [modify_apply, Except.ok.injEq, Prod.mk.injEq] at hs1
  obtain ⟨-, hs1⟩ := hs1
  have hpL : p ∉ L.free := R.notMem_of_not_free hfree
  have hn : (s.pages p).nextFreeIndexOrRefCount = 0 := by simpa [Page.refcountGet, hfree] using hrc
  have hrefs : L.refs p = 0 := by rw [← R.refs p hpL, hn]
  refine ⟨hpL, hrefs, ?_⟩
  have hlist : s1.freePageList = s.freePageList := by rw [← hs1]; rfl
  obtain ⟨hp0, hins⟩ := FreePageList.insert_ok hins
  have hcount : add32 s1.freePageList.count 1 = (L.free ++ [p]).length % 2 ^ 32 := by
    rw [hlist, R.count, length_append, length_singleton, add32]
    omega
  -- the page itself, and the page that was last, are the ones that change
  have hbound : ∀ f ∈ L.free ++ [p], 0 < f ∧ f < pagesNr := by
    intro f hf
    cases mem_append.mp hf with
    | inl hf => exact R.bound f hf
    | inr hf => rw [mem_singleton.mp hf]; omega
  have hfreep : ∀ f, f ≠ p → (s1.pages f) = s.pages f := by
    intro f hf
    rw [← hs1]
    exact setPage_pages_ne hf
  have hself : (s1.pages p).free = true := by rw [← hs1]; exact congrArg Page.free setPage_pages_self
  have key : ∀ next : Nat → Page,
      (∀ f, (next f).free = (s1.pages f).free) →
      (∀ f, f ≠ p → f ∉ L.free → (next f).nextFreeIndexOrRefCount = (s.pages f).nextFreeIndexOrRefCount) →
      (∀ f, (next f).free = true ↔ f ∈ L.free ++ [p]) ∧
      (∀ f, f ∉ L.free ++ [p] → (next f).nextFreeIndexOrRefCount = L.refs f) := by
    intro next hfr hnx
    refine ⟨fun f => ?_, fun f hf => ?_⟩
    · rw [hfr f, mem_append, mem_singleton]
      by_cases hfp : f = p
      · simp [hfp, hself]
      · rw [hfreep f hfp, R.free f]
        simp [hfp]
    · rw [mem_append, mem_singleton, not_or] at hf
      rw [hnx f hf.2 hf.1, R.refs f hf.1]
  rcases hins with ⟨hb, rfl⟩ | ⟨b, e, hb, he, rfl⟩
  · rw [hlist, R.first, head?_eq_none_iff] at hb
    obtain ⟨hfree', hrefs'⟩ := key (s1.setNext p 0).pages
      (fun f => by
        by_cases hfp : f = p
        · subst hfp; simp [setNext]
        · rw [setNext, setPage_pages_ne hfp])
      (fun f hfp _ => by rw [setNext, setPage_pages_ne hfp, hfreep f hfp])
    exact
      { first := by simp [Ledger.give, hb]
        last := by simp [Ledger.give, hb]
        count := hcount
        linked := by
          show Linked _ (L.free ++ [p])
          rw [hb]
          exact Linked.singleton p
        free := hfree'
        refs := hrefs'
        bound := hbound
        small := R.small }
  · rw [hlist, R.first] at hb
    rw [hlist, R.last] at he
    have heL : e ∈ L.free := mem_of_getLast? he
    have hep : e ≠ p := fun h => hpL (h ▸ heL)
    have hpages : ∀ f, f ≠ p → f ≠ e → ((s1.setNext p 0).setNext e p).pages f = s.pages f := by
      intro f hfp hfe
      rw [setNext, setPage_pages_ne hfe, setNext, setPage_pages_ne hfp, hfreep f hfp]
    obtain ⟨hfree', hrefs'⟩ := key ((s1.setNext p 0).setNext e p).pages
      (fun f => by
        by_cases hfe : f = e
        · subst hfe
          simp [setNext, setPage_pages_ne hep]
        · rw [setNext, setPage_pages_ne hfe]
          by_cases hfp : f = p
          · subst hfp; simp [setNext]
          · rw [setNext, setPage_pages_ne hfp])
      (fun f hfp hfL => by rw [hpages f hfp fun h => hfL (h ▸ heL)])
    exact
      { first := by
          show some b = (L.free ++ [p]).head?
          rw [head?_append, hb]
          rfl
        last := by simp [Ledger.give]
        count := hcount
        linked := by
          refine R.linked.concat L.nodup he ?_ fun f hf hfe => ?_
          · simp [setNext]
          · show (((s1.setNext p 0).setNext e p).pages f).nextFreeIndexOrRefCount = _
            rw [hpages f (fun h => hpL (h ▸ hf)) hfe]
        free := hfree'
        refs := hrefs'
        bound := hbound
        small := R.small }

/-! ## References -/

/-- `refcount_inc` adds a reference to a frame in use. -/
theorem refcountInc_spec (R : s.Rep pagesNr L) {r : Int} (h : (refcountInc p) s = .ok (r, s')) :
    ∃ hf : p ∉ L.free, r = (L.refs p + 1 : Nat) ∧ s'.Rep pagesNr (L.setRefs p (L.refs p + 1) hf) := by
  simp only [refcountInc, ASSERT, get_run, bind_apply_ok,
    lift_apply_ok, check_ok] at h
  obtain ⟨-, _, ⟨hfree, rfl⟩, h⟩ := h
  have hpL := R.notMem_of_not_free hfree
  rw [R.refs p hpL] at h
  split at h
  · simp at h
  · rename_i hne
    simp at h
    obtain ⟨rfl, rfl⟩ := h
    have hsmall := R.small p
    exact ⟨hpL, rfl, R.setNext hpL (by omega)⟩

/-- `refcount_dec` drops one of the references to a frame; with the last one the
frame is free. -/
theorem refcountDec_spec (R : s.Rep pagesNr L) (hN : p < pagesNr) (hpos : 0 < L.refs p) {r : Int}
    (h : (refcountDec p) s = .ok (r, s')) :
    r = (L.refs p - 1 : Nat) ∧
      ∃ L' : Ledger Nat, L'.refs = update L.refs p (L.refs p - 1) ∧ s'.Rep pagesNr L' := by
  simp [refcountDec, ASSERT] at h
  generalize hs0 : ({ s with cpu := s.cpu.pushcli } : Phys) = s0 at h
  have R0 : s0.Rep pagesNr L := R.congr (by rw [← hs0]) (by rw [← hs0])
  obtain ⟨hfree, hp0, -, h⟩ := h
  have hpL := R.notMem_of_not_free hfree
  have hsmall := R.small p
  have hdec : ((s.pages p).nextFreeIndexOrRefCount + 1048575) % 1048576 = L.refs p - 1 := by
    rw [R.refs p hpL]
    omega
  rw [hdec] at h
  have R1 := R0.setNext hpL (n := L.refs p - 1) (by omega)
  generalize s0.setNext p (L.refs p - 1) = s1 at h R1
  have hpL1 : p ∉ (L.setRefs p (L.refs p - 1) hpL).free := hpL
  have hfree1 : (s1.pages p).free = false := by
    rw [Bool.eq_false_iff, Ne, R1.free p]
    exact hpL1
  have hrc : (s1.pages p).refcountGet = L.refs p - 1 := by
    rw [Page.refcountGet, hfree1, if_neg Bool.false_ne_true, R1.refs p hpL1]
    exact update_self ..
  rw [hrc] at h
  by_cases hz : L.refs p - 1 = 0
  · rw [if_pos hz] at h
    simp at h
    obtain ⟨_, s2, hfr, ⟨_, hpop⟩, rfl⟩ := h
    obtain ⟨hf, h0, R2⟩ := pageFree_spec R1 hN hfr
    obtain ⟨hp, hl⟩ := popif_ok hpop
    exact ⟨rfl, _, rfl, R2.congr hp hl⟩
  · rw [if_neg hz] at h
    simp at h
    obtain ⟨⟨_, hpop⟩, rfl⟩ := h
    obtain ⟨hp, hl⟩ := popif_ok hpop
    exact ⟨rfl, _, rfl, R1.congr hp hl⟩

/-! ## The frames on the list -/

/-- The frames met when following `nextFree` from `p` up to the page `last`. -/
def FreePageList.walk (pages : Nat → Page) (last : Option Nat) : Nat → Option Nat → List Nat
  | 0, _ => []
  | _ + 1, none => []
  | n + 1, some p => if last = some p then [p] else p :: walk pages last n (pages p).nextFree

/-- The frames on `freePageList`. -/
def Phys.freeFrames (s : Phys) (pagesNr : Nat) : List Nat :=
  FreePageList.walk s.pages s.freePageList.endPage pagesNr s.freePageList.beginPage

theorem FreePageList.walk_eq {pages : Nat → Page} {xs : List Nat} :
    ∀ {n : Nat}, xs.length ≤ n → xs.Nodup → (∀ f ∈ xs, (pages f).free = true) →
      Linked (fun f => (pages f).nextFreeIndexOrRefCount) xs →
      walk pages xs.getLast? n xs.head? = xs := by
  induction xs with
  | nil =>
    intro n _ _ _ _
    cases n <;> rfl
  | cons f xs ih =>
    intro n hn hnd hfree hlink
    obtain ⟨n, rfl⟩ : ∃ m, n = m + 1 := ⟨n - 1, by rw [length_cons] at hn; omega⟩
    cases xs with
    | nil => simp [walk]
    | cons g xs =>
      have hmem : (g :: xs).getLast? ≠ some f := fun h =>
        (nodup_cons.mp hnd).1 (mem_of_getLast? h)
      have hnext : (pages f).nextFree = some g := by
        rw [Page.nextFree, hfree f mem_cons_self, if_pos rfl, hlink.next_eq]
      rw [getLast?_cons_cons, head?_cons, walk, if_neg hmem, hnext]
      rw [length_cons] at hn
      congr 1
      exact ih (by omega) (nodup_cons.mp hnd).2 (fun a ha => hfree a (mem_cons_of_mem _ ha))
        hlink.tail

theorem Phys.Rep.freeFrames (R : s.Rep pagesNr L) : s.freeFrames pagesNr = L.free := by
  have hsub : L.free ⊆ range pagesNr := fun f hf => mem_range.mpr (R.bound f hf).2
  have hlen : L.free.length ≤ pagesNr := by
    simpa using (subperm_of_subset L.nodup hsub).length_le
  rw [Phys.freeFrames, R.first, R.last]
  exact FreePageList.walk_eq hlen L.nodup (fun f hf => (R.free f).mpr hf) R.linked

/-! ## Boot -/

theorem detectMemory_rep (cpu : Cpu) :
    (detectMemory cpu).Rep pagesNr ⟨[], fun _ => 1, nodup_nil, fun _ h => (by cases h)⟩ where
  first := rfl
  last := rfl
  count := rfl
  linked := Linked.nil
  free f := by simp [detectMemory]
  refs _ _ := rfl
  bound f hf := by cases hf
  small _ := by
    show 1 < 2 ^ 20
    decide

/-- One turn of `pm_init` on a frame that is not on the list yet. -/
theorem pmInitFrame_spec {memoryEnd i : Nat} (R : s.Rep pagesNr L) (hi : pageIndex i ∉ L.free)
    (hN : pageIndex i < pagesNr) {u : Unit} (h : pmInitFrame memoryEnd i s = .ok (u, s')) :
    ∃ L' : Ledger Nat, s'.Rep pagesNr L' ∧ ∀ f ∈ L'.free, f ∈ L.free ∨ f = pageIndex i := by
  unfold pmInitFrame at h
  split at h
  · cases h
    exact ⟨_, R.setPage hi ⟨1, false, .available⟩ rfl (by decide), fun f hf => .inl hf⟩
  · split at h
    · cases h
      exact ⟨_, R.setPage hi ⟨1, false, .kernel⟩ rfl (by decide), fun f hf => .inl hf⟩
    · simp only [bind_apply_ok, modify_apply, Except.ok.injEq, Prod.mk.injEq] at h
      obtain ⟨_, _, ⟨-, rfl⟩, h⟩ := h
      obtain ⟨_, _, R'⟩ := pageFree_spec (R.setPage hi ⟨0, false, .available⟩ rfl (by decide)) hN h
      refine ⟨_, R', fun f hf => ?_⟩
      rcases mem_append.mp hf with hf | hf
      · exact .inl hf
      · exact .inr (mem_singleton.mp hf)

theorem pmInitFrames_spec {memoryEnd : Nat} {is : List Nat} :
    ∀ {s s' : Phys} {L : Ledger Nat} {u : Unit}, s.Rep pagesNr L → (is.map pageIndex).Nodup →
      (∀ i ∈ is, pageIndex i ∉ L.free ∧ pageIndex i < pagesNr) →
      pmInitFrames memoryEnd is s = .ok (u, s') → ∃ L', s'.Rep pagesNr L' := by
  induction is with
  | nil =>
    intro s s' L u R _ _ h
    cases h
    exact ⟨L, R⟩
  | cons i is ih =>
    intro s s' L u R hnd his h
    simp only [pmInitFrames, bind_apply_ok] at h
    obtain ⟨_, s1, hframe, h⟩ := h
    obtain ⟨hi, hN⟩ := his i mem_cons_self
    obtain ⟨L1, R1, hL1⟩ := pmInitFrame_spec R hi hN hframe
    rw [map_cons, nodup_cons] at hnd
    refine ih R1 hnd.2 (fun j hj => ⟨fun hmem => ?_, (his j (mem_cons_of_mem _ hj)).2⟩) h
    rcases hL1 _ hmem with hmem | heq
    · exact (his j (mem_cons_of_mem _ hj)).1 hmem
    · exact hnd.1 (heq ▸ mem_map_of_mem hj)

/-- `pm_init` on a memory map without overlaps leaves a ledger. -/
theorem pmInit_spec {memoryEnd : Nat} {mmap : List MemoryMapEntry} {cpu : Cpu}
    (hnd : ((mmap.flatMap MemoryMapEntry.frames).map pageIndex).Nodup)
    (hN : ∀ i ∈ mmap.flatMap MemoryMapEntry.frames, pageIndex i < pagesNr) {u : Unit}
    (h : pmInit memoryEnd mmap (detectMemory cpu) = .ok (u, s)) : ∃ L, s.Rep pagesNr L := by
  simp only [pmInit, bind_apply_ok, modify_apply, Except.ok.injEq, Prod.mk.injEq] at h
  obtain ⟨_, _, ⟨-, rfl⟩, h⟩ := h
  exact pmInitFrames_spec (detectMemory_rep cpu) hnd (fun i hi => ⟨not_mem_nil, hN i hi⟩) h

end MakarnaX
