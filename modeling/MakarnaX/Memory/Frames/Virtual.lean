import MakarnaX.Memory.Frames.Physical
import MakarnaX.Memory.Virtual

/-!
# The page tables keep the ledger

A frame in use has one reference for every present entry of a page table that
maps it, and one for every explicit hold.  `Owned` says so of a state, together
with what keeps page tables apart: a table that was made by `pde_alloc` sits at
one of the temporary addresses, whose bit is set and which `kernel_dir` maps.

Every function that maps or unmaps pages keeps `Owned`.  Between the moment the
count of a frame is changed and the moment the entry is written the two do not
agree; the proofs account for that reference as a hold.
-/

namespace MakarnaX

open Library (Ledger refCount)
open Phys (Rep)

/-! ## Temporary addresses -/

/-- The kernel address of the temporary page `k`. -/
def tmpKaddr (k : Nat) : Nat := 0x10000000 + k * 0x1000

/-- The virtual address of the temporary page `k`. -/
def tmpVa (k : Nat) : Nat := MMAP_KERNEL_TMP_PAGE_BASE + k * 0x1000

section TmpVa

variable {k : Nat} {holds' : Nat → Nat}

theorem pdx_lt (va : Nat) : pdx va < 1024 := Nat.mod_lt _ (by decide)

theorem ptx_lt (va : Nat) : ptx va < 1024 := Nat.mod_lt _ (by decide)

theorem pdx_tmpVa (hk : k < 1024) : pdx (tmpVa k) = 832 := by
  simp only [pdx, tmpVa, MMAP_KERNEL_TMP_PAGE_BASE]
  omega

theorem ptx_tmpVa (hk : k < 1024) : ptx (tmpVa k) = k := by
  simp only [ptx, tmpVa, MMAP_KERNEL_TMP_PAGE_BASE]
  omega

theorem va2kaddr_tmpVa (hk : k < 1024) : va2kaddr (tmpVa k) = tmpKaddr k := by
  simp only [va2kaddr, sub32, tmpVa, tmpKaddr, MMAP_KERNEL_TMP_PAGE_BASE, MMAP_KERNEL_BASE]
  omega

theorem tmpVa_index (hk : k < 1024) : sub32 (tmpVa k) MMAP_KERNEL_TMP_PAGE_BASE / 0x1000 = k := by
  simp only [sub32, tmpVa, MMAP_KERNEL_TMP_PAGE_BASE]
  omega

theorem tmpKaddr_inj {j : Nat} (h : tmpKaddr j = tmpKaddr k) : j = k := by
  simp only [tmpKaddr] at h
  omega

end TmpVa

/-! ## Ownership -/

/-- What boot fixes: the number of frames, the page tables of the direct map,
which `vm_init` fills by hand and nobody counts, and the page table of the
temporary addresses. -/
structure Setup where
  pagesNr : Nat
  direct : Finset Nat
  tmpTable : Nat
  pagesNr_le : pagesNr ≤ 2 ^ 20
  tmpTable_ne : tmpTable ≠ 0
  direct_ne : 0 ∉ direct
  tmpTable_direct : tmpTable ∉ direct
  tmpTable_slot : ∀ k < 1024, tmpKaddr k ≠ tmpTable
  direct_slot : ∀ k < 1024, tmpKaddr k ∉ direct

variable {S : Setup} {s s' s'' : Vm}

/-- The page tables of all directories, but for the direct map; a table that
directories share is there once. -/
def liveTables (S : Setup) (s : Vm) : Finset Nat :=
  ((Finset.range s.dirsNr ×ˢ Finset.range 1024).image fun e => (s.dirs e.1).pgtables e.2).filter
    fun t => t ≠ 0 ∧ t ∉ S.direct

/-- The entries of those page tables. -/
def entries (S : Setup) (s : Vm) : Finset (Nat × Nat) := liveTables S s ×ˢ Finset.range 1024

/-- The frame an entry maps, if it is present. -/
def Vm.target (s : Vm) (e : Nat × Nat) : Option Nat :=
  if (s.pte e).present then some (s.pte e).physPgno else none

/-- The number of present entries that map the frame `f`. -/
def mapped (S : Setup) (s : Vm) (f : Nat) : Nat := refCount (entries S s) s.target f

theorem mem_liveTables {t : Nat} :
    t ∈ liveTables S s ↔
      (∃ d i, d < s.dirsNr ∧ i < 1024 ∧ (s.dirs d).pgtables i = t) ∧ t ≠ 0 ∧ t ∉ S.direct := by
  simp [liveTables, and_assoc]

theorem mem_entries {e : Nat × Nat} : e ∈ entries S s ↔ e.1 ∈ liveTables S s ∧ e.2 < 1024 := by
  simp [entries]

/-- The state `s` accounts for its frames: with the ledger `L`, each frame has a
reference for each entry that maps it and for each hold. -/
structure Owned (S : Setup) (s : Vm) (L : Ledger Nat) (holds : Nat → Nat) : Prop where
  rep : s.phys.Rep S.pagesNr L
  refs : ∀ f, L.refs f = mapped S s f + holds f
  frames : ∀ e ∈ entries S s, ∀ f, s.target e = some f → f < S.pagesNr
  dirs : 0 < s.dirsNr
  tmpTable : (s.dirs 0).pgtables 832 = S.tmpTable
  taken : ∀ k < 1024, tmpKaddr k ∈ liveTables S s → s.tmpPages.test k = true
  backed : ∀ k < 1024, tmpKaddr k ∈ liveTables S s → s.target (S.tmpTable, k) ≠ none

/-! ## What functions leave alone -/

/-- The directories have the same page tables. -/
structure SameTables (s s' : Vm) : Prop where
  dirsNr : s'.dirsNr = s.dirsNr
  pgtables : ∀ d i, (s'.dirs d).pgtables i = (s.dirs d).pgtables i

/-- The same page tables with the same contents, and the same temporary addresses. -/
structure SameMaps (s s' : Vm) : Prop extends SameTables s s' where
  tables : s'.tables = s.tables
  tmpPages : s'.tmpPages = s.tmpPages

/-- Page tables are only added, at temporary addresses that were free. -/
structure Grows (s s' : Vm) : Prop where
  dirsNr : s'.dirsNr = s.dirsNr
  pgtables : ∀ d i, (s'.dirs d).pgtables i = (s.dirs d).pgtables i ∨
    ∃ k < 1024, (s'.dirs d).pgtables i = tmpKaddr k ∧ s.tmpPages.test k = false
  bits : ∀ k, s.tmpPages.test k = true → s'.tmpPages.test k = true

theorem SameTables.trans (h : SameTables s s') (h' : SameTables s' s'') : SameTables s s'' where
  dirsNr := h'.dirsNr.trans h.dirsNr
  pgtables d i := (h'.pgtables d i).trans (h.pgtables d i)

theorem SameTables.liveTables (h : SameTables s s') : liveTables S s' = liveTables S s := by
  simp only [MakarnaX.liveTables, h.dirsNr, h.pgtables]

theorem SameTables.entries (h : SameTables s s') : entries S s' = entries S s := by
  rw [MakarnaX.entries, MakarnaX.entries, h.liveTables]

namespace SameMaps

theorem refl (s : Vm) : SameMaps s s := ⟨⟨rfl, fun _ _ => rfl⟩, rfl, rfl⟩

theorem trans (h : SameMaps s s') (h' : SameMaps s' s'') : SameMaps s s'' where
  toSameTables := h.toSameTables.trans h'.toSameTables
  tables := h'.tables.trans h.tables
  tmpPages := h'.tmpPages.trans h.tmpPages

theorem target (h : SameMaps s s') : s'.target = s.target := by
  funext e
  have hpte : s'.pte e = s.pte e := by rw [Vm.pte, h.tables]; rfl
  rw [Vm.target, Vm.target, hpte]

theorem mapped (h : SameMaps s s') (f : Nat) : mapped S s' f = mapped S s f := by
  rw [MakarnaX.mapped, MakarnaX.mapped, h.entries, h.target]

theorem grows (h : SameMaps s s') : Grows s s' where
  dirsNr := h.dirsNr
  pgtables d i := .inl (h.pgtables d i)
  bits k hk := by rw [h.tmpPages]; exact hk

end SameMaps

namespace Grows

theorem trans (h : Grows s s') (h' : Grows s' s'') : Grows s s'' where
  dirsNr := h'.dirsNr.trans h.dirsNr
  pgtables d i := by
    rcases h'.pgtables d i with h1 | ⟨k, hk, h1, hclear⟩
    · rw [h1]
      exact h.pgtables d i
    · refine .inr ⟨k, hk, h1, ?_⟩
      cases hbit : s.tmpPages.test k with
      | false => rfl
      | true =>
        rw [h.bits k hbit] at hclear
        cases hclear
  bits k hk := h'.bits k (h.bits k hk)

/-- A page table that is there afterwards was there, or took a free address. -/
theorem live (h : Grows s s') {t : Nat} (ht : t ∈ liveTables S s') :
    t ∈ liveTables S s ∨ ∃ k < 1024, t = tmpKaddr k ∧ s.tmpPages.test k = false := by
  rw [mem_liveTables] at ht
  obtain ⟨⟨d, i, hd, hi, rfl⟩, h0, hdir⟩ := ht
  rcases h.pgtables d i with h1 | ⟨k, hk, h1, hclear⟩
  · rw [h1] at h0 hdir ⊢
    exact .inl (mem_liveTables.mpr ⟨⟨d, i, h.dirsNr ▸ hd, hi, rfl⟩, h0, hdir⟩)
  · exact .inr ⟨k, hk, h1, hclear⟩

/-- A temporary address in use does not become a page table. -/
theorem notMem_live (h : Grows s s') {k : Nat} (hbit : s.tmpPages.test k = true)
    (hk : tmpKaddr k ∉ liveTables S s) : tmpKaddr k ∉ liveTables S s' := by
  intro ht
  rcases h.live ht with ht | ⟨j, -, hj, hclear⟩
  · exact hk ht
  · rw [← tmpKaddr_inj hj, hbit] at hclear
    cases hclear

end Grows

/-! ## Moves of the account -/

namespace Owned

variable {L L' : Ledger Nat} {holds : Nat → Nat} {e : Nat × Nat} {f : Nat}

/-- The frames change, the page tables do not. -/
theorem ofRep (O : Owned S s L holds) (M : SameMaps s s')
    (R : s'.phys.Rep S.pagesNr L') (hrefs : ∀ g, L'.refs g = mapped S s g + holds' g) :
    Owned S s' L' holds' where
  rep := R
  refs g := by rw [M.mapped]; exact hrefs g
  frames := by rw [M.entries, M.target]; exact O.frames
  dirs := by rw [M.dirsNr]; exact O.dirs
  tmpTable := by rw [M.pgtables]; exact O.tmpTable
  taken := by rw [M.liveTables, M.tmpPages]; exact O.taken
  backed := by rw [M.liveTables, M.target]; exact O.backed

theorem congr (O : Owned S s L holds) (M : SameMaps s s') (hp : s'.phys.pages = s.phys.pages)
    (hl : s'.phys.freePageList = s.phys.freePageList) : Owned S s' L holds :=
  O.ofRep M (O.rep.congr hp hl) O.refs

theorem setPte_pte (e e' : Nat × Nat) (v : PTE) : (s.setPte e v).pte e' = if e' = e then v else s.pte e' := by
  unfold Vm.setPte Vm.pte
  by_cases h1 : e'.1 = e.1
  · by_cases h2 : e'.2 = e.2
    · have he : e' = e := Prod.ext h1 h2
      simp [he]
    · have he : e' ≠ e := fun h => h2 (congrArg Prod.snd h)
      simp [he, h1, h2]
  · have he : e' ≠ e := fun h => h1 (congrArg Prod.fst h)
    simp [he, h1]

theorem target_setPte (v : PTE) (e' : Nat × Nat) :
    (s.setPte e v).target e' = if e' = e then (if v.present then some v.physPgno else none)
      else s.target e' := by
  unfold Vm.target
  rw [setPte_pte]
  split <;> rfl

theorem sameTables_setPte (v : PTE) : SameTables s (s.setPte e v) := ⟨rfl, fun _ _ => rfl⟩

/-- One entry is written. -/
theorem mapped_setPte (he : e ∈ entries S s) (v : PTE) (g : Nat) :
    mapped S (s.setPte e v) g + (if s.target e = some g then 1 else 0) =
      mapped S s g + if (if v.present then some v.physPgno else none) = some g then 1 else 0 := by
  have hrest : ∀ e' ∈ entries S s, e' ≠ e → (s.setPte e v).target e' = s.target e' :=
    fun e' _ hne => by rw [target_setPte, if_neg hne]
  have h := Library.refCount_change he hrest g
  rw [target_setPte, if_pos rfl] at h
  rw [mapped, (sameTables_setPte v).entries]
  exact h

/-- A hold on `f` becomes a mapping. -/
theorem map (O : Owned S s L holds) (he : e ∈ entries S s) (hnone : s.target e = none) {v : PTE}
    (hv : v.present = true) (hf : v.physPgno < S.pagesNr)
    (hh : ∀ g, holds g = holds' g + if v.physPgno = g then 1 else 0) :
    Owned S (s.setPte e v) L holds' where
  rep := O.rep
  refs g := by
    have h := mapped_setPte he v g
    rw [hnone, if_neg (by simp), hv, if_pos rfl] at h
    simp only [Option.some.injEq] at h
    rw [O.refs g, hh g]
    omega
  frames := by
    rw [(sameTables_setPte v).entries]
    intro e' he' g hg
    rw [target_setPte] at hg
    by_cases hee : e' = e
    · rw [if_pos hee, hv, if_pos rfl, Option.some.injEq] at hg
      exact hg ▸ hf
    · rw [if_neg hee] at hg
      exact O.frames e' he' g hg
  dirs := O.dirs
  tmpTable := O.tmpTable
  taken := O.taken
  backed k hk hlive := by
    rw [target_setPte, hv, if_pos rfl]
    split
    · exact Option.some_ne_none _
    · exact O.backed k hk hlive

/-- A mapping of `f` becomes a hold; the entry is not one that keeps a page table
of a directory mapped. -/
theorem unmap (O : Owned S s L holds) (he : e ∈ entries S s) (hf : s.target e = some f)
    (hpin : e.1 = S.tmpTable → tmpKaddr e.2 ∉ liveTables S s) {v : PTE} (hv : v.present = false) :
    Owned S (s.setPte e v) L fun g => holds g + if f = g then 1 else 0 where
  rep := O.rep
  refs g := by
    have h := mapped_setPte he v g
    rw [hf, hv] at h
    simp only [Option.some.injEq, Bool.false_eq_true, if_false, reduceCtorEq] at h
    rw [O.refs g]
    omega
  frames := by
    rw [(sameTables_setPte v).entries]
    intro e' he' g hg
    rw [target_setPte] at hg
    by_cases hee : e' = e
    · simp [hee, hv] at hg
    · rw [if_neg hee] at hg
      exact O.frames e' he' g hg
  dirs := O.dirs
  tmpTable := O.tmpTable
  taken := O.taken
  backed k hk hlive := by
    have hne : (S.tmpTable, k) ≠ e := by
      rintro rfl
      exact hpin rfl hlive
    rw [target_setPte, if_neg hne]
    exact O.backed k hk hlive

/-- A new page table, empty, for an entry that has none.  Its temporary address
is taken and mapped. -/
theorem addTable (O : Owned S s L holds) {d i k : Nat} (hd : d < s.dirsNr) (hi : i < 1024)
    (h0 : (s.dirs d).pgtables i = 0) (hk : k < 1024) (hfresh : tmpKaddr k ∉ liveTables S s)
    (hbit : s.tmpPages.test k = true) (hback : s.target (S.tmpTable, k) ≠ none) (hn : s'.dirsNr = s.dirsNr)
    (hpg : ∀ d' i', (s'.dirs d').pgtables i' =
      if d' = d ∧ i' = i then tmpKaddr k else (s.dirs d').pgtables i')
    (htab : s'.tables = Function.update s.tables (tmpKaddr k) fun _ => ⟨0, 0⟩)
    (htmp : s'.tmpPages = s.tmpPages) (hphys : s'.phys = s.phys) : Owned S s' L holds := by
  have hlive : ∀ t, t ∈ liveTables S s' ↔ t = tmpKaddr k ∨ t ∈ liveTables S s := by
    intro t
    simp only [mem_liveTables, hn]
    constructor
    · rintro ⟨⟨d', i', hd', hi', rfl⟩, hne, hdir⟩
      rw [hpg] at hne hdir ⊢
      split
      · exact .inl rfl
      · rename_i hcase
        rw [if_neg hcase] at hne hdir
        exact .inr ⟨⟨d', i', hd', hi', rfl⟩, hne, hdir⟩
    · rintro (rfl | ⟨⟨d', i', hd', hi', rfl⟩, hne, hdir⟩)
      · refine ⟨⟨d, i, hd, hi, by rw [hpg, if_pos ⟨rfl, rfl⟩]⟩, ?_, S.direct_slot k hk⟩
        unfold tmpKaddr
        omega
      · refine ⟨⟨d', i', hd', hi', ?_⟩, hne, hdir⟩
        rw [hpg, if_neg]
        rintro ⟨rfl, rfl⟩
        exact hne h0
  have htgt : ∀ e : Nat × Nat, e.1 ≠ tmpKaddr k → s'.target e = s.target e := by
    intro e he
    have hpte : s'.pte e = s.pte e := by
      rw [Vm.pte, htab, Function.update_of_ne he]
      rfl
    rw [Vm.target, Vm.target, hpte]
  have hnew : ∀ e : Nat × Nat, e.1 = tmpKaddr k → s'.target e = none := by
    intro e he
    have hpte : s'.pte e = ⟨0, 0⟩ := by rw [Vm.pte, htab, he, Function.update_self]
    rw [Vm.target, hpte]
    rfl
  have hne : ∀ e ∈ entries S s, e.1 ≠ tmpKaddr k := fun e he h =>
    hfresh (h ▸ (mem_entries.mp he).1)
  have hmapped : ∀ f, mapped S s' f = mapped S s f := by
    intro f
    have hsub : entries S s ⊆ entries S s' := fun e he =>
      mem_entries.mpr ⟨(hlive _).mpr (.inr (mem_entries.mp he).1), (mem_entries.mp he).2⟩
    rw [mapped, Library.refCount_of_subset hsub ?_ f, mapped]
    · exact Library.refCount_congr (fun e he => htgt e (hne e he)) f
    · intro e he he'
      refine hnew e ?_
      rcases (hlive _).mp (mem_entries.mp he).1 with h | h
      · exact h
      · exact absurd (mem_entries.mpr ⟨h, (mem_entries.mp he).2⟩) he'
  refine
    { rep := hphys ▸ O.rep
      refs := fun f => by rw [hmapped f]; exact O.refs f
      frames := fun e he f hf => ?_
      dirs := hn ▸ O.dirs
      tmpTable := ?_
      taken := fun j hj hl => ?_
      backed := fun j hj hl => ?_ }
  · rcases (hlive _).mp (mem_entries.mp he).1 with h | h
    · rw [hnew e h] at hf
      cases hf
    · have he' := mem_entries.mpr ⟨h, (mem_entries.mp he).2⟩
      rw [htgt e (hne e he')] at hf
      exact O.frames e he' f hf
  · rw [hpg, if_neg]
    · exact O.tmpTable
    · rintro ⟨rfl, rfl⟩
      exact S.tmpTable_ne (O.tmpTable.symm.trans h0)
  · rw [htmp]
    rcases (hlive _).mp hl with h | h
    · rw [tmpKaddr_inj h]
      exact hbit
    · exact O.taken j hj h
  · rw [htgt _ (S.tmpTable_slot k hk).symm]
    rcases (hlive _).mp hl with h | h
    · rw [tmpKaddr_inj h]
      exact hback
    · exact O.backed j hj h

/-- A temporary address that no page table uses is released, or any address taken. -/
theorem setBits (O : Owned S s L holds) {bits : Bitmap}
    (h : ∀ k < 1024, tmpKaddr k ∈ liveTables S s → bits.test k = true) :
    Owned S { s with tmpPages := bits } L holds where
  rep := O.rep
  refs := O.refs
  frames := O.frames
  dirs := O.dirs
  tmpTable := O.tmpTable
  taken := h
  backed := O.backed

end Owned

end MakarnaX
