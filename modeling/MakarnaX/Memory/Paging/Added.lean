import MakarnaX.Memory.Paging.Charge

/-!
# A state with pages and page tables added

`Added` compares a state with an earlier one: some pages of a directory have been
mapped to new frames, some page tables have been made, and all else is as it was.
Mapping a page, making a table, removing a page and releasing a table move between
such states; with nothing added the two states agree.  What concerns the tables alone
is `Enlarged`, where a page comes and goes by one rule and a table by another.
-/

namespace MakarnaX

open Function Finset List Vm

open Library (Ledger)

/-- The entry `e`, where it is present. -/
def Vm.seen (s : Vm) (e : Nat × Nat) : Option PTE := if (s.pte e).present then some (s.pte e) else none

variable {S : Setup} {ty : Nat → PageType} {s₀ s : Vm} {L₀ L : Ledger Nat} {holds : Nat → Nat} {c : Cpu}
  {d w j k p f : Nat} {perm : Perm} {ws js ws' js' : Finset Nat} {e : Nat × Nat} {s' : Vm} {refs refs' : Nat → Nat}

theorem Vm.seen_eq_none : s.seen e = none ↔ s.target e = none := by
  unfold seen target
  cases (s.pte e).present <;> simp

theorem Vm.seen_congr (h : s'.pte e = s.pte e) : s'.seen e = s.seen e := by
  rw [seen, seen, h]

/-- A page a segment can have: not at a temporary address nor in the direct map,
and not there yet. -/
structure Place (S : Setup) (s₀ : Vm) (d w : Nat) : Prop where
  page : IsPage w
  below : vaAddr w < MMAP_KERNEL_TOP
  direct : (s₀.dirs d).pgtables (pdx w) ∉ S.direct
  tmp : (s₀.dirs d).pgtables (pdx w) ≠ S.tmpTable
  absent : s₀.Absent d w

/-- The entry `e` does not belong to a temporary address that was free. -/
def Old (S : Setup) (s₀ : Vm) (e : Nat × Nat) : Prop :=
  ∀ k < 1024, s₀.tmpPages.test k = false → e.1 ≠ tmpKaddr k ∧ e ≠ (S.tmpTable, k)

/-- A page table of `d` at `j` that was not there before. -/
structure NewTable (S : Setup) (s₀ : Vm) (d j : Nat) (s : Vm) (count : Nat → Nat) (k t : Nat) : Prop where
  missing : (s₀.dirs d).pgtables j = 0
  index : j < 1024
  slot : k < 1024
  table : (s.dirs d).pgtables j = tmpKaddr k
  clear : s₀.tmpPages.test k = false
  frame : s.target (S.tmpTable, k) = some t
  refs : count t = 1

/-- The tables of `s` are those of `s₀` with the pages `ws` and the page tables `js` added to `d`. -/
structure Enlarged (S : Setup) (s₀ : Vm) (d : Nat) (perm : Perm) (ws js : Finset Nat) (s : Vm) (refs : Nat → Nat) :
    Prop where
  kept : ∀ e i, ¬ (e = d ∧ i ∈ js) → (s.dirs e).pgtables i = (s₀.dirs e).pgtables i
  fresh : ∀ j ∈ js, ∃ k t, NewTable S s₀ d j s refs k t
  inj : ∀ i ∈ js, ∀ j ∈ js, (s.dirs d).pgtables i = (s.dirs d).pgtables j → i = j
  bits : ∀ k < 1024, s.tmpPages.test k = true ↔
    s₀.tmpPages.test k = true ∨ ∃ j ∈ js, (s.dirs d).pgtables j = tmpKaddr k
  place : ∀ w ∈ ws, Place S s₀ d w
  tables : ∀ w ∈ ws, (s.dirs d).pgtables (pdx w) ≠ 0
  pages : ∀ w ∈ ws, ∃ f < S.pagesNr, s.pte (s.entry d w) = .ofAddr (f * 0x1000) perm ∧ refs f = 1
  seen : ∀ e, Old S s₀ e → (∀ w ∈ ws, e ≠ s.entry d w) → s.seen e = s₀.seen e
  empty : ∀ j ∈ js, ∀ x, (∀ w ∈ ws, ((s.dirs d).pgtables j, x) ≠ s.entry d w) → s.target ((s.dirs d).pgtables j, x) = none

/-- The state `s` is `s₀` with the pages `ws` and the page tables `js` added to `d`. -/
structure Added (S : Setup) (ty : Nat → PageType) (holds : Nat → Nat) (c : Cpu) (s₀ : Vm) (L₀ : Ledger Nat) (d : Nat)
    (perm : Perm) (ws js : Finset Nat) (s : Vm) (L : Ledger Nat) : Prop extends
    Enlarged S s₀ d perm ws js s L.refs where
  ready : Ready S ty s L holds c
  dirsNr : s.dirsNr = s₀.dirsNr
  words : s.Words
  charge : ∀ e, s.charge e = s₀.charge e + (if e = d then ∑ w ∈ ws, pageCharge w else 0) + js.card • tableCharge d e
  free : L.free.length + ws.card + js.card = L₀.free.length

/-- A frame with one reference is mapped by one entry. -/
theorem Ready.target_unique (R : Ready S ty s L holds c) {e e' : Nat × Nat} (he : e ∈ entries S s) (he' : e' ∈ entries S s)
    (h : s.target e = some f) (h' : s.target e' = some f) (hrefs : L.refs f = 1) : e = e' := by
  have hle : mapped S s f ≤ 1 := by
    have := R.refs_eq f
    omega
  exact card_le_one.mp hle e (mem_filter.mpr ⟨he, h⟩) e' (mem_filter.mpr ⟨he', h'⟩)

theorem Ready.added (R : Ready S ty s₀ L₀ holds c) (hw : s₀.Words) :
    Added S ty holds c s₀ L₀ d perm ∅ ∅ s₀ L₀ where
  ready := R
  dirsNr := rfl
  words := hw
  charge e := by simp
  free := rfl
  kept _ _ _ := rfl
  fresh := by simp
  inj := by simp
  bits := by simp
  place := by simp
  tables := by simp
  pages := by simp
  seen _ _ _ := rfl
  empty := by simp

/-- The pages, the page tables, the counters and the free memory are as they were. -/
structure Restored (s₀ s : Vm) : Prop where
  tables : ∀ e i, (s.dirs e).pgtables i = (s₀.dirs e).pgtables i
  lookup : ∀ e, e < s₀.dirsNr → ∀ va, s.lookup e va = s₀.lookup e va
  user : ∀ e, (s.dirs e).countUser = (s₀.dirs e).countUser
  kernel : ∀ e, (s.dirs e).countKernel = (s₀.dirs e).countKernel
  memFree : s.phys.memFree = s₀.phys.memFree

/-- The frame of a page. -/
theorem target_page (hperm : perm.getLsbD 0 = true) (hf : f < S.pagesNr)
    (h : s.pte e = .ofAddr (f * 0x1000) perm) : s.target e = some f := by
  have hpres : (s.pte e).present = true := by
    rw [h]
    exact ofAddr_present hperm
  rw [target_of_present hpres, h, ofAddr_physPgno hf]

/-- A table that was there is at no address that was free. -/
theorem old_table (R₀ : Ready S ty s₀ L₀ holds c) {e i : Nat} (he : e < s₀.dirsNr) (hi : i < 1024) (hk : k < 1024)
    (hbit : s₀.tmpPages.test k = false) : (s₀.dirs e).pgtables i ≠ tmpKaddr k := fun h => by
  have hlive : tmpKaddr k ∈ liveTables S s₀ :=
    mem_liveTables.mpr ⟨⟨e, i, he, hi, h⟩, tmpKaddr_ne_zero k, S.direct_slot k hk⟩
  rw [R₀.owned.taken k hk hlive] at hbit
  cases hbit

namespace Enlarged

variable (Y : Enlarged S s₀ d perm ws js s refs)

include Y

theorem phys {q : Phys} : Enlarged S s₀ d perm ws js { s with phys := q } refs :=
  ⟨Y.kept, fun j hj => (Y.fresh j hj).imp fun _ h => h.imp fun _ N => ⟨N.1, N.2, N.3, N.4, N.5, N.6, N.7⟩, Y.inj, Y.bits,
    Y.place, Y.tables, Y.pages, Y.seen, Y.empty⟩

theorem outside (hd : d < s.dirsNr) (hw : Place S s₀ d w) : Outside S s d w := by
  by_cases hj : pdx w ∈ js
  · obtain ⟨k, t, N⟩ := Y.fresh _ hj
    refine ⟨hd, ?_, ?_⟩ <;> rw [N.table]
    · exact S.direct_slot k N.slot
    · exact S.tmpTable_slot k N.slot
  · refine ⟨hd, ?_, ?_⟩ <;> rw [Y.kept d _ fun h => hj h.2]
    · exact hw.direct
    · exact hw.tmp

/-- A new table is in one place. -/
theorem alone (R₀ : Ready S ty s₀ L₀ holds c) (hj : j ∈ js) {e i : Nat} (he : e < s₀.dirsNr) (hi : i < 1024)
    (h : (s.dirs e).pgtables i = (s.dirs d).pgtables j) : e = d ∧ i = j := by
  obtain ⟨k, t, N⟩ := Y.fresh j hj
  by_cases hnew : e = d ∧ i ∈ js
  · obtain ⟨rfl, hi'⟩ := hnew
    exact ⟨rfl, Y.inj i hi' j hj h⟩
  · rw [Y.kept e i hnew, N.table] at h
    exact absurd h (old_table R₀ he hi N.slot N.clear)

theorem tablesOnce (R₀ : Ready S ty s₀ L₀ holds c) (hd : d < s₀.dirsNr) (T : TablesOnce s₀ d) : TablesOnce s d := by
  intro i j hi hj h h0
  by_cases hjs : j ∈ js
  · exact (Y.alone R₀ hjs hd hi h).2
  by_cases his : i ∈ js
  · exact (Y.alone R₀ his hd hj h.symm).2.symm
  rw [Y.kept d i fun h => his h.2] at h h0
  rw [Y.kept d j fun h => hjs h.2] at h
  exact T i j hi hj h h0

theorem missing_iff (hw : pdx w ∉ js) : (s.dirs d).pgtables (pdx w) = 0 ↔ (s₀.dirs d).pgtables (pdx w) = 0 := by
  rw [Y.kept d _ fun h => hw h.2]

/-- An entry that was there before is absent where a page was placed. -/
theorem seen_place (hw : Place S s₀ d w) (ht : (s.dirs d).pgtables (pdx w) ≠ 0) (he : e = s.entry d w)
    (hold : Old S s₀ e) : s₀.seen e = none := by
  by_cases hj : pdx w ∈ js
  · obtain ⟨k, t, N⟩ := Y.fresh _ hj
    refine absurd ?_ (hold k N.slot N.clear).1
    rw [he, ← N.table]
    rfl
  · have hent : e = s₀.entry d w := by
      rw [he, entry, Y.kept d _ fun h => hj h.2]
      rfl
    rw [hent, seen_eq_none]
    exact target_of_absent (hw.absent.resolve_left fun h0 => ht ((Y.missing_iff hj).mpr h0))

/-- A page comes or goes: only its entry changes, and the counts of the other frames
stay. -/
theorem setPage (hperm : perm.getLsbD 0 = true) (once : TablesOnce s d) (hw : Place S s₀ d w)
    (ht : (s.dirs d).pgtables (pdx w) ≠ 0) (hws : ∀ v, v ≠ w → (v ∈ ws' ↔ v ∈ ws))
    (hpg : ∀ e i, (s'.dirs e).pgtables i = (s.dirs e).pgtables i) (hbits : s'.tmpPages = s.tmpPages)
    (hpte : ∀ e, e ≠ s.entry d w → s'.pte e = s.pte e)
    (hslot : ∀ k < 1024, (S.tmpTable, k) ≠ s.entry d w → ∀ g, s.target (S.tmpTable, k) = some g → refs g = 1 → refs' g = 1)
    (hpages : ∀ v ∈ ws, s.entry d v ≠ s.entry d w → ∀ g, s.target (s.entry d v) = some g → refs g = 1 → refs' g = 1)
    (hin : w ∈ ws' → ∃ f < S.pagesNr, s'.pte (s.entry d w) = .ofAddr (f * 0x1000) perm ∧ refs' f = 1)
    (hout : w ∉ ws' → s'.target (s.entry d w) = none) : Enlarged S s₀ d perm ws' js s' refs' := by
  have hent : ∀ v, s'.entry d v = s.entry d v := fun v => congrArg (·, ptx v) (hpg d (pdx v))
  have hmem : ∀ v ∈ ws', v ≠ w → v ∈ ws := fun v hv hvw => (hws v hvw).mp hv
  -- an entry of no page of `ws'`, which is that of `w` or of no page of `ws`
  have hgone : ∀ {e}, (∀ v ∈ ws', e ≠ s'.entry d v) → e = s.entry d w → s'.target e = none := fun h he =>
    he ▸ hout fun hw' => h w hw' (he.trans (hent w).symm)
  have hrest : ∀ {e}, (∀ v ∈ ws', e ≠ s'.entry d v) → e ≠ s.entry d w → ∀ v ∈ ws, e ≠ s.entry d v :=
    fun h he v hv => by
      by_cases hvw : v = w
      · exact hvw ▸ he
      · exact hent v ▸ h v ((hws v hvw).mpr hv)
  refine ⟨fun e i h => (hpg e i).trans (Y.kept e i h), fun j hj => ?_,
    fun i hi j hj h => Y.inj i hi j hj (by rwa [hpg, hpg] at h), fun k hk => by simp only [hbits, hpg, Y.bits k hk],
    fun v hv => ?_, fun v hv => ?_, fun v hv => ?_, fun e hold hne => ?_, fun j hj x hne => ?_⟩
  · obtain ⟨k, t, N⟩ := Y.fresh j hj
    have htmp : (s.dirs d).pgtables (pdx w) ≠ S.tmpTable := by
      by_cases hjw : pdx w ∈ js
      · obtain ⟨k', t', N'⟩ := Y.fresh _ hjw
        exact N'.table ▸ S.tmpTable_slot k' N'.slot
      · exact Y.kept d _ (fun h => hjw h.2) ▸ hw.tmp
    have hne : (S.tmpTable, k) ≠ s.entry d w := fun h => htmp (congrArg Prod.fst h).symm
    refine ⟨k, t, N.missing, N.index, N.slot, (hpg d j).trans N.table, N.clear, ?_, hslot k N.slot hne t N.frame N.refs⟩
    rw [target_congr (hpte _ hne)]
    exact N.frame
  · by_cases hvw : v = w
    · exact hvw ▸ hw
    · exact Y.place v (hmem v hv hvw)
  · rw [hpg]
    by_cases hvw : v = w
    · exact hvw ▸ ht
    · exact Y.tables v (hmem v hv hvw)
  · rw [hent]
    by_cases hvw : v = w
    · subst hvw
      exact hin hv
    · have hv := hmem v hv hvw
      obtain ⟨g, hg, hv', hg'⟩ := Y.pages v hv
      have hne := once.entry_ne (Y.place v hv).page hw.page (Y.tables v hv) hvw
      exact ⟨g, hg, (hpte _ hne).trans hv', hpages v hv hne g (target_page hperm hg hv') hg'⟩
  · by_cases he : e = s.entry d w
    · rw [Y.seen_place hw ht he hold, seen_eq_none]
      exact hgone hne he
    · rw [seen_congr (hpte e he)]
      exact Y.seen e hold (hrest hne he)
  · rw [hpg] at hne ⊢
    by_cases he : ((s.dirs d).pgtables j, x) = s.entry d w
    · exact hgone hne he
    · rw [target_congr (hpte _ he)]
      exact Y.empty j hj x (hrest hne he)

/-- A page table without pages comes or goes, at the temporary address `k`. -/
theorem setTable (hperm : perm.getLsbD 0 = true) (hd : d < s.dirsNr) (hj : j < 1024) (hk : k < 1024)
    (hmiss : (s₀.dirs d).pgtables j = 0) (hclear : s₀.tmpPages.test k = false)
    (hat : j ∈ js → (s.dirs d).pgtables j = tmpKaddr k) (hno : ∀ v ∈ ws, pdx v ≠ j)
    (hown : ∀ i, i ≠ j → i < 1024 → (s.dirs d).pgtables i ≠ tmpKaddr k) (hjs : ∀ i, i ≠ j → (i ∈ js' ↔ i ∈ js))
    (hpg : ∀ e i, ¬ (e = d ∧ i = j) → (s'.dirs e).pgtables i = (s.dirs e).pgtables i)
    (hpte : ∀ e, e.1 ≠ tmpKaddr k → e ≠ (S.tmpTable, k) → s'.pte e = s.pte e)
    (hbits : ∀ l, l ≠ k → s'.tmpPages.test l = s.tmpPages.test l)
    (hslot : ∀ l < 1024, l ≠ k → ∀ g, s.target (S.tmpTable, l) = some g → refs g = 1 → refs' g = 1)
    (hpages : ∀ v ∈ ws, ∀ g, s.target (s.entry d v) = some g → refs g = 1 → refs' g = 1)
    (hin : j ∈ js' → (s'.dirs d).pgtables j = tmpKaddr k ∧ s'.tmpPages.test k = true ∧
      (∃ t, s'.target (S.tmpTable, k) = some t ∧ refs' t = 1) ∧ ∀ x, s'.target (tmpKaddr k, x) = none)
    (hout : j ∉ js' → (s'.dirs d).pgtables j = 0 ∧ s'.tmpPages.test k = false) :
    Enlarged S s₀ d perm ws js' s' refs' := by
  have hpgo : ∀ i, i ≠ j → (s'.dirs d).pgtables i = (s.dirs d).pgtables i := fun i hi => hpg d i fun h => hi h.2
  have hent : ∀ v ∈ ws, s'.entry d v = s.entry d v := fun v hv => congrArg (·, ptx v) (hpgo _ (hno v hv))
  have hmem : ∀ i ∈ js', i ≠ j → i ∈ js := fun i hi hij => (hjs i hij).mp hi
  have hlt : ∀ i ∈ js, i < 1024 := fun i hi => by
    obtain ⟨_, _, N⟩ := Y.fresh i hi
    exact N.index
  -- a table that stays is not at `k`
  have hstay : ∀ i ∈ js', i ≠ j → (s'.dirs d).pgtables i ≠ tmpKaddr k := fun i hi hij => by
    rw [hpgo i hij]
    exact hown i hij (hlt i (hmem i hi hij))
  refine ⟨fun e i h => ?_, fun i hi => ?_, fun i hi i' hi' h => ?_, fun l hl => ?_, Y.place, fun v hv => ?_,
    fun v hv => ?_, fun e hold hne => ?_, fun i hi x hne => ?_⟩
  · by_cases hei : e = d ∧ i = j
    · obtain ⟨rfl, rfl⟩ := hei
      rw [(hout fun hi => h ⟨rfl, hi⟩).1, hmiss]
    · rw [hpg e i hei]
      exact Y.kept e i fun h' => h ⟨h'.1, (hjs i fun hij => hei ⟨h'.1, hij⟩).mpr h'.2⟩
  · by_cases hij : i = j
    · subst hij
      obtain ⟨htab, -, ⟨t, ht, hrefs⟩, -⟩ := hin hi
      exact ⟨k, t, hmiss, hj, hk, htab, hclear, ht, hrefs⟩
    · obtain ⟨l, t, N⟩ := Y.fresh i (hmem i hi hij)
      have hlk : l ≠ k := fun h => hown i hij N.index (h ▸ N.table)
      refine ⟨l, t, N.missing, N.index, N.slot, (hpgo i hij).trans N.table, N.clear, ?_,
        hslot l N.slot hlk t N.frame N.refs⟩
      rw [target_congr (hpte _ (S.tmpTable_slot k hk).symm fun h => hlk (congrArg Prod.snd h))]
      exact N.frame
  · by_cases hij : i = j
    · by_cases hij' : i' = j
      · exact hij.trans hij'.symm
      · rw [hij, (hin (hij ▸ hi)).1] at h
        exact absurd h.symm (hstay i' hi' hij')
    · by_cases hij' : i' = j
      · rw [hij', (hin (hij' ▸ hi')).1] at h
        exact absurd h (hstay i hi hij)
      · rw [hpgo i hij, hpgo i' hij'] at h
        exact Y.inj i (hmem i hi hij) i' (hmem i' hi' hij') h
  · by_cases hlk : l = k
    · subst hlk
      rw [hclear]
      by_cases hj' : j ∈ js'
      · exact iff_of_true (hin hj').2.1 (.inr ⟨j, hj', (hin hj').1⟩)
      · rw [(hout hj').2]
        refine iff_of_false Bool.false_ne_true ?_
        rintro (h | ⟨i, hi, h⟩)
        · cases h
        · exact hstay i hi (fun hij => hj' (hij ▸ hi)) h
    · rw [hbits l hlk, Y.bits l hl]
      refine or_congr_right ⟨?_, ?_⟩
      · rintro ⟨i, hi, h⟩
        have hij : i ≠ j := by
          rintro rfl
          exact hlk (tmpKaddr_inj (h.symm.trans (hat hi)))
        exact ⟨i, (hjs i hij).mpr hi, (hpgo i hij).trans h⟩
      · rintro ⟨i, hi, h⟩
        have hij : i ≠ j := by
          rintro rfl
          exact hlk (tmpKaddr_inj (h.symm.trans (hin hi).1))
        exact ⟨i, hmem i hi hij, (hpgo i hij).symm.trans h⟩
  · rw [hpgo _ (hno v hv)]
    exact Y.tables v hv
  · obtain ⟨g, hg, hv', hg'⟩ := Y.pages v hv
    have hne := Ready.entry_ne_slot (k := k) (Y.outside hd (Y.place v hv))
    refine ⟨g, hg, ?_, hpages v hv g (target_page hperm hg hv') hg'⟩
    rw [hent v hv, hpte _ (hown _ (hno v hv) (pdx_lt v)) hne]
    exact hv'
  · rw [seen_congr (hpte e (hold k hk hclear).1 (hold k hk hclear).2)]
    exact Y.seen e hold fun v hv => hent v hv ▸ hne v hv
  · by_cases hij : i = j
    · subst hij
      rw [(hin hi).1]
      exact (hin hi).2.2.2 x
    · have hslot' : ((s.dirs d).pgtables i, x) ≠ (S.tmpTable, k) := fun h => by
        obtain ⟨l, t, N⟩ := Y.fresh i (hmem i hi hij)
        exact S.tmpTable_slot l N.slot (N.table.symm.trans (congrArg Prod.fst h))
      rw [hpgo i hij] at hne ⊢
      rw [target_congr (hpte _ (hown i hij (hlt i (hmem i hi hij))) hslot')]
      exact Y.empty i (hmem i hi hij) x fun v hv => hent v hv ▸ hne v hv

end Enlarged

namespace Added

section

variable (R₀ : Ready S ty s₀ L₀ holds c) (hd : d < s₀.dirsNr) (T : TablesOnce s₀ d)
  (A : Added S ty holds c s₀ L₀ d perm ws js s L)

include A in
theorem maps (hperm : perm.getLsbD 0 = true) (hw : w ∈ ws) : ∃ f, s.Maps d w f ∧ L.refs f = 1 := by
  obtain ⟨f, hf, hpte, hrefs⟩ := A.pages w hw
  refine ⟨f, ⟨A.tables w hw, ?_, ?_⟩, hrefs⟩
  · rw [hpte]
    exact ofAddr_present hperm
  · rw [hpte]
    exact ofAddr_physPgno hf

include A in
theorem mem_entries (hd : d < s₀.dirsNr) (hw : w ∈ ws) : s.entry d w ∈ entries S s :=
  (A.outside (A.dirsNr ▸ hd) (A.place w hw)).usable.mem_entries (A.tables w hw)

/-! ## Taking away -/

theorem length_drop (hf : f ∉ L.free) (h : L.refs f = 1) : (L.drop f hf).free.length = L.free.length + 1 := by
  have hfree : (L.drop f hf).free = L.free ++ [f] := if_pos h
  rw [hfree, length_append, length_singleton]

include A in
/-- A frame that was mapped at one entry is dropped: the counts of the others stay. -/
theorem drop_refs (hf : f ∉ L.free) (he : e ∈ entries S s) (h : s.target e = some f) (hrefs : L.refs f = 1)
    {x : Nat × Nat} (hx : x ∈ entries S s) (hne : x ≠ e) {g : Nat} (hg : s.target x = some g)
    (hg' : L.refs g = 1) : (L.drop f hf).refs g = 1 := by
  refine (update_of_ne ?_ ..).trans hg'
  rintro rfl
  exact hne (A.ready.target_unique hx he hg h hrefs)

include R₀ hd T A in
/-- A page that was added is removed. -/
theorem remove (hperm : perm.getLsbD 0 = true) (hw : w ∈ ws) :
    ∃ s' L', pageRemove d w s = .ok (0, s') ∧ Added S ty holds c s₀ L₀ d perm (ws.erase w) js s' L' := by
  have U := A.outside (A.dirsNr ▸ hd) (A.place w hw)
  obtain ⟨f, hm, hrefs⟩ := A.maps hperm hw
  obtain ⟨q, hf, hcall, R⟩ := A.ready.remove U (A.place w hw).below hm
  rw [hrefs] at hcall
  have hpte : ∀ e, ({ s.unmap d w with phys := q } : Vm).pte e = if e = s.entry d w then .ofAddr 0 0 else s.pte e :=
    unmap_pte
  have hdrop := fun {x} => A.drop_refs hf (A.mem_entries hd hw) hm.target hrefs (x := x)
  refine ⟨_, L.drop f hf, hcall, ?_, R, A.dirsNr, A.words.unmap, fun e => ?_, ?_⟩
  · refine A.setPage hperm (A.tablesOnce R₀ hd T) (A.place w hw) hm.table (fun v hv => by simp [hv]) unmap_pgtables
      rfl (fun e he => (hpte e).trans (if_neg he)) (fun k hk hne g hg => hdrop (A.ready.tmp_mem_entries hk) hne hg)
      (fun v hv hne g hg => hdrop (A.mem_entries hd hv) hne hg) (fun h => absurd rfl (mem_erase.mp h).1) fun _ => ?_
    exact target_of_absent (by rw [hpte, if_pos rfl]; exact present_ofAddr_zero)
  · refine (charge_unmap d w e).trans ?_
    rw [A.charge e]
    by_cases he : e = d
    · rw [if_pos he, if_pos he, if_pos he, sum_erase_eq_sub hw]
      abel
    · rw [if_neg he, if_neg he, if_neg he, sub_zero]
  · have hcard := card_erase_add_one hw
    have hfree := A.free
    rw [length_drop hf hrefs]
    omega

include R₀ hd A in
/-- A table that was added is released when it has no page. -/
theorem release (hperm : perm.getLsbD 0 = true) (hj : j ∈ js) (hno : ∀ w ∈ ws, pdx w ≠ j) :
    ∃ s' L', pdeFree d j s = .ok (0, s') ∧ Added S ty holds c s₀ L₀ d perm ws (js.erase j) s' L' := by
  obtain ⟨k, t, N⟩ := A.fresh j hj
  have hds : d < s.dirsNr := A.dirsNr ▸ hd
  have halone : ∀ e i, e < s.dirsNr → i < 1024 → (s.dirs e).pgtables i = tmpKaddr k → e = d ∧ i = j :=
    fun e i he hi h => A.alone R₀ hj (A.dirsNr ▸ he) hi (h.trans N.table.symm)
  have hempty : ∀ x < 1024, s.target (tmpKaddr k, x) = none := fun x _ => by
    rw [← N.table]
    refine A.empty j hj x fun w hw he => hno w hw ?_
    exact (A.alone R₀ hj hd (pdx_lt w) (congrArg Prod.fst he).symm).2
  obtain ⟨q, hf, hcall, R⟩ := A.ready.pdeFree ⟨N.slot, N.table, halone, hempty⟩ N.frame N.refs
  have hpg : ∀ e i, (({ (s.unmapTmp k).clearTable d j with phys := q } : Vm).dirs e).pgtables i =
      if e = d ∧ i = j then 0 else (s.dirs e).pgtables i := fun e i => by
    refine (clearTable_pgtables (s := s.unmapTmp k) e i).trans ?_
    rw [show ((s.unmapTmp k).dirs e).pgtables i = (s.dirs e).pgtables i from unmap_pgtables e i]
  have hbits : ∀ l, ({ (s.unmapTmp k).clearTable d j with phys := q } : Vm).tmpPages.test l =
      (!decide (l = k) && s.tmpPages.test l) := Bitmap.test_reset
  have hdrop := fun {x} => A.drop_refs hf (A.ready.tmp_mem_entries N.slot) N.frame N.refs (x := x)
  refine ⟨_, L.drop t hf, hcall, ?_, R, A.dirsNr, A.words.clearTable, fun e => ?_, ?_⟩
  · refine A.setTable hperm hds N.index N.slot N.missing N.clear (fun _ => N.table) hno
      (fun i hij hi h => hij (halone d i hds hi h).2) (fun i hi => by simp [hi]) (fun e i h => (hpg e i).trans (if_neg h))
      (fun e _ he => (A.ready.unmapTmp_pte N.slot e).trans (if_neg he)) (fun l hl => by simp [hbits, hl])
      (fun l hl hlk g hg => hdrop (A.ready.tmp_mem_entries hl) (fun h => hlk (congrArg Prod.snd h)) hg)
      (fun v hv g hg => hdrop (A.mem_entries hd hv) (Ready.entry_ne_slot (A.outside hds (A.place v hv))) hg)
      (fun h => absurd rfl (mem_erase.mp h).1) fun _ => ⟨(hpg d j).trans (if_pos ⟨rfl, rfl⟩), by simp [hbits]⟩
  · have hcard : js.card = (js.erase j).card + 1 := (card_erase_add_one hj).symm
    refine (charge_clearTable N.slot d j e).trans ?_
    rw [A.charge e, hcard, add_smul, one_smul]
    abel
  · have hcard := card_erase_add_one hj
    have hfree := A.free
    rw [length_drop hf N.refs]
    omega

/-! ## Adding -/

include R₀ hd in
theorem old_entry (hw : Place S s₀ d w) : Old S s₀ (s₀.entry d w) := fun _ hk hbit =>
  ⟨old_table R₀ hd (pdx_lt w) hk hbit, fun h => hw.tmp (congrArg Prod.fst h)⟩

include R₀ hd T A in
/-- A page that was not added is still absent. -/
theorem absent (hw : Place S s₀ d w) (hnew : w ∉ ws) (ht : (s.dirs d).pgtables (pdx w) ≠ 0) :
    s.target (s.entry d w) = none := by
  have hne : ∀ v ∈ ws, s.entry d w ≠ s.entry d v := fun v hv =>
    (A.tablesOnce R₀ hd T).entry_ne hw.page (A.place v hv).page ht fun h => hnew (h ▸ hv)
  by_cases hj : pdx w ∈ js
  · exact A.empty _ hj (ptx w) hne
  · have hent : s.entry d w = s₀.entry d w := congrArg (·, ptx w) (A.kept d _ fun h => hj h.2)
    rw [← seen_eq_none, A.seen _ (hent ▸ old_entry R₀ hd hw) hne, hent, seen_eq_none]
    exact target_of_absent (hw.absent.resolve_left fun h0 => ht ((A.missing_iff hj).mpr h0))

theorem update_refs {g : Nat} (h0 : refs p = 0) (hg : refs g = 1) : update refs p 1 g = 1 :=
  (update_of_ne (fun h : g = p => by rw [h] at hg; omega) ..).trans hg

/-- A page is mapped to a frame that had no reference. -/
theorem mapped (Y : Enlarged S s₀ d perm ws js s refs) (once : TablesOnce s d) (hperm : perm.getLsbD 0 = true)
    (hw : Place S s₀ d w) (ht : (s.dirs d).pgtables (pdx w) ≠ 0) (hp : p < S.pagesNr) (h0 : refs p = 0) :
    Enlarged S s₀ d perm (insert w ws) js (s.map d p w perm) (update refs p 1) :=
  Y.setPage hperm once hw ht (fun v hv => by simp [hv]) map_pgtables rfl
    (fun e he => (map_pte e).trans (if_neg he)) (fun _ _ _ g _ => update_refs h0) (fun _ _ _ g _ => update_refs h0)
    (fun _ => ⟨p, hp, (map_pte _).trans (if_pos rfl), update_self ..⟩) fun h => absurd (mem_insert_self w ws) h

include R₀ hd T A in
/-- A page is mapped where there is a table. -/
theorem mapPage (hif : c.ifl = false) (hperm : perm.getLsbD 0 = true) (hw : Place S s₀ d w) (hnew : w ∉ ws)
    (ht : (s.dirs d).pgtables (pdx w) ≠ 0) {rest : List Nat} (hL : L.free = p :: rest) :
    ∃ s₁ s' L', onPhys pageAlloc s = .ok (some p, s₁) ∧ pageInsert d p w perm s₁ = .ok (1, s') ∧
      Added S ty holds c s₀ L₀ d perm (insert w ws) js s' L' := by
  have hp0 : L.refs p = 0 := L.unreferenced p (hL ▸ mem_cons_self)
  have hp : p ∉ (L.take hL).free := (nodup_cons.mp (hL ▸ L.nodup)).1
  have hmap := A.ready.mappable_of_free (f := p) (hL ▸ mem_cons_self)
  obtain ⟨q₁, halloc, R₁⟩ := A.ready.alloc hif hL
  have Sh : Sharable (L.take hL) p := ⟨hp, by show L.refs p + 1 < 2 ^ 20; omega⟩
  have habs : (s.pte (s.entry d w)).present = false := by
    have h := A.absent R₀ hd T hw hnew ht
    cases hpres : (s.pte (s.entry d w)).present with
    | false => rfl
    | true =>
      rw [target_of_present hpres] at h
      cases h
  have U := A.outside (A.dirsNr ▸ hd) hw
  obtain ⟨q, hins, R⟩ := R₁.insert_absent (d := d) ⟨U.dir, U.direct, U.tmp⟩ hw.below hperm hmap Sh ht habs
  have hone : ((L.take hL).refs p + 1 : Nat) = 1 := by
    show L.refs p + 1 = 1
    omega
  rw [hone] at hins R
  have Y := mapped A.toEnlarged (A.tablesOnce R₀ hd T) hperm hw ht hmap.lt hp0
  refine ⟨_, _, (L.take hL).setRefs p 1 hp, halloc, hins, Y.phys, R, A.dirsNr, A.words.map p perm, fun e => ?_, ?_⟩
  · refine (charge_map (s := s) d p w perm e).trans ?_
    rw [A.charge e, sum_insert hnew]
    by_cases he : e = d
    · rw [if_pos he, if_pos he, if_pos he]
      abel
    · rw [if_neg he, if_neg he, if_neg he, add_zero]
  · have hfree := A.free
    rw [hL, length_cons] at hfree
    rw [card_insert_of_notMem hnew]
    show rest.length + (ws.card + 1) + js.card = L₀.free.length
    omega

include R₀ hd A in
/-- A table is made for `w`, at a temporary address that is free. -/
theorem withTable {t : Nat} (hperm : perm.getLsbD 0 = true) (h0 : (s.dirs d).pgtables (pdx w) = 0) (hk : k < 1024)
    (hbit : s.tmpPages.test k = false) (ht : t < S.pagesNr) (ht0 : L.refs t = 0) : pdx w ∉ js ∧
    Enlarged S s₀ d perm ws (insert (pdx w) js) (s.withTable d w k t) (update L.refs t 1) := by
  have hjs : pdx w ∉ js := fun h => by
    obtain ⟨k', t', N⟩ := A.fresh _ h
    exact tmpKaddr_ne_zero k' (N.table.symm.trans h0)
  have hbits : ¬ (s₀.tmpPages.test k = true ∨ ∃ j ∈ js, (s.dirs d).pgtables j = tmpKaddr k) := by
    rw [← A.bits k hk, hbit]
    exact Bool.false_ne_true
  have hbit₀ : s₀.tmpPages.test k = false := Bool.eq_false_of_not_eq_true fun h => hbits (.inl h)
  have hown : ∀ i, i ≠ pdx w → i < 1024 → (s.dirs d).pgtables i ≠ tmpKaddr k := fun i _ hi => by
    by_cases hj : i ∈ js
    · exact fun h => hbits (.inr ⟨i, hj, h⟩)
    · rw [A.kept d _ fun h => hj h.2]
      exact old_table R₀ hd hi hk hbit₀
  have hpte := A.ready.withTable_pte d w t hk
  have hslot : (S.tmpTable, k).1 ≠ tmpKaddr k := (S.tmpTable_slot k hk).symm
  refine ⟨hjs, A.setTable hperm (A.dirsNr ▸ hd) (pdx_lt w) hk ((A.missing_iff hjs).mp h0) hbit₀ (fun h => absurd h hjs)
    (fun v hv h => A.tables v hv (h ▸ h0)) hown (fun i hi => by simp [hi])
    (fun e i h => (withTable_pgtables e i).trans (if_neg h)) (fun e h1 h2 => by rw [hpte, if_neg h1, if_neg h2])
    (fun l hl => (Bitmap.test_set l).trans (by simp [hl])) (fun _ _ _ g _ => update_refs ht0) (fun _ _ g _ => update_refs ht0)
    (fun _ => ⟨(withTable_pgtables d _).trans (if_pos ⟨rfl, rfl⟩), (Bitmap.test_set k).trans (by simp), ⟨t, ?_, update_self ..⟩,
      fun x => target_of_absent ?_⟩) fun h => absurd (mem_insert_self _ js) h⟩
  · exact target_page perm_PW ht (by rw [hpte, if_neg hslot, if_pos rfl])
  · rw [hpte, if_pos rfl]
    rfl

include R₀ hd T A in
/-- A page is mapped where a table has to be made. -/
theorem mapPage_newTable (hif : c.ifl = false) (hperm : perm.getLsbD 0 = true) (hw : Place S s₀ d w) (hnew : w ∉ ws)
    (h0 : (s.dirs d).pgtables (pdx w) = 0) {rest : List Nat} (hL : L.free = p :: rest)
    (hroom : ¬ Exhausted s (L.take hL)) :
    ∃ s₁ s' L', onPhys pageAlloc s = .ok (some p, s₁) ∧ pageInsert d p w perm s₁ = .ok (1, s') ∧
      Added S ty holds c s₀ L₀ d perm (insert w ws) (insert (pdx w) js) s' L' := by
  have hp0 : L.refs p = 0 := L.unreferenced p (hL ▸ mem_cons_self)
  have hnd : (p :: rest).Nodup := hL ▸ L.nodup
  have hmap := A.ready.mappable_of_free (f := p) (hL ▸ mem_cons_self)
  obtain ⟨q₁, halloc, R₁⟩ := A.ready.alloc hif hL
  obtain ⟨k, t, rest', M⟩ := R₁.canMap hroom
  have hrest : rest = t :: rest' := M.free
  have hpt : p ≠ t := fun h => (nodup_cons.mp hnd).1 (hrest ▸ h ▸ mem_cons_self)
  have ht0 : L.refs t = 0 := L.unreferenced t (hL ▸ mem_cons_of_mem _ (hrest ▸ mem_cons_self))
  have hp : p ∉ M.ledger.free := fun h => (nodup_cons.mp hnd).1 (hrest ▸ mem_cons_of_mem _ h)
  have hMp : M.ledger.refs p = 0 := (update_of_ne hpt ..).trans hp0
  have Sh : Sharable M.ledger p := ⟨hp, by omega⟩
  have hds : d < s.dirsNr := A.dirsNr ▸ hd
  obtain ⟨q, hins, R⟩ := R₁.insert_newTable (d := d) hds hw.below hperm hmap h0 M Sh
  rw [hMp, Nat.zero_add] at hins R
  obtain ⟨hjs, Y⟩ := A.withTable R₀ hd hperm h0 M.lt M.bit (R₁.canMap_mappable M).lt ht0
  have htab : ((s.withTable d w k t).dirs d).pgtables (pdx w) ≠ 0 := by
    rw [withTable_pgtables, if_pos ⟨rfl, rfl⟩]
    exact tmpKaddr_ne_zero k
  refine ⟨_, _, M.ledger.setRefs p 1 hp, halloc, hins, (mapped Y (Y.tablesOnce R₀ hd T) hperm hw htab hmap.lt hMp).phys, R,
    A.dirsNr, A.words.withTable.map p perm, fun e => ?_, ?_⟩
  · refine (charge_map (s := s.withTable d w k t) d p w perm e).trans ?_
    rw [charge_withTable M.lt, A.charge e, sum_insert hnew, card_insert_of_notMem hjs, add_smul, one_smul]
    by_cases he : e = d
    · rw [if_pos he, if_pos he, if_pos he]
      abel
    · rw [if_neg he, if_neg he, if_neg he]
      abel
  · have hfree := A.free
    rw [hL, hrest, length_cons, length_cons] at hfree
    rw [card_insert_of_notMem hnew, card_insert_of_notMem hjs]
    show rest'.length + (ws.card + 1) + (js.card + 1) = L₀.free.length
    omega

/-! ## Nothing added -/

include R₀ in
theorem restored (hw : s₀.Words) (A : Added S ty holds c s₀ L₀ d perm ∅ ∅ s L) : Restored s₀ s := by
  have htab : ∀ e i, (s.dirs e).pgtables i = (s₀.dirs e).pgtables i := fun e i => A.kept e i (by simp)
  have hcharge : ∀ e, s.charge e = s₀.charge e := fun e => by
    rw [A.charge e]
    simp
  refine ⟨htab, fun e he va => ?_, fun e => (hw.eq A.words (hcharge e)).1, fun e => (hw.eq A.words (hcharge e)).2, ?_⟩
  · have hget : pageGet s e va = pageGet s₀ e va := by
      unfold pageGet
      rw [htab]
    have hseen : ∀ E, pageGet s₀ e va = some E → s.seen E = s₀.seen E := fun E hE => by
      obtain ⟨h0, rfl⟩ := pageGet_eq_some.mp hE
      by_cases hold : Old S s₀ ((s₀.dirs e).pgtables (pdx va), ptx va)
      · exact A.seen _ hold (by simp)
      -- a temporary address that was free: nothing is there, before and after
      unfold Old at hold
      push Not at hold
      obtain ⟨k, hk, hbit, himp⟩ := hold
      have hslot := himp (old_table R₀ he (pdx_lt va) hk hbit)
      rw [hslot]
      have hbit' : ¬ s.tmpPages.test k = true := by
        rw [A.bits k hk, hbit]
        simp
      have h₀ : s₀.target (S.tmpTable, k) = none := Classical.byContradiction fun h => by
        rw [(R₀.slots k hk).mpr h] at hbit
        cases hbit
      have h : s.target (S.tmpTable, k) = none := Classical.byContradiction fun h =>
        hbit' ((A.ready.slots k hk).mpr h)
      rw [seen_eq_none.mpr h, seen_eq_none.mpr h₀]
    show (pageGet s e va).bind s.seen = (pageGet s₀ e va).bind s₀.seen
    rw [hget]
    cases hE : pageGet s₀ e va with
    | none => rfl
    | some E => exact hseen E hE
  · have hlen : L.free.length = L₀.free.length := A.free
    unfold Phys.memFree
    rw [A.ready.account.rep.count, R₀.account.rep.count, hlen]

end

end Added

end MakarnaX
