import MakarnaX.Memory.Frames.Physical

/-!
# Calls on frames that return

`Phys.Rep` says what a call that returns has done.  Here is when the calls do
return: the assertions of `physical.h` are about the interrupt flag, about the
type of a frame, and about whether it is free.  `Phys.Account` has what they
need.  No function changes the type of a frame: what is on the list of free
frames is available memory already.

The interrupt state is compared with `Cpu.Same`.  A `pushcli` and the `popif` that
belongs to it leave everything but `before_pushcli`, and that only where nobody
will read it.
-/

namespace MakarnaX

open List Function Phys

open Library

/-! ## The interrupt state -/

namespace Cpu

/-- Interrupts are off in a section, and sections are not left more often than entered. -/
structure Sane (c : Cpu) : Prop where
  nCli : 0 ≤ c.nCli
  ifl : 0 < c.nCli → c.ifl = false

/-- The same interrupt state, as far as it will be read. -/
structure Same (c c' : Cpu) : Prop where
  ifl : c'.ifl = c.ifl
  nCli : c'.nCli = c.nCli
  before : 0 < c.nCli → c'.beforePushcli = c.beforePushcli

variable {c c' c'' : Cpu}

theorem Same.refl (c : Cpu) : Same c c := ⟨rfl, rfl, fun _ => rfl⟩

theorem Sane.pushcli (h : Sane c) : Sane c.pushcli where
  nCli := by
    have := h.nCli
    show 0 ≤ c.nCli + 1
    omega
  ifl _ := rfl

theorem Same.pushcli (h : Same c c') (hc : Sane c) : Same c.pushcli c'.pushcli where
  ifl := rfl
  nCli := congrArg (· + 1) h.nCli
  before _ := by
    show (if c'.nCli = 0 then c'.ifl else c'.beforePushcli) = if c.nCli = 0 then c.ifl else c.beforePushcli
    rw [h.nCli, h.ifl]
    split
    · rfl
    · have := hc.nCli
      exact h.before (by omega)

/-- The end of a section. -/
theorem Same.popif (h : Same c.pushcli c') (hc : Sane c) : ∃ c'', c'.popif = .ok c'' ∧ Same c c'' := by
  have hn : c'.nCli = c.nCli + 1 := h.nCli
  have h0 := hc.nCli
  have hbefore : c'.beforePushcli = if c.nCli = 0 then c.ifl else c.beforePushcli :=
    h.before (by show 0 < c.nCli + 1; omega)
  unfold Cpu.popif
  rw [if_neg (by omega)]
  refine ⟨_, rfl, ?_, by dsimp only; omega, fun hpos => ?_⟩
  · dsimp only
    rw [hn, hbefore, Int.add_sub_cancel]
    by_cases hz : c.nCli = 0
    · simp [hz]
    · simp [hz, hc.ifl (by omega)]
  · dsimp only
    rw [hbefore, if_neg (by omega)]

end Cpu

/-! ## Frames -/

/-- An assertion that holds. -/
theorem ASSERT_lift {σ β : Type} {b : Prop} [Decidable b] (h : b) {text : String} {k : Unit → StateT σ Exec β} {s : σ} :
    ((ASSERT b text : StateT σ Exec Unit) >>= k) s = k () s := by
  rw [ASSERT_ok h]
  rfl

theorem Phys.setNext_type (t : Phys) (i n f : Nat) : ((t.setNext i n).pages f).type = (t.pages f).type := by
  by_cases hfi : f = i
  · subst hfi
    simp [setNext]
  · rw [setNext, setPage_pages_ne hfi]

theorem FreePageList.insert_returns {t : Phys} {p : Nat} (h0 : p ≠ 0)
    (hends : t.freePageList.beginPage = none ↔ t.freePageList.endPage = none) :
    ∃ t', FreePageList.insert p t = .ok ((), t') ∧ t'.cpu = t.cpu ∧ ∀ f, (t'.pages f).type = (t.pages f).type := by
  cases hb : t.freePageList.beginPage with
  | none =>
    refine ⟨{ t.setNext p 0 with freePageList := ⟨some p, some p, add32 t.freePageList.count 1⟩ }, ?_, rfl,
      fun f => setNext_type ..⟩
    simp [FreePageList.insert, ASSERT, h0, hb]
  | some b =>
    cases he : t.freePageList.endPage with
    | none =>
      rw [hends.mpr he] at hb
      cases hb
    | some e =>
      refine ⟨{ (t.setNext p 0).setNext e p with
        freePageList := ⟨some b, some p, add32 t.freePageList.count 1⟩ }, ?_, rfl,
        fun f => (setNext_type ..).trans (setNext_type ..)⟩
      simp [FreePageList.insert, ASSERT, h0, hb, he]

/-- The frames have one ledger. -/
theorem Phys.Rep.unique {N : Nat} {s : Phys} {L L' : Ledger Nat} (R : s.Rep N L) (R' : s.Rep N L') : L = L' := by
  have hfree : L.free = L'.free := R.freeFrames.symm.trans R'.freeFrames
  refine Ledger.ext hfree (funext fun f => ?_)
  by_cases hf : f ∈ L.free
  · rw [L.unreferenced f hf, L'.unreferenced f (hfree ▸ hf)]
  · rw [← R.refs f hf, R'.refs f (hfree ▸ hf)]

/-- The frames are as the ledger `L` says, of the types `ty`, with the interrupt state `c`. -/
structure Phys.Account (N : Nat) (ty : Nat → PageType) (s : Phys) (L : Ledger Nat) (c : Cpu) : Prop where
  rep : s.Rep N L
  types : ∀ f, (s.pages f).type = ty f
  avail : ∀ f ∈ L.free, ty f = .available
  cpu : c.Same s.cpu

namespace Phys.Account

variable {N : Nat} {ty : Nat → PageType} {s : Phys} {L : Ledger Nat} {c : Cpu} {p : Nat}

theorem pushcli (A : s.Account N ty L c) (hc : c.Sane) :
    ({ s with cpu := s.cpu.pushcli } : Phys).Account N ty L c.pushcli :=
  ⟨A.rep.congr rfl rfl, A.types, A.avail, A.cpu.pushcli hc⟩

theorem popif (A : s.Account N ty L c.pushcli) (hc : c.Sane) :
    ∃ s', Phys.popif s = .ok ((), s') ∧ s'.Account N ty L c := by
  obtain ⟨c', hpop, hsame⟩ := A.cpu.popif hc
  refine ⟨{ s with cpu := c' }, ?_, A.rep.congr rfl rfl, A.types, A.avail, hsame⟩
  simp [Phys.popif, hpop]

section

variable (A : s.Account N ty L c)

include A

theorem ifl (h : c.ifl = false) : s.cpu.ifl = false := A.cpu.ifl.trans h

theorem assertIntDisable (h : c.ifl = false) :
    assertIntDisable s = .ok ((), s) := assertIntDisable_ok.mpr ⟨A.ifl h, rfl⟩

theorem free_eq_false (hp : p ∉ L.free) : (s.pages p).free = false := by
  rw [Bool.eq_false_iff, Ne, A.rep.free p]
  exact hp

theorem pageAlloc_none (hc : c.ifl = false) (hL : L.free = []) :
    pageAlloc s = .ok (none, s) := by
  have hb : s.freePageList.beginPage = none := by rw [A.rep.first, hL]; rfl
  unfold pageAlloc
  rw [bind_run (A.assertIntDisable hc)]
  have hfirst : FreePageList.getFirst s = .ok (none, s) := by
    unfold FreePageList.getFirst
    rw [get_run, hb]
    rfl
  rw [bind_run hfirst]
  rfl

theorem pageAlloc_some (hc : c.ifl = false) {rest : List Nat} (hL : L.free = p :: rest) :
    ∃ s', pageAlloc s = .ok (some p, s') ∧ s'.Account N ty (L.take hL) c := by
  have hb : s.freePageList.beginPage = some p := by rw [A.rep.first, hL]; rfl
  have hmem : p ∈ L.free := hL ▸ mem_cons_self
  obtain ⟨s1, hfirst, hpages, hcpu⟩ : ∃ s1, FreePageList.getFirst s = .ok (some p, s1) ∧
      s1.pages = (s.setNext p 0).pages ∧ s1.cpu = s.cpu := by
    unfold FreePageList.getFirst
    rw [get_run, hb]
    exact ⟨_, rfl, rfl, rfl⟩
  have hfree : (s1.pages p).free = true := by
    rw [hpages]
    simpa [setNext] using (A.rep.free p).mpr hmem
  have hcall : pageAlloc s = .ok (some p, s1.setPage p { s1.pages p with type := .available, free := false }) := by
    unfold pageAlloc
    rw [bind_run (A.assertIntDisable hc), bind_run hfirst]
    simp [ASSERT, hfree]
  refine ⟨_, hcall, ?_⟩
  rcases pageAlloc_spec A.rep hcall with ⟨hn, -⟩ | ⟨f, rest', hf, hr, R⟩
  · cases hn
  · cases hr
    obtain rfl : rest' = rest := by
      rw [hL] at hf
      exact (cons.inj hf).2.symm
    refine ⟨R, fun f => ?_, fun f hf' => A.avail f (hL ▸ mem_cons_of_mem _ hf'), hcpu ▸ A.cpu⟩
    by_cases hfp : f = p
    · subst hfp
      rw [setPage_pages_self, A.avail f hmem]
    · rw [setPage_pages_ne hfp, hpages, setNext, setPage_pages_ne hfp, A.types]

theorem pageFree (hc : c.ifl = false) (hN : p < N) (h0 : p ≠ 0) (hp : p ∉ L.free)
    (hrefs : L.refs p = 0) (hty : ty p = .available) :
    ∃ s', MakarnaX.pageFree p s = .ok ((), s') ∧ s'.Account N ty (L.give p hp hrefs) c := by
  have hfree := A.free_eq_false hp
  have hrc : (s.pages p).refcountGet = 0 := by
    rw [Page.refcountGet, hfree, if_neg Bool.false_ne_true, A.rep.refs p hp, hrefs]
  have hends : s.freePageList.beginPage = none ↔ s.freePageList.endPage = none := by
    rw [A.rep.first, A.rep.last, head?_eq_none_iff, getLast?_eq_none_iff]
  obtain ⟨s', hins, hcpu, htypes⟩ := FreePageList.insert_returns h0
    (show (s.setPage p { s.pages p with free := true }).freePageList.beginPage = none ↔
      (s.setPage p { s.pages p with free := true }).freePageList.endPage = none from hends)
  have hcall : MakarnaX.pageFree p s = .ok ((), s') := by
    unfold MakarnaX.pageFree
    rw [bind_run (A.assertIntDisable hc), get_run, ASSERT_lift (by rw [A.types, hty]),
      ASSERT_lift hfree, ASSERT_lift hrc, if_pos hrc, modify_run]
    exact hins
  refine ⟨s', hcall, ?_⟩
  obtain ⟨_, _, R⟩ := pageFree_spec A.rep hN hcall
  refine ⟨R, fun f => (htypes f).trans ?_, fun f hf => ?_, hcpu ▸ A.cpu⟩
  · by_cases hfp : f = p
    · subst hfp
      simpa using A.types f
    · rw [setPage_pages_ne hfp, A.types]
  rcases mem_append.mp hf with hf | hf
  · exact A.avail f hf
  · rw [mem_singleton.mp hf, hty]

/-- A change of the references to a frame in use. -/
theorem setNext (hp : p ∉ L.free) {n : Nat} (hn : n < 2 ^ 20) :
    (s.setNext p n).Account N ty (L.setRefs p n hp) c where
  rep := A.rep.setNext hp hn
  types f := by
    by_cases hfp : f = p
    · subst hfp
      simpa [Phys.setNext] using A.types f
    · rw [Phys.setNext, Phys.setPage_pages_ne hfp, A.types]
  avail := A.avail
  cpu := A.cpu

theorem refcountInc (hp : p ∉ L.free) (hn : L.refs p + 1 < 2 ^ 20) :
    ∃ s', MakarnaX.refcountInc p s = .ok ((L.refs p + 1 : Nat), s') ∧
      s'.Account N ty (L.setRefs p (L.refs p + 1) hp) c := by
  refine ⟨_, ?_, A.setNext hp hn⟩
  unfold MakarnaX.refcountInc
  rw [get_run, ASSERT_lift (A.free_eq_false hp)]
  dsimp only
  rw [A.rep.refs p hp, if_neg (by omega), modify_run]
  rfl

theorem refcountDec (hc : c.Sane) (hN : p < N) (h0 : p ≠ 0) (hp : p ∉ L.free)
    (hpos : 0 < L.refs p) (hty : L.refs p = 1 → ty p = .available) :
    ∃ s', MakarnaX.refcountDec p s = .ok ((L.refs p - 1 : Nat), s') ∧ s'.Account N ty (L.drop p hp) c := by
  have hsmall := A.rep.small p
  have hdec : (L.refs p + (2 ^ 20 - 1)) % 2 ^ 20 = L.refs p - 1 := by omega
  have A0 := A.pushcli hc
  have A1 := A0.setNext hp (show L.refs p - 1 < 2 ^ 20 by omega)
  have hrc : ((({ s with cpu := s.cpu.pushcli } : Phys).setNext p (L.refs p - 1)).pages p).refcountGet = L.refs p - 1 := by
    rw [Page.refcountGet, A1.free_eq_false hp, if_neg Bool.false_ne_true, A1.rep.refs p hp]
    exact update_self ..
  generalize hs1 : ({ s with cpu := s.cpu.pushcli } : Phys).setNext p (L.refs p - 1) = s1 at A1 hrc
  have hcall : MakarnaX.refcountDec p s = ((if ((L.refs p - 1 : Nat) : Int) = 0 then do
      MakarnaX.pageFree p
      Phys.popif
      return ((L.refs p - 1 : Nat) : Int)
    else do
      Phys.popif
      return ((L.refs p - 1 : Nat) : Int)) : PhysM Int) s1 := by
    unfold MakarnaX.refcountDec
    rw [bind_run Phys.pushcli_apply, get_run, ASSERT_lift (A.free_eq_false hp),
      ASSERT_lift h0, modify_run, get_run]
    dsimp only
    rw [A.rep.refs p hp, hdec, hs1, ASSERT_lift (by omega), hrc]
  rw [hcall]
  by_cases hlast : L.refs p = 1
  · -- the frame goes back to the list with its last reference
    have h10 : L.refs p - 1 = 0 := by omega
    have A1' : s1.Account N ty (L.setRefs p 0 hp) c.pushcli := h10 ▸ A1
    obtain ⟨s2, hfree, A2⟩ := A1'.pageFree rfl hN h0 hp (update_self ..) (hty hlast)
    obtain ⟨s3, hpop, A3⟩ := A2.popif hc
    refine ⟨s3, ?_, L.drop_of_last hp hlast ▸ A3⟩
    rw [if_pos (by omega), bind_run hfree, bind_run hpop]
    rfl
  · obtain ⟨s3, hpop, A3⟩ := A1.popif hc
    refine ⟨s3, ?_, L.drop_of_shared hp hlast ▸ A3⟩
    rw [if_neg (by omega), bind_run hpop]
    rfl

end

end Phys.Account

end MakarnaX
