import MakarnaX.Ipc.SemaphoreLaw

/-!
# The optimised semaphore and the plain one

Semaphores that start with 1 and are used in pairs: a task waits, and posts.  The
optimised version lets a task take a semaphore again that it has just posted, in
front of the tasks that wait, so not every run of it is a run of the plain
version call by call.  What the two have in common is the order in which tasks go
through their critical sections: `Lazy` relates a state of the optimised version
to one of the plain version where each task has called `sys_semwait` only when it
could have the semaphore.

The optimised version has one more way to fail.  A task that leaves the processor
must not hold the semaphore that it owes to others, and while it owes one it must
not have to wait for another: `SettlesFirst`.
-/

namespace MakarnaX.Semaphore

open Library Function List State

variable {conf : Conf} {s s' p s1 : State} {op : Op} {k j t next sem : Nat}

/-- Binary semaphores, in pairs of a wait and a post. -/
def Paired (s : State) : Op → Prop
  | .semget n _ => n = 1
  | .semwait k _ _ => s.curr ∉ s.holders k
  | .sempost k _ => s.curr ∈ s.holders k
  | _ => True

/-- A task that owes a hand-over waits only for a semaphore that is free, and if
its time is up only for the one it owes; it posts no other semaphore that tasks
wait for; and it does not leave the processor with the semaphore. -/
def SettlesFirst (s : State) : Op → Prop
  | .semwait k _ _ => ∀ j, s.owed = some j → s.value k = 1 ∧ (k = j ∨ s.currTask.counter ≠ 0)
  | .sempost k _ => s.wait.queue k ≠ [] → ∀ j, s.owed = some j → j = k
  | .timer _ => s.currTask.counter ≤ 0 → Settles s
  | .yield _ => Settles s
  | _ => True

def PairSafe (s : State) (op : Op) : Prop := Paired s op ∧ SettlesFirst s op

instance (s : State) : (op : Op) → Decidable (Paired s op)
  | .semget _ _ => inferInstanceAs (Decidable (_ = _))
  | .semwait _ _ _ => inferInstanceAs (Decidable (_ ∉ _))
  | .sempost _ _ => inferInstanceAs (Decidable (_ ∈ _))
  | .resume _ | .timer _ | .yield _ => inferInstanceAs (Decidable True)

instance (s : State) : (op : Op) → Decidable (SettlesFirst s op)
  | .semwait k _ _ => inferInstanceAs (Decidable (∀ j ∈ s.owed, s.value k = 1 ∧ (k = j ∨ s.currTask.counter ≠ 0)))
  | .sempost k _ => inferInstanceAs (Decidable (_ → ∀ j ∈ s.owed, j = k))
  | .timer _ => inferInstanceAs (Decidable (_ → _))
  | .yield _ => inferInstanceAs (Decidable (Settles s))
  | .semget _ _ | .resume _ => inferInstanceAs (Decidable True)

instance (s : State) (op : Op) : Decidable (PairSafe s op) := inferInstanceAs (Decidable (_ ∧ _))

/-! ## The other assertion -/

/-- The call is made with the `sem_t` of `sem_init`. -/
def Op.Addressed (s : State) : Op → Prop
  | .semwait k sem _ | .sempost k sem => (s.sems k).sem = sem
  | _ => True

/-- Both versions fail in the same place otherwise. -/
theorem Op.run_of_not_addressed (h : ¬ op.Addressed s) : op.run conf s = .error (.assert "sem->info->sem == sem") := by
  cases op with
  | semwait k sem next =>
    have h' : ¬ (s.sems k).sem = sem := h
    simp only [Op.run, sysSemwait, get_run, ASSERT, check_run, h', if_false]
  | sempost k sem =>
    have h' : ¬ (s.sems k).sem = sem := h
    simp only [Op.run, sysSempost, get_run, ASSERT, check_run, h', if_false]
  | semget n sem => exact absurd trivial h
  | resume k => exact absurd trivial h
  | timer next => exact absurd trivial h
  | yield next => exact absurd trivial h

theorem Op.addressed_of_ok (h : op.run conf s = .ok ((), s')) : op.Addressed s := by
  by_contra hn
  rw [Op.run_of_not_addressed hn] at h
  cases h

/-! ## Pairs -/

/-- Every semaphore started with 1, and its holders are the waits that returned
and have no post yet. -/
structure PairInv (s : State) : Prop where
  initial : ∀ k, s.initial k = if k < s.semsNr then 1 else 0
  pairs : ∀ k, s.waits k = s.posts k + (s.holders k).length

/-- One unit: in the value, with a holder, or with a task on its way. -/
theorem PairInv.one (P : PairInv s) (C : Core conf s) (hk : k < s.semsNr) :
    s.value k + (s.holders k).length + (s.wait.woken k).length = 1 := by
  have hi := P.initial k
  rw [if_pos hk] at hi
  have hp := P.pairs k
  have hg := (C.sems k).given
  have hv := (C.sems k).value
  rw [given, hi, hp] at hg hv
  have hsmall : (s.holders k).length + (s.wait.woken k).length ≤ 1 := by omega
  have hd : ((1 : Nat) : Int) + s.posts k - ((s.posts k + (s.holders k).length + (s.wait.woken k).length : Nat) : Int) =
      1 - ((s.holders k).length + (s.wait.woken k).length : Nat) := by
    omega
  rw [hd] at hv
  have hcases : (s.holders k).length + (s.wait.woken k).length = 0 ∨
      (s.holders k).length + (s.wait.woken k).length = 1 := by
    omega
  rcases hcases with h | h
  · rw [h] at hv
    have : s.value k = 1 := hv
    omega
  · rw [h] at hv
    have : s.value k = 0 := hv
    omega

theorem PairInv.value_nonneg (P : PairInv s) (C : Core conf s) (hk : k < s.semsNr) : 0 ≤ s.value k := by
  have hi := P.initial k
  rw [if_pos hk] at hi
  have hg := (C.sems k).given
  have h1 := P.one C hk
  rw [given, hi, P.pairs k] at hg
  omega

/-- In pairs, the rules about hand-overs are all that is left of `SemSafe`. -/
theorem PairSafe.semSafe (I : Inv conf s) (P : PairInv s) (he : op.possible s) (ha : op.Addressed s)
    (h : PairSafe s op) : SemSafe s op := by
  obtain ⟨hp, hs⟩ := h
  cases op with
  | semget n sem => trivial
  | semwait k sem next =>
    have h1 := P.one I.toCore he.2
    have h0 := P.value_nonneg I.toCore he.2
    exact ⟨ha, by omega, hs⟩
  | resume k => trivial
  | sempost k sem =>
    have h1 := P.one I.toCore he.2
    have h0 := P.value_nonneg I.toCore he.2
    have hpos : 0 < (s.holders k).length := length_pos_of_mem hp
    have hw : s.wait.woken k = [] := length_eq_zero_iff.mp (by omega)
    refine ⟨ha, fun _ t ht => ?_, fun hq j hj => ⟨hs hq j hj, by omega⟩⟩
    rw [hw] at ht
    cases ht
  | timer next => exact hs
  | yield next => exact hs

/-- What a settled hand-over leaves alone. -/
theorem State.settled_same : s.settled.waits = s.waits ∧ s.settled.posts = s.posts ∧ s.settled.holders = s.holders ∧
    s.settled.initial = s.initial ∧ s.settled.semsNr = s.semsNr ∧ s.settled.trace = s.trace ∧
    ∀ k, (s.settled.sems k).sem = (s.sems k).sem := by
  cases ho : s.owed with
  | none =>
    rw [settled_none ho]
    simp
  | some k =>
    cases hq : s.wait.queue k with
    | nil => simp [settled, ho, hq]
    | cons t ts =>
      rw [settled_some ho hq]
      refine ⟨rfl, rfl, rfl, rfl, rfl, rfl, fun j => ?_⟩
      by_cases hj : j = k
      · subst hj
        simp [setValue, wakeFirst, owes, setCurr]
      · simp [setValue, wakeFirst, owes, setCurr, hj]

theorem PairInv.switched (P : PairInv s) : PairInv (s.settled.switch conf next) := by
  obtain ⟨h1, h2, h3, h4, h5, -, -⟩ := settled_same (s := s)
  refine ⟨fun k => ?_, fun k => ?_⟩
  · show s.settled.initial k = if k < s.settled.semsNr then 1 else 0
    rw [h4, h5]
    exact P.initial k
  · show s.settled.waits k = s.settled.posts k + (s.settled.holders k).length
    rw [h1, h2, h3]
    exact P.pairs k

theorem PairInv.entered (P : PairInv s) : PairInv (s.entered k) := by
  refine ⟨P.initial, fun j => ?_⟩
  have hpj := P.pairs j
  by_cases hj : j = k
  · subst hj
    simp only [entered, update_self, length_cons]
    omega
  · simp only [State.entered, ne_eq, hj, not_false_eq_true, update_of_ne]
    exact hpj

theorem PairInv.left (P : PairInv s) (hm : s.curr ∈ s.holders k) : PairInv (s.left k) := by
  refine ⟨P.initial, fun j => ?_⟩
  have hpj := P.pairs j
  by_cases hj : j = k
  · subst hj
    have hpos : 0 < (s.holders j).length := length_pos_of_mem hm
    simp only [left, update_self, length_erase_of_mem hm]
    omega
  · simp only [State.left, ne_eq, hj, not_false_eq_true, update_of_ne]
    exact hpj

theorem PairInv.moved (P : PairInv s) (hp : Paired s op) (h : Moved conf s op s') : PairInv s' := by
  cases h with
  | semget n sem =>
    have hn : n = 1 := hp
    subst hn
    refine ⟨fun k => ?_, P.pairs⟩
    by_cases hk : k = s.semsNr
    · subst hk
      simp [allocated]
    · have hlt : k < s.semsNr + 1 ↔ k < s.semsNr := by omega
      simp only [allocated, ne_eq, hk, not_false_eq_true, update_of_ne, hlt]
      exact P.initial k
  | taken hv => exact .entered ⟨P.initial, P.pairs⟩
  | blocked hv => exact .switched ⟨P.initial, P.pairs⟩
  | resumed hpl => exact .entered ⟨P.initial, P.pairs⟩
  | deferred hc hq hv ho => exact .left ⟨P.initial, P.pairs⟩ hp
  | handed hq hv ho => exact .left ⟨P.initial, P.pairs⟩ hp
  | posted hq => exact .left ⟨P.initial, P.pairs⟩ hp
  | tick => exact ⟨P.initial, P.pairs⟩
  | timer hS => exact .switched ⟨P.initial, P.pairs⟩
  | yield hS => exact .switched ⟨P.initial, P.pairs⟩

theorem State.Initial.pairInv (h : s.Initial) : PairInv s where
  initial k := by simp [h.initial, h.semsNr]
  pairs k := by simp [h.waits, h.posts, h.holders]

theorem pair_run (h : (system conf PairSafe).Reachable s) : Inv conf s ∧ PairInv s := by
  refine System.Reachable.invariant (I := fun s => Inv conf s ∧ PairInv s) ?_ ?_ h
  · intro s h0
    exact ⟨h0.inv, h0.pairInv⟩
  · rintro s s' ⟨I, P⟩ ⟨op, ⟨⟨he, hrun⟩, hsafe⟩, hr⟩
    have hS := hsafe.semSafe I P he (Op.addressed_of_ok hr)
    obtain ⟨s1, hr1, hm⟩ := Op.moved I he hS
    rw [hr] at hr1
    cases hr1
    exact ⟨I.moved he hS hm (hrun _ hr), P.moved hsafe.1 hm⟩

/-! ## The plain version follows -/

/-- The plain version with the same time slices. -/
def Conf.plain (conf : Conf) : Conf := { conf with singleCpu := false }

/-- The plain version has gone through the same critical sections, and nobody
waits there: who waits in `s` has not called `sys_semwait` in `p`. -/
structure Lazy (s p : State) : Prop where
  curr : p.curr = s.curr
  semsNr : p.semsNr = s.semsNr
  sem : ∀ k, (p.sems k).sem = (s.sems k).sem
  holders : p.holders = s.holders
  trace : p.trace = s.trace
  place : ∀ t, p.wait.place t = none
  queue : ∀ k, p.wait.queue k = []
  owed : ∀ t, (p.tasks t).runBeforeSwitch = none
  value : ∀ k, k < s.semsNr → p.value k + (s.holders k).length = 1

theorem State.setValue_sem {v : Int} (j : Nat) : ((s.setValue k v).sems j).sem = (s.sems j).sem := by
  by_cases hj : j = k
  · subst hj
    simp [setValue]
  · simp [setValue, hj]

theorem Lazy.congr (L : Lazy s p) (hc : s1.curr = s.curr) (hn : s1.semsNr = s.semsNr) (hh : s1.holders = s.holders)
    (ht : s1.trace = s.trace) (hsem : ∀ k, (s1.sems k).sem = (s.sems k).sem) : Lazy s1 p := by
  refine ⟨L.curr.trans hc.symm, L.semsNr.trans hn.symm, fun k => (L.sem k).trans (hsem k).symm, L.holders.trans hh.symm,
    L.trace.trans ht.symm, L.place, L.queue, L.owed, fun k hk => ?_⟩
  rw [hh]
  exact L.value k (Nat.lt_of_lt_of_eq hk hn)

/-- One step of the plain version. -/
theorem Lazy.step (op : Op) (hp : (system conf.plain Paired).Reachable p) (he : op.possible p) (ha : Paired p op)
    (hr : op.run conf.plain p = .ok ((), s')) (hl : Lazy s s') :
    ∃ p', (system conf.plain Paired).Reachable p' ∧ Lazy s p' := by
  refine ⟨s', .step hp ⟨op, ⟨⟨he, fun s1 h1 => ?_⟩, ha⟩, hr⟩, hl⟩
  rw [hr] at h1
  cases h1
  intro k
  rw [hl.place]
  simp

section

variable (L : Lazy s p) (hp : (system conf.plain Paired).Reachable p)

include L hp

/-- The optimised version switches tasks, and the plain one does. -/
theorem Lazy.switched : ∃ p', (system conf.plain Paired).Reachable p' ∧ Lazy (s.settled.switch conf next) p' := by
  obtain ⟨-, -, h3, -, h5, h6, h7⟩ := settled_same (s := s)
  refine Lazy.step (.yield next) hp (L.place _) trivial (schedule_none (L.owed _)) ?_
  refine ⟨rfl, L.semsNr.trans h5.symm, fun k => (L.sem k).trans (h7 k).symm, L.holders.trans h3.symm,
    L.trace.trans h6.symm, L.place, L.queue, fun t => ?_, fun k hk => ?_⟩
  · by_cases h : t = next
    · subst h
      simpa [switch] using L.owed t
    · simpa [switch, h] using L.owed t
  · show p.value k + (s.settled.holders k).length = 1
    rw [h3]
    exact L.value k (Nat.lt_of_lt_of_eq hk h5)

/-- A wait returns in the optimised version: the plain one calls and returns. -/
theorem Lazy.entered (hk : k < s.semsNr) (hfree : s.holders k = []) :
    ∃ p', (system conf.plain Paired).Reachable p' ∧ Lazy (s.entered k) p' := by
  have hv : p.value k = 1 := by
    have := L.value k hk
    rw [hfree] at this
    simpa using this
  have hrun : sysSemwait conf.plain k _ 0 _ = _ := sysSemwait_taken (L.sem k) hv (by simp [Conf.plain])
  have hpair : Paired p (.semwait k (s.sems k).sem 0) := by
    show p.curr ∉ p.holders k
    rw [L.holders, hfree]
    simp
  refine Lazy.step (.semwait k (s.sems k).sem 0) hp ⟨L.place _, L.semsNr ▸ hk⟩ hpair hrun ?_
  refine ⟨L.curr, L.semsNr, fun j => (setValue_sem j).trans (L.sem j), ?_, ?_, L.place, L.queue, L.owed,
    fun j hj => ?_⟩
  · simp only [State.entered, State.setValue, L.holders, L.curr]
  · simp only [State.entered, State.setValue, L.trace, L.curr]
  · by_cases h : j = k
    · subst h
      show (p.setValue j 0).value j + _ = 1
      simp [entered, hfree]
    · show (p.setValue k 0).value j + _ = 1
      rw [setValue_value_ne h]
      simp only [State.entered, ne_eq, h, not_false_eq_true, update_of_ne]
      exact L.value j hj

/-- A post: nobody waits in the plain version. -/
theorem Lazy.left (hk : k < s.semsNr) (hheld : s.holders k = [s.curr]) :
    ∃ p', (system conf.plain Paired).Reachable p' ∧ Lazy (s.left k) p' := by
  have hv : p.value k = 0 := by
    have := L.value k hk
    rw [hheld] at this
    simp only [length_singleton] at this
    omega
  have hrun : sysSempost conf.plain k _ _ = _ := sysSempost_posted (L.sem k) (L.queue k)
  rw [hv] at hrun
  have hpair : Paired p (.sempost k (s.sems k).sem) := by
    show p.curr ∈ p.holders k
    rw [L.holders, hheld, L.curr]
    simp
  refine Lazy.step (.sempost k (s.sems k).sem) hp ⟨L.place _, L.semsNr ▸ hk⟩ hpair hrun ?_
  refine ⟨L.curr, L.semsNr, fun j => (setValue_sem j).trans (L.sem j), ?_, ?_, L.place, L.queue, L.owed,
    fun j hj => ?_⟩
  · simp only [State.left, State.setValue, L.holders, L.curr]
  · simp only [State.left, State.setValue, L.trace, L.curr]
  · by_cases h : j = k
    · subst h
      show (p.setValue j (int32 (0 + 1))).value j + _ = 1
      rw [setValue_value_self]
      simp [left, hheld, int32]
    · show (p.setValue k (int32 (0 + 1))).value j + _ = 1
      rw [setValue_value_ne h]
      simp only [State.left, ne_eq, h, not_false_eq_true, update_of_ne]
      exact L.value j hj

end

theorem PairInv.free (P : PairInv s) (C : Core conf s) (hk : k < s.semsNr)
    (h : s.value k = 1 ∨ s.wait.woken k ≠ []) : s.holders k = [] := by
  have h1 := P.one C hk
  have h0 := P.value_nonneg C hk
  refine length_eq_zero_iff.mp ?_
  rcases h with h | h
  · omega
  · have := length_pos_of_ne_nil h
    omega

theorem PairInv.held (P : PairInv s) (C : Core conf s) (hk : k < s.semsNr) (h : t ∈ s.holders k) :
    s.holders k = [t] := by
  have h1 := P.one C hk
  have h0 := P.value_nonneg C hk
  exact eq_singleton_of_mem h (by omega)

/-- The plain version can follow every step. -/
theorem Lazy.moved (L : Lazy s p) (hp : (system conf.plain Paired).Reachable p) (I : Inv conf s) (P : PairInv s)
    (he : op.possible s) (ha : Paired s op) (h : Moved conf s op s') :
    ∃ p', (system conf.plain Paired).Reachable p' ∧ Lazy s' p' := by
  cases h with
  | semget n sem =>
    have hn : n = 1 := ha
    subst hn
    have hF := I.fresh s.semsNr (Nat.le_refl _)
    refine Lazy.step (.semget 1 sem) hp (L.place _) rfl rfl ?_
    refine ⟨L.curr, ?_, fun k => ?_, L.holders, L.trace, L.place, L.queue, L.owed, fun k hk => ?_⟩
    · show p.semsNr + 1 = s.semsNr + 1
      rw [L.semsNr]
    · by_cases hk : k = s.semsNr
      · subst hk
        simp [State.allocated, L.semsNr]
      · simp [State.allocated, L.semsNr, hk, L.sem]
    · by_cases hks : k = s.semsNr
      · subst hks
        have hh : (s.allocated 1 sem).holders s.semsNr = [] := hF.holders
        rw [hh]
        simp [State.value, State.allocated, L.semsNr]
      · have hk' : k < s.semsNr + 1 := hk
        have hv : (p.allocated 1 sem).value k = p.value k := by
          simp [State.value, State.allocated, L.semsNr, hks]
        rw [hv]
        exact L.value k (by omega)
  | taken hv => exact Lazy.entered (L.congr rfl rfl rfl rfl State.setValue_sem) hp he.2 (P.free I.toCore he.2 (.inl hv))
  | blocked hv => exact Lazy.switched (L.congr rfl rfl rfl rfl fun _ => rfl) hp
  | @resumed k hpl =>
    have hm := I.sound.mem_woken.mpr hpl
    have hk := I.lt_of_woken hm
    exact Lazy.entered (L.congr rfl rfl rfl rfl fun _ => rfl) hp hk (P.free I.toCore hk (.inr (ne_nil_of_mem hm)))
  | deferred hc hq hv ho => exact Lazy.left (L.congr rfl rfl rfl rfl State.setValue_sem) hp he.2 (P.held I.toCore he.2 ha)
  | handed hq hv ho => exact Lazy.left (L.congr rfl rfl rfl rfl fun _ => rfl) hp he.2 (P.held I.toCore he.2 ha)
  | posted hq => exact Lazy.left (L.congr rfl rfl rfl rfl State.setValue_sem) hp he.2 (P.held I.toCore he.2 ha)
  | tick => exact ⟨p, hp, L.congr rfl rfl rfl rfl fun _ => rfl⟩
  | timer hS => exact Lazy.switched (L.congr rfl rfl rfl rfl fun _ => rfl) hp
  | yield hS => exact Lazy.switched (L.congr rfl rfl rfl rfl fun _ => rfl) hp

theorem State.Initial.lazy (h : s.Initial) : Lazy s s where
  curr := rfl
  semsNr := rfl
  sem _ := rfl
  holders := rfl
  trace := rfl
  place _ := by
    rw [h.wait]
    rfl
  queue _ := by
    rw [h.wait]
    rfl
  owed := h.runBeforeSwitch
  value k hk := by
    rw [h.semsNr] at hk
    cases hk

section

variable (h : (system conf PairSafe).Reachable s)

include h

theorem lazy_run : ∃ p, (system conf.plain Paired).Reachable p ∧ Lazy s p := by
  refine h.simulation ?_ ?_
  · intro s h0
    exact ⟨s, h0, h0.lazy⟩
  · rintro s s' p hs hp L ⟨op, ⟨⟨he, hrun⟩, hsafe⟩, hr⟩
    obtain ⟨I, P⟩ := pair_run hs
    have hS := hsafe.semSafe I P he (Op.addressed_of_ok hr)
    obtain ⟨s1, hr1, hm⟩ := Op.moved I he hS
    rw [hr] at hr1
    cases hr1
    exact L.moved hp I P he hsafe.1 hm

/-- The only assertion that a paired call can fail in is that about the `sem_t`. -/
theorem pair_fault {f : Fault} (he : op.possible s) (hsafe : PairSafe s op)
    (hr : op.run conf s = .error f) : ¬ op.Addressed s ∧ f = .assert "sem->info->sem == sem" := by
  obtain ⟨I, P⟩ := pair_run h
  have ha : ¬ op.Addressed s := by
    intro ha
    obtain ⟨s', hr', -⟩ := Op.moved I he (hsafe.semSafe I P he ha)
    rw [hr] at hr'
    cases hr'
  rw [Op.run_of_not_addressed ha] at hr
  cases hr
  exact ⟨ha, rfl⟩

end

theorem SettlesFirst.of_owed (ho : s.owed = none) : SettlesFirst s op := by
  have hno : ∀ j, s.owed ≠ some j := by simp [ho]
  cases op with
  | semwait k sem next => exact fun j hj => absurd hj (hno j)
  | sempost k sem => exact fun _ j hj => absurd hj (hno j)
  | timer next => exact fun _ j hj => absurd hj (hno j)
  | yield next => exact fun j hj => absurd hj (hno j)
  | semget n sem => trivial
  | resume k => trivial

/-- In the plain version nothing is owed, so every run of pairs settles first. -/
theorem plain_reachable (h : (system conf.plain Paired).Reachable s) : (system conf.plain PairSafe).Reachable s := by
  induction h with
  | init h0 => exact .init h0
  | @step s s' _ hstep ih =>
    obtain ⟨op, ⟨he, hp⟩, hr⟩ := hstep
    exact .step ih ⟨op, ⟨he, hp, .of_owed ((pair_run ih).1.plain rfl)⟩, hr⟩

end MakarnaX.Semaphore
