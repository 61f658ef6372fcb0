import MakarnaX.Fs.Vfs.Run

/-!
# Reference counts

What the counts of dirents and inodes say about who refers to them.  No call gives
back all it takes, so the counts are exact only along runs of calls that take
nothing: a path without a `/`, a change of directory and the end of a task spoil
the count of a dirent, and every call that finds an inode spoils the count of it.

Neither `__dirent_free` nor `__inode_free` ever frees anything.  They are called
when a count is negative, and begin with the assertion that it is 0.  So the last
reference is dropped in order only if it is never dropped: every count stays
positive.
-/

namespace MakarnaX.Vfs

open Library Denemefs Subdentry Finset

variable {s s' : State} {c : Call}

/-! ## Dirents -/

/-- The call has a `/` in its path if it makes or removes an entry, and neither
changes the working directory nor ends the task. -/
def Call.balanced (s : State) (c : Call) : Prop := c.slashed ∧ c ≠ .exit ∧ ¬ c.changes s

/-- What the call takes out of the tree is the directory of a task besides. -/
def Call.keepsDirents (s s' : State) (c : Call) : Prop :=
  c.balanced s ∧ ∀ d, d < s'.nDirents → (s'.dirents d).inode = none → pointers s' d ≠ 0

/-- The count of every dirent is one for its place in the tree and one for each
directory of a task. -/
def DirentsExact (s : State) : Prop :=
  ∀ d, d < s.nDirents → (s.dirents d).refCount = (s.dirents d).place + pointers s d

theorem Account.exact_iff {δ : Nat → Int} (A : Account s δ) : DirentsExact s ↔ δ = 0 := by
  constructor
  · intro h
    funext d
    by_cases hd : d < s.nDirents
    · have h1 := A.count d hd
      have h2 := h d hd
      show δ d = 0
      omega
    · exact A.new d (Nat.not_lt.mp hd)
  · rintro rfl d hd
    have h1 := A.count d hd
    rw [Pi.zero_apply] at h1
    omega

/-- Runs of such calls. -/
def direntSystem : System State where
  init := Initial
  step s s' := ∃ c, Call.ok s c ∧ c.run s = .ok ((), s') ∧ c.keepsDirents s s'

theorem pointers_start (t : Table) : pointers (start t) = Pi.single 0 1 + Pi.single 0 1 := by
  unfold pointers
  show ∑ u ∈ range 1, _ = _
  rw [sum_range_one]
  rfl

theorem Account.start (t : Table) : Account (start t) 0 where
  count d hd := by
    obtain rfl : d = 0 := Nat.lt_one_iff.mp hd
    rw [pointers_start, Pi.add_apply, Pi.single_eq_same]
    rfl
  new _ _ := rfl

/-- What holds along runs of such calls. -/
theorem direntSystem_account (h : direntSystem.Reachable s) :
    Sane s ∧ Account s 0 ∧ ∀ d, d < s.nDirents → (s.dirents d).inode = none → pointers s d ≠ 0 := by
  refine System.Reachable.invariant (I := fun s => Sane s ∧ Account s 0 ∧
    ∀ d, d < s.nDirents → (s.dirents d).inode = none → pointers s d ≠ 0) ?_ ?_ h
  · rintro s ⟨t, ht, rfl⟩
    exact ⟨.start (Denemefs.started (.init ht)), .start t, fun _ _ h => nomatch h⟩
  · rintro s s' ⟨S, A, -⟩ ⟨c, ⟨h1, h2, h3⟩, hr, hb, hp⟩
    obtain ⟨δ, ε, as, L⟩ := (Call.does S h1 h2 h3 hr).acts S
    have A' := as.account S A
    rw [L.dirents.mpr hb, add_zero] at A'
    exact ⟨as.sane S, A', hp⟩

theorem Account.pos_of_pointed (A : Account s 0)
    (hp : ∀ d, d < s.nDirents → (s.dirents d).inode = none → Vfs.pointers s d ≠ 0) {d : Nat} (hd : d < s.nDirents) :
    0 < (s.dirents d).refCount := by
  by_cases hi : (s.dirents d).inode = none
  · have h1 := A.count d hd
    have h2 := pointers_nonneg s d
    have h3 := hp d hd hi
    rw [Dirent.place, if_pos hi, Pi.zero_apply] at h1
    omega
  · exact A.pos hd hi (Int.le_refl 0)

/-- The call finds no inode, and no name is looked up on disk in vain: for every new
inode there is a new dirent. -/
def Call.keepsInodes (s s' : State) (c : Call) : Prop :=
  ¬ c.finds s ∧ s'.nInodes + s.nDirents = s.nInodes + s'.nDirents

/-- The count of every inode is the number of its dirents and of the open files. -/
def InodesExact (s : State) : Prop := ∀ i, i < s.nInodes → (s.inodes i).refCount = places s i + opens s i

/-- Runs of such calls. -/
def inodeSystem : System State where
  init := Initial
  step s s' := ∃ c, Call.ok s c ∧ c.run s = .ok ((), s') ∧ c.keepsInodes s s'

/-- Every inode is that of a dirent. -/
def Placed (s : State) : Prop := ∀ i, i < s.nInodes → ∃ d, d < s.nDirents ∧ (s.dirents d).inode = some i

theorem Placed.same (P : Placed s) (h : SameCache s s') : Placed s' := by
  intro i hi
  rw [h.nInodes] at hi
  obtain ⟨d, hd, hdi⟩ := P i hi
  exact ⟨d, h.nDirents ▸ hd, (h.inode d).trans hdi⟩

/-- There are at least as many new inodes as new dirents. -/
theorem Moves.grows {h : Nat → Int} (m : Moves s h s') : s.nInodes + s'.nDirents ≤ s'.nInodes + s.nDirents := by
  induction m with
  | refl => exact Nat.le_refl _
  | dup _ _ ih => exact ih
  | drop _ _ _ ih => exact ih
  | @spare _ s' _ ih =>
    show s.nInodes + s'.nDirents ≤ s'.nInodes + 1 + s.nDirents
    omega
  | @add _ s' _ _ _ _ _ ih =>
    show s.nInodes + (s'.nDirents + 1) ≤ s'.nInodes + 1 + s.nDirents
    omega

/-- Moves with as many new dirents as new inodes look up nothing in vain. -/
theorem Moves.placed {h : Nat → Int} (m : Moves s h s') (P : Placed s)
    (hn : s'.nInodes + s.nDirents = s.nInodes + s'.nDirents) : Placed s' := by
  induction m with
  | refl => exact P
  | dup _ _ ih =>
    refine (ih hn).same ⟨fun x => ?_, rfl, rfl⟩
    rw [dup_eq_hold]
    rfl
  | drop _ _ _ ih =>
    refine (ih hn).same ⟨fun x => ?_, rfl, rfl⟩
    rw [drop_eq_hold]
    rfl
  | @spare _ s' m ih =>
    have hg := m.grows
    have hn : s'.nInodes + 1 + s.nDirents = s.nInodes + s'.nDirents := hn
    omega
  | @add _ s' dir name x m F ih =>
    have hn : s'.nInodes + 1 + s.nDirents = s.nInodes + (s'.nDirents + 1) := hn
    intro i hi
    have hi : i < s'.nInodes + 1 := hi
    by_cases h : i = s'.nInodes
    · exact ⟨s'.nDirents, Nat.lt_succ_self _, by rw [add_dirent_new F.lt, h]⟩
    · obtain ⟨d, hd, hdi⟩ := ih (by omega) i (by omega)
      exact ⟨d, Nat.lt_succ_of_lt hd, (add_dirent_old _ _ _ hd).1.trans hdi⟩

theorem Does.placed (D : Does s c s') (P : Placed s) (h : c.keepsInodes s s') : Placed s' := by
  obtain ⟨hf, hn⟩ := h
  cases D with
  | moves _ _ _ _ m => exact m.placed P hn
  | chdirs _ _ m => exact (m.placed P hn).same ⟨fun _ => rfl, rfl, rfl⟩
  | refers _ h | opens _ h | full h | enters _ h | loads h => exact absurd h hf
  | cuts _ _ h | detaches _ _ h => exact absurd h hf
  | closes | reads | seeks | writes | switches => exact P.same ⟨fun _ => rfl, rfl, rfl⟩
  | forks _ F => exact P.same F.cache
  | exits _ _ hs => exact P.same hs

theorem opens_nonneg (s : State) (i : Nat) : 0 ≤ opens s i := by
  unfold opens
  rw [Finset.sum_apply]
  refine sum_nonneg fun t _ => ?_
  cases s.tasks t with
  | none => exact Int.le_refl 0
  | some fs =>
    show 0 ≤ TaskFs.opens s.files fs i
    unfold TaskFs.opens
    rw [Finset.sum_apply]
    refine sum_nonneg fun fd _ => ?_
    cases fs.files fd with
    | none => exact Int.le_refl 0
    | some f => exact single_nonneg _ i

theorem Placed.pos (P : Placed s) {i : Nat} (hi : i < s.nInodes) : 0 < places s i := by
  obtain ⟨d, hd, hdi⟩ := P i hi
  have hterm : (s.dirents d).refers i = 1 := by
    rw [Dirent.refers, hdi]
    exact Pi.single_eq_same ..
  have hle : (s.dirents d).refers i ≤ ∑ d ∈ range s.nDirents, (s.dirents d).refers i := by
    refine single_le_sum (f := fun d => (s.dirents d).refers i) (fun x _ => ?_) (mem_range.mpr hd)
    unfold Dirent.refers
    cases (s.dirents x).inode with
    | none => exact Int.le_refl 0
    | some j => exact single_nonneg j i
  unfold places
  rw [Finset.sum_apply]
  omega

theorem InodeAccount.start (t : Table) : InodeAccount (start t) 0 where
  count i hi := by
    obtain rfl : i = 0 := Nat.lt_one_iff.mp hi
    have hp : places (Vfs.start t) 0 = 1 := by
      unfold places
      rw [Finset.sum_apply]
      show ∑ d ∈ range 1, _ = (1 : Int)
      rw [sum_range_one]
      show (Pi.single 0 1 : Nat → Int) 0 = 1
      exact Pi.single_eq_same ..
    have ho : Vfs.opens (Vfs.start t) 0 = 0 := by
      unfold Vfs.opens
      rw [Finset.sum_apply]
      show ∑ u ∈ range 1, _ = (0 : Int)
      rw [sum_range_one]
      exact congrFun (TaskFs.opens_none fun _ => rfl) 0
    rw [hp, ho]
    rfl
  new _ _ := rfl

end MakarnaX.Vfs
