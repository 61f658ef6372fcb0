import MakarnaX.Fs.Vfs.Disk

/-!
# From a path to an inode

`inode_find` and `inode_find2` look up a path, take a reference to the inode and
drop the dirent.  For a path without a `/` there is nothing to look up, and
`inode_find2` drops the working directory, which it did not take.

`dirent_cache_remove` looks up the same path once more, behind the change on
disk.  It goes the way that is in the cache by now, so the disk is not asked.
-/

namespace MakarnaX.Vfs

open Library Denemefs Subdentry State Function Pi

variable {s : State} {d e : Nat} {name : CString} {path : List UInt8} {α : Type} {l : List CString}

/-! ## References taken and dropped -/

/-- `h` more references to dirents. -/
def State.hold (s : State) (h : Nat → Int) : State :=
  { s with dirents := fun d => { s.dirents d with refCount := (s.dirents d).refCount + h d } }

theorem hold_hold (h h' : Nat → Int) : (s.hold h).hold h' = s.hold (h + h') := by
  simp [hold, add_assoc]

theorem hold_zero : s.hold 0 = s := by
  simp [hold]

theorem single_nonneg_of {k : Int} (hk : 0 ≤ k) (d x : Nat) : 0 ≤ (single d k : Nat → Int) x := by
  by_cases h : x = d
  · rw [h, single_eq_same]
    exact hk
  · exact Int.le_of_eq (single_eq_of_ne (M := fun _ => Int) h k).symm

theorem single_nonneg (d x : Nat) : 0 ≤ (single d 1 : Nat → Int) x := single_nonneg_of (by decide) d x

theorem dup_eq_hold (s : State) (d : Nat) : s.dup d = s.hold (single d 1) := by
  refine State.ext rfl (funext fun x => ?_) rfl rfl rfl rfl rfl rfl rfl rfl rfl
  by_cases h : x = d
  · subst h
    simp [State.dup, State.hold]
  · simp [State.dup, State.hold, h]

theorem drop_eq_hold (s : State) (d : Nat) : s.drop d = s.hold (-single d 1) := by
  refine State.ext rfl (funext fun x => ?_) rfl rfl rfl rfl rfl rfl rfl rfl rfl
  by_cases h : x = d
  · subst h
    simp [State.drop, State.hold, sub_eq_add_neg]
  · simp [State.drop, State.hold, h]

/-! ## The same path once more -/

theorem Hop.hold {c : Nat} (H : Hop s 0 d name c) (h : Nat → Int) : Hop (s.hold h) 0 d name c := by
  cases H with
  | dot hn => exact .dot hn
  | root hn h0 => exact .root hn h0
  | up hn hne hp => exact .up hn hne hp
  | child h1 h2 hc => exact .child h1 h2 hc

theorem Hops.hold (H : Hops s d l e) (h : Nat → Int) : Hops (s.hold h) d l e := by
  induction H with
  | nil => exact .nil
  | cons hi H1 _ ih => exact .cons hi (H1.hold h) ih

section Again

variable (hU : Unlocked s) (hcounts : ∀ d, 0 ≤ (s.dirents d).refCount) {fs : TaskFs}
  (hfs : s.tasks s.curr = some fs) (hroot : fs.root = 0)

include hU hcounts hfs hroot

omit hcounts in
theorem lookup_again {c : Nat} (hi : (s.dirents d).inode ≠ none) (hpos : 0 < (s.dirents d).refCount)
    (H : Hop s 0 d name c) :
    (do
      let r ← direntLookup d name
      direntFree d
      pure r : VfsM (Except Int Nat)) s = .ok (.ok c, s.hold (single c 1 - single d 1)) := by
  obtain ⟨i, hi⟩ := Option.ne_none_iff_exists'.mp hi
  have hl := lookup_hop hU hi hfs (hroot ▸ H)
  have hpos' : 0 < ((s.dup c).dirents d).refCount := by
    have := single_nonneg c d
    rw [dup_eq_hold]
    show 0 < (s.dirents d).refCount + (single c 1 : Nat → Int) d
    omega
  refine (bind_run hl).trans ((bind_run (direntFree_eq hpos')).trans ?_)
  rw [dup_eq_hold, drop_eq_hold, hold_hold, sub_eq_add_neg]
  rfl

theorem lookupAlong_again {bs : List (List UInt8)} (hpos : 0 < (s.dirents d).refCount)
    (hshort : ∀ b ∈ bs, b.length < maxDirentryNameSize) (H : Hops s d (bs.map cstring) e) :
    lookupAlong d bs s = .ok (.ok e, s.hold (Pi.single e 1 - Pi.single d 1)) := by
  induction bs generalizing s d with
  | nil =>
    cases H
    rw [sub_self, hold_zero]
    rfl
  | cons b bs ih =>
    cases H with
    | @cons _ c _ _ _ hi H1 H2 =>
      rw [lookupAlong_cons (hshort b List.mem_cons_self), bind_run (lookup_again hU hfs hroot hi hpos H1)]
      have hge : ∀ x, 0 ≤ ((s.hold (Pi.single c 1 - Pi.single d 1)).dirents x).refCount := by
        intro x
        have h1 := hcounts x
        have hc : (0 : Int) ≤ (Pi.single c 1 : Nat → Int) x := single_nonneg _ x
        show 0 ≤ (s.dirents x).refCount + ((Pi.single c 1 : Nat → Int) x - (Pi.single d 1 : Nat → Int) x)
        by_cases hd : x = d
        · subst hd
          rw [Pi.single_eq_same]
          omega
        · rw [Pi.single_eq_of_ne hd]
          omega
      have hpos' : 0 < ((s.hold (Pi.single c 1 - Pi.single d 1)).dirents c).refCount := by
        show 0 < (s.dirents c).refCount + ((Pi.single c 1 : Nat → Int) c - (Pi.single d 1 : Nat → Int) c)
        have h1 := hcounts c
        rw [Pi.single_eq_same]
        by_cases hd : c = d
        · subst hd
          rw [Pi.single_eq_same]
          omega
        · rw [Pi.single_eq_of_ne hd]
          omega
      refine (ih (s := s.hold (Pi.single c 1 - Pi.single d 1)) hU hge hfs hpos'
        (fun b hb => hshort b (List.mem_cons_of_mem _ hb)) (H2.hold _)).trans ?_
      rw [hold_hold, add_comm, sub_add_sub_cancel]

/-- `dirent_find` along the cache. -/
theorem find_again {len e : Nat} (_ : 0 ∉ path) (hshort : Short (path.take len))
    (H : Hops s (startOf fs path) (names (path.take len)) e) :
    direntFind path len s = .ok (.ok e, s.dup e) := by
  rw [direntFind_run hU hfs, dup_eq_hold]
  generalize startOf fs path = start at H ⊢
  have hge : ∀ x, 0 ≤ ((s.hold (Pi.single start 1)).dirents x).refCount := by
    intro x
    have h1 := hcounts x
    have hc : (0 : Int) ≤ (Pi.single start 1 : Nat → Int) x := single_nonneg _ x
    show 0 ≤ (s.dirents x).refCount + (Pi.single start 1 : Nat → Int) x
    omega
  have hpos : 0 < ((s.hold (Pi.single start 1)).dirents start).refCount := by
    have h1 := hcounts start
    show 0 < (s.dirents start).refCount + (Pi.single start 1 : Nat → Int) start
    rw [Pi.single_eq_same]
    omega
  refine (lookupAlong_again (s := s.hold (Pi.single start 1)) hU hge hfs hroot hpos hshort (H.hold _)).trans ?_
  rw [hold_hold, dup_eq_hold, add_sub_cancel]

end Again

/-! ## The parts of a path -/

theorem strrchr_cons (c : UInt8) (path : List UInt8) : strrchr (c :: path) =
    match strrchr path with
    | some (front, back) => some (c :: front, back)
    | none => if c = slash then some ([], path) else none := rfl

theorem strrchr_some {path front back : List UInt8} (h : strrchr path = some (front, back)) :
    path = front ++ slash :: back := by
  induction path generalizing front with
  | nil => cases h
  | cons c path ih =>
    rw [strrchr_cons] at h
    split at h
    · next f b hp =>
      cases h
      rw [ih hp]
      rfl
    · split at h
      · next hc =>
        cases h
        rw [hc]
        rfl
      · cases h

theorem strrchr_none (h : strrchr path = none) : path.head? ≠ some slash := by
  cases path with
  | nil => exact nofun
  | cons c path =>
    rw [strrchr_cons] at h
    split at h
    · cases h
    · split at h
      · cases h
      · next hc => simpa using hc

/-- The directory of the last component. -/
def dirOf (path : CString) : List UInt8 := ((strrchr path.bytes).map Prod.fst).getD []

/-- The last component. -/
def nameIn (path : CString) : CString := ((strrchr path.bytes).map fun p => cstring p.2).getD path

/-- Where a task starts to look up a path. -/
def TaskFs.start (fs : TaskFs) (path : CString) : Nat := if path.bytes.head? = some slash then fs.root else fs.pwd

/-- What is dropped without having been taken, for the directory of `path`. -/
def unheld (fs : TaskFs) (path : CString) : Nat → Int :=
  if strrchr path.bytes = none then -single fs.pwd 1 else 0

/-- The directory can be dropped. -/
def Droppable (s : State) (fs : TaskFs) (path : CString) : Prop :=
  strrchr path.bytes = none → 0 < (s.dirents fs.pwd).refCount

/-! ## Inodes -/

/-- An inode was found and is referred to, or none was.  `h` counts the references
to dirents. -/
inductive Found {α : Type} (s : State) (d : Nat) (l : List CString) (h : Nat → Int) (result : Nat → α) :
    Except Int α → State → Prop
  | fails {e : Int} {s' : State} : Moves s h s' → Found s d l h result (.error e) s'
  | finds {s' : State} {e i : Nat} : Moves s h s' → e < s'.nDirents → Hops s' d l e →
      (s'.dirents e).inode = some i → Found s d l h result (.ok (result i)) (s'.refer i 1)

/-- The end of `inode_find` and `inode_find2`: refer to the inode of a dirent and drop
the dirent. -/
def referInode {α : Type} (e : Nat) (result : Nat → α) : VfsM (Except Int α) := do
  let i ← inodeDup ((← get).dirents e).inode
  direntFree e
  match i with
  | none => return .error (-1)
  | some i => return .ok (result i)

theorem referInode_none (hpos : 0 < (s.dirents e).refCount) (hi : (s.dirents e).inode = none)
    (result : Nat → α) : referInode e result s = .ok (.error (-1), s.drop e) := by
  refine (get_run _).trans ?_
  rw [hi]
  exact (bind_run (pure_apply none)).trans (bind_run (direntFree_eq hpos))

theorem referInode_some (C : Coherent s) {e i : Nat} (hpos : 0 < (s.dirents e).refCount)
    (hi : (s.dirents e).inode = some i) (result : Nat → α) :
    referInode e result s = .ok (.ok (result i), (s.drop e).refer i 1) := by
  have hfree : direntFree e (s.refer i 1) = .ok ((), (s.refer i 1).drop e) := direntFree_eq hpos
  refine (get_run _).trans ?_
  rw [hi]
  exact (bind_run (inodeDup_eq (C.free i))).trans (bind_run hfree)

theorem referDrop (C : Coherent s) {h : Nat → Int} {s' : State} (m : Moves s h s')
    (he : e < s'.nDirents) (H : Hops s' d l e) (hpos : 0 < (s'.dirents e).refCount) (result : Nat → α) :
    ∃ r s'', referInode e result s' = .ok (r, s'') ∧ Found s d l (h - single e 1) result r s'' := by
  have m' := m.drop he hpos
  cases hi : (s'.dirents e).inode with
  | none => exact ⟨.error (-1), s'.drop e, referInode_none hpos hi result, .fails m'⟩
  | some i =>
    refine ⟨.ok (result i), (s'.drop e).refer i 1, referInode_some (m.coherent C) hpos hi result, .finds m' he ?_ ?_⟩
    · rw [drop_eq_hold]
      exact H.hold _
    · rw [drop_eq_hold]
      exact hi

section Inodes

variable (C : Coherent s) (T : TasksOk s) {fs : TaskFs} (hfs : s.tasks s.curr = some fs) {path : CString}

include C T hfs

theorem inodeFind_found (hshort : Short path.bytes) :
    ∃ r s', inodeFind path s = .ok (r, s') ∧ Found s (fs.start path) (names path.bytes) 0 id r s' := by
  have htake : path.bytes.take path.length = path.bytes := List.take_length
  obtain ⟨r, s1, hr, m, R⟩ := find_result C T hfs path.nonzero (htake.symm ▸ hshort)
  rw [htake] at R
  cases r with
  | error e => exact ⟨.error e, s1, bind_run hr, .fails m⟩
  | ok e =>
    obtain ⟨r, s', hr', F⟩ := referDrop C m R.1 R.2.2 R.2.1 (id : Nat → Nat)
    refine ⟨r, s', (bind_run hr).trans hr', ?_⟩
    rw [holds, sub_self] at F
    exact F

omit C T in
theorem find2_plain (hp : strrchr path.bytes = none) : direntFind2 path s = .ok (.ok (fs.pwd, path), s) := by
  unfold direntFind2
  rw [hp]
  exact bind_run (currFs_eq hfs)

omit C T in
/-- The working directory is dropped once too often. -/
theorem inodeFind2_last (C : Coherent s) (hdrop : ¬ Droppable s fs path) :
    inodeFind2 path s = .error (.assert "dirent->ref_count == 0") := by
  obtain ⟨hp, hz⟩ := Classical.not_imp.mp hdrop
  have hz : (s.dirents fs.pwd).refCount ≤ 0 := Int.not_lt.mp hz
  refine (bind_run (find2_plain hfs hp)).trans ((get_run _).trans ?_)
  cases hi : (s.dirents fs.pwd).inode with
  | none => exact (bind_run (pure_apply none)).trans (bind_fail (direntFree_last hz))
  | some i =>
    have hfree : direntFree fs.pwd (s.refer i 1) = .error (.assert "dirent->ref_count == 0") := direntFree_last hz
    exact (bind_run (inodeDup_eq (C.free i))).trans (bind_fail hfree)

end Inodes

/-! ## Out of the cache -/

/-- The part of `dirent_cache_remove` behind the lookup. -/
def removeFrom (dir : Nat) (name : CString) : VfsM Unit := do
  spinlockAcquire dir
  match cached (← get) dir name with
  | none => pure ()
  | some d =>
    setDirent dir fun x => { x with childs := x.childs.erase d }
    direntDelete ((← get).nDirents + 1) d
  spinlockRelease dir
  direntFree dir

theorem direntCacheRemove_eq (path : CString) : direntCacheRemove path = (do
    match ← direntFind2 path with
    | .error _ => return
    | .ok (dir, name) => removeFrom dir name) := rfl

/-- A dirent without an inode and a parent. -/
def Dirent.dead (x : Dirent) : Dirent := { x with inode := none, parent := none, refCount := x.refCount - 1 }

section Remove

variable {y c depth : Nat}

/-- `dirent_delete` of a dirent without children. -/
theorem direntDelete_leaf (depth : Nat) (hp : (s.dirents c).parent = some y) (hl : (s.dirents y).locked = true)
    (hu : (s.dirents c).locked = false) (hc : (s.dirents c).childs = []) (h0 : 0 < (s.dirents c).refCount) :
    direntDelete (depth + 1) c s =
      .ok ((), { s with dirents := update s.dirents c (s.dirents c).dead }) := by
  have h1 : ¬ (s.dirents c).refCount - 1 < 0 := by omega
  simp [direntDelete, hp, hl, hc, ASSERT, check_run, spinlockAcquire, spinlockRelease, pushcli, setDirent,
    popcli, direntFree, h1, Dirent.dead, hu]

theorem direntDelete_last (depth : Nat) (hp : (s.dirents c).parent = some y) (hl : (s.dirents y).locked = true)
    (hc : (s.dirents c).childs = []) (h0 : (s.dirents c).refCount ≤ 0) :
    direntDelete (depth + 1) c s = .error (.assert "dirent->ref_count == 0") := by
  have h1 : (s.dirents c).refCount - 1 < 0 := by omega
  have h2 : (s.dirents c).refCount - 1 ≠ 0 := by omega
  simp [direntDelete, hp, hl, hc, ASSERT, check_run, spinlockAcquire, spinlockRelease, pushcli, setDirent,
    popcli, direntFree, doDirentFree, h1, h2]

theorem cached_acquire (s : State) (y : Nat) (name : CString) : cached (s.acquire y) y name = cached s y name := by
  refine cached_similar ?_ y name
  constructor
  case inode | name | parent | childs =>
    intro x
    by_cases h : x = y
    · subst h
      simp [acquire]
    · simp [acquire, h]
  case nInodes => exact Nat.le_refl _
  all_goals intros
  all_goals rfl

variable (hu : Unlocked s)

include hu

theorem removeFrom_none (hc : cached s y name = none) : removeFrom y name s = direntFree y s := by
  have hc' := (cached_acquire s y name).trans hc
  refine (bind_run (spinlockAcquire_eq s y)).trans ((get_run _).trans ?_)
  rw [hc']
  simp [spinlockRelease, acquire, setDirent, popcli, Dirent.unlocked (hu y)]

/-- The state in which `dirent_delete` is called. -/
def State.orphan (s : State) (y c : Nat) : State :=
  { s.acquire y with
    dirents := update s.dirents y { s.dirents y with locked := true, childs := (s.dirents y).childs.erase c } }

variable (hc : cached s y name = some c) (hcy : c ≠ y) (hp : (s.dirents c).parent = some y)
  (hcc : (s.dirents c).childs = [])

include hc

omit hu in
theorem removeFrom_eq : removeFrom y name s = (do
    direntDelete (s.nDirents + 1) c
    spinlockRelease y
    direntFree y) (s.orphan y c) := by
  refine (bind_run (spinlockAcquire_eq s y)).trans ((get_run _).trans ?_)
  rw [(cached_acquire s y name).trans hc]
  simp only [setDirent, modify_run, get_run]
  simp [acquire, orphan]

include hcy hp hcc

theorem removeFrom_some (h0 : 0 < (s.dirents c).refCount) :
    removeFrom y name s = direntFree y (s.detach y c) := by
  have horph : (s.orphan y c).dirents c = s.dirents c := update_of_ne hcy ..
  have hd := direntDelete_leaf (s := s.orphan y c) (y := y) (c := c) s.nDirents (by rw [horph, hp])
    (by simp [State.orphan]) (by rw [horph, hu c]) (by rw [horph, hcc]) (by rw [horph]; exact h0)
  rw [removeFrom_eq hc, bind_run hd, bind_run (spinlockRelease_eq (Nat.succ_ne_zero _) y)]
  refine congrArg (direntFree y) (State.ext rfl (funext fun x => ?_) rfl rfl rfl rfl rfl rfl rfl rfl rfl)
  by_cases hx : x = y
  · subst hx
    simp [State.release, State.orphan, State.detach, hcy.symm, hu x]
  · by_cases hxc : x = c
    · subst hxc
      simp [State.release, State.orphan, State.detach, hx, Dirent.dead]
    · simp [State.release, State.orphan, State.detach, hx, hxc]

omit hu in
theorem removeFrom_last (h0 : (s.dirents c).refCount ≤ 0) :
    removeFrom y name s = .error (.assert "dirent->ref_count == 0") := by
  have horph : (s.orphan y c).dirents c = s.dirents c := update_of_ne hcy ..
  have hd := direntDelete_last (s := s.orphan y c) (y := y) (c := c) s.nDirents (by rw [horph, hp])
    (by simp [orphan]) (by rw [horph, hcc]) (by rw [horph]; exact h0)
  rw [removeFrom_eq hc, bind_fail hd]

end Remove

theorem detach_hold (s : State) (y c : Nat) (h : Nat → Int) : (s.detach y c).hold h = (s.hold h).detach y c := by
  refine State.ext rfl (funext fun x => ?_) rfl rfl rfl rfl rfl rfl rfl rfl rfl
  by_cases hc : x = c
  · subst hc
    simp only [State.hold, State.detach, update_self, Dirent.mk.injEq, true_and, and_true]
    omega
  · by_cases hy : x = y
    · subst hy
      simp [State.hold, State.detach, hc]
    · simp [State.hold, State.detach, hc, hy]

/-- The assertion of `__dirent_free` fails. -/
def lastDirent : Fault := .assert "dirent->ref_count == 0"

/-- What `dirent_cache_remove` leaves; `h` counts the references to dirents. -/
inductive Uncached (s : State) (y : Nat) (name : CString) (h : Nat → Int) : State → Prop
  | none : cached s y name = none → Uncached s y name h (s.hold h)
  | some {c : Nat} : cached s y name = some c → 0 < (s.dirents c).refCount →
      Uncached s y name h ((s.hold h).detach y c)

section Uncache

variable {E : Fault → Prop} {y : Nat} (hu : Unlocked s)

include hu

/-- The directory was held `g` times, and is dropped. -/
theorem removeFrom_ends {g : Nat → Int} (hg : ∀ d, d ≠ y → g d = 0)
    (hc : ∀ c, cached s y name = some c → c ≠ y ∧ (s.dirents c).parent = some y ∧ (s.dirents c).childs = [])
    (hbad : (0 < (s.dirents y).refCount + g y ∧ ∀ c, cached s y name = some c → 0 < (s.dirents c).refCount) ∨
      E lastDirent) :
    Ends (removeFrom y name) (s.hold g) E fun _ s' =>
      0 < (s.dirents y).refCount + g y ∧ Uncached s y name (g - single y 1) s' := by
  have hcached : cached (s.hold g) y name = cached s y name := rfl
  cases h : cached s y name with
  | none =>
    have hr := removeFrom_none (s := s.hold g) hu (hcached.trans h)
    by_cases h0 : 0 < (s.dirents y).refCount + g y
    · refine .of_ok (hr.trans (direntFree_eq h0)) ⟨h0, ?_⟩
      rw [drop_eq_hold, hold_hold, ← sub_eq_add_neg]
      exact .none h
    · refine .of_error (hr.trans (direntFree_last (Int.not_lt.mp h0))) ?_
      exact hbad.resolve_left fun hb => h0 hb.1
  | some c =>
    obtain ⟨hcy, hp, hcc⟩ := hc c h
    have hgc : (s.dirents c).refCount + g c = (s.dirents c).refCount := by rw [hg c hcy, add_zero]
    by_cases h1 : 0 < (s.dirents c).refCount
    · have hr := removeFrom_some (s := s.hold g) hu (hcached.trans h) hcy hp hcc
        (show 0 < (s.dirents c).refCount + g c by rw [hgc]; exact h1)
      have hy : ((s.hold g).detach y c).dirents y =
          { (s.hold g).dirents y with childs := ((s.hold g).dirents y).childs.erase c } := by
        simp [detach, hcy.symm]
      by_cases h0 : 0 < (s.dirents y).refCount + g y
      · refine .of_ok (hr.trans (direntFree_eq (by rw [hy]; exact h0))) ⟨h0, ?_⟩
        rw [drop_eq_hold, detach_hold, hold_hold, ← sub_eq_add_neg]
        exact .some h h1
      · refine .of_error (hr.trans (direntFree_last (by rw [hy]; exact Int.not_lt.mp h0))) ?_
        exact hbad.resolve_left fun hb => h0 hb.1
    · have hr := removeFrom_last (s := s.hold g) (hcached.trans h) hcy hp hcc
        (show (s.dirents c).refCount + g c ≤ 0 by rw [hgc]; exact Int.not_lt.mp h1)
      exact .of_error hr (hbad.resolve_left fun hb => h1 (hb.2 c h))

/-- `dirent_cache_remove` of a path that is in the cache. -/
theorem cacheRemove_ends (hcounts : ∀ d, 0 ≤ (s.dirents d).refCount) {fs : TaskFs} (hfs : s.tasks s.curr = some fs)
    (hroot : fs.root = 0) {path : CString} (hshort : Short (dirOf path))
    (H : Hops s (fs.start path) (names (dirOf path)) y) (hc : ∀ c, cached s y (nameIn path) = some c →
      c ≠ y ∧ (s.dirents c).parent = some y ∧ (s.dirents c).childs = [])
    (hbad : (strrchr path.bytes ≠ none ∧ ∀ c, cached s y (nameIn path) = some c → 0 < (s.dirents c).refCount) ∨
      E lastDirent) :
    Ends (direntCacheRemove path) s E fun _ s' =>
      Droppable s fs path ∧ Uncached s y (nameIn path) (unheld fs path) s' := by
  rw [direntCacheRemove_eq]
  cases hp : strrchr path.bytes with
  | none =>
    have hstart : fs.start path = fs.pwd := if_neg (strrchr_none hp)
    have hdir : names (dirOf path) = [] := by simp [dirOf, hp, names, components]
    have hh : unheld fs path = 0 - single fs.pwd 1 := by rw [unheld, if_pos hp, zero_sub]
    have hname : nameIn path = path := by simp [nameIn, hp]
    rw [hstart, hdir] at H
    cases H
    rw [hname] at hc hbad
    rw [hh, hname]
    have hr := removeFrom_ends (E := E) (g := 0) hu (fun _ _ => rfl) hc
      (.inr (hbad.resolve_left fun hb => hb.1 hp))
    rw [hold_zero] at hr
    refine .bind_ok (find2_plain hfs hp) (hr.mono fun _ s' h => ⟨fun _ => ?_, h.2⟩)
    have h0 : 0 < (s.dirents fs.pwd).refCount + 0 := h.1
    omega
  | some p =>
    obtain ⟨front, back⟩ := p
    have hdir : dirOf path = front := by simp [dirOf, hp]
    have hh : unheld fs path = single y 1 - single y 1 := by simp [unheld, hp]
    have hname : nameIn path = cstring back := by simp [nameIn, hp]
    rw [hdir] at hshort H
    rw [hname] at hc hbad
    rw [hh, hname]
    have htake : path.bytes.take front.length = front := by
      rw [strrchr_some hp]
      exact List.take_left
    have hf := find_again hu hcounts hfs hroot path.nonzero (htake.symm ▸ hshort)
      (htake.symm ▸ H)
    have hf2 : direntFind2 path s = .ok (.ok (y, cstring back), s.dup y) := by
      unfold direntFind2
      rw [hp]
      exact bind_run hf
    have hpos : 0 < (s.dirents y).refCount + (single y 1 : Nat → Int) y := by
      have := hcounts y
      rw [single_eq_same]
      omega
    have hr := removeFrom_ends (E := E) hu (fun d hd => single_eq_of_ne hd _) hc
      (hbad.imp (fun hb => ⟨hpos, hb.2⟩) id)
    rw [dup_eq_hold] at hf2
    exact .bind_ok hf2 (hr.mono fun _ s' h => ⟨fun h' => absurd (hp.symm.trans h') (by simp), h.2⟩)

end Uncache

end MakarnaX.Vfs
