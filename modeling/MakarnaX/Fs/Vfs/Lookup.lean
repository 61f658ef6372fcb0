import MakarnaX.Fs.Vfs.Basic
import MakarnaX.Fs.Denemefs.Names

/-!
# Looking up one name

`dirent_lookup` has four outcomes.  The directory was removed; the name is one of
`.` and `..` or in the cache; it is not on disk; or it is, and there is a new
dirent for it.
-/

namespace MakarnaX.Vfs

open Library Denemefs Function State

variable {s : State} {dir i : Nat} {name : CString} {r : Except Int Denemefs.Inode}

/-- One step along the dirents that are there: `.`, `..` or a cached name. -/
inductive Hop (s : State) (root dir : Nat) (name : CString) : Nat → Prop
  | dot : name = Vfs.dot → Hop s root dir name dir
  | root : name = dotdot → dir = root → Hop s root dir name dir
  | up {p : Nat} : name = dotdot → dir ≠ root → (s.dirents dir).parent = some p → Hop s root dir name p
  | child {c : Nat} : name ≠ Vfs.dot → name ≠ dotdot → cached s dir name = some c → Hop s root dir name c

theorem dot_ne_dotdot : dot ≠ dotdot := by decide

section Lookup

variable (hU : Unlocked s) (hi : (s.dirents dir).inode = some i)

theorem lookup_removed (h : (s.dirents dir).inode = none) :
    direntLookup dir name s = .ok (.error (-1), s) := by
  simp [direntLookup, h]

include hU hi

/-- A step along the cache takes a reference to where it leads. -/
theorem lookup_hop {fs : TaskFs} (hfs : s.tasks s.curr = some fs) {d : Nat} (h : Hop s fs.root dir name d) :
    direntLookup dir name s = .ok (.ok d, s.dup d) := by
  have hdup : ∀ d, direntDup d { s with nCli := s.nCli + 1 } = .ok ((), { s.dup d with nCli := s.nCli + 1 }) :=
    fun d => direntDup_eq (hU d)
  cases h with
  | dot hn => simp [direntLookup, hi, pushcli, hn, bind_run (hdup _), popcli, dup]
  | root hn hr =>
    have hne : dotdot ≠ dot := dot_ne_dotdot.symm
    simp [direntLookup, hi, pushcli, hn, hne, currFs, hfs, ← hr, bind_run (hdup _), popcli, dup]
  | up hn hr hp =>
    have hne : dotdot ≠ dot := dot_ne_dotdot.symm
    simp [direntLookup, hi, pushcli, hn, hne, currFs, hfs, hr, hp, bind_run (hdup _), popcli, dup]
  | child hn1 hn2 hc =>
    have hc' : cached { s with nCli := s.nCli + 1 } dir name = some d := hc
    simp [direntLookup, hi, pushcli, hn1, hn2, hc', bind_run (hdup _), popcli, dup]

end Lookup

/-! ## Looking on disk -/

/-- `dirent_lookup` has to look on disk. -/
theorem lookup_miss (hi : (s.dirents dir).inode = some i) (h1 : name ≠ dot) (h2 : name ≠ dotdot)
    (hc : cached s dir name = none) :
    direntLookup dir name s = lookupOnDisk dir i name { s with nCli := s.nCli + 1 } := by
  have hc' : cached { s with nCli := s.nCli + 1 } dir name = none := hc
  simp [direntLookup, hi, pushcli, h1, h2, hc']

/-- The lock of dirent `d` is taken. -/
def State.acquire (s : State) (d : Nat) : State :=
  { s with dirents := update s.dirents d { s.dirents d with locked := true }, nCli := s.nCli + 1 }

/-- The lock of dirent `d` is given back. -/
def State.release (s : State) (d : Nat) : State :=
  { s with dirents := update s.dirents d { s.dirents d with locked := false }, nCli := s.nCli - 1 }

/-- One more inode. -/
def State.alloc (s : State) : State :=
  { s with
    nInodes := s.nInodes + 1
    inodes := update s.inodes s.nInodes ⟨0, 1, none, ⟨false, false, .none⟩, 0, 1⟩ }

theorem inodeAlloc_eq : inodeAlloc s = .ok (s.nInodes, s.alloc) := by
  simp [inodeAlloc, setInode, alloc]

theorem spinlockAcquire_eq (s : State) (d : Nat) : spinlockAcquire d s = .ok ((), s.acquire d) := rfl

theorem spinlockRelease_eq (h : s.nCli ≠ 0) (d : Nat) : spinlockRelease d s = .ok ((), s.release d) := by
  simp [spinlockRelease, setDirent, popcli, h, release]

theorem popcli_eq (h : s.nCli ≠ 0) : popcli s = .ok ((), { s with nCli := s.nCli - 1 }) := by
  simp [popcli, h]

/-- The state while `dirent_lookup` looks on disk: the locks of the dirent and of
its inode are taken, and a new inode is there. -/
def State.looking (s : State) (dir i : Nat) : State := ((s.acquire dir).lock i).alloc

section OnDisk

theorem lookupOnDisk_looking (hF : (s.inodes i).val = 1)
    (hl : opLookup i name (s.looking dir i) = .ok (r, s.looking dir i)) :
    lookupOnDisk dir i name { s with nCli := s.nCli + 1 } = lookupEnd dir i name s.nInodes r (s.looking dir i) := by
  refine (bind_run (spinlockAcquire_eq _ dir)).trans ?_
  refine (bind_run (inodeLock_eq (s := acquire { s with nCli := s.nCli + 1 } dir) hF)).trans ?_
  refine (bind_run (popcli_eq (Nat.succ_ne_zero _))).trans ?_
  refine (bind_run inodeAlloc_eq).trans ?_
  exact bind_run hl

variable (hlt : i < s.nInodes)

include hlt

theorem looking_inode : (s.looking dir i).inodes i = { s.inodes i with val := 0 } := by
  have hne : i ≠ s.nInodes := Nat.ne_of_lt hlt
  simp [looking, alloc, lock, acquire, update_of_ne hne]

/-- The file system on disk is asked. -/
theorem opLookup_eq {op : InodeOperations} (hop : (s.inodes i).op = some op)
    (hl : denemefsLookup (s.inodes i).ino name s.disk = .ok (r, s.disk)) :
    opLookup i name (s.looking dir i) = .ok (r, s.looking dir i) := by
  have hdisk : (s.looking dir i).disk = s.disk := rfl
  simp only [opLookup, get_run, looking_inode hlt, hop, onDisk]
  rw [hdisk, hl]
  rfl

variable (hU : Unlocked s) (hF : InodesFree s)

include hU hF

theorem lookupEnd_absent {e : Int} :
    lookupEnd dir i name s.nInodes (.error e) (s.looking dir i) = .ok (.error e, s.spare) := by
  have hne : i ≠ s.nInodes := Nat.ne_of_lt hlt
  have hnew : (s.looking dir i).inodes s.nInodes = ⟨0, 1, none, ⟨false, false, .none⟩, 0, 1⟩ :=
    update_self ..
  have hfree : inodeFree s.nInodes (s.looking dir i) = .ok ((), (s.looking dir i).refer s.nInodes (-1)) :=
    inodeFree_eq (by rw [hnew]) (by rw [hnew]; decide)
  have hv : (((s.looking dir i).refer s.nInodes (-1)).inodes i).val = 0 := by
    simp [refer, hne, looking_inode hlt]
  refine (bind_run hfree).trans ?_
  refine (bind_run (inodeUnlock_eq hv)).trans ?_
  refine (bind_run (spinlockRelease_eq (Nat.succ_ne_zero _) dir)).trans ?_
  refine congrArg (fun t => Except.ok (Except.error e, t)) (State.ext rfl ?_ rfl ?_ rfl rfl rfl rfl rfl rfl rfl)
  · simp [State.release, State.unlock, State.refer, State.looking, State.alloc, State.lock, State.acquire,
      Dirent.unlocked (hU dir), spare]
  · funext x
    by_cases hx : x = s.nInodes
    · subst hx
      simp [release, unlock, refer, hnew, spare, Ne.symm hne]
    · by_cases hxi : x = i
      · subst hxi
        simp [release, unlock, refer, hx, spare, looking_inode hlt, Inode.free (hF x)]
      · simp [release, unlock, refer, looking, alloc, lock, acquire,
          hx, hxi, spare]

omit hlt hU hF in
theorem direntCacheAdd_eq (hi : (s.dirents dir).inode = some i) (hv : (s.inodes i).val = 0) (hd : dir ≠ s.nDirents)
    (j : Nat) : direntCacheAdd dir name j s = .ok (s.nDirents, s.attach dir name j) := by
  unfold direntCacheAdd
  simp only [get_run, hi, ASSERT, check_run, hv, if_true, direntAlloc, setDirent, bind_assoc,
    modify_run, pure_bind, pure_apply]
  refine congrArg (fun t => Except.ok (s.nDirents, t)) (State.ext rfl ?_ rfl rfl rfl rfl rfl rfl rfl rfl rfl)
  funext x
  by_cases hx : x = s.nDirents
  · subst hx
    simp [State.attach, hd, Ne.symm hd]
  · by_cases hxd : x = dir
    · subst hxd
      simp [State.attach, hx]
    · simp [State.attach, hx, hxd]

/-- The new inode with what was found on disk. -/
def State.filling (s : State) (dir i : Nat) (x : Denemefs.Inode) : State :=
  { s.looking dir i with
    inodes := update (s.looking dir i).inodes s.nInodes ⟨x.ino, 1, some x.op, x.mode, x.size, 1⟩ }

theorem lookupEnd_found (hi : (s.dirents dir).inode = some i) (hd : dir < s.nDirents) {x : Denemefs.Inode} :
    lookupEnd dir i name s.nInodes (.ok x) (s.looking dir i) =
      .ok (.ok s.nDirents, (s.add dir name x).dup s.nDirents) := by
  have hne : i ≠ s.nInodes := Nat.ne_of_lt hlt
  have hdne : dir ≠ s.nDirents := Nat.ne_of_lt hd
  have hv : ((s.filling dir i x).inodes i).val = 0 := by
    simp [State.filling, hne, looking_inode hlt]
  have hfill : setInode s.nInodes (fun y => { y with ino := x.ino, op := some x.op, size := x.size, mode := x.mode })
      (s.looking dir i) = .ok ((), s.filling dir i x) := by
    simp [setInode, State.filling, State.looking, State.alloc, State.lock, State.acquire]
  have hi' : ((s.filling dir i x).dirents dir).inode = some i := by
    simp [State.filling, State.looking, State.alloc, State.lock, State.acquire, hi]
  have hdup : direntDup s.nDirents ((s.filling dir i x).attach dir name s.nInodes) =
      .ok ((), ((s.filling dir i x).attach dir name s.nInodes).dup s.nDirents) := by
    refine direntDup_eq ?_
    simp [State.attach, State.filling, State.looking, State.alloc, State.lock, State.acquire, Ne.symm hdne]
  refine (bind_run hfill).trans ?_
  refine (bind_run (direntCacheAdd_eq hi' hv hdne _)).trans ?_
  refine (bind_run hdup).trans ?_
  have hv' : ((((s.filling dir i x).attach dir name s.nInodes).dup s.nDirents).inodes i).val = 0 := hv
  refine (bind_run (inodeUnlock_eq hv')).trans ?_
  refine (bind_run (spinlockRelease_eq (Nat.succ_ne_zero _) dir)).trans ?_
  refine congrArg (fun t => Except.ok (Except.ok s.nDirents, t))
    (State.ext rfl ?_ rfl ?_ rfl rfl rfl rfl rfl rfl rfl)
  · funext y
    by_cases hy : y = s.nDirents
    · subst hy
      simp [State.release, State.unlock, State.dup, State.attach, State.filling, State.looking, State.alloc,
        State.lock, State.acquire, State.add, Ne.symm hdne]
    · by_cases hyd : y = dir
      · subst hyd
        simp [State.release, State.unlock, State.dup, State.attach, State.filling, State.looking, State.alloc,
          State.lock, State.acquire, State.add, hy, hU y]
      · simp [State.release, State.unlock, State.dup, State.attach, State.filling, State.looking, State.alloc,
          State.lock, State.acquire, State.add, hy, hyd]
  · funext y
    by_cases hy : y = s.nInodes
    · subst hy
      simp [State.release, State.unlock, State.dup, State.attach, State.filling, State.add, Ne.symm hne]
    · by_cases hyi : y = i
      · subst hyi
        simp [State.release, State.unlock, State.dup, State.attach, State.filling, State.add, hy,
          looking_inode hlt, Inode.free (hF y)]
      · simp [State.release, State.unlock, State.dup, State.attach, State.filling, State.looking, State.alloc,
          State.lock, State.acquire, State.add, hy, hyi]

end OnDisk

/-! ## The outcomes -/

/-- What `dirent_lookup` returns, and the state behind it. -/
inductive Looked (s : State) (root dir : Nat) (name : CString) : Except Int Nat → State → Prop
  | removed : (s.dirents dir).inode = none → Looked s root dir name (.error (-1)) s
  | hop {d : Nat} : (s.dirents dir).inode ≠ none → Hop s root dir name d → Looked s root dir name (.ok d) (s.dup d)
  | absent {i : Nat} {e : Int} : name ≠ dot → name ≠ dotdot → cached s dir name = none →
      (s.dirents dir).inode = some i → denemefsLookup (s.inodes i).ino name s.disk = .ok (.error e, s.disk) →
      Looked s root dir name (.error e) s.spare
  | found {i : Nat} {x : Denemefs.Inode} : name ≠ dot → name ≠ dotdot → cached s dir name = none →
      (s.dirents dir).inode = some i → denemefsLookup (s.inodes i).ino name s.disk = .ok (.ok x, s.disk) →
      Looked s root dir name (.ok s.nDirents) ((s.add dir name x).dup s.nDirents)

/-- `dirent_lookup` returns if nothing is locked, a directory other than the root
has a parent, and the file system on disk answers. -/
theorem direntLookup_looked (hU : Unlocked s) (hF : InodesFree s) {fs : TaskFs} (hfs : s.tasks s.curr = some fs)
    (hd : dir < s.nDirents) (hparent : (s.dirents dir).inode ≠ none → dir ≠ fs.root → (s.dirents dir).parent ≠ none)
    (hlive : ∀ i, (s.dirents dir).inode = some i → i < s.nInodes ∧ (s.inodes i).op ≠ none)
    (hdisk : ∀ i, (s.dirents dir).inode = some i →
      ∃ r, denemefsLookup (s.inodes i).ino name s.disk = .ok (r, s.disk)) :
    ∃ r s', direntLookup dir name s = .ok (r, s') ∧ Looked s fs.root dir name r s' := by
  cases hi : (s.dirents dir).inode with
  | none => exact ⟨_, _, lookup_removed hi, .removed hi⟩
  | some i =>
    have hlive0 : (s.dirents dir).inode ≠ none := by simp [hi]
    have hhop : ∀ {d}, Hop s fs.root dir name d →
        ∃ r s', direntLookup dir name s = .ok (r, s') ∧ Looked s fs.root dir name r s' :=
      fun h => ⟨_, _, lookup_hop hU hi hfs h, .hop hlive0 h⟩
    by_cases h1 : name = dot
    · exact hhop (.dot h1)
    by_cases h2 : name = dotdot
    · by_cases hr : dir = fs.root
      · exact hhop (.root h2 hr)
      · obtain ⟨p, hp⟩ := Option.ne_none_iff_exists'.mp (hparent hlive0 hr)
        exact hhop (.up h2 hr hp)
    cases hc : cached s dir name with
    | some c => exact hhop (.child h1 h2 hc)
    | none =>
      obtain ⟨hlt, hop⟩ := hlive i hi
      obtain ⟨op, hop⟩ := Option.ne_none_iff_exists'.mp hop
      obtain ⟨r, hl⟩ := hdisk i hi
      have hrun : direntLookup dir name s = lookupEnd dir i name s.nInodes r (s.looking dir i) :=
        (lookup_miss hi h1 h2 hc).trans (lookupOnDisk_looking (hF i) (opLookup_eq hlt hop hl))
      cases r with
      | error e => exact ⟨_, _, hrun.trans (lookupEnd_absent hlt hU hF), .absent h1 h2 hc hi hl⟩
      | ok x => exact ⟨_, _, hrun.trans (lookupEnd_found hlt hU hF hi hd), .found h1 h2 hc hi hl⟩

end MakarnaX.Vfs
