import MakarnaX.Fs.Vfs.Model

/-!
# What the small functions do

Between two calls no lock is taken.  Then a function that takes a lock and gives
it back has changed nothing but a reference count, and the equations here say
which.  `dirent_free` and `inode_free` return if the count was positive; else the
count is negative behind them, and the assertion that it is 0 fails.
-/

namespace MakarnaX.Vfs

open Library Denemefs Function State

variable {s : State} {d i : Nat}

/-! ## Changes of a state -/

/-- One more reference to dirent `d`. -/
def State.dup (s : State) (d : Nat) : State :=
  { s with dirents := update s.dirents d { s.dirents d with refCount := (s.dirents d).refCount + 1 } }

/-- One reference to dirent `d` less. -/
def State.drop (s : State) (d : Nat) : State :=
  { s with dirents := update s.dirents d { s.dirents d with refCount := (s.dirents d).refCount - 1 } }

/-- `k` more references to inode `i`. -/
def State.refer (s : State) (i : Nat) (k : Int) : State :=
  { s with inodes := update s.inodes i { s.inodes i with refCount := (s.inodes i).refCount + k } }

/-- The lock of inode `i` is taken. -/
def State.lock (s : State) (i : Nat) : State :=
  { s with inodes := update s.inodes i { s.inodes i with val := 0 } }

/-- The lock of inode `i` is given back. -/
def State.unlock (s : State) (i : Nat) : State :=
  { s with inodes := update s.inodes i { s.inodes i with val := 1 } }

/-- An inode was allocated and given back; nothing refers to it. -/
def State.spare (s : State) : State :=
  { s with
    nInodes := s.nInodes + 1
    inodes := update s.inodes s.nInodes ⟨0, 0, none, ⟨false, false, .none⟩, 0, 1⟩ }

/-- A new dirent for inode `j`, the child `name` of directory `dir`. -/
def State.attach (s : State) (dir : Nat) (name : CString) (j : Nat) : State :=
  { s with
    nDirents := s.nDirents + 1
    dirents := update
      (update s.dirents s.nDirents ⟨false, 1, some j, name, some dir, []⟩)
      dir { s.dirents dir with childs := (s.dirents dir).childs ++ [s.nDirents] } }

/-- The child `name` of directory `dir` was found on disk. -/
def State.add (s : State) (dir : Nat) (name : CString) (x : Denemefs.Inode) : State :=
  attach { s with
    nInodes := s.nInodes + 1
    inodes := update s.inodes s.nInodes ⟨x.ino, 1, some x.op, x.mode, x.size, 1⟩ } dir name s.nInodes

/-! ## No lock is taken -/

def Unlocked (s : State) : Prop := ∀ d, (s.dirents d).locked = false

/-- No lock of an inode is taken. -/
def InodesFree (s : State) : Prop := ∀ i, (s.inodes i).val = 1

theorem Dirent.unlocked {x : Dirent} (h : x.locked = false) : { x with locked := false } = x := by
  cases x
  cases h
  rfl

theorem Inode.free {x : Inode} (h : x.val = 1) : { x with val := 1 } = x := by
  cases x
  cases h
  rfl

/-! ## Equations -/

theorem direntDup_eq (h : (s.dirents d).locked = false) : direntDup d s = .ok ((), s.dup d) := by
  simp [direntDup, spinlockAcquire, spinlockRelease, pushcli, setDirent, popcli, dup, h]

theorem direntFree_eq (h : 0 < (s.dirents d).refCount) : direntFree d s = .ok ((), s.drop d) := by
  have : ¬ (s.dirents d).refCount - 1 < 0 := by omega
  simp [direntFree, pushcli, setDirent, popcli, drop, this]

theorem direntFree_last (h : (s.dirents d).refCount ≤ 0) :
    direntFree d s = .error (.assert "dirent->ref_count == 0") := by
  have h1 : (s.dirents d).refCount - 1 < 0 := by omega
  have h2 : (s.dirents d).refCount - 1 ≠ 0 := by omega
  simp [direntFree, doDirentFree, pushcli, setDirent, h1, h2, ASSERT, check_run]

theorem inodeLock_eq (h : (s.inodes i).val = 1) : inodeLock i s = .ok ((), s.lock i) := by
  simp [inodeLock, pushcli, setInode, popcli, lock, h, ASSERT, check_run]

theorem inodeUnlock_eq (h : (s.inodes i).val = 0) : inodeUnlock i s = .ok ((), s.unlock i) := by
  simp [inodeUnlock, pushcli, setInode, popcli, unlock, h, ASSERT, check_run]

theorem inodeDup_eq (h : (s.inodes i).val = 1) : inodeDup (some i) s = .ok (some i, s.refer i 1) := by
  refine (bind_run (inodeLock_eq h)).trans ?_
  simp [setInode, inodeUnlock, pushcli, popcli, lock, refer, ASSERT, check_run, h]

theorem inodeFree_eq (h : (s.inodes i).val = 1) (hc : 0 < (s.inodes i).refCount) :
    inodeFree i s = .ok ((), s.refer i (-1)) := by
  have hn : ¬ (s.inodes i).refCount - 1 < 0 := by omega
  refine (bind_run (inodeLock_eq h)).trans ?_
  simp [setInode, inodeUnlock, pushcli, popcli, lock, refer, ASSERT, check_run, h, hn]
  rfl

end MakarnaX.Vfs
