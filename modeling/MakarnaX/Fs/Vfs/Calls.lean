import MakarnaX.Fs.Vfs.Acts
import MakarnaX.Library.System

/-!
# The calls

`Does` says once what a call can do to the state; what is kept by every call is
read off it.  A call that looks up a path may fail, and has then done nothing but
moves.  If it finds an inode it refers to it, and whatever happens then, no call
gives this reference back.
-/

namespace MakarnaX.Vfs

open Library Denemefs Subdentry

/-! ## The calls -/

/-- A call of the current task, or a switch to another one. -/
inductive Call
  | sysOpen (path : CString) (flags : Nat)
  | sysClose (fd : Nat)
  | sysRead (fd size : Nat)
  | sysWrite (fd : Nat) (buf : List UInt8)
  | fileLseek (fd offset whence : Nat)
  | sysCreat (path : CString) (mode : Nat)
  | sysMkdir (path : CString) (mode : Nat)
  | sysUnlink (path : CString)
  | sysRmdir (path : CString)
  | sysStat (path : CString)
  | sysChdir (path : CString)
  | fork
  | exec (path : CString) (loaded : Bool)
  | exit
  | switch (t : Nat)

def Call.run : Call → VfsM Unit
  | .sysOpen path flags => discard (Vfs.sysOpen path flags)
  | .sysClose fd => discard (Vfs.sysClose fd)
  | .sysRead fd size => discard (Vfs.sysRead fd size)
  | .sysWrite fd buf => discard (Vfs.sysWrite fd buf)
  | .fileLseek fd offset whence => discard (Vfs.fileLseek fd offset whence)
  | .sysCreat path mode => discard (Vfs.sysCreat path mode)
  | .sysMkdir path mode => discard (Vfs.sysMkdir path mode)
  | .sysUnlink path => discard (Vfs.sysUnlink path)
  | .sysRmdir path => discard (Vfs.sysRmdir path)
  | .sysStat path => discard (Vfs.sysStat path)
  | .sysChdir path => discard (Vfs.sysChdir path)
  | .fork => discard fsFork
  | .exec path loaded => discard (doExecve path loaded)
  | .exit => taskFree
  | .switch t => do
    match (← get).tasks t with
    | some _ => modify fun s => { s with curr := t }
    | none => throw .null

/-- The components of the path fit in the array of `parse_path_i`. -/
def Call.short : Call → Prop
  | .sysOpen path _ | .sysStat path | .sysChdir path | .exec path _ => Short path.bytes
  | .sysCreat path _ | .sysMkdir path _ | .sysUnlink path | .sysRmdir path => Short (dirOf path)
  | _ => True

/-- If the call stores an entry, that fits. -/
def Call.fits (s : State) : Call → Prop
  | .sysCreat path mode | .sysMkdir path mode =>
    match inodeFind2 path s with
    | .ok (.ok (i, name), s') => (Op.create (s'.inodes i).ino name mode).fits s.disk
    | _ => True
  | _ => True

/-- A task that is there calls, or it is switched to one. -/
def Call.enabled (s : State) : Call → Prop
  | .switch _ => True
  | _ => s.tasks s.curr ≠ none

/-! ## What they do -/

variable {s s' : State} {fs : TaskFs} {path : CString}

/-- The path with which a call makes or removes an entry. -/
def Call.entryPath : Call → Option CString
  | .sysCreat path _ | .sysMkdir path _ | .sysUnlink path | .sysRmdir path => some path
  | _ => none

/-- The references to dirents a call drops without having taken them, if it drops
the directory of its path once. -/
def Call.unheld (fs : TaskFs) (c : Call) : Nat → Int := c.entryPath.elim 0 (Vfs.unheld fs)

/-- The call looks up a path for its inode, and finds it. -/
def Call.finds (s : State) : Call → Prop
  | .sysOpen path _ => ∃ i t, inodeFind path { s with nCli := s.nCli + 1 } = .ok (.ok i, t)
  | .sysStat path | .exec path _ => ∃ i t, inodeFind path s = .ok (.ok i, t)
  | .sysCreat path _ | .sysMkdir path _ | .sysUnlink path | .sysRmdir path =>
    ∃ p t, inodeFind2 path s = .ok (.ok p, t)
  | _ => False

/-- What the call makes can be written. -/
def Call.makesWritable : Call → Bool
  | .sysCreat _ mode | .sysMkdir _ mode => mode.testBit 1
  | _ => false

/-- The call changes the working directory. -/
def Call.changes (s : State) : Call → Prop
  | .sysChdir path => ∃ d t, direntFind path.bytes path.length s = .ok (.ok d, t)
  | _ => False

/-- Inode `i` of dirent `e` was found. -/
structure Reaches (s : State) (h : Nat → Int) (s' : State) (e i : Nat) : Prop where
  moves : Moves s h s'
  lt : e < s'.nDirents
  inode : (s'.dirents e).inode = some i

/-- The flags of a file that is opened. -/
def openFlags (flags : Nat) : Nat := if flags = 0 then 1 else flags

/-- `inode_permission` grants these flags. -/
def permits (s : State) (i flags : Nat) : Bool :=
  denemefsPermission s.disk (s.inodes i).ino flags || (s.inodes i).mode.mode &&& flags == flags

/-- No dirent and no inode came or went. -/
structure SameCache (s s' : State) : Prop where
  inode : ∀ d, (s'.dirents d).inode = (s.dirents d).inode
  nDirents : s'.nDirents = s.nDirents
  nInodes : s'.nInodes = s.nInodes

/-- What a new task has of the task it was forked from. -/
structure Forked (s : State) (fs : TaskFs) (s' : State) : Prop where
  acts : Acts s 0 0 s'
  cache : SameCache s s'
  disk : s'.disk = s.disk
  curr : s'.curr = s.curr
  tasks : ∀ t, t ≠ s.nTasks → s'.tasks t = s.tasks t
  nFiles : s.nFiles ≤ s'.nFiles
  files : ∀ f, f < s.nFiles → s'.files f = s.files f
  inodes : ∀ i, (s'.inodes i).ino = (s.inodes i).ino ∧ (s'.inodes i).op = (s.inodes i).op ∧
    (s'.inodes i).mode = (s.inodes i).mode
  child : ∃ gs, s'.tasks s.nTasks = some gs ∧ ∀ fd, (gs.files fd).map s'.files = (fs.files fd).map s.files

/-- The state behind a call. -/
inductive Does (s : State) : Call → State → Prop
  /-- No inode was found, or there was nothing to do. -/
  | moves {c : Call} {fs : TaskFs} {s' : State} : s.tasks s.curr = some fs → c ≠ .exit → ¬ c.finds s → ¬ c.changes s →
      Moves s (c.unheld fs) s' → Does s c s'
  /-- An inode was found, and that is all. -/
  | refers {c : Call} {fs : TaskFs} {s' : State} {e i : Nat} : s.tasks s.curr = some fs → c.finds s →
      Reaches s (c.unheld fs) s' e i → Does s c (s'.refer i 1)
  | opens {flags fd e i : Nat} {path : CString} {fs : TaskFs} {s' : State} : s.tasks s.curr = some fs →
      Call.finds s (.sysOpen path flags) → Reaches s 0 s' e i → Hops s' (fs.start path) (names path.bytes) e →
      permits s' i (openFlags flags) → fd < taskMaxFileNr → fs.files fd = none →
      Does s (.sysOpen path flags)
        (((s'.refer i 3).newFile ⟨i, 0, openFlags flags⟩).setFd s'.curr fd (some s'.nFiles))
  /-- There was no descriptor left. -/
  | full {flags e i : Nat} {path : CString} {s' : State} : Call.finds s (.sysOpen path flags) → Reaches s 0 s' e i →
      Does s (.sysOpen path flags) ((s'.refer i 2).newFile ⟨i, 0, openFlags flags⟩)
  | closes {fd f : Nat} {fs : TaskFs} : s.tasks s.curr = some fs → fs.files fd = some f →
      0 < (s.inodes (s.files f).inode).refCount →
      Does s (.sysClose fd) ((s.refer (s.files f).inode (-1)).setFd s.curr fd none)
  | reads {fd size f p : Nat} {fs : TaskFs} : s.tasks s.curr = some fs → fs.files fd = some f →
      Does s (.sysRead fd size) (s.seek f p)
  | seeks {fd offset whence f p : Nat} {fs : TaskFs} : s.tasks s.curr = some fs → fs.files fd = some f →
      Does s (.fileLseek fd offset whence) (s.seek f p)
  | writes {fd f p ino : Nat} {buf : List UInt8} {fs : TaskFs} {r : Int} {t : Table} :
      s.tasks s.curr = some fs → fs.files fd = some f → (s.files f).flags &&& 2 = 2 →
      (s.inodes (s.files f).inode).ino = ino → Effect s.disk (.write ino (s.files f).fpos buf) r t →
      Does s (.sysWrite fd buf) { s.seek f p with disk := t }
  | enters {c : Call} {fs : TaskFs} {s' : State} {e i a mode : Nat} {name : CString} {op : Op} {t : Table} :
      s.tasks s.curr = some fs → c.finds s → Reaches s (c.unheld fs) s' e i → Effect s'.disk op 0 t →
      op = .create a name mode ∨ op = .mkdir a name mode → mode.testBit 1 = c.makesWritable →
      Does s c { s'.refer i 1 with disk := t }
  /-- An entry was removed that is not in the cache. -/
  | cuts {c : Call} {path : CString} {fs : TaskFs} {s' : State} {y i a k b : Nat} : s.tasks s.curr = some fs →
      c.entryPath = some path → c.finds s → Reaches s (c.unheld fs + c.unheld fs) s' y i →
      Cut s' y (nameIn path) a k b → cached s' y (nameIn path) = none →
      Does s c { s'.refer i 1 with disk := cut s'.disk a k b }
  /-- An entry was removed, and its dirent with it. -/
  | detaches {c : Call} {path : CString} {fs : TaskFs} {s' : State} {y i a k b d j : Nat} :
      s.tasks s.curr = some fs → c.entryPath = some path → c.finds s →
      Reaches s (c.unheld fs + c.unheld fs) s' y i → Cut s' y (nameIn path) a k b →
      cached s' y (nameIn path) = some d → 0 < (s'.dirents d).refCount → (s'.dirents d).inode = some j →
      Does s c { (s'.refer i 1).detach y d with disk := cut s'.disk a k b }
  | chdirs {path : CString} {fs : TaskFs} {s' : State} {d : Nat} : s.tasks s.curr = some fs →
      Call.changes s (.sysChdir path) → Moves s (Pi.single d 1) s' → d < s'.nDirents → Does s (.sysChdir path) (s'.setPwd s'.curr d)
  | forks {fs : TaskFs} {s' : State} : s.tasks s.curr = some fs → Forked s fs s' → Does s .fork s'
  /-- More references to an inode are taken than given back. -/
  | loads {path : CString} {loaded : Bool} {s' : State} {ε : Nat → Int} : Call.finds s (.exec path loaded) →
      Acts s 0 ε s' → (∀ i, 0 ≤ ε i) → (∃ i, i < s'.nInodes ∧ 0 < ε i) → Does s (.exec path loaded) s'
  | exits {fs : TaskFs} {s' : State} : s.tasks s.curr = some fs → Acts s fs.points 0 s' → SameCache s s' →
      Does s .exit s'
  | switches {t : Nat} {fs : TaskFs} : s.tasks t = some fs → Does s (.switch t) { s with curr := t }

section Parents

variable {s s' : State} {d e i : Nat} {h : Nat → Int} {fs : TaskFs} {t : Table} {l : List CString}

/-! ## The directory of a path -/

theorem Resolves.unique (I : Inv t) {x y z : Nat} {l : List CString} (h : Resolves t x l y)
    (h' : Resolves t x l z) : y = z := by
  induction h with
  | nil =>
    cases h'
    rfl
  | cons hs _ ih =>
    cases h' with
    | cons hs' hr =>
      obtain rfl := DiskStep.unique I hs hs'
      exact ih hr

/-- From a dirent without an inode no names lead anywhere. -/
theorem Hops.start_live (H : Hops s d l e) (hi : (s.dirents e).inode = some i) :
    ∃ x, number s d = some x := by
  refine Option.ne_none_iff_exists'.mp (mt number_eq_none.mp ?_)
  cases H with
  | nil => simp [hi]
  | cons h => exact h

/-- What was found is what the names lead to. -/
theorem hops_resolves (C : Coherent s) (m : Moves s h s') (hd : d < s.nDirents) {e : Nat}
    (H : Hops s' d l e) (y : Nat) :
    number s' e = some y ↔ ∃ x, number s d = some x ∧ Resolves s.disk x l y := by
  have C' := m.coherent C
  have hd' := Nat.lt_of_lt_of_le hd m.extends.nDirents
  have hnum := m.extends.number C hd
  constructor
  · intro hy
    obtain ⟨i, hi, -⟩ := Option.map_eq_some_iff.mp hy
    obtain ⟨x, hx⟩ := H.start_live hi
    obtain ⟨z, hz, hres⟩ := H.resolves C' hd' hx
    rw [hz] at hy
    cases hy
    rw [m.extends.disk] at hres
    exact ⟨x, hnum ▸ hx, hres⟩
  · rintro ⟨x, hx, hres⟩
    obtain ⟨z, hz, hres'⟩ := H.resolves C' hd' (hnum.trans hx)
    rw [m.extends.disk] at hres'
    rw [hz, Resolves.unique C.disk.toInv hres' hres]

/-- What the names in front of the last slash of a path lead to. -/
def Parent (s : State) (fs : TaskFs) (path : CString) (y : Nat) : Prop :=
  ∃ x, number s (fs.start path) = some x ∧ Resolves s.disk x (names (dirOf path)) y

/-- One of these names is too long. -/
def LongParent (s : State) (fs : TaskFs) (path : CString) : Prop :=
  LongReached s.disk (number s (fs.start path)) (components [] (dirOf path))

/-- What `inode_find2` yields. -/
inductive FindsParent (s : State) (fs : TaskFs) (path : CString) : Exec (Except Int (Nat × CString) × State) → Prop
  | last : ¬ Droppable s fs path → FindsParent s fs path (.error lastDirent)
  | long : LongParent s fs path → FindsParent s fs path (.error .overflow)
  | absent {s' : State} : Droppable s fs path → ¬ LongParent s fs path → (∀ y, ¬ Parent s fs path y) →
      Moves s (unheld fs path) s' → FindsParent s fs path (.ok (.error (-1), s'))
  | found {s' : State} {e i : Nat} : Droppable s fs path → ¬ LongParent s fs path →
      Parent s fs path (s'.inodes i).ino → Reaches s (unheld fs path) s' e i →
      Hops s' (fs.start path) (names (dirOf path)) e →
      FindsParent s fs path (.ok (.ok (i, nameIn path), s'.refer i 1))

theorem inodeFind2_slash {path : CString} {front back : List UInt8} (hp : strrchr path.bytes = some (front, back)) :
    inodeFind2 path s = match direntFind path.bytes front.length s with
      | .error f => .error f
      | .ok (.error _, s') => .ok (.error (-1), s')
      | .ok (.ok d, s') => referInode d (fun i => (i, cstring back)) s' := by
  cases hr : direntFind path.bytes front.length s with
  | error f =>
    have h2 : direntFind2 path s = .error f := by
      unfold direntFind2
      rw [hp]
      exact bind_fail hr
    exact bind_fail h2
  | ok p =>
    obtain ⟨r, s'⟩ := p
    cases r with
    | error e =>
      have h2 : direntFind2 path s = .ok (.error (-1), s') := by
        unfold direntFind2
        rw [hp]
        exact bind_run hr
      exact bind_run h2
    | ok d =>
      have h2 : direntFind2 path s = .ok (.ok (d, cstring back), s') := by
        unfold direntFind2
        rw [hp]
        exact bind_run hr
      exact bind_run h2

section FindParent

variable (S : Sane s) {fs : TaskFs} (hfs : s.tasks s.curr = some fs) (path : CString)

include S hfs

theorem start_lt : fs.start path < s.nDirents := by
  obtain ⟨hroot, hpwd⟩ := S.tasks _ fs hfs
  unfold TaskFs.start
  split
  · rw [hroot]
    exact S.coherent.pos
  · exact hpwd

/-- The directory of the path is held by `s'`, and its inode is what `inode_find2`
yields. -/
theorem referInode_findsParent {e : Nat} (m : Moves s h s') (he : e < s'.nDirents)
    (hpos : 0 < (s'.dirents e).refCount) (H : Hops s' (fs.start path) (names (dirOf path)) e)
    (hh : h - Pi.single e 1 = unheld fs path) (hdrop : Droppable s fs path) (hlong : ¬ LongParent s fs path) :
    FindsParent s fs path (referInode e (fun i => (i, nameIn path)) s') := by
  have m' := m.drop he hpos
  rw [hh] at m'
  have hnum := hops_resolves S.coherent m (start_lt S hfs path) H
  cases hi : (s'.dirents e).inode with
  | none =>
    rw [referInode_none hpos hi]
    refine .absent hdrop hlong (fun y hy => ?_) m'
    have := (hnum y).mpr hy
    rw [number_eq_none.mpr hi] at this
    cases this
  | some i =>
    rw [referInode_some (m.coherent S.coherent) hpos hi]
    refine .found hdrop hlong ((hnum _).mp ?_) ⟨m', he, ?_⟩ ?_
    · rw [number, hi]
      rfl
    · rw [drop_eq_hold]
      exact hi
    · rw [drop_eq_hold]
      exact H.hold _

theorem inodeFind2_findsParent : FindsParent s fs path (inodeFind2 path s) := by
  have C := S.coherent
  by_cases hdrop : Droppable s fs path
  · cases hp : strrchr path.bytes with
    | none =>
      have hstart : fs.start path = fs.pwd := if_neg (strrchr_none hp)
      have hcomp : components [] (dirOf path) = [] := by simp [dirOf, hp, components]
      have hname : nameIn path = path := by simp [nameIn, hp]
      have hrun : inodeFind2 path s = referInode fs.pwd (fun i => (i, nameIn path)) s := by
        rw [hname]
        exact bind_run (find2_plain hfs hp)
      rw [hrun]
      refine referInode_findsParent S hfs path .refl (S.tasks _ fs hfs).2 (hdrop hp) ?_ ?_ hdrop ?_
      · rw [hstart, names, hcomp]
        exact .nil
      · rw [unheld, if_pos hp, zero_sub]
      · rw [LongParent, hcomp]
        exact not_longReached_nil
    | some p =>
      obtain ⟨front, back⟩ := p
      have hdir : dirOf path = front := by simp [dirOf, hp]
      have hname : nameIn path = cstring back := by simp [nameIn, hp]
      have htake : path.bytes.take front.length = front := by
        rw [strrchr_some hp]
        exact List.take_left
      have A := direntFind_along C S.tasks hfs path.nonzero front.length
      rw [inodeFind2_slash hp]
      rw [htake] at A
      generalize direntFind path.bytes front.length s = out at A ⊢
      rw [← hdir] at A
      cases A with
      | long h => exact .long h
      | @ends r s' h m R hneg =>
        rw [sub_zero] at m
        cases r with
        | error e =>
          refine .absent hdrop h ?_ (by rw [unheld, if_neg (by simp [hp])]; exact m)
          rintro y ⟨x, hx, hres⟩
          exact R x hx y hres
        | ok e =>
          rw [← hname]
          refine referInode_findsParent S hfs path m R.1 R.2.1 R.2.2 ?_ hdrop h
          rw [unheld, if_neg (by simp [hp]), holds, sub_self]
  · rw [inodeFind2_last hfs C hdrop]
    exact .last hdrop

end FindParent

end Parents

end MakarnaX.Vfs
