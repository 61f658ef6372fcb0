import MakarnaX.Fs.Denemefs.Model

/-!
# The virtual file system

`dirent.cpp`, `inode.cpp`, `file.cpp`, `task_fs.cpp` and the system calls of
`sys_fs.cpp` and `exec.cpp` that use them.

The structures the kernel allocates are named by numbers, in the order of their
allocation, and `kmalloc` always returns.  An `inode` in memory is one thing and
an inode of the table on disk another: the first holds the number of the second,
and what `denemefs_lookup` has found out about it.  A dirent is a node of the
cache; `childs` are the entries of a directory that have been looked up.

Each call runs alone.  So a lock that is taken is taken by the caller itself, who
would wait for himself for ever; the model ends such a run with `loop`.  A spin
lock does not exclude anyone: `spinlock_acquire` waits while the lock was free,
which it is for one turn at most.

`parse_path_i` copies a component of a path into an array of 256 bytes without
looking at its length.  A run in which one does not fit ends with `overflow`.
-/

namespace MakarnaX.Vfs

open Library Denemefs Function

/-! ## The structures -/

/-- `struct inode`.  `val` is `lock.val`. -/
structure Inode where
  ino : Nat
  refCount : Int
  op : Option InodeOperations
  mode : FileMode
  size : Nat
  val : Int

structure Dirent where
  locked : Bool
  refCount : Int
  inode : Option Nat
  name : CString
  parent : Option Nat
  childs : List Nat

/-- `struct file`.  `fpos` is taken as the `unsigned int` it is used as, and `fo`
is that of the inode. -/
structure File where
  inode : Nat
  fpos : Nat
  flags : Nat

/-- `TASK_MAX_FILE_NR`. -/
def taskMaxFileNr : Nat := 32

/-- `struct Task_FS`. -/
structure TaskFs where
  pwd : Nat
  root : Nat
  files : Nat → Option Nat

/-- The file system, the tasks and what was allocated.  `nCli` is the one of
`task_curr`. -/
@[ext] structure State where
  disk : Table
  dirents : Nat → Dirent
  nDirents : Nat
  inodes : Nat → Inode
  nInodes : Nat
  files : Nat → File
  nFiles : Nat
  tasks : Nat → Option TaskFs
  nTasks : Nat
  curr : Nat
  nCli : Nat

abbrev VfsM := StateT State Exec

def setDirent (d : Nat) (f : Dirent → Dirent) : VfsM Unit :=
  modify fun s => { s with dirents := update s.dirents d (f (s.dirents d)) }

def setInode (i : Nat) (f : Inode → Inode) : VfsM Unit :=
  modify fun s => { s with inodes := update s.inodes i (f (s.inodes i)) }

/-- `task_curr->fs`. -/
def currFs : VfsM TaskFs := do
  let s ← get
  match s.tasks s.curr with
  | some fs => return fs
  | none => throw .null

def setTask (t : Nat) (f : TaskFs → TaskFs) : VfsM Unit :=
  modify fun s => { s with tasks := update s.tasks t ((s.tasks t).map f) }

def setCurrFs (f : TaskFs → TaskFs) : VfsM Unit := do setTask (← get).curr f

/-- A call of the file system on disk. -/
def onDisk {α : Type} (x : TableM α) : VfsM α := fun s =>
  match x s.disk with
  | .ok (a, t) => .ok (a, { s with disk := t })
  | .error e => .error e

/-! ## Interrupts and locks -/

def pushcli : VfsM Unit := modify fun s => { s with nCli := s.nCli + 1 }

def popcli : VfsM Unit := do
  if (← get).nCli = 0 then
    throw (.panic "popif sayisi, pushdan fazla")
  modify fun s => { s with nCli := s.nCli - 1 }

def spinlockAcquire (d : Nat) : VfsM Unit := do
  pushcli
  setDirent d fun x => { x with locked := true }

def spinlockRelease (d : Nat) : VfsM Unit := do
  setDirent d fun x => { x with locked := false }
  popcli

def inodeLock (i : Nat) : VfsM Unit := do
  pushcli
  if ((← get).inodes i).val > 0 then
    setInode i fun x => { x with val := x.val - 1 }
  else
    -- the caller sleeps until it unlocks the inode itself
    throw .loop
  ASSERT (((← get).inodes i).val = 0) "inode->lock.val == 0"
  popcli

def inodeUnlock (i : Nat) : VfsM Unit := do
  pushcli
  ASSERT (((← get).inodes i).val = 0) "inode->lock.val == 0"
  setInode i fun x => { x with val := x.val + 1 }
  popcli

/-! ## Inodes -/

def inodeAlloc : VfsM Nat := do
  let i := (← get).nInodes
  modify fun s => { s with nInodes := s.nInodes + 1 }
  setInode i fun _ =>
    { ino := 0, refCount := 1, op := none, mode := ⟨false, false, .none⟩, size := 0, val := 1 }
  return i

def inodeDup : Option Nat → VfsM (Option Nat)
  | none => return none
  | some i => do
    inodeLock i
    setInode i fun x => { x with refCount := x.refCount + 1 }
    inodeUnlock i
    return some i

/-- `__inode_free`.  It is called with a negative count only. -/
def doInodeFree (i : Nat) : VfsM Unit := do
  ASSERT (((← get).inodes i).refCount = 0) "inode->ref_count == 0"

def inodeFree (i : Nat) : VfsM Unit := do
  inodeLock i
  setInode i fun x => { x with refCount := x.refCount - 1 }
  if ((← get).inodes i).refCount < 0 then
    doInodeFree i
  else
    inodeUnlock i

def inodePermission (i flags : Nat) : VfsM Bool := do
  let s ← get
  match (s.inodes i).op with
  | none => throw .null
  | some _ =>
    return denemefsPermission s.disk (s.inodes i).ino flags || (s.inodes i).mode.mode &&& flags == flags

/-- `inode->op->lookup`; both kinds of inodes have `denemefs_lookup`. -/
def opLookup (i : Nat) (name : CString) : VfsM (Except Int Denemefs.Inode) := do
  let s ← get
  match (s.inodes i).op with
  | none => throw .null
  | some _ => onDisk (denemefsLookup (s.inodes i).ino name)

/-- A call that only the operations of a directory have. -/
def opDir {α : Type} (i : Nat) (f : Nat → TableM α) : VfsM α := do
  let s ← get
  match (s.inodes i).op with
  | some .denemefsDir => onDisk (f (s.inodes i).ino)
  | _ => throw .null

/-! ## Dirents -/

def direntAlloc : VfsM Nat := do
  let d := (← get).nDirents
  modify fun s => { s with nDirents := s.nDirents + 1 }
  setDirent d fun _ =>
    { locked := false, refCount := 1, inode := none, name := .empty, parent := none, childs := [] }
  return d

def direntDup (d : Nat) : VfsM Unit := do
  spinlockAcquire d
  setDirent d fun x => { x with refCount := x.refCount + 1 }
  spinlockRelease d

/-- `__dirent_free`.  It is called with a negative count only, so that the first
assertion fails and nothing is freed. -/
def doDirentFree (d : Nat) : VfsM Unit := do
  ASSERT (((← get).dirents d).refCount = 0) "dirent->ref_count == 0"
  ASSERT (((← get).dirents d).parent ≠ none) "dirent->parent"

def direntFree (d : Nat) : VfsM Unit := do
  pushcli
  setDirent d fun x => { x with refCount := x.refCount - 1 }
  if ((← get).dirents d).refCount < 0 then
    doDirentFree d
  popcli

/-- `dirent_delete`, with a bound on the depth of the tree. -/
def direntDelete : Nat → Nat → VfsM Unit
  | 0, _ => throw .loop
  | depth + 1, dir => do
    match ((← get).dirents dir).parent with
    | none => throw .null
    | some p => ASSERT ((← get).dirents p).locked "dir->parent->lock.locked"
    spinlockAcquire dir
    ((← get).dirents dir).childs.forM fun d => do
      setDirent dir fun x => { x with childs := x.childs.tail }
      direntDelete depth d
    setDirent dir fun x => { x with inode := none, parent := none }
    spinlockRelease dir
    direntFree dir

def direntCacheAdd (parent : Nat) (name : CString) (child : Nat) : VfsM Nat := do
  match ((← get).dirents parent).inode with
  | none => throw .null
  | some i => ASSERT (((← get).inodes i).val = 0) "d_parent->inode->lock.val == 0"
  let d ← direntAlloc
  setDirent d fun x => { x with name := name, inode := some child }
  setDirent parent fun x => { x with childs := x.childs ++ [d] }
  setDirent d fun x => { x with parent := some parent }
  return d

def dot : CString := .ofString "."

def dotdot : CString := .ofString ".."

/-- The first child with this name. -/
def cached (s : State) (dir : Nat) (name : CString) : Option Nat :=
  (s.dirents dir).childs.find? fun c => (s.dirents c).name = name

/-- The end of `dirent_lookup`: give the inode back, or make a dirent for it. -/
def lookupEnd (dir i : Nat) (name : CString) (inode : Nat) : Except Int Denemefs.Inode → VfsM (Except Int Nat)
  | .error e => do
    inodeFree inode
    inodeUnlock i
    spinlockRelease dir
    return .error e
  | .ok x => do
    setInode inode fun y => { y with ino := x.ino, op := some x.op, size := x.size, mode := x.mode }
    let d ← direntCacheAdd dir name inode
    direntDup d
    inodeUnlock i
    spinlockRelease dir
    return .ok d

/-- The part of `dirent_lookup` behind the search of the cache: look on disk. -/
def lookupOnDisk (dir i : Nat) (name : CString) : VfsM (Except Int Nat) := do
  spinlockAcquire dir
  inodeLock i
  popcli
  let inode ← inodeAlloc
  let r ← opLookup i name
  lookupEnd dir i name inode r

def direntLookup (dir : Nat) (name : CString) : VfsM (Except Int Nat) := do
  match ((← get).dirents dir).inode with
  | none => return .error (-1)
  | some i =>
    pushcli
    if name = dot then
      direntDup dir
      popcli
      return .ok dir
    if name = dotdot then
      if dir = (← currFs).root then
        direntDup dir
        popcli
        return .ok dir
      match ((← get).dirents dir).parent with
      | none => throw .null
      | some p =>
        direntDup p
        popcli
        return .ok p
    match cached (← get) dir name with
    | some d =>
      direntDup d
      popcli
      return .ok d
    | none => lookupOnDisk dir i name

/-! ## Paths -/

/-- The character `/`. -/
def slash : UInt8 := 47

/-- `parse_path_i`: the component at the start of `path`, and what follows if it
does not end the path.  `buf` is what has been copied. -/
def parsePathI : List UInt8 → List UInt8 → List UInt8 × Option (List UInt8)
  | buf, [] => (buf, none)
  | buf, c :: path =>
    if c = slash then
      if buf ≠ [] then (buf, some path) else parsePathI buf path
    else parsePathI (buf ++ [c]) path

/-- The string at the start of these bytes. -/
def cstring (bytes : List UInt8) : CString :=
  ⟨bytes.takeWhile (· ≠ 0), fun h => by simpa using List.all_eq_true.mp List.all_takeWhile 0 h⟩

/-- `MAX_DIRENTRY_NAME_SIZE`. -/
def maxDirentryNameSize : Nat := 256

/-- The loop of `dirent_find`, with a bound on its turns. -/
def direntFindLoop : Nat → Nat → List UInt8 → VfsM (Except Int Nat)
  | 0, _, _ => throw .loop
  | turns + 1, curr, path => do
    let (buf, rest) := parsePathI [] path
    if buf.length ≥ maxDirentryNameSize then
      throw .overflow
    let next ← if buf = [] then pure (.ok curr) else do
      let r ← direntLookup curr (cstring buf)
      direntFree curr
      pure r
    match next, rest with
    | .error e, _ => return .error e
    | .ok next, none => return .ok next
    | .ok next, some path => direntFindLoop turns next path

/-- `dirent_find(path, len, d)`. -/
def direntFind (path : List UInt8) (len : Nat) : VfsM (Except Int Nat) := do
  let fs ← currFs
  let start := if path.head? = some slash then fs.root else fs.pwd
  direntDup start
  direntFindLoop (path.length + 1) start (path.take len)

/-- What is in front of the last `/` and what is behind it. -/
def strrchr : List UInt8 → Option (List UInt8 × List UInt8)
  | [] => none
  | c :: path =>
    match strrchr path with
    | some (front, back) => some (c :: front, back)
    | none => if c = slash then some ([], path) else none

/-- The directory of the last component, and that component.  The directory is
held if there is a `/` in the path, and is not if there is none. -/
def direntFind2 (path : CString) : VfsM (Except Int (Nat × CString)) := do
  match strrchr path.bytes with
  | none => return .ok ((← currFs).pwd, path)
  | some (front, back) =>
    match ← direntFind path.bytes front.length with
    | .error _ => return .error (-1)
    | .ok d => return .ok (d, cstring back)

def inodeFind (path : CString) : VfsM (Except Int Nat) := do
  match ← direntFind path.bytes path.length with
  | .error r => return .error r
  | .ok d =>
    let i ← inodeDup ((← get).dirents d).inode
    direntFree d
    match i with
    | none => return .error (-1)
    | some i => return .ok i

def inodeFind2 (path : CString) : VfsM (Except Int (Nat × CString)) := do
  match ← direntFind2 path with
  | .error r => return .error r
  | .ok (d, name) =>
    let i ← inodeDup ((← get).dirents d).inode
    direntFree d
    match i with
    | none => return .error (-1)
    | some i => return .ok (i, name)

def direntCacheRemove (path : CString) : VfsM Unit := do
  match ← direntFind2 path with
  | .error _ => return
  | .ok (dir, name) =>
    spinlockAcquire dir
    match cached (← get) dir name with
    | none => pure ()
    | some d =>
      setDirent dir fun x => { x with childs := x.childs.erase d }
      direntDelete ((← get).nDirents + 1) d
    spinlockRelease dir
    direntFree dir

/-- The first loop of `dirent_topath`: the dirents it puts on `dir_stack`, which
has room for `room` more. -/
def dirStack : Nat → Nat → VfsM (List Nat)
  | 0, d => do
    match ((← get).dirents d).parent with
    | none => return []
    | some _ => throw .overflow
  | room + 1, d => do
    match ((← get).dirents d).parent with
    | none => return []
    | some p => return d :: (← dirStack room p)

/-- What `dirent_topath` writes: the bytes of the buffer, `j`, and the ranges of
the indices it has stored to, as where they start and how long they are. -/
structure PathBuffer where
  buf : Nat → UInt8
  j : Nat
  stores : List (Nat × Nat)

/-- `strncpy(&buf[j], name, n)`, which fills up with zeros. -/
def PathBuffer.strncpy (b : PathBuffer) (name : CString) (n : Nat) : PathBuffer :=
  { b with
    buf := fun x => if b.j ≤ x ∧ x < b.j + n then name.bytes.getD (x - b.j) 0 else b.buf x
    stores := b.stores ++ [(b.j, n)] }

/-- `j += len` and then `buf[j-1] = c`. -/
def PathBuffer.put (b : PathBuffer) (len : Nat) (c : UInt8) : PathBuffer :=
  { buf := update b.buf (b.j + len - 1) c
    j := b.j + len
    stores := b.stores ++ [(b.j + len - 1, 1)] }

/-- The second loop of `dirent_topath`, over the names from the root down. -/
def topathLoop : List CString → Nat → PathBuffer → PathBuffer
  | [], _, b => b
  | name :: names, size, b =>
    if 0 < size then
      topathLoop names (sub32 size (name.length + 1))
        ((b.strncpy name (sub32 size 1)).put (name.length + 1) (if names ≠ [] then slash else 0))
    else b

def direntTopath (dirent : Nat) (buf : Nat → UInt8) (size : Nat) : VfsM PathBuffer := do
  pushcli
  let stack ← dirStack 100 dirent
  let s ← get
  -- `strcpy(buf, "/")`
  let buf := update (update buf 0 slash) 1 0
  let b := topathLoop (stack.reverse.map fun d => (s.dirents d).name) size ⟨buf, 1, [(0, 2)]⟩
  popcli
  return b

/-! ## Files -/

/-- `file_open`; the number of the new file. -/
def fileOpen (path : CString) (flags : Nat) : VfsM (Except Int Nat) := do
  let flags := if flags = 0 then 1 else flags
  match ← inodeFind path with
  | .error r => return .error r
  | .ok i =>
    if !(← inodePermission i flags) then
      return .error (-1)
    let f := (← get).nFiles
    modify fun s => { s with nFiles := s.nFiles + 1 }
    discard (inodeDup (some i))
    modify fun s => { s with files := update s.files f ⟨i, 0, flags⟩ }
    return .ok f

def fileClose (f : Nat) : VfsM Unit := do
  let i := ((← get).files f).inode
  ASSERT (((← get).inodes i).refCount > 0) "f->inode->ref_count > 0"
  inodeFree i

/-- The operations of an open file: `fo`, which is NULL for nothing but what has
no operations, and whose `read` and `write` are NULL for a directory. -/
def fileOperations (f : Nat) : VfsM Unit := do
  let s ← get
  match (s.inodes (s.files f).inode).op with
  | some .denemefsFile => return
  | _ => throw .null

/-- `file_read`; the bytes read, or none for -1. -/
def fileRead (f size : Nat) : VfsM (Option (List UInt8)) := do
  let file := (← get).files f
  if file.flags &&& 1 ≠ 1 then
    return none
  fileOperations f
  match ← onDisk (denemefsRead ((← get).inodes file.inode).ino file.fpos size) with
  | none => return none
  | some bytes =>
    modify fun s => { s with files := update s.files f { file with fpos := add32 file.fpos bytes.length } }
    return some bytes

/-- `file_write`; the count of the bytes written, or none for -1. -/
def fileWrite (f : Nat) (buf : List UInt8) : VfsM (Option Nat) := do
  let file := (← get).files f
  if file.flags &&& 2 ≠ 2 then
    return none
  fileOperations f
  match ← onDisk (denemefsWrite ((← get).inodes file.inode).ino file.fpos buf) with
  | none => return none
  | some count =>
    modify fun s => { s with files := update s.files f { file with fpos := add32 file.fpos count } }
    return some count

def fileDup (f : Nat) : VfsM Nat := do
  let file := (← get).files f
  let new := (← get).nFiles
  modify fun s => { s with nFiles := s.nFiles + 1, files := update s.files new file }
  setInode file.inode fun x => { x with refCount := x.refCount + 1 }
  return new

/-- `unlink(path, file_type)`. -/
def unlink (path : CString) (type : FileType) : VfsM Int := do
  match ← inodeFind2 path with
  | .error _ => return -1
  | .ok (dir, name) =>
    inodeLock dir
    if !(← inodePermission dir 3) then
      inodeUnlock dir
      return -1
    let r ← if type = .dir then opDir dir (denemefsRmdir · name) else opDir dir (denemefsUnlink · name)
    if r < 0 then
      inodeUnlock dir
      return r
    direntCacheRemove path
    inodeUnlock dir
    return 0

/-- `create(path, fmode, dev)`. -/
def create (path : CString) (fmode : FileMode) : VfsM Int := do
  match ← inodeFind2 path with
  | .error _ => return -1
  | .ok (dir, name) =>
    if !(← inodePermission dir 3) then
      return -2
    match fmode.type with
    | .regular =>
      match ← opDir dir (denemefsCreate · name fmode.mode) with
      | .ok _ => return 0
      | .error _ => return -3
    | .dir => return if (← opDir dir (denemefsMkdir · name fmode.mode)) < 0 then -3 else 0
    | _ => return -4

/-! ## System calls -/

/-- `task_curr->fs.files[fd]`, for an index inside the array. -/
def currFile (fd : Nat) : VfsM (Option Nat) := do
  if fd < taskMaxFileNr then
    return (← currFs).files fd
  throw .overflow

/-- The same where the source does not look if there is a file. -/
def openFile (fd : Nat) : VfsM Nat := do
  match ← currFile fd with
  | some f => return f
  | none => throw .null

/-- The mode `sys_creat` and `sys_mkdir` hand on. -/
def modeOf (mode : Nat) (type : FileType) : FileMode := ⟨mode.testBit 0, mode.testBit 1, type⟩

def sysOpen (path : CString) (flags : Nat) : VfsM Int := do
  pushcli
  match ← fileOpen path flags with
  | .error r =>
    popcli
    return r
  | .ok f =>
    let fs ← currFs
    match (List.range' 3 (taskMaxFileNr - 3)).find? fun fd => fs.files fd = none with
    | some fd =>
      setCurrFs fun fs => { fs with files := update fs.files fd (some f) }
      setInode ((← get).files f).inode fun x => { x with refCount := x.refCount + 1 }
      popcli
      return fd
    | none =>
      popcli
      return -1

def sysClose (fd : Nat) : VfsM Int := do
  pushcli
  match ← currFile fd with
  | none =>
    popcli
    return -1
  | some f =>
    fileClose f
    setCurrFs fun fs => { fs with files := update fs.files fd none }
    popcli
    return 0

def sysRead (fd size : Nat) : VfsM (Option (List UInt8)) := do
  fileRead (← openFile fd) size

def sysWrite (fd : Nat) (buf : List UInt8) : VfsM (Option Nat) := do
  fileWrite (← openFile fd) buf

def fileLseek (fd offset whence : Nat) : VfsM Int := do
  ASSERT (fd < taskMaxFileNr) "fd < TASK_MAX_FILE_NR"
  let f ← openFile fd
  let file := (← get).files f
  let size := ((← get).inodes file.inode).size
  let move (fpos : Nat) : VfsM Int := do
    modify fun s => { s with files := update s.files f { file with fpos := fpos } }
    return 0
  match whence with
  | 0 => move (offset % 2 ^ 32)
  | 1 => move (add32 file.fpos offset)
  | 2 => move (sub32 size offset)
  | _ => return -1

def sysCreat (path : CString) (mode : Nat) : VfsM Int := create path (modeOf mode .regular)

def sysMkdir (path : CString) (mode : Nat) : VfsM Int := create path (modeOf mode .dir)

def sysUnlink (path : CString) : VfsM Int := unlink path .regular

def sysRmdir (path : CString) : VfsM Int := unlink path .dir

/-- `sys_stat`; the number and the size. -/
def sysStat (path : CString) : VfsM (Option (Nat × Nat)) := do
  match ← inodeFind path with
  | .error _ => return none
  | .ok i => return some (((← get).inodes i).ino, ((← get).inodes i).size)

def sysChdir (path : CString) : VfsM Int := do
  match ← direntFind path.bytes path.length with
  | .error r => return r
  | .ok d =>
    setCurrFs fun fs => { fs with pwd := d }
    return 0

def sysGetcwd (buf : Nat → UInt8) (size : Nat) : VfsM PathBuffer := do
  direntTopath (← currFs).pwd buf size

/-- The loop of `fs_fork`: copies of the open files for task `c`. -/
def forkFiles (fs : TaskFs) (c : Nat) : List Nat → VfsM Unit
  | [] => return
  | i :: fds => do
    match fs.files i with
    | none => pure ()
    | some f =>
      let new ← fileDup f
      setTask c fun fs => { fs with files := update fs.files i (some new) }
    forkFiles fs c fds

/-- `fs_fork`: the number of the new task. -/
def fsFork : VfsM Nat := do
  let fs ← currFs
  direntDup fs.root
  direntDup fs.pwd
  let c := (← get).nTasks
  modify fun s => { s with
    nTasks := s.nTasks + 1, tasks := update s.tasks c (some ⟨fs.pwd, fs.root, fun _ => none⟩) }
  forkFiles fs c (List.range taskMaxFileNr)
  return c

/-- The loop of `task_curr_free_files`. -/
def freeFiles : List Nat → VfsM Unit
  | [] => return
  | i :: fds => do
    match (← currFs).files i with
    | none => pure ()
    | some f =>
      fileClose f
      setCurrFs fun fs => { fs with files := update fs.files i none }
    freeFiles fds

def taskCurrFreeFiles : VfsM Unit := freeFiles (List.range taskMaxFileNr)

/-- The part of `task_free` that is about files.  The task is gone then; its
directories are not given back. -/
def taskFree : VfsM Unit := do
  taskCurrFreeFiles
  modify fun s => { s with tasks := update s.tasks s.curr none }

/-- `sizeof(Elf32_Ehdr)`. -/
def elfHeaderSize : Nat := 52

/-- The part of `do_execve` that is about files; `loaded` says whether the memory
sufficed and the program was loaded. -/
def doExecve (path : CString) (loaded : Bool) : VfsM Int := do
  match ← fileOpen path 1 with
  | .error r => return r
  | .ok f =>
    match ← fileRead f elfHeaderSize with
    | none => return -1
    | some _ =>
      taskCurrFreeFiles
      if !loaded then
        return -1
      fileClose f
      return 0

/-- The state `init_fs` and `fs_task_init` leave for the first task: one dirent,
the root, which the task has twice. -/
def start (disk : Table) : State where
  disk := disk
  dirents _ := ⟨false, 3, some 0, .empty, none, []⟩
  nDirents := 1
  inodes _ := ⟨0, 1, some .denemefsDir, ⟨false, false, .none⟩, (disk.di 0).size, 1⟩
  nInodes := 1
  files _ := ⟨0, 0, 0⟩
  nFiles := 0
  tasks := update (fun _ => none) 0 (some ⟨0, 0, fun _ => none⟩)
  nTasks := 1
  curr := 0
  nCli := 0

end MakarnaX.Vfs
