import MakarnaX.Kernel.Basic
import MakarnaX.Library.CString
import Mathlib.Logic.Function.Basic

/-!
# The file system in memory

`denemefs` keeps a table `di` of 100 inodes.  The data of a regular file is a
block of bytes; the data of a directory is one `Deneme_subdentry`, a struct with
the number of its slots, their inode numbers and their names:

* `n`, at offset 0,
* `no[56]`, from offset 4, four bytes each,
* `name[56][32]`, from offset 228.

The code indexes both arrays with `n` and copies names with `strcpy`, and it
checks neither the index nor the length.  So a directory is modelled as the
memory it is, and a name that is too long goes where it goes in the source.  The
memory of a block has no end here: what lies behind the struct is not another
block's.

`kmalloc` always returns a block, and `kfree` takes any.  Return codes are as in
the source; a function that also fills in an inode returns it in place of 0.
-/

namespace MakarnaX.Denemefs

open Library Function

/-! ## Directories -/

/-- `Deneme_subdentry_count`. -/
def denemeSubdentryCount : Nat := 56

namespace Subdentry

/-- Where `no[i]` is. -/
def noAt (i : Nat) : Nat := 4 + 4 * i

/-- Where `name[i]` is. -/
def nameAt (i : Nat) : Nat := 4 + 4 * denemeSubdentryCount + 32 * i

/-- `n`, the count of the slots, which is never negative. -/
def n (sd : Mem) : Nat := sd.read32 0

/-- `no[i]`. -/
def no (sd : Mem) (i : Nat) : Nat := sd.read32 (noAt i)

/-- The first slot with this name: the loop of `denemefs_lookup` and
`denemefs_remove_entry`. -/
def slot (sd : Mem) (name : CString) : Option Nat :=
  (List.range (n sd)).find? fun i => sd.strEq (nameAt i) name.bytes

/-- The last lines of `denemefs_add_entry`. -/
def add (sd : Mem) (name : CString) (ino : Nat) : Mem :=
  let sd := sd.write32 (noAt (n sd)) ino
  let sd := sd.strcpy (nameAt (n sd)) name.bytes
  sd.write32 0 (n sd + 1)

/-- Slot `i` after `denemefs_remove_entry`. -/
def clear (sd : Mem) (i : Nat) : Mem :=
  let sd := sd.write32 (noAt i) 0
  sd.strcpy (nameAt i) []

end Subdentry

/-! ## The table -/

/-- The type of a file; a cleared inode has none. -/
inductive FileType
  | none
  | regular
  | dir
  | symlink
  | chrdev
  | blkdev
  | fifo
deriving DecidableEq, Repr

structure FileMode where
  read : Bool
  write : Bool
  type : FileType
deriving DecidableEq, Repr

/-- `FileMode::mode()`, the low byte. -/
def FileMode.mode (m : FileMode) : Nat := m.read.toNat + 2 * m.write.toNat

/-- An inode of the table.  `data` is the block it points to, if any. -/
structure DenemeInode where
  mode : FileMode
  nlinks : Nat
  size : Nat
  data : Option Mem

/-- An inode cleared with `memset`. -/
def DenemeInode.zero : DenemeInode := ⟨⟨false, false, .none⟩, 0, 0, none⟩

structure Table where
  di : Nat → DenemeInode

abbrev TableM := StateT Table Exec

/-- The number of inodes in `di`. -/
def diCount : Nat := 100

/-- Which operations an inode has. -/
inductive InodeOperations
  | denemefsDir
  | denemefsFile
deriving DecidableEq, Repr

/-- What `denemefs_lookup` fills in. -/
structure Inode where
  ino : Nat
  op : InodeOperations
  size : Nat
  mode : FileMode
deriving DecidableEq, Repr

/-- Change inode `ino` of the table. -/
def setDi (ino : Nat) (f : DenemeInode → DenemeInode) : TableM Unit :=
  modify fun s => ⟨update s.di ino (f (s.di ino))⟩

/-- The block of inode `ino`. -/
def dataOf (ino : Nat) : TableM Mem := do
  match ((← get).di ino).data with
  | some b => return b
  | none => throw .null

/-- `sizeof(struct Deneme_subdentry)`. -/
def subdentrySize : Nat := Subdentry.nameAt denemeSubdentryCount

/-- A block behind `memset`. -/
def zeroed : Mem := ⟨fun _ => 0⟩

/-! ## Inodes -/

def findEmptyDi : TableM (Option Nat) := do
  let s ← get
  match (List.range diCount).find? fun i => (s.di i).nlinks = 0 with
  | some i =>
    setDi i fun d => { d with nlinks := 1 }
    return some i
  | none => return none

/-- The new inode number, or none for -1. -/
def denemefsNewInode : TableM (Option Nat) := do
  match ← findEmptyDi with
  | none => return none
  | some ino =>
    setDi ino fun d => { d with nlinks := 1 }
    return some ino

def denemefsFreeInode (ino : Nat) : TableM Unit := setDi ino fun _ => .zero

def denemefsPermission (s : Table) (ino flags : Nat) : Bool :=
  (s.di ino).mode.write && (s.di ino).mode.read || flags &&& 3 = 1

/-- The operations `denemefs_lookup` gives an inode of this type. -/
def operations : FileType → Exec InodeOperations
  | .dir => return .denemefsDir
  | .regular => return .denemefsFile
  | _ => PANIC "Unknown file type"

def denemefsLookup (dir : Nat) (name : CString) : TableM (Except Int Inode) := do
  let s ← get
  if (s.di dir).mode.type ≠ .dir then
    return .error (-2)
  let sd ← dataOf dir
  match Subdentry.slot sd name with
  | none => return .error (-1)
  | some i =>
    let inode := s.di (Subdentry.no sd i)
    ASSERT (inode.nlinks > 0) "inode->nlinks > 0"
    let op ← operations inode.mode.type
    return .ok { ino := Subdentry.no sd i, op := op, size := inode.size, mode := inode.mode }

/-! ## Entries -/

def denemefsAddEntry (dir : Nat) (name : CString) (ino : Nat) : TableM Int := do
  match ← denemefsLookup dir name with
  | .ok _ => return -1
  | .error _ =>
    let sd ← dataOf dir
    setDi dir fun d => { d with data := some (Subdentry.add sd name ino) }
    return 0

def denemefsRemoveEntry (dir : Nat) (name : CString) : TableM Int := do
  let sd ← dataOf dir
  match Subdentry.slot sd name with
  | none => return -1
  | some i =>
    setDi dir fun d => { d with data := some (Subdentry.clear sd i) }
    return 0

/-- The common part of `denemefs_create` and `denemefs_mkdir`: reserve an inode,
enter it and set it up. -/
def denemefsEnter (dir : Nat) (name : CString) (mode size : Nat) (type : FileType) : TableM Int := do
  match ← denemefsNewInode with
  | none => return -1
  | some ino =>
    let r ← denemefsAddEntry dir name ino
    if r < 0 then
      denemefsFreeInode ino
      return -1
    setDi ino fun d => { d with mode := ⟨mode.testBit 0, mode.testBit 1, type⟩, size := size, data := some zeroed }
    return 0

def denemefsCreate (dir : Nat) (name : CString) (mode : Nat) : TableM (Except Int Inode) := do
  let r ← denemefsEnter dir name mode 1000 .regular
  if r < 0 then
    return .error r
  match ← denemefsLookup dir name with
  | .ok i => return .ok i
  | .error _ => throw (.assert "r == 0")

def denemefsMkdir (dir : Nat) (name : CString) (mode : Nat) : TableM Int :=
  denemefsEnter dir name mode subdentrySize .dir

/-- The end of `denemefs_unlink` and `denemefs_rmdir`. -/
def denemefsDrop (dir : Nat) (name : CString) (ino : Nat) : TableM Int := do
  let r ← denemefsRemoveEntry dir name
  ASSERT (r = 0) "r == 0"
  denemefsFreeInode ino
  return 0

def denemefsUnlink (dir : Nat) (name : CString) : TableM Int := do
  match ← denemefsLookup dir name with
  | .error _ => return -1
  | .ok inode =>
    if inode.mode.type ≠ .regular then
      return -1
    denemefsDrop dir name inode.ino

def denemefsRmdir (dir : Nat) (name : CString) : TableM Int := do
  match ← denemefsLookup dir name with
  | .error _ => return -1
  | .ok inode =>
    if inode.mode.type ≠ .dir then
      return -2
    let sd ← dataOf inode.ino
    if Subdentry.n sd ≠ 0 then
      return -3
    denemefsDrop dir name inode.ino

/-! ## Contents -/

/-- The loop of `denemefs_read`: `size` more bytes, from index `i`. -/
def readLoop (data : Mem) (fpos isize : Nat) : Nat → Nat → List UInt8
  | _, 0 => []
  | i, size + 1 =>
    if add32 i fpos < isize then data (fpos + i) :: readLoop data fpos isize (i + 1) size
    else []

/-- The loop of `denemefs_write`; the count of the bytes and the block. -/
def writeLoop (fpos isize : Nat) : Mem → Nat → List UInt8 → Nat × Mem
  | data, i, [] => (i, data)
  | data, i, v :: buf =>
    if add32 i fpos < isize then writeLoop fpos isize (data.write8 (fpos + i) v) (i + 1) buf
    else (i, data)

/-- The bytes read, or none for -1. -/
def denemefsRead (ino fpos size : Nat) : TableM (Option (List UInt8)) := do
  let i := (← get).di ino
  if i.mode.type ≠ .regular then
    return none
  let data ← dataOf ino
  return some (readLoop data fpos i.size 0 size)

/-- The count of the bytes written, or none for -1. -/
def denemefsWrite (ino fpos : Nat) (buf : List UInt8) : TableM (Option Nat) := do
  let i := (← get).di ino
  if i.mode.type ≠ .regular then
    return none
  let data ← dataOf ino
  let (count, data) := writeLoop fpos i.size data 0 buf
  setDi ino fun d => { d with data := some data }
  return some count

/-! ## Initialisation -/

/-- A file of the initial RAM disk: what follows the last `/` of its name, and
its type, size and contents. -/
structure TarFile where
  name : CString
  typeflag : UInt8
  size : Nat
  data : Mem

/-- The loop of `mount_initrd`. -/
def mountInitrd (root : Nat) : List TarFile → TableM Unit
  | [] => return
  | header :: rest => do
    -- the character '0', a regular file
    if header.typeflag = 48 then
      match ← denemefsCreate root header.name 1 with
      | .ok inode => setDi inode.ino fun d => { d with data := some header.data, size := header.size }
      | .error _ => throw (.assert "r == 0")
    mountInitrd root rest

/-- `denemefs_mkdir` with the assertion on its result. -/
def mkdirAsserted (dir : Nat) (name : String) (mode : Nat) : TableM Unit := do
  let r ← denemefsMkdir dir (.ofString name) mode
  ASSERT (r = 0) "r == 0"

/-- `denemefs_lookup` with the assertion on its result. -/
def lookupAsserted (dir : Nat) (name : String) : TableM Nat := do
  match ← denemefsLookup dir (.ofString name) with
  | .ok inode => return inode.ino
  | .error _ => throw (.assert "r == 0")

/-- A file of the root directory with its first contents. -/
def createAsserted (dir : Nat) (name : String) (mode : Nat) (text : String) : TableM Unit := do
  match ← denemefsCreate dir (.ofString name) mode with
  | .ok inode =>
    let data ← dataOf inode.ino
    setDi inode.ino fun d => { d with data := some (data.strcpy 0 (CString.ofString text).bytes) }
  | .error _ => throw (.assert "r == 0")

/-- The table with the root directory only.  Its block is not cleared but for
the count. -/
def rootTable (block : Mem) : Table where
  di := update (fun _ => .zero) 0
    { mode := ⟨true, false, .dir⟩, nlinks := 1, size := subdentrySize, data := some (block.write32 0 0) }

/-- `denemefs_init`, with the block `kmalloc` returns for the root directory and
the files of the initial RAM disk, if there is one. -/
def denemefsInit (block : Mem) (initrd : Option (List TarFile)) : TableM Unit := do
  set (rootTable block)
  mkdirAsserted 0 "home" 3
  let _ ← lookupAsserted 0 "home"
  createAsserted 0 "dosya1" 1 "d1 icerik"
  createAsserted 0 "dosya2" 3 "data2"
  mkdirAsserted 0 "dir1" 3
  let dir1 ← lookupAsserted 0 "dir1"
  mkdirAsserted dir1 "dir11" 3
  match initrd with
  | none => return
  | some files =>
    mkdirAsserted 0 "initrd" 1
    let dir ← lookupAsserted 0 "initrd"
    mountInitrd dir files

end MakarnaX.Denemefs
