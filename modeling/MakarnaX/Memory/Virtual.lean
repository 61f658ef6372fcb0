import MakarnaX.DataStructures.Bitmap
import MakarnaX.Memory.Physical

/-!
# Virtual memory

The model of `kernel/memory/virtual.h` and `virtual.cpp`.  The `PageDirInfo`s of
the kernel are numbered, `kernel_dir` is number 0.  A page table is named by the
kernel address at which `pgtables` points to it, 0 is `NULL`; two directories
that point to the same table share it, as `link_pgtables` makes them do.  A
`PTE_t *` is a table and an index.

Page tables are frames that `tmp_page_alloc_map` maps at one of the 1024
addresses from `MMAP_KERNEL_TMP_PAGE_BASE` on, so that `page_insert` calls itself
on `kernel_dir` when a table is missing.  The table of those addresses is made
at boot; the model follows that recursion to a fixed depth.

`bytes` are the contents of the frames.  Those of frames that hold page tables
are in `tables`.  The translation buffer of the processor is not modelled.
-/

namespace MakarnaX

open Function

/-! ## Page table entries -/

/-- The permission bits, an `int`. -/
abbrev Perm := BitVec 32

def PTE_P : Perm := 0x001
def PTE_W : Perm := 0x002
def PTE_U : Perm := 0x004

/-- `struct PTE_t`: `phys_pgno` and the 12 bits below it.  `PDE_t` has the same layout. -/
structure PTE where
  physPgno : Nat
  flags : BitVec 12
deriving DecidableEq

namespace PTE

/-- `PTE_t(physAddr, perm)`. -/
def ofAddr (physAddr : Nat) (perm : Perm) : PTE := ⟨physAddr / 0x1000 % 2 ^ 20, perm.setWidth 12⟩

def present (e : PTE) : Bool := e.flags.getLsbD 0

/-- `perm()`. -/
def perm (e : PTE) : Perm := e.flags.setWidth 32

def physAddr (e : PTE) : Nat := e.physPgno * 0x1000

/-- `present = 0`. -/
def setAbsent (e : PTE) : PTE := { e with flags := e.flags &&& ~~~1 }

end PTE

/-- `VA_t::pdx`. -/
def pdx (va : Nat) : Nat := va / 2 ^ 22 % 1024

/-- `VA_t::ptx`. -/
def ptx (va : Nat) : Nat := va / 2 ^ 12 % 1024

/-- `VA_t::addr()`. -/
def vaAddr (va : Nat) : Nat := (pdx va * 1024 + ptx va) * 0x1000

/-! ## The state -/

/-- `struct PageDirInfo`, with the arrays `pgdir->e` and `pgtables`. -/
structure PageDirInfo where
  pgdirPa : Nat
  pgdir : Nat → PTE
  pgtables : Nat → Nat
  countUser : Nat
  countKernel : Nat
  countStack : Nat
  countProgram : Nat
  countShared : Nat
  startBrk : Nat
  endBrk : Nat

/-- What `memset(&pgdir, 0, sizeof(pgdir))` leaves, with zeroed arrays. -/
def PageDirInfo.zero : PageDirInfo where
  pgdirPa := 0
  pgdir := fun _ => ⟨0, 0⟩
  pgtables := fun _ => 0
  countUser := 0
  countKernel := 0
  countStack := 0
  countProgram := 0
  countShared := 0
  startBrk := 0
  endBrk := 0

structure Vm where
  phys : Phys
  /-- The page directories; those in use have numbers below `dirsNr`. -/
  dirs : Nat → PageDirInfo
  dirsNr : Nat
  tables : Nat → Nat → PTE
  tmpPages : Bitmap
  bytes : Nat → Nat → UInt8
  cr3 : Nat

/-- A function of the kernel that works on the address spaces. -/
abbrev VmM := StateT Vm Exec

/-- A function on frames as one on address spaces. -/
def onPhys {α : Type} (x : PhysM α) : VmM α := fun s => do
  let (a, p) ← x s.phys
  return (a, { s with phys := p })

namespace Vm

def pushcli : VmM Unit := onPhys Phys.pushcli

def popif : VmM Unit := onPhys Phys.popif

def assertIntDisable : VmM Unit := onPhys Phys.assertIntDisable

/-- One directory, without pages. -/
def empty : Vm where
  phys := detectMemory ⟨false, 0, false⟩
  dirs := fun _ => .zero
  dirsNr := 1
  tables := fun _ _ => ⟨0, 0⟩
  tmpPages := fun _ => 0
  bytes := fun _ _ => 0
  cr3 := 0

/-- The entry a `PTE_t *` points to. -/
def pte (s : Vm) (e : Nat × Nat) : PTE := s.tables e.1 e.2

def setPte (s : Vm) (e : Nat × Nat) (v : PTE) : Vm :=
  { s with tables := update s.tables e.1 (update (s.tables e.1) e.2 v) }

def setDir (s : Vm) (d : Nat) (f : PageDirInfo → PageDirInfo) : Vm :=
  { s with dirs := update s.dirs d (f (s.dirs d)) }

end Vm

open Vm (pushcli popif assertIntDisable)

/-! ## Pages of a directory -/

/-- `page_get`. -/
def pageGet (s : Vm) (d va : Nat) : Option (Nat × Nat) :=
  if (s.dirs d).pgtables (pdx va) = 0 then none
  else some ((s.dirs d).pgtables (pdx va), ptx va)

/-- The number a mapping at `va` is counted in, changed by `f`. -/
def count (d va : Nat) (f : Nat → Nat) : VmM Unit :=
  if MMAP_USER_BASE ≤ vaAddr va ∧ vaAddr va < MMAP_USER_TOP then
    modify fun s => s.setDir d fun pd => { pd with countUser := f pd.countUser }
  else if MMAP_KERNEL_BASE ≤ vaAddr va ∧ vaAddr va < MMAP_KERNEL_TOP then
    modify fun s => s.setDir d fun pd => { pd with countKernel := f pd.countKernel }
  else PANIC "page_insert: bilinmeyen adres alani"

/-- `page_remove`. -/
def pageRemove (d va : Nat) : VmM Int := do
  pushcli
  let s ← get
  match pageGet s d va with
  | none =>
    popif
    return -ENOMEM
  | some pte =>
    if (s.pte pte).present then
      let refCount ← onPhys (pageDecRefCount (s.pte pte).physAddr)
      modify fun s => s.setPte pte (.ofAddr 0 0)
      count d va (sub32 · 1)
      popif
      return refCount
    else
      popif
      return -ENOMEM

section Recursion

/-! `page_get_c`, `page_insert`, `tmp_page_alloc_map` and `pde_alloc` call each
other; each is written with the one it calls as an argument. -/

/-- `page_get_c`. -/
def pageGetCWith (pdeAlloc : Nat → Nat → VmM Int) (d va : Nat) : VmM (Option (Nat × Nat)) := do
  if ((← get).dirs d).pgtables (pdx va) = 0 then
    let r ← pdeAlloc d (pdx va)
    if r < 0 then return none
  let s ← get
  ASSERT ((s.dirs d).pgtables (pdx va) ≠ 0) "pgtables[va.pdx]"
  return some ((s.dirs d).pgtables (pdx va), ptx va)

/-- `page_insert`. -/
def pageInsertWith (pdeAlloc : Nat → Nat → VmM Int) (d p va : Nat) (perm : Perm) : VmM Int := do
  pushcli
  match ← pageGetCWith pdeAlloc d va with
  | none =>
    popif
    return -ENOMEM
  | some pte =>
    if ((← get).pte pte).present then
      let r ← pageRemove d va
      ASSERT (r > -1) "r > -1"
    let rc ← onPhys (refcountInc p)
    modify fun s => s.setPte pte (.ofAddr (p * 0x1000) perm)
    count d va (add32 · 1)
    popif
    return rc

def TMP_PAGE_COUNT : Nat := 1024

/-- `tmp_page_get`; 0 if all addresses are in use. -/
def tmpPageGet : VmM Nat := do
  assertIntDisable
  match (← get).tmpPages.findFirstZero (TMP_PAGE_COUNT / 32 * 4) with
  | some r =>
    modify fun s => { s with tmpPages := s.tmpPages.set r }
    return MMAP_KERNEL_TMP_PAGE_BASE + r * 0x1000
  | none => return 0

/-- `tmp_page_put`. -/
def tmpPagePut (va : Nat) : VmM Unit := do
  assertIntDisable
  let i := sub32 va MMAP_KERNEL_TMP_PAGE_BASE / 0x1000
  ASSERT ((← get).tmpPages.test i) "bitmap_test(tmp_pages, i)"
  modify fun s => { s with tmpPages := s.tmpPages.reset i }

/-- `tmp_page_alloc_map`: the frame and the address it is mapped at; `none` is
`-ENOMEM`, the only error there is. -/
def tmpPageAllocMapWith (pageInsert : Nat → Nat → Nat → Perm → VmM Int) (perm : Perm) :
    VmM (Option (Nat × Nat)) := do
  assertIntDisable
  let va ← tmpPageGet
  if va = 0 then return none
  match ← onPhys pageAlloc with
  | none =>
    tmpPagePut va
    return none
  | some p =>
    let err ← pageInsert 0 p va perm
    if err < 0 then
      onPhys (pageFree p)
      tmpPagePut va
      return none
    return some (p, va)

/-- `pde_alloc`. -/
def pdeAllocWith (tmpPageAllocMap : Perm → VmM (Option (Nat × Nat))) (d pdeNo : Nat) : VmM Int := do
  match ← tmpPageAllocMap (PTE_P ||| PTE_W) with
  | none => return -ENOMEM
  | some (p, va) =>
    let pt := va2kaddr va
    modify fun s =>
      { s with
        tables := update s.tables pt fun _ => ⟨0, 0⟩
        bytes := update s.bytes p fun _ => 0 }
    pushcli
    modify fun s => s.setDir d fun pd =>
      { pd with
        pgdir := update pd.pgdir pdeNo (.ofAddr (p * 0x1000) (PTE_P ||| PTE_U ||| PTE_W))
        pgtables := update pd.pgtables pdeNo pt
        countKernel := add32 pd.countKernel 1 }
    popif
    return 0

/-- `page_insert`, calling itself at most `depth` times. -/
def pageInsertDepth : Nat → Nat → Nat → Nat → Perm → VmM Int
  | 0 => fun _ _ _ _ => throw .loop
  | depth + 1 => pageInsertWith (pdeAllocWith (tmpPageAllocMapWith (pageInsertDepth depth)))

end Recursion

def tmpPageAllocMap : Perm → VmM (Option (Nat × Nat)) := tmpPageAllocMapWith (pageInsertDepth 2)

def pdeAlloc : Nat → Nat → VmM Int := pdeAllocWith tmpPageAllocMap

def pageGetC : Nat → Nat → VmM (Option (Nat × Nat)) := pageGetCWith pdeAlloc

def pageInsert : Nat → Nat → Nat → Perm → VmM Int := pageInsertWith pdeAlloc

/-- `tmp_page_free`. -/
def tmpPageFree (va : Nat) : VmM Int := do
  assertIntDisable
  ASSERT (MMAP_KERNEL_TMP_PAGE_BASE ≤ va ∧ va < MMAP_KERNEL_TOP)
    "va >= MMAP_KERNEL_TMP_PAGE_BASE && va < MMAP_KERNEL_TOP"
  let r ← pageRemove 0 va
  if r > -1 then tmpPagePut va
  return r

/-- `pde_free`. -/
def pdeFree (d pdeNo : Nat) : VmM Int := do
  pushcli
  let pgtableVa := ((← get).dirs d).pgtables pdeNo
  let r ← tmpPageFree (kaddr2va pgtableVa)
  ASSERT (r = 0) "r == 0"
  modify fun s => s.setDir d fun pd =>
    { pd with
      countKernel := sub32 pd.countKernel 1
      pgdir := update pd.pgdir pdeNo (pd.pgdir pdeNo).setAbsent
      pgtables := update pd.pgtables pdeNo 0 }
  popif
  return 0

/-- `page_alloc_insert`. -/
def pageAllocInsert (d va : Nat) (perm : Perm) : VmM Int := do
  pushcli
  match ← onPhys pageAlloc with
  | none =>
    popif
    return -ENOMEM
  | some p =>
    let r ← pageInsert d p va perm
    if r < 0 then onPhys (pageFree p)
    popif
    return r

/-! ## Ranges of pages -/

/-- The values of `i` in `for (i = start ; i < stop ; i += 0x1000)`.  Where `i`
would wrap around, the loop does not end. -/
def pageRange (start stop : Nat) : Exec (List Nat) :=
  if start + (stop - start + 0xFFF) / 0x1000 * 0x1000 < 2 ^ 32 ∨ stop ≤ start then
    .ok (pageSteps start stop)
  else .error .loop

/-- The first loop of `segment_alloc`; `some (i, err)` if it is left at `i`. -/
def segmentAllocLoop (d : Nat) (perm : Perm) : List Nat → VmM (Option (Nat × Int))
  | [] => return none
  | i :: rest => do
    match ← onPhys pageAlloc with
    | none => return some (i, -ENOMEM)
    | some p =>
      let err ← pageInsert d p i perm
      if err < 0 then
        onPhys (pageFree p)
        return some (i, err)
      segmentAllocLoop d perm rest

def removeAll (d : Nat) : List Nat → VmM Unit
  | [] => return ()
  | i :: rest => do
    let r ← pageRemove d i
    ASSERT (r = 0) "r == 0"
    removeAll d rest

def pdeFreeAll (d : Nat) : List Nat → VmM Unit
  | [] => return ()
  | i :: rest => do
    let _ ← pdeFree d i
    pdeFreeAll d rest

/-- The page directory entries from that of `start` up to that of `stop`. -/
def pdeRange (start stop : Nat) : List Nat := List.range' (pdx start) (pdx stop - pdx start)

/-- `segment_alloc`.  The first loop ends before `i` wraps: `page_insert` panics
from `MMAP_KERNEL_TOP` on. -/
def segmentAlloc (d va len : Nat) (perm : Perm) : VmM Int := do
  assertIntDisable
  let before ← get
  let first := roundDown va
  match ← segmentAllocLoop d perm (pageSteps first (roundUp (add32 va len))) with
  | none => return 0
  | some (i, err) =>
    removeAll d (pageSteps first i)
    pdeFreeAll d (pdeRange first i)
    let s ← get
    ASSERT ((s.dirs d).countKernel = (before.dirs d).countKernel)
      "count_kernel == count_kernel_before_segment_alloc"
    ASSERT (s.phys.memFree = before.phys.memFree) "mem_free() == mem_before_segment_alloc"
    return err

/-- The loop of `segment_free`, which removes the page at `va` in every turn. -/
def segmentFreeLoop (d va : Nat) : List Nat → VmM Unit
  | [] => return ()
  | _ :: rest => do
    let _ ← pageRemove d va
    segmentFreeLoop d va rest

/-- `segment_free`. -/
def segmentFree (d va len : Nat) : VmM Unit := do
  assertIntDisable
  let is ← pageRange (roundDown va) (roundUp (add32 va len))
  segmentFreeLoop d (roundDown va) is

/-- `__copy_page_from_current`, where `src` is the frame the current directory
maps at `va`. -/
def copyPageFromCurrent (dest src va : Nat) (perm : Perm) : VmM Int := do
  assertIntDisable
  match ← tmpPageAllocMap (PTE_P ||| PTE_W) with
  | none => return -ENOMEM
  | some (p, tmpVa) =>
    modify fun s => { s with bytes := update s.bytes p (s.bytes src) }
    let r ← pageInsert dest p va (perm &&& 0x7)
    if r < 0 then
      let r' ← tmpPageFree tmpVa
      ASSERT (r' = 0) "tmp_page_free(tmp_va) == 0"
      return r
    let r' ← tmpPageFree tmpVa
    ASSERT (r' > -1) "r > -1"
    return 0

/-- The loop of `copy_pages`.  Its test is `!pte | !pte->present`: for a `NULL`
pointer the second operand is read, and does not matter. -/
def copyPagesLoop (d src : Nat) : List Nat → VmM Int
  | [] => return 0
  | i :: rest => do
    let s ← get
    match pageGet s src i with
    | none => copyPagesLoop d src rest
    | some pte =>
      if (s.pte pte).present then
        let err ← copyPageFromCurrent d (s.pte pte).physPgno i (s.pte pte).perm
        if err < 0 then return err
        copyPagesLoop d src rest
      else copyPagesLoop d src rest

/-- `copy_pages`. -/
def copyPages (d src start stop : Nat) : VmM Int := do
  assertIntDisable
  let s ← get
  if (s.dirs src).pgdirPa = s.cr3 then
    let is ← pageRange start stop
    copyPagesLoop d src is
  else PANIC "tamamlanmadi"

/-- `link_pgtables`. -/
def linkPgtables (d src start stop : Nat) : VmM Int := do
  assertIntDisable
  modify fun s => s.setDir d fun pd =>
    { pd with
      pgdir := fun i => if i ∈ pdeRange start stop then (s.dirs src).pgdir i else pd.pgdir i
      pgtables := fun i => if i ∈ pdeRange start stop then (s.dirs src).pgtables i else pd.pgtables i }
  return 0

/-- The loop of `link_pages`. -/
def linkPagesLoop (d src : Nat) (perm : Perm) : List Nat → VmM Int
  | [] => return 0
  | i :: rest => do
    let s ← get
    match pageGet s src i with
    | none => linkPagesLoop d src perm rest
    | some pte =>
      if (s.pte pte).present then
        let r ← pageInsert d (pageIndex (s.pte pte).physAddr) i perm
        if r < 0 then return r
        linkPagesLoop d src perm rest
      else linkPagesLoop d src perm rest

/-- `link_pages`. -/
def linkPages (d src start stop : Nat) (perm : Perm) : VmM Int := do
  assertIntDisable
  let is ← pageRange start stop
  let r ← linkPagesLoop d src perm is
  if r < 0 then
    pdeFreeAll d (pdeRange start stop)
    return -ENOMEM
  return 0

end MakarnaX
