import MakarnaX.Kernel.Basic
import MakarnaX.Library.Ledger

/-!
# Physical memory

The model of `kernel/memory/physical.h`.  Every frame of physical memory has a
`Page` in the array `pages`; a frame that is free is on `freePageList`, which
links the frames through the field that holds the reference count of a frame in
use.  A frame is named by its index in `pages`.

Each function is followed down to the abstract account of frames, a
`Library.Ledger`: `page_alloc` takes the first free frame, `page_free` gives a
frame back, and `refcount_inc` and `refcount_dec` change the references to one.
-/

namespace MakarnaX

open Library (Ledger Linked)

def ENOMEM : Int := 12

inductive PageType
  | unknown
  | available
  | kernel
deriving DecidableEq, Repr

/-- `struct Page`. -/
structure Page where
  /-- 20 bits. -/
  nextFreeIndexOrRefCount : Nat
  free : Bool
  type : PageType
deriving DecidableEq, Repr

namespace Page

/-- `nextFree`: the index of the next free page.  The last page of the list
holds 0, which is not `NULL` but the address of the first page. -/
def nextFree (p : Page) : Option Nat := if p.free then some p.nextFreeIndexOrRefCount else none

/-- `refcount_get`. -/
def refcountGet (p : Page) : Nat := if p.free then 0 else p.nextFreeIndexOrRefCount

end Page

/-- `struct FreePageList`: `_begin`, `_end` and `_count`. -/
structure FreePageList where
  beginPage : Option Nat
  endPage : Option Nat
  count : Nat
deriving DecidableEq, Repr

/-- The frames, the list of free ones, and the interrupt flag the functions check. -/
structure Phys where
  pages : Nat → Page
  freePageList : FreePageList
  cpu : Cpu

/-- A function of the kernel that works on the frames. -/
abbrev PhysM := StateT Phys Exec

namespace Phys

def setPage (s : Phys) (i : Nat) (p : Page) : Phys :=
  { s with pages := Function.update s.pages i p }

/-- `pages[i].nextFreeIndexOrRefCount = n`. -/
def setNext (s : Phys) (i n : Nat) : Phys :=
  s.setPage i { s.pages i with nextFreeIndexOrRefCount := n }

def pushcli : PhysM Unit := modify fun s => { s with cpu := s.cpu.pushcli }

def popif : PhysM Unit := do
  let cpu ← (← get).cpu.popif
  modify fun s => { s with cpu := cpu }

def assertIntDisable : PhysM Unit := do
  (← get).cpu.assertIntDisable

/-- `mem_free`: the free memory in bytes. -/
def memFree (s : Phys) : Nat := s.freePageList.count * 0x1000 % 2 ^ 32

end Phys

namespace FreePageList

def init : FreePageList := ⟨none, none, 0⟩

/-- `FreePageList::insert`. -/
def insert (node : Nat) : PhysM Unit := do
  ASSERT (node ≠ 0) "node->index() != 0"
  modify fun s => s.setNext node 0
  let l := (← get).freePageList
  match l.beginPage, l.endPage with
  | some b, some e =>
    modify fun s =>
      { s.setNext e node with freePageList := ⟨some b, some node, add32 l.count 1⟩ }
  | some _, none => throw .null
  | none, _ =>
    modify fun s => { s with freePageList := ⟨some node, some node, add32 l.count 1⟩ }

/-- `FreePageList::getFirst`. -/
def getFirst : PhysM (Option Nat) := do
  let s ← get
  match s.freePageList.beginPage with
  | none => return none
  | some p =>
    let rest : Option Nat × Option Nat :=
      if s.freePageList.endPage = some p then (none, none)
      else ((s.pages p).nextFree, s.freePageList.endPage)
    set { s.setNext p 0 with
      freePageList := ⟨rest.1, rest.2, sub32 s.freePageList.count 1⟩ }
    return some p

end FreePageList

open Phys (pushcli popif assertIntDisable)

/-- `page_alloc`; `none` is `-ENOMEM`.  The second assertion of the source is an
assignment, `ASSERT((*p)->type = Page::Type_available)`. -/
def pageAlloc : PhysM (Option Nat) := do
  assertIntDisable
  match ← FreePageList.getFirst with
  | none => return none
  | some p =>
    let pg := (← get).pages p
    ASSERT (pg.free = true) "(*p)->free"
    modify fun s => s.setPage p { pg with type := .available, free := false }
    return some p

/-- `page_free`. -/
def pageFree (p : Nat) : PhysM Unit := do
  assertIntDisable
  let pg := (← get).pages p
  ASSERT (pg.type = .available) "p->type == Page::Type_available"
  ASSERT (pg.free = false) "! p->free"
  ASSERT (pg.refcountGet = 0) "p->refcount_get() == 0"
  if pg.refcountGet = 0 then
    modify fun s => s.setPage p { pg with free := true }
    FreePageList.insert p

/-- `Page::refcount_inc`.  The field has 20 bits; the model ends where it would wrap. -/
def refcountInc (p : Nat) : PhysM Int := do
  let pg := (← get).pages p
  ASSERT (pg.free = false) "!free"
  if pg.nextFreeIndexOrRefCount + 1 = 2 ^ 20 then throw .overflow
  modify fun s => s.setNext p (pg.nextFreeIndexOrRefCount + 1)
  return (pg.nextFreeIndexOrRefCount + 1 : Nat)

/-- `Page::refcount_dec`. -/
def refcountDec (p : Nat) : PhysM Int := do
  pushcli
  let pg := (← get).pages p
  ASSERT (pg.free = false) "!free"
  ASSERT (p ≠ 0) "this->index() != 0"
  modify fun s => s.setNext p ((pg.nextFreeIndexOrRefCount + (2 ^ 20 - 1)) % 2 ^ 20)
  let rc : Int := ((← get).pages p).refcountGet
  ASSERT (rc > -1) "rc > -1"
  if rc = 0 then pageFree p
  popif
  return rc

def pageIndex (pa : Nat) : Nat := pa / 0x1000

/-- `page_dec_refCount`. -/
def pageDecRefCount (paddr : Nat) : PhysM Int := do
  assertIntDisable
  ASSERT (isRounded paddr) "isRounded(paddr)"
  refcountDec (pageIndex paddr)

/-! ## The memory map -/

/-- `multiboot_memory_map_t`; `available` is `type == MULTIBOOT_MEMORY_AVAILABLE`. -/
structure MemoryMapEntry where
  addrLow : Nat
  addrHigh : Nat
  lenLow : Nat
  available : Bool

/-- The addresses `start`, `start + 0x1000`, ... below `stop`. -/
def pageSteps (start stop : Nat) : List Nat :=
  (List.range ((stop - start + 0xFFF) / 0x1000)).map fun k => start + k * 0x1000

theorem mem_pageSteps {start stop x : Nat} :
    x ∈ pageSteps start stop ↔ x < stop ∧ ∃ k, x = start + k * 0x1000 := by
  simp only [pageSteps, List.mem_map, List.mem_range]
  constructor
  · rintro ⟨k, hk, rfl⟩
    exact ⟨by omega, k, rfl⟩
  · rintro ⟨hx, k, rfl⟩
    exact ⟨k, by omega, rfl⟩

/-- The frames `pm_init` visits for one entry of the memory map. -/
def MemoryMapEntry.frames (e : MemoryMapEntry) : List Nat :=
  if e.available ∧ ¬ 0 < e.addrHigh then
    pageSteps (roundUp e.addrLow) (roundDown (add32 e.addrLow e.lenLow))
  else []

/-- `detect_memory`: every page is unknown and has one reference. -/
def detectMemory (cpu : Cpu) : Phys where
  pages := fun _ => ⟨1, false, .unknown⟩
  freePageList := .init
  cpu := cpu

/-- The body of the loops of `pm_init`: memory below 1 MB is left to real mode,
what the kernel image uses is the kernel's, the rest is free. -/
def pmInitFrame (memoryEnd i : Nat) : PhysM Unit :=
  if i < 0x100000 then modify fun s => s.setPage (pageIndex i) ⟨1, false, .available⟩
  else if i < memoryEnd then modify fun s => s.setPage (pageIndex i) ⟨1, false, .kernel⟩
  else do
    modify fun s => s.setPage (pageIndex i) ⟨0, false, .available⟩
    pageFree (pageIndex i)

def pmInitFrames (memoryEnd : Nat) : List Nat → PhysM Unit
  | [] => return ()
  | i :: rest => do
    pmInitFrame memoryEnd i
    pmInitFrames memoryEnd rest

/-- `pm_init`. -/
def pmInit (memoryEnd : Nat) (mmap : List MemoryMapEntry) : PhysM Unit := do
  modify fun s => { s with freePageList := .init }
  pmInitFrames memoryEnd (mmap.flatMap MemoryMapEntry.frames)

end MakarnaX
