import MakarnaX.Kernel.Basic
import MakarnaX.Wmc.List
import Mathlib.Data.Finset.Insert

/-!
# The kernel allocator

`kmalloc.h` and `kmalloc.cpp`.  A tmp page is cut into blocks of 32 to 2048
bytes.  Each block starts with a header word; a free block also holds the node
that links it into the free list of its class.  Headers, nodes and user bytes
all live in one byte memory, as in the source, so a stale header or a wild
write would be visible.  The counters of a page are kept in `page_headers`,
packed in 8-bit and 4-bit fields.

The only thing not computed here is which tmp page `tmp_page_alloc_map` finds
and what the page holds: `kmalloc` takes that answer as an argument.
-/

namespace MakarnaX.Kmalloc

open Library (Mem)

def FIRST_SIZENO : Nat := 0
def LAST_SIZENO : Nat := 6

/-! ## Counters -/

/-- `PH_count`. -/
structure PHCount where
  n32 : BitVec 8
  n64 : BitVec 8
  n128 : BitVec 8
  n256 : BitVec 8
  n512 : BitVec 4
  n1024 : BitVec 4
  n2048 : BitVec 4
deriving DecidableEq, Repr

/-- `PH_count::get`. -/
def PHCount.get (c : PHCount) : Nat → Nat
  | 0 => c.n32.toNat
  | 1 => c.n64.toNat
  | 2 => c.n128.toNat
  | 3 => c.n256.toNat
  | 4 => c.n512.toNat
  | 5 => c.n1024.toNat
  | 6 => c.n2048.toNat
  | _ => 2 ^ 32 - 1

/-- `PH_count::add`. -/
def PHCount.add (c : PHCount) (sizeno : Nat) (i : Int) : PHCount :=
  match sizeno with
  | 0 => { c with n32 := c.n32 + BitVec.ofInt 8 i }
  | 1 => { c with n64 := c.n64 + BitVec.ofInt 8 i }
  | 2 => { c with n128 := c.n128 + BitVec.ofInt 8 i }
  | 3 => { c with n256 := c.n256 + BitVec.ofInt 8 i }
  | 4 => { c with n512 := c.n512 + BitVec.ofInt 4 i }
  | 5 => { c with n1024 := c.n1024 + BitVec.ofInt 4 i }
  | 6 => { c with n2048 := c.n2048 + BitVec.ofInt 4 i }
  | _ => c

structure PageHeader where
  count : PHCount
  countUsed : PHCount
deriving DecidableEq, Repr

/-- `count.add(k, d)` on a page header. -/
def PageHeader.addCount (h : PageHeader) (k : Nat) (d : Int) : PageHeader :=
  { h with count := h.count.add k d }

/-- `count_used.add(k, d)` on a page header. -/
def PageHeader.addCountUsed (h : PageHeader) (k : Nat) (d : Int) : PageHeader :=
  { h with countUsed := h.countUsed.add k d }

/-- A `PageHeader` after `memset(.., 0, ..)`. -/
def PageHeader.zero : PageHeader := ⟨⟨0, 0, 0, 0, 0, 0, 0⟩, ⟨0, 0, 0, 0, 0, 0, 0⟩⟩

/-! ## State -/

/-- Where the linker put `sizes`: in the kernel image, below the tmp pages. -/
structure Layout where
  sizes : Nat
  pos : 0 < sizes
  bound : sizes + 7 * 24 ≤ 0x10000000

/-- `&sizes[k].list`. -/
def Layout.list (L : Layout) (k : Nat) : Nat := L.sizes + 24 * k + 4

/-- `sizes[k].size`. -/
def sizesSize (k : Nat) : Nat := 32 <<< k

structure State where
  mem : Mem
  /-- `page_headers`. -/
  pageHeaders : Nat → PageHeader
  /-- `kmalloc_lock.locked`. -/
  locked : Nat
  cpu : Cpu
  /-- The tmp pages that `kmalloc` got from `tmp_page_alloc_map` and holds. -/
  tmpPages : Finset Nat

/-! ## Block headers -/

/-- `BlockFlag_free`, that is `0x0055aaff & 0xfffc3fff`. -/
def BlockFlag_free : Nat := 0x0055aaff &&& 0xfffc3fff

/-- `BlockFlag_used`, that is `0xffaa5500 & 0xfffc3fff`. -/
def BlockFlag_used : Nat := 0xffaa5500 &&& 0xfffc3fff

namespace BlockHeader

/-- The bit field `sizeno`, bits 14 to 17 of the header word. -/
def sizeno (m : Mem) (b : Nat) : Nat := m.read32 b / 2 ^ 14 % 2 ^ 4

/-- `header.sizeno = k`. -/
def setSizeno (m : Mem) (b k : Nat) : Mem :=
  let w := m.read32 b
  m.write32 b (w % 2 ^ 14 + k % 2 ^ 4 * 2 ^ 14 + w / 2 ^ 18 * 2 ^ 18)

def flags (m : Mem) (b : Nat) : Nat := m.read32 b &&& 0xFFFC3FFF

/-- `__set_free`. -/
def setFree (m : Mem) (b : Nat) : Mem := m.write32 b (sizeno m b <<< 14 ||| BlockFlag_free)

/-- `__set_used`. -/
def setUsed (m : Mem) (b : Nat) : Mem := m.write32 b (sizeno m b <<< 14 ||| BlockFlag_used)

def isFree (m : Mem) (b : Nat) : Prop := flags m b = BlockFlag_free

instance (m : Mem) (b : Nat) : Decidable (isFree m b) := inferInstanceAs (Decidable (_ = _))

/-- `page_addr()`. -/
def pageAddr (b : Nat) : Nat := roundDown (kaddr2va b)

/-- `ph()`, as an index into `page_headers`. -/
def ph (s : State) (b : Nat) : Exec Nat := do
  let off := sub32 (kaddr2va b) MMAP_KERNEL_TMP_PAGE_BASE
  let index := off / 0x1000
  ASSERT (sizeno s.mem b < LAST_SIZENO + 2) "sizeno < LAST_SIZENO+2"
  ASSERT (index < 1024) "index < 1024"
  return index

/-- `bh(v)`. -/
def bh (v : Nat) : Nat := sub32 v 4

end BlockHeader

open BlockHeader (ph sizeno setSizeno)

/-- `header.ph()->count.get(k)`. -/
def countGet (s : State) (b k : Nat) : Exec Nat := do
  let i ← ph s b
  return (s.pageHeaders i).count.get k

/-- `header.ph()->count_used.get(k)`. -/
def countUsedGet (s : State) (b k : Nat) : Exec Nat := do
  let i ← ph s b
  return (s.pageHeaders i).countUsed.get k

/-- `header.ph()->count.add(k, d)`. -/
def countAdd (s : State) (b k : Nat) (d : Int) : Exec State := do
  let i ← ph s b
  return { s with pageHeaders := Function.update s.pageHeaders i ((s.pageHeaders i).addCount k d) }

/-- `header.ph()->count_used.add(k, d)`. -/
def countUsedAdd (s : State) (b k : Nat) (d : Int) : Exec State := do
  let i ← ph s b
  return { s with
    pageHeaders := Function.update s.pageHeaders i ((s.pageHeaders i).addCountUsed k d) }

/-! ## Blocks -/

namespace FreeBlock

/-- `&list_node`, after the header. -/
def listNode (b : Nat) : Nat := b + 4

/-- The block of a node (`value()`). -/
def ofNode (n : Nat) : Nat := n - 4

def size (m : Mem) (b : Nat) : Nat := 1 <<< (5 + sizeno m b)

def right (m : Mem) (b : Nat) : Nat := add32 b (size m b)

def left (m : Mem) (b : Nat) : Nat := sub32 b (size m b)

def pair (m : Mem) (b : Nat) : Nat :=
  let size := size m b
  if size = 0x1000 then 0
  else if b / size % 2 = 0 then add32 b size
  else sub32 b size

def setUsed (s : State) (b : Nat) : Exec State := do
  ASSERT (ListNode.isFree s.mem (listNode b)) "list_node.is_free()"
  let s := { s with mem := BlockHeader.setUsed s.mem b }
  countUsedAdd s b (sizeno s.mem b) 1

def setFree (s : State) (b : Nat) : Exec State := do
  ASSERT (¬ BlockHeader.isFree s.mem b) "!header.is_free()"
  let s := { s with mem := BlockHeader.setFree s.mem b }
  let s ← countUsedAdd s b (sizeno s.mem b) (-1)
  return { s with mem := ListNode.setFree s.mem (listNode b) }

/-- `addr()`. -/
def addr (b : Nat) : Nat := add32 b 4

/-- `if (list_node.__list) list_node.__list->erase(&list_node);`. -/
def unlist (m : Mem) (b : Nat) : Mem :=
  let l := ListNode.list m (listNode b)
  if l = 0 then m else (List2.erase m l (listNode b)).2

def split (L : Layout) (s : State) (b : Nat) : Exec (Nat × State) := do
  s.cpu.assertIntDisable
  let used ← countUsedGet s b (sub32 (sizeno s.mem b) 1)
  let count ← countGet s b (sub32 (sizeno s.mem b) 1)
  ASSERT (count = used) "count == used"
  let s := { s with mem := unlist s.mem b }
  let s := { s with mem := setSizeno s.mem b (sub32 (sizeno s.mem b) 1) }
  let s ← countAdd s b (sizeno s.mem b + 1) (-1)
  let s ← countAdd s b (sizeno s.mem b) 2
  ASSERT (pair s.mem b = right s.mem b) "pair() == right()"
  let r := right s.mem b
  let s := { s with mem := s.mem.write32 r (s.mem.read32 b) }
  let s := { s with mem := ListNode.init s.mem (listNode r) }
  let p := List2.pushBack s.mem (L.list (sizeno s.mem b)) (listNode r)
  ASSERT (p.1 = true) "r"
  return (b, { s with mem := p.2 })

def merge (s : State) (b : Nat) : Exec (Nat × State) := do
  s.cpu.assertIntDisable
  let p := pair s.mem b
  ASSERT (BlockHeader.isFree s.mem p) "_pair->header.is_free()"
  ASSERT (BlockHeader.isFree s.mem b) "header.is_free()"
  ASSERT (sizeno s.mem p = sizeno s.mem b) "_pair->header.sizeno == header.sizeno"
  ASSERT (ListNode.isFree s.mem (listNode b)) "list_node.is_free()"
  ASSERT (¬ ListNode.isFree s.mem (listNode p)) "!_pair->list_node.is_free()"
  let s := { s with
    mem := (List2.erase s.mem (ListNode.list s.mem (listNode p)) (listNode p)).2 }
  let s ← countAdd s b (sizeno s.mem b) (-2)
  let s ← countAdd s b (sizeno s.mem b + 1) 1
  let r := if p = left s.mem b then p else b
  let s := { s with mem := setSizeno s.mem r (sizeno s.mem r + 1) }
  ASSERT (ListNode.isFree s.mem (listNode r)) "r->list_node.is_free()"
  return (r, s)

def init (L : Layout) (s : State) (b : Nat) : Exec State := do
  s.cpu.assertIntDisable
  let s := { s with mem := setSizeno s.mem b (LAST_SIZENO + 1) }
  let s := { s with mem := BlockHeader.setFree s.mem b }
  let i ← ph s b
  let s := { s with pageHeaders := Function.update s.pageHeaders i PageHeader.zero }
  let s := { s with mem := ListNode.init s.mem (listNode b) }
  let (b, s) ← split L s b
  let p := List2.pushBack s.mem (L.list (sizeno s.mem b)) (listNode b)
  ASSERT (p.1 = true) "sizes[b->header.sizeno].list.push_back(&b->list_node)"
  return { s with mem := p.2 }

end FreeBlock

open FreeBlock (listNode ofNode)

/-! ## The tmp pages -/

/-- The kernel address of tmp page `i`. -/
def tmpPageKaddr (i : Nat) : Nat := va2kaddr (MMAP_KERNEL_TMP_PAGE_BASE + i * 0x1000)

/-- A tmp page as `tmp_page_alloc_map` leaves it: its index and what its frame
holds. -/
structure TmpPage where
  index : Nat
  contents : Nat → UInt8

/-- The effect of a successful `tmp_page_alloc_map`. -/
def tmpPageAllocMap (s : State) (p : TmpPage) : State :=
  let base := tmpPageKaddr p.index
  { s with
    mem := ⟨fun x => if base ≤ x ∧ x < base + 0x1000 then p.contents (x - base) else s.mem x⟩
    tmpPages := insert p.index s.tmpPages }

/-- `tmp_page_free`. -/
def tmpPageFree (s : State) (va : Nat) : Exec State := do
  s.cpu.assertIntDisable
  ASSERT (va ≥ MMAP_KERNEL_TMP_PAGE_BASE ∧ va < MMAP_KERNEL_TOP)
    "va >= MMAP_KERNEL_TMP_PAGE_BASE && va < MMAP_KERNEL_TOP"
  return { s with tmpPages := s.tmpPages.erase ((va - MMAP_KERNEL_TMP_PAGE_BASE) / 0x1000) }

/-! ## `kmalloc` and `kfree` -/

/-- `kmalloc_init`, with the memory and the counters the image was loaded with. -/
def kmallocInit (L : Layout) (s : State) : State :=
  let s := { s with locked := 0 }
  { s with mem := (List.range (LAST_SIZENO + 1)).foldl (fun m k => List2.init m (L.list k)) s.mem }

/-- How the search of the free lists ended: `i`, `uygun_sizeno` (`none` for -1)
and `b`. -/
structure Search where
  i : Nat
  uygunSizeno : Option Nat
  b : Option Nat

/-- The first loop of `kmalloc`, over the classes still to try. -/
def search (L : Layout) (size : Nat) : List Nat → Option Nat → State → Exec (Search × State)
  | [], uygun, s => return (⟨LAST_SIZENO + 1, uygun, none⟩, s)
  | i :: is, uygun, s =>
    if size ≤ sizesSize i - 4 then
      -- `if (uygun_sizeno == -1) uygun_sizeno = i;`
      let uygun := uygun.or (some i)
      if 0 < List2.size s.mem (L.list i) then do
        let b := ofNode (List2.first s.mem (L.list i))
        ASSERT (sizeno s.mem b = i) "b->header.sizeno == i"
        let p := List2.popFront s.mem (L.list i)
        ASSERT (p.1 = true) "sizes[i].list.pop_front()"
        return (⟨i, uygun, some b⟩, { s with mem := p.2 })
      else search L size is uygun s
    else search L size is uygun s

/-- The branch of `kmalloc` that takes a new page: the lower half of it, or `none`
when there is no page. -/
def newPage (L : Layout) (src : Option TmpPage) (s : State) : Exec (Option Nat × State) := do
  ASSERT (List2.size s.mem (L.list LAST_SIZENO) = 0) "sizes[LAST_SIZENO].list.size() == 0"
  s.cpu.assertIntDisable
  match src with
  | none => return (none, s)
  | some p =>
    let s := tmpPageAllocMap s p
    let b := tmpPageKaddr p.index
    let s ← FreeBlock.init L s b
    let r := List2.erase s.mem (ListNode.list s.mem (listNode b)) (listNode b)
    ASSERT (r.1 ≠ 0) "r != FreeBlockList_t::error()"
    return (some b, { s with mem := r.2 })

/-- The splitting loop of `kmalloc`. -/
def splitDown (L : Layout) (uygun : Nat) : Nat → Nat → State → Exec (Nat × State)
  | 0, b, s => return (b, s)
  | i + 1, b, s =>
    if i + 1 > uygun then do
      ASSERT (sizeno s.mem b = i + 1) "b->header.sizeno == i"
      let (b, s) ← FreeBlock.split L s b
      splitDown L uygun i b s
    else return (b, s)

/-- The rest of `kmalloc` once a block is found. -/
def finish (L : Layout) (uygun i b : Nat) (s : State) : Exec (Nat × State) := do
  ASSERT (b ≠ 0) "b"
  ASSERT (ListNode.isFree s.mem (listNode b)) "b->list_node.is_free()"
  let (b, s) ← splitDown L uygun i b s
  let s ← FreeBlock.setUsed s b
  let (cpu, locked) ← spinlockRelease s.cpu s.locked
  return (FreeBlock.addr b, { s with cpu, locked })

/-- `kmalloc`, where `src` is what `tmp_page_alloc_map` answers if it is asked.
When there is no page the lock is not released. -/
def kmalloc (L : Layout) (src : Option TmpPage) (s : State) (size : Nat) : Exec (Nat × State) :=
  if size > 2048 - 4 then return (0, s)
  else do
    let (cpu, locked) := spinlockAcquire s.cpu s.locked
    let (r, s) ← search L size (List.range (LAST_SIZENO + 1)) none { s with cpu, locked }
    match r.uygunSizeno with
    | none => throw (.assert "uygun_sizeno != -1")
    | some uygun =>
      if r.i = LAST_SIZENO + 1 then do
        let (b, s) ← newPage L src s
        match b with
        | none => return (0, s)
        | some b => finish L uygun LAST_SIZENO b s
      else finish L uygun r.i (r.b.getD 0) s

/-- The merging loop of `kfree`.  `fuel` bounds the number of merges; `kfree`
starts it with one more than there are classes. -/
def mergeUp : Nat → State → Nat → Exec (Nat × State)
  | 0, _, _ => throw .loop
  | fuel + 1, s, fb =>
    if sizeno s.mem fb < LAST_SIZENO + 1 ∧ BlockHeader.isFree s.mem (FreeBlock.pair s.mem fb) ∧
        sizeno s.mem (FreeBlock.pair s.mem fb) = sizeno s.mem fb then do
      let (fb, s) ← FreeBlock.merge s fb
      mergeUp fuel s fb
    else return (fb, s)

/-- The end of `kfree`: the block goes to its free list, or its page back. -/
def putBack (L : Layout) (s : State) (fb : Nat) : Exec State := do
  ASSERT (ListNode.isFree s.mem (listNode fb)) "fb->list_node.is_free()"
  if sizeno s.mem fb ≤ LAST_SIZENO then do
    let p := List2.pushFront s.mem (L.list (sizeno s.mem fb)) (listNode fb)
    ASSERT (p.1 = true) "b"
    return { s with mem := p.2 }
  else do
    let va := kaddr2va (BlockHeader.pageAddr fb)
    ASSERT (FreeBlock.size s.mem fb = 0x1000) "fb->size() == 0x1000"
    tmpPageFree s (va2kaddr va)

def kfree (L : Layout) (s : State) (v : Nat) : Exec State := do
  let (cpu, locked) := spinlockAcquire s.cpu s.locked
  let s := { s with cpu, locked }
  let bh := BlockHeader.bh v
  ASSERT (BlockHeader.flags s.mem bh = BlockFlag_used) "bh->flags() == BlockFlag_used"
  let s ← FreeBlock.setFree s bh
  let (fb, s) ← mergeUp (LAST_SIZENO + 2) s bh
  let s ← putBack L s fb
  let (cpu, locked) ← spinlockRelease s.cpu s.locked
  return { s with cpu, locked }

end MakarnaX.Kmalloc
