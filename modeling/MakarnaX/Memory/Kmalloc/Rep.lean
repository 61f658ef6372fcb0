import MakarnaX.Memory.Kmalloc.Model
import MakarnaX.Memory.Kmalloc.Heap

/-!
# The allocator's memory represents the abstract heap

`Rep L s H` ties a state of the allocator to an abstract heap: the free lists
hold the free blocks, every block starts with the header word of its class and
use, and the packed counters are the numbers of blocks.  One lemma per function
of the source says that it runs through and which move of the heap it makes.

`Keeps U m m'` is the frame of all of them: the bytes behind the headers of
the blocks in `U` are the same before and after.
-/

namespace MakarnaX.Kmalloc

open Library List Heap ListNode
open Library.Buddy Function Finset
open FreeBlock (listNode ofNode)
open BlockHeader (sizeno setSizeno ph)

/-! ## Header words -/

/-- The header word of a block. -/
def headerWord (k : Nat) (used : Prop) [Decidable used] : Nat :=
  k <<< 14 ||| if used then BlockFlag_used else BlockFlag_free

theorem headerWord_congr (k : Nat) {u v : Prop} [Decidable u] [Decidable v] (h : u ↔ v) :
    headerWord k u = headerWord k v := by
  unfold headerWord
  simp only [h]

variable {k j : Nat} {l : List Nat} {c : Block} {m : Mem} {U : Finset Block}

section

variable (hk : k ≤ 7) (u : Prop)

include hk u

theorem headerWord_lt [Decidable u] :
    headerWord k u < 2 ^ 32 := by
  unfold headerWord
  interval_cases k <;> split <;> decide

theorem headerWord_sizeno [Decidable u] :
    headerWord k u / 2 ^ 14 % 2 ^ 4 = k := by
  unfold headerWord
  interval_cases k <;> split <;> decide

theorem headerWord_flags [Decidable u] :
    headerWord k u &&& 0xFFFC3FFF = if u then BlockFlag_used else BlockFlag_free := by
  unfold headerWord
  interval_cases k <;> split <;> decide

/-- Changing the bit field `sizeno` of a header word. -/
theorem headerWord_set [Decidable u] (j : Nat) :
    headerWord k u % 2 ^ 14 + j % 2 ^ 4 * 2 ^ 14 + headerWord k u / 2 ^ 18 * 2 ^ 18 =
      headerWord 0 u + j % 2 ^ 4 * 2 ^ 14 := by
  have h1 : headerWord k u % 2 ^ 14 + headerWord k u / 2 ^ 18 * 2 ^ 18 = headerWord 0 u := by
    unfold headerWord
    interval_cases k <;> split <;> decide
  omega

theorem headerWord_eq [Decidable u] :
    headerWord k u = headerWord 0 u + k * 2 ^ 14 := by
  unfold headerWord
  interval_cases k <;> split <;> decide

end

section Header

variable {m : Mem} {b k x : Nat} {u : Prop} [Decidable u] {ys zs : List Nat}

theorem sizeno_of_header (hk : k ≤ 7) (h : m.read32 b = headerWord k u) : sizeno m b = k := by
  unfold sizeno
  rw [h, headerWord_sizeno hk]

theorem flags_of_header (hk : k ≤ 7) (h : m.read32 b = headerWord k u) :
    BlockHeader.flags m b = if u then BlockFlag_used else BlockFlag_free := by
  unfold BlockHeader.flags
  rw [h, headerWord_flags hk]

theorem isFree_of_header (hk : k ≤ 7) (h : m.read32 b = headerWord k u) :
    BlockHeader.isFree m b ↔ ¬ u := by
  unfold BlockHeader.isFree
  rw [flags_of_header hk h]
  split
  · exact ⟨fun h => absurd h (by decide), fun h => absurd ‹u› h⟩
  · exact ⟨fun _ => ‹¬ u›, fun _ => rfl⟩

/-- `header.sizeno = j` on a header word. -/
theorem setSizeno_of_header (hk : k ≤ 7) (hj : j ≤ 7) (h : m.read32 b = headerWord k u) :
    setSizeno m b j = m.write32 b (headerWord j u) := by
  unfold setSizeno
  dsimp only
  rw [h, headerWord_set hk, headerWord_eq hj, Nat.mod_eq_of_lt (by omega : j < 2 ^ 4)]

theorem size_of_sizeno (h : sizeno m b = k) : FreeBlock.size m b = size 32 k := by
  unfold FreeBlock.size size
  rw [h, Nat.shiftLeft_eq, Nat.pow_add, Nat.one_mul]

end Header

/-! ## Counters -/

namespace PHCount

theorem get_add_self (c : PHCount) {k v : Nat} (hk : k ≤ 6) {d : Int} (hv : (c.get k : Int) + d = v)
    (hcap : v ≤ 2 ^ (7 - k)) : (c.add k d).get k = v := by
  interval_cases k <;>
    simp only [get, add, BitVec.toNat_add, BitVec.toNat_ofInt, Nat.reducePow, Nat.reduceSub] at * <;>
    omega

theorem get_add_ne (c : PHCount) {j k : Nat} (h : j ≠ k) (d : Int) : (c.add k d).get j = c.get j := by
  unfold add
  split <;> unfold get <;> split <;> first | rfl | omega

theorem get_add (c : PHCount) {j k v : Nat} (hk : k ≤ 6) {d : Int} (hv : (v : Int) = c.get k + if k = j then d else 0)
    (hcap : v ≤ 2 ^ (7 - k)) : (c.add j d).get k = v := by
  split_ifs at hv with h
  · subst h
    exact get_add_self c hk hv.symm hcap
  · rw [get_add_ne c h]
    omega

theorem ext_get {c c' : PHCount} (h : ∀ k ≤ 6, c.get k = c'.get k) : c = c' := by
  obtain ⟨a0, a1, a2, a3, a4, a5, a6⟩ := c
  obtain ⟨b0, b1, b2, b3, b4, b5, b6⟩ := c'
  congr 1
  · exact BitVec.eq_of_toNat_eq (h 0 (by decide))
  · exact BitVec.eq_of_toNat_eq (h 1 (by decide))
  · exact BitVec.eq_of_toNat_eq (h 2 (by decide))
  · exact BitVec.eq_of_toNat_eq (h 3 (by decide))
  · exact BitVec.eq_of_toNat_eq (h 4 (by decide))
  · exact BitVec.eq_of_toNat_eq (h 5 (by decide))
  · exact BitVec.eq_of_toNat_eq (h 6 (by decide))

theorem get_zero (hk : k ≤ 6) :
    PageHeader.zero.count.get k = 0 ∧ PageHeader.zero.countUsed.get k = 0 := by
  interval_cases k <;> exact ⟨rfl, rfl⟩

end PHCount

theorem PageHeader.ext_get {h h' : PageHeader} (hc : ∀ k ≤ 6, h.count.get k = h'.count.get k)
    (hu : ∀ k ≤ 6, h.countUsed.get k = h'.countUsed.get k) : h = h' := by
  obtain ⟨c, u⟩ := h
  obtain ⟨c', u'⟩ := h'
  rw [PageHeader.mk.injEq]
  exact ⟨PHCount.ext_get hc, PHCount.ext_get hu⟩

/-! ## The free lists in memory -/

/-- The addresses of the seven lists. -/
def Layout.lists (L : Layout) (k : Fin 7) : Nat := L.list k

/-- The nodes of blocks. -/
def listNodes (ls : Fin 7 → List Nat) (k : Fin 7) : List Nat := (ls k).map listNode

/-- The bytes the free lists occupy. -/
def ListByte (L : Layout) (ls : Fin 7 → List Nat) (x : Nat) : Prop :=
  (L.sizes ≤ x ∧ x < L.sizes + 7 * 24) ∨ ∃ k, ∃ a ∈ ls k, a + 4 ≤ x ∧ x < a + 16

theorem listNodes_update (ls : Fin 7 → List Nat) (k : Fin 7) (l : List Nat) :
    update (listNodes ls) k (l.map listNode) = listNodes (update ls k l) := by
  funext j
  unfold listNodes
  by_cases hj : j = k
  · subst hj
    rw [update_self, update_self]
  · rw [update_of_ne hj, update_of_ne hj]

section Lists

variable {L : Layout} {m m' : Mem} {ls : Fin 7 → List Nat} {k : Fin 7} {a : Nat} {b : Block}

theorem mem_nodes_cases {n : Nat} (h : n ∈ List2.nodes L.lists (listNodes ls) k) :
    n = L.list k + 4 ∨ ∃ a ∈ ls k, n = a + 4 := by
  rcases mem_cons.1 h with rfl | h
  · exact Or.inl rfl
  · obtain ⟨a, ha, rfl⟩ := mem_map.1 h
    exact Or.inr ⟨a, ha, rfl⟩

theorem listByte_of_node {n x : Nat} (h : n ∈ List2.nodes L.lists (listNodes ls) k) (h1 : n ≤ x)
    (h2 : x < n + 12) : ListByte L ls x := by
  rcases mem_nodes_cases h with rfl | ⟨a, ha, rfl⟩
  · unfold Layout.list at h1 h2
    exact Or.inl ⟨by omega, by omega⟩
  · exact Or.inr ⟨k, a, ha, by omega, by omega⟩

theorem listByte_of_size (h1 : L.lists k ≤ x) (h2 : x < L.lists k + 4) :
    ListByte L ls x := by
  unfold Layout.lists Layout.list at h1 h2
  exact Or.inl ⟨by omega, by omega⟩

/-- Changes away from the lists leave them as they are. -/
theorem lists_congr (h : List2.Represents m L.lists (listNodes ls))
    (hm : ∀ x, ListByte L ls x → m' x = m x) : List2.Represents m' L.lists (listNodes ls) :=
  h.congr (fun _ _ hn _ h1 h2 => hm _ (listByte_of_node hn h1 h2))
    (fun _ _ h1 h2 => hm _ (listByte_of_size h1 h2))

/-- A block away from the listed ones, inside the tmp pages. -/
structure Apart (ls : Fin 7 → List Nat) (a : Nat) : Prop where
  listed : ∀ k, ∀ c ∈ ls k, c + 16 ≤ a ∨ a + 16 ≤ c
  low : 0x10000000 ≤ a
  high : a + 32 ≤ 0x10400000

theorem Apart.fresh (h : Apart ls a) (L : Layout) :
    List2.Fresh L.lists (listNodes ls) (listNode a) := by
  have hlow := h.low
  have hhigh := h.high
  have hL := L.bound
  refine ⟨fun k n hn => ?_, fun k => ?_, ?_, ?_⟩
  · rcases mem_nodes_cases hn with rfl | ⟨c, hc, rfl⟩
    · unfold Library.Ring.Apart listNode Layout.list
      omega
    · have := h.listed k c hc
      unfold Library.Ring.Apart listNode
      omega
  · unfold Layout.lists Layout.list listNode
    omega
  · unfold listNode
    omega
  · unfold listNode
    omega

/-- `m'` holds the lists `ls'` where `m` held `ls`, with the node of `a` put in or
taken out. -/
structure Relisted (L : Layout) (m m' : Mem) (ls ls' : Fin 7 → List Nat) (a : Nat) : Prop where
  lists : List2.Represents m' L.lists (listNodes ls')
  frame : ∀ x, ¬ ListByte L ls x → (x < a + 4 ∨ a + 16 ≤ x) → m' x = m x

section

variable (h : List2.Represents m L.lists (listNodes ls))

include h

theorem insert_frame (hx : listNodes ls k = ys ++ zs) (ha : Apart ls a) (hf : isFree m (listNode a))
    (hl : ¬ ListByte L ls x) (hxa : x < a + 4 ∨ a + 16 ≤ x) :
    (List2.insert m (L.lists k) (zs.headD (List2.sentinel (L.lists k))) (listNode a)).2 x = m x := by
  refine h.insert_frame hx (ha.fresh L) hf ?_ (fun y hy => ?_) ?_
  · unfold listNode
    omega
  · by_contra hcon
    exact hl (listByte_of_node hy (by omega) (by omega))
  · by_contra hcon
    exact hl (listByte_of_size (k := k) (by omega) (by omega))

theorem pushBack_relisted (ha : Apart ls a) (hf : isFree m (listNode a)) :
    (List2.pushBack m (L.list k) (listNode a)).1 = true ∧
      Relisted L m (List2.pushBack m (L.list k) (listNode a)).2 ls
        (update ls k (ls k ++ [a])) a := by
  have heq := h.pushBack_eq (i := k) (ha.fresh L) hf
  refine ⟨congrArg Prod.fst heq, ?_, fun x hl hxa => ?_⟩
  · rw [← listNodes_update, map_append]
    exact h.pushBack (i := k) (ha.fresh L) hf
  · have hx : listNodes ls k = listNodes ls k ++ [] := (append_nil _).symm
    have hfr := insert_frame h hx ha hf hl hxa
    exact (congrFun (congrArg (fun p => p.2.byte) heq) x).trans hfr

theorem pushFront_relisted (ha : Apart ls a) (hf : isFree m (listNode a)) :
    (List2.pushFront m (L.list k) (listNode a)).1 = true ∧
      Relisted L m (List2.pushFront m (L.list k) (listNode a)).2 ls
        (update ls k (a :: ls k)) a := by
  have heq := h.pushFront_eq (i := k) (ha.fresh L) hf
  refine ⟨congrArg Prod.fst heq, ?_, fun x hl hxa => ?_⟩
  · rw [← listNodes_update, List.map_cons]
    exact h.pushFront (i := k) (ha.fresh L) hf
  · have hx : listNodes ls k = [] ++ listNodes ls k := rfl
    have hfr := insert_frame h hx ha hf hl hxa
    exact (congrFun (congrArg (fun p => p.2.byte) heq) x).trans hfr

theorem erase_relisted (hx : ls k = ys ++ a :: zs) :
    (List2.erase m (L.list k) (listNode a)).1 ≠ 0 ∧
      isFree (List2.erase m (L.list k) (listNode a)).2 (listNode a) ∧
      Relisted L m (List2.erase m (L.list k) (listNode a)).2 ls
        (update ls k (ys ++ zs)) a := by
  have hx' : listNodes ls k = ys.map listNode ++ listNode a :: zs.map listNode := by
    unfold listNodes
    rw [hx, List.map_append, List.map_cons]
  refine ⟨h.erase_ne_zero hx', h.erase_isFree hx', ?_, fun x hl hxa => ?_⟩
  · rw [← listNodes_update, List.map_append]
    exact h.erase hx'
  · refine h.erase_frame hx' (fun y hy => ?_) ?_
    · by_contra hcon
      exact hl (listByte_of_node hy (by omega) (by omega))
    · by_contra hcon
      exact hl (listByte_of_size (k := k) (by omega) (by omega))

theorem list_of_listed (ha : a ∈ ls k) :
    list m (listNode a) = L.list k :=
  h.owner k _ (List2.mem_nodes (mem_map_of_mem ha))

theorem size_eq_length (k : Fin 7) :
    List2.size m (L.list k) = (ls k).length :=
  (h.size k).trans (length_map _)

end

end Lists

/-! ## Representation -/

/-- The memory of a heap. -/
structure Image (L : Layout) (m : Mem) (H : Heap) : Prop where
  lists : List2.Represents m L.lists (listNodes H.lists)
  header : ∀ b ∈ H.tiles, m.read32 b.addr = headerWord b.cls (b ∈ H.used)
  held : ∀ b, H.held = some b → isFree m (listNode b.addr)

/-- The packed counters are exact. -/
structure Counters (ph : Nat → PageHeader) (H : Heap) : Prop where
  count : ∀ i ∈ H.pages, ∀ k ≤ 6, (ph i).count.get k = H.count i k
  countUsed : ∀ i ∈ H.pages, ∀ k ≤ 6, (ph i).countUsed.get k = H.countUsed i k

structure Rep (L : Layout) (s : State) (H : Heap) : Prop where
  wf : H.WF
  image : Image L s.mem H
  counters : Counters s.pageHeaders H
  pages : s.tmpPages = H.pages

/-- The user bytes of the blocks in `U` are the same. -/
def Keeps (U : Finset Block) (m m' : Mem) : Prop :=
  ∀ b ∈ U, ∀ x, b.addr + 4 ≤ x → x < b.addr + size 32 b.cls → m' x = m x

theorem Keeps.refl (U : Finset Block) (m : Mem) : Keeps U m m := fun _ _ _ _ _ => rfl

theorem Keeps.trans {m m' m'' : Mem} (h : Keeps U m m') (h' : Keeps U m' m'') :
    Keeps U m m'' := fun b hb x h1 h2 => (h' b hb x h1 h2).trans (h b hb x h1 h2)

/-- The counters of pages that are not held are zero. -/
def Clear (s : State) : Prop := ∀ i, i ∉ s.tmpPages → s.pageHeaders i = .zero

/-- A call went from `s` to `s'`, which represents `H'`. -/
structure Next (L : Layout) (U : Finset Block) (s s' : State) (H' : Heap) : Prop where
  rep : Rep L s' H'
  keeps : Keeps U s.mem s'.mem
  cpu : s'.cpu = s.cpu
  clear : Clear s → Clear s'

/-- The counters of a page that is held change. -/
theorem Clear.update {s : State} (h : Clear s) {s' : State} {p : Nat} (hp : p ∈ s.tmpPages) (ht : s'.tmpPages = s.tmpPages)
    (hph : ∀ i, i ≠ p → s'.pageHeaders i = s.pageHeaders i) : Clear s' := fun i hi => by
  rw [ht] at hi
  rw [hph i fun he => hi (he ▸ hp)]
  exact h i hi

theorem Next.trans {L : Layout} {s s' s'' : State} {H' H'' : Heap}
    (h : Next L U s s' H') (h' : Next L U s' s'' H'') : Next L U s s'' H'' :=
  ⟨h'.rep, h.keeps.trans h'.keeps, h'.cpu.trans h.cpu, h'.clear ∘ h.clear⟩

namespace Heap.WF

variable {L : Layout} {H : Heap}

/-- The list bytes of a well-formed heap, seen from any of its blocks. -/
theorem listByte_cases (h : H.WF) (hb : b ∈ H.tiles) (h1 : b.addr ≤ x)
    (h2 : x < b.addr + size 32 b.cls) (hx : ListByte L H.lists x) :
    H.Free b ∧ b.addr + 4 ≤ x ∧ x < b.addr + 16 := by
  have hbnd := h.bounds hb
  have hL := L.bound
  rcases hx with hx | ⟨k, a, ha, h3, h4⟩
  · omega
  · have hfree := (h.lists k a).1 ha
    have hbnd' := h.bounds hfree.1
    have hbnd2 := hbnd'.2.2
    dsimp only at hbnd2
    have he : b = ⟨a, k⟩ := by
      refine h.tiling.disjoint b hb _ hfree.1 x ⟨h1, h2⟩ ⟨?_, ?_⟩
      · dsimp only
        omega
      · dsimp only
        omega
    rw [he]
    exact ⟨hfree, h3, h4⟩

theorem header_not_listByte (h : H.WF) (hb : b ∈ H.tiles) (h1 : b.addr ≤ x)
    (h2 : x < b.addr + 4) : ¬ ListByte L H.lists x := fun hx => by
  have hbnd := h.bounds hb
  have := h.listByte_cases hb h1 (by omega) hx
  omega

theorem not_free_not_listByte (h : H.WF) (hb : b ∈ H.tiles) (hf : ¬ H.Free b)
    (h1 : b.addr ≤ x) (h2 : x < b.addr + size 32 b.cls) : ¬ ListByte L H.lists x := fun hx =>
  hf (h.listByte_cases hb h1 h2 hx).1

theorem not_free_of_held (_h : H.WF) (hh : H.held = some b) : ¬ H.Free b :=
  fun hf => hf.2.2 hh

theorem not_free_of_used (_h : H.WF) (hb : b ∈ H.used) : ¬ H.Free b :=
  fun hf => hf.2.1 hb

/-- The held block is away from the listed ones. -/
theorem held_apart (h : H.WF) (hh : H.held = some b) : Apart H.lists b.addr := by
  have hb := (h.held b hh).1
  have hbnd := h.bounds hb
  refine ⟨fun k c hc => ?_, by omega, by omega⟩
  have hfree := (h.lists k c).1 hc
  have hc' := (h.bounds hfree.1).2.2
  have := h.apart hb hfree.1 fun he => hfree.2.2 (he ▸ hh)
  dsimp only at this hc'
  omega

/-- Changes to the lists and to one block that is not in use leave the user bytes. -/
theorem keeps_of_frame (h : H.WF) {m m' : Mem} {a k : Nat}
    (hd : ∀ b ∈ H.used, b.addr + size 32 b.cls ≤ a ∨ a + size 32 k ≤ b.addr)
    (hm : ∀ x, ¬ ListByte L H.lists x → (x < a ∨ a + size 32 k ≤ x) → m' x = m x) :
    Keeps H.used m m' := fun b hb x h1 h2 => by
  have hd' := hd b hb
  refine hm x (h.not_free_not_listByte (h.used b hb) (h.not_free_of_used hb) ?_ h2) ?_
  · omega
  · omega

theorem used_apart (h : H.WF) (hb : b ∈ H.tiles) (hbu : b ∉ H.used) :
    ∀ c ∈ H.used, c.addr + size 32 c.cls ≤ b.addr ∨ b.addr + size 32 b.cls ≤ c.addr :=
  fun c hc => h.apart (h.used c hc) hb fun he => hbu (he ▸ hc)

end Heap.WF

/-! ## Memory under the moves -/

section Images

variable {L : Layout} {m m' : Mem} {H : Heap} {k : Fin 7} {a : Nat} {b : Block}
  {ls' : Fin 7 → List Nat}

/-- List operations on the node of a block leave all headers. -/
theorem Relisted.header (hr : Relisted L m m' H.lists ls' b.addr) (h : H.WF) (hb : b ∈ H.tiles)
    (hc : c ∈ H.tiles) : m'.read32 c.addr = m.read32 c.addr := by
  have hbb := h.bounds hb
  have hcb := h.bounds hc
  refine Mem.read32_congr fun x h1 h2 => hr.frame x (h.header_not_listByte hc h1 h2) ?_
  by_cases hbc : b = c
  · rw [hbc]
    omega
  · have := h.apart hb hc hbc
    omega

theorem Relisted.keeps (hr : Relisted L m m' H.lists ls' b.addr) (h : H.WF) (hb : b ∈ H.tiles)
    (hbu : b ∉ H.used) : Keeps H.used m m' := by
  have hbb := h.bounds hb
  exact h.keeps_of_frame (h.used_apart hb hbu) fun x hx h1 => hr.frame x hx (by omega)

theorem Image.take (im : Image L m H) (h : H.WF) (hx : H.lists k = ys ++ a :: zs) :
    Image L (List2.erase m (L.list k) (listNode a)).2 (H.take k a (ys ++ zs)) ∧
      Keeps H.used m (List2.erase m (L.list k) (listNode a)).2 := by
  have hfree : H.Free ⟨a, k⟩ :=
    (h.lists k a).1 (hx ▸ mem_append_right _ mem_cons_self)
  obtain ⟨-, hf, hr⟩ := erase_relisted im.lists hx
  refine ⟨⟨hr.lists, fun c hc => (Relisted.header hr h hfree.1 hc).trans (im.header c hc),
    fun c hc => ?_⟩, Relisted.keeps hr h hfree.1 hfree.2.1⟩
  cases hc
  exact hf

/-- A push of the held block's node. -/
theorem Image.put (im : Image L m H) (h : H.WF) (hh : H.held = some ⟨a, k⟩)
    (hr : Relisted L m m' H.lists (update H.lists k l) a) :
    Image L m' (H.put k l) ∧ Keeps H.used m m' := by
  obtain ⟨hb, hbu⟩ := h.held _ hh
  refine ⟨⟨hr.lists, fun c hc => (Relisted.header hr h hb hc).trans (im.header c hc),
    fun c hc => ?_⟩, Relisted.keeps hr h hb hbu⟩
  cases hc

theorem write_header_ne (h : H.WF) (hb : b ∈ H.tiles) (hc : c ∈ H.tiles) (hne : c ≠ b)
    (v : Nat) : (m.write32 b.addr v).read32 c.addr = m.read32 c.addr := by
  have hbb := h.bounds hb
  have hcb := h.bounds hc
  have := h.apart hb hc (Ne.symm hne)
  exact Mem.read32_ne _ _ (by omega)

theorem write_header_listByte (h : H.WF) (hb : b ∈ H.tiles) (v : Nat)
    (hx : ListByte L H.lists x) : m.write32 b.addr v x = m x := by
  refine Mem.write32_apply _ _ ?_
  by_contra hcon
  exact h.header_not_listByte hb (by omega) (by omega) hx

theorem write_header_keeps (h : H.WF) (hb : b ∈ H.tiles) (v : Nat) :
    Keeps H.used m (m.write32 b.addr v) := fun c hc x h1 h2 => by
  refine Mem.write32_apply _ _ ?_
  have hbb := h.bounds hb
  by_cases hbc : b = c
  · rw [hbc]
    omega
  · have := h.apart hb (h.used c hc) hbc
    omega

theorem Image.use (im : Image L m H) (h : H.WF) (hh : H.held = some b) (hk : b.cls ≤ 6) :
    Image L (m.write32 b.addr (headerWord b.cls True)) (H.use b) := by
  have hb := (h.held b hh).1
  refine ⟨lists_congr im.lists fun x hx => write_header_listByte h hb _ hx, fun c hc => ?_,
    fun c hc => by cases hc⟩
  by_cases hcb : c = b
  · subst hcb
    rw [Mem.read32_self _ _ (headerWord_lt (by omega) _)]
    exact headerWord_congr _ (iff_of_true trivial (mem_insert_self _ _))
  · rw [write_header_ne h hb hc hcb, im.header c hc]
    refine headerWord_congr _ ?_
    rw [Heap.use, mem_insert, or_iff_right hcb]

/-- Writing the header and the owner of a block in use, to take it back. -/
theorem Image.unuse (im : Image L m H) (h : H.WF) (hb : b ∈ H.used) :
    Image L (setFree (m.write32 b.addr (headerWord b.cls False)) (listNode b.addr)) (H.unuse b) ∧
    Keeps (H.used.erase b) m
      (setFree (m.write32 b.addr (headerWord b.cls False)) (listNode b.addr)) := by
  have hbt := h.used b hb
  have hbb := h.bounds hbt
  have hcls := h.used_cls hb
  have hframe : ∀ x, (x < b.addr ∨ b.addr + 16 ≤ x) →
      setFree (m.write32 b.addr (headerWord b.cls False)) (listNode b.addr) x = m x := by
    intro x hx
    unfold setFree setList listNode
    rw [Mem.write32_apply _ _ (by omega), Mem.write32_apply _ _ (by omega)]
  refine ⟨⟨lists_congr im.lists fun x hx => hframe x ?_, fun c hc => ?_, fun c hc => ?_⟩,
    fun c hc x h1 h2 => hframe x ?_⟩
  · by_contra hcon
    exact h.not_free_not_listByte hbt (h.not_free_of_used hb) (by omega) (by omega) hx
  · by_cases hcb : c = b
    · subst hcb
      unfold setFree setList listNode
      rw [Mem.read32_ne _ _ (by omega),
        Mem.read32_self _ _ (headerWord_lt (by omega) _)]
      exact headerWord_congr _ (iff_of_false id (notMem_erase _ _))
    · have hcb' := h.apart hbt hc (Ne.symm hcb)
      have hcc := h.bounds hc
      rw [Mem.read32_congr fun x h1 h2 => hframe x (by omega), im.header c hc]
      refine headerWord_congr _ ?_
      rw [Heap.unuse, mem_erase, and_iff_right hcb]
  · cases hc
    unfold setFree isFree list setList
    exact Mem.read32_self _ _ (by omega)
  · obtain ⟨hne, hc⟩ := mem_erase.1 hc
    have := h.apart hbt (h.used c hc) (Ne.symm hne)
    omega

/-- The memory after the header of a split block and the header and node of its
upper half are written. -/
def cutMem (m : Mem) (a k : Nat) : Mem :=
  init
    ((m.write32 a (headerWord k False)).write32 (a + size 32 k) (headerWord k False))
    (listNode (a + size 32 k))

theorem cutMem_frame (m : Mem) (h1 : x < a ∨ a + 4 ≤ x)
    (h2 : x < a + size 32 k ∨ a + size 32 k + 16 ≤ x) : cutMem m a k x = m x := by
  unfold cutMem
  rw [init_apply _ (by unfold listNode; omega), Mem.write32_apply _ _ (by omega),
    Mem.write32_apply _ _ (by omega)]

theorem cutMem_header (m : Mem) (hk : k ≤ 6) : (cutMem m a k).read32 a = headerWord k False ∧
    (cutMem m a k).read32 (a + size 32 k) = headerWord k False := by
  have hsz := le_size k
  have hlt := headerWord_lt (k := k) (by omega) False
  have hinit : ∀ y, (y + 4 ≤ a + size 32 k + 4) →
      (cutMem m a k).read32 y =
        ((m.write32 a (headerWord k False)).write32 (a + size 32 k) (headerWord k False)).read32 y :=
    fun y hy => Mem.read32_congr fun x h1 h2 => init_apply _ (by unfold listNode; omega)
  constructor
  · rw [hinit a (by omega), Mem.read32_ne _ _ (by omega), Mem.read32_self _ _ hlt]
  · rw [hinit _ (by omega), Mem.read32_self _ _ hlt]

/-- Cutting the held block and listing its upper half. -/
theorem Image.split (im : Image L m H) (h : H.WF) (hh : H.held = some ⟨a, k + 1⟩) :
    (List2.pushBack (cutMem m a k) (L.list k) (listNode (a + size 32 k))).1 = true ∧
      Image L (List2.pushBack (cutMem m a k) (L.list k) (listNode (a + size 32 k))).2
        (H.split a k) ∧
      Keeps H.used m (List2.pushBack (cutMem m a k) (L.list k) (listNode (a + size 32 k))).2 := by
  obtain ⟨hb, hbu⟩ := h.held _ hh
  have hbb := h.bounds hb
  have hss := size_succ 32 k
  have hsz := le_size k
  dsimp only at hbb
  have hin : ∀ x, a ≤ x → x < a + size 32 (k + 1) → ¬ ListByte L H.lists x := fun x h1 h2 =>
    h.not_free_not_listByte hb (h.not_free_of_held hh) h1 h2
  have hlists : List2.Represents (cutMem m a k) L.lists (listNodes H.lists) := by
    refine lists_congr im.lists fun x hx => cutMem_frame _ ?_ ?_
    · by_contra hcon
      exact hin x (by omega) (by omega) hx
    · by_contra hcon
      exact hin x (by omega) (by omega) hx
  have hap : Apart H.lists (a + size 32 k) := by
    refine ⟨fun j c hc => ?_, by omega, by omega⟩
    have hfree := (h.lists j c).1 hc
    have hc' := (h.bounds hfree.1).2.2
    have := h.apart hb hfree.1 fun he => hfree.2.2 (he ▸ hh)
    dsimp only at this hc'
    omega
  obtain ⟨hok, hr⟩ := pushBack_relisted (k := k) hlists hap (isFree_init _ _)
  have hframe : ∀ x, ¬ ListByte L H.lists x → (x < a ∨ a + 4 ≤ x) →
      (x < a + size 32 k ∨ a + size 32 k + 16 ≤ x) →
      (List2.pushBack (cutMem m a k) (L.list k) (listNode (a + size 32 k))).2 x = m x :=
    fun x hx h1 h2 => (hr.frame x hx (by omega)).trans (cutMem_frame _ h1 h2)
  have hcut := cutMem_header m (a := a) (k := k) (by omega)
  refine ⟨hok, ⟨hr.lists, fun c hc => ?_, fun c hc => ?_⟩, ?_⟩
  · rcases split_mem.1 hc with rfl | rfl | ⟨hc, hne⟩
    · refine (Mem.read32_congr fun x h1 h2 => ?_).trans (hcut.2.trans (headerWord_congr _ ?_))
      · simp only [Block.upper] at h1 h2
        exact hr.frame x (hin x (by omega) (by omega)) (by omega)
      · exact iff_of_false id fun hm => (h.halves_not_mem hb).2 (h.used _ hm)
    · refine (Mem.read32_congr fun x h1 h2 => ?_).trans (hcut.1.trans (headerWord_congr _ ?_))
      · simp only [Block.lower] at h1 h2
        exact hr.frame x (hin x (by omega) (by omega)) (by omega)
      · exact iff_of_false id fun hm => (h.halves_not_mem hb).1 (h.used _ hm)
    · have hcb := h.bounds hc
      have := h.apart hb hc (Ne.symm hne)
      dsimp only at this
      rw [Mem.read32_congr fun x h1 h2 => hframe x (h.header_not_listByte hc h1 h2) (by omega)
        (by omega)]
      exact im.header c hc
  · cases hc
    have h0 := im.held _ hh
    unfold isFree list listNode at h0 ⊢
    simp only [Block.lower]
    rw [← h0]
    exact Mem.read32_congr fun x h1 h2 => hframe x (hin x (by omega) (by omega)) (by omega)
      (by omega)
  · exact h.keeps_of_frame (h.used_apart hb hbu) fun x hx h1 =>
      hframe x hx (by dsimp only at h1; omega) (by dsimp only at h1; omega)

/-- Unlisting the free half and writing the header of the joined block. -/
theorem Image.merge (im : Image L m H) (h : H.WF) (hc : H.Halves a k b c) (hx : H.lists k = ys ++ c.addr :: zs) :
    Image L ((List2.erase m (L.list k) (listNode c.addr)).2.write32 a (headerWord (k + 1) False))
        (H.merge a k (ys ++ zs)) ∧
      Keeps H.used m
        ((List2.erase m (L.list k) (listNode c.addr)).2.write32 a (headerWord (k + 1) False)) := by
  obtain ⟨hlo, hup⟩ := hc.mem h
  have hnu := hc.not_used h
  have hcl := (h.bounds hlo).2.2
  obtain ⟨-, hf, hr⟩ := erase_relisted im.lists hx
  have hwf := h.merge hc (l := ys ++ zs) (hx ▸ perm_middle)
  have hwhole : (⟨a, k + 1⟩ : Block) ∈ (H.merge a k (ys ++ zs)).tiles :=
    merge_mem.2 (Or.inl rfl)
  have hkeeps := Relisted.keeps hr h hc.free.1 hc.free.2.1
  have hheader : ∀ d ∈ H.tiles, (List2.erase m (L.list k) (listNode c.addr)).2.read32 d.addr =
      m.read32 d.addr := fun d hd => Relisted.header hr h hc.free.1 hd
  have hheld : isFree (List2.erase m (L.list k) (listNode c.addr)).2 (listNode a) := by
    rcases hc.halves with ⟨rfl, rfl⟩ | ⟨rfl, rfl⟩
    · -- the lower half was held, and the upper one erased
      have h0 := im.held _ hc.held
      unfold isFree list listNode at h0 ⊢
      simp only [Block.lower, Block.upper] at h0 hr hcl ⊢
      rw [← h0]
      refine Mem.read32_congr fun x h1 h2 => hr.frame x ?_ (by omega)
      exact h.not_free_not_listByte hlo (h.not_free_of_held hc.held) (by simp only [Block.lower]; omega)
        (by simp only [Block.lower]; omega)
    · exact hf
  have hlists := hr.lists
  have hcls : (k : Nat) + 1 ≤ 7 := by omega
  generalize (List2.erase m (L.list k) (listNode c.addr)).2 = m1 at *
  refine ⟨⟨lists_congr hlists fun x hx => ?_, fun d hd => ?_, fun d hd => ?_⟩, ?_⟩
  · exact write_header_listByte (b := ⟨a, k + 1⟩) hwf hwhole _ hx
  · rcases merge_mem.1 hd with rfl | ⟨hd', h1, h2⟩
    · rw [Mem.read32_self _ _ (headerWord_lt hcls _)]
      exact headerWord_congr _ (iff_of_false id fun hm => hc.whole_not_mem h (h.used _ hm))
    · have hne : d ≠ ⟨a, k + 1⟩ := fun he => hc.whole_not_mem h (he ▸ hd')
      rw [write_header_ne (b := ⟨a, k + 1⟩) hwf hwhole hd hne, hheader d hd', im.header d hd']
      rfl
  · cases hd
    unfold isFree list listNode at hheld ⊢
    rw [Mem.read32_ne _ _ (by dsimp only; omega)]
    exact hheld
  · exact hkeeps.trans fun d hd => write_header_keeps (b := ⟨a, k + 1⟩) hwf hwhole _ d hd

/-- A new page: what its frame holds does not matter. -/
theorem Image.addPage {i : Nat} (im : Image L m H) (h : H.WF) (hi : i ∉ H.pages)
    (hm : ∀ x, x / 0x1000 ≠ pageNo i → m' x = m x) (hw : m'.read32 (pageBlock i).addr = headerWord 7 False)
    (hf : isFree m' (listNode (pageBlock i).addr)) :
    Image L m' (H.addPage i) ∧ Keeps H.used m m' := by
  have hpage : ∀ b ∈ H.tiles, ∀ x, b.Covers 32 x → x / 0x1000 ≠ pageNo i := by
    intro b hb x hx he
    obtain ⟨j, hj, hp⟩ := h.page hb
    have := h.covers_page hb hp hx
    have hij : i = j := by
      unfold pageNo at *
      omega
    exact hi (hij ▸ hj)
  refine ⟨⟨lists_congr im.lists fun x hx => hm x ?_, fun b hb => ?_, fun b hb => ?_⟩,
    fun b hb x h1 h2 => hm x (hpage b (h.used b hb) x ⟨by omega, h2⟩)⟩
  · rcases hx with hx | ⟨k, a, ha, h1, h2⟩
    · have := L.bound
      unfold pageNo
      omega
    · have hfree := (h.lists k a).1 ha
      have hsz := le_size k
      exact hpage _ hfree.1 x ⟨by dsimp only; omega, by dsimp only; omega⟩
  · rcases mem_insert.1 hb with rfl | hb
    · rw [hw]
      refine headerWord_congr _ (iff_of_false id fun hm => ?_)
      exact hpage _ (h.used _ hm) _ (Block.covers_addr (by omega) _)
        (pageBlock_covers.1 (Block.covers_addr (by omega) _))
    · have hsz := le_size b.cls
      rw [Mem.read32_congr fun x h1 h2 => hm x (hpage b hb x ⟨h1, by omega⟩)]
      exact im.header b hb
  · cases hb
    exact hf

theorem Image.dropPage {i : Nat} (im : Image L m H) : Image L m (H.dropPage i) :=
  ⟨im.lists, fun b hb => im.header b (mem_of_mem_erase hb), fun b hb => by cases hb⟩

end Images

/-! ## Counters under the moves -/

section Counters

variable {ph : Nat → PageHeader} {H : Heap} {a i : Nat} {k : Fin 7} {b : Block}

theorem update_part {α : Type} (π : PageHeader → α) {x : PageHeader} (h : π x = π (ph i)) (q : Nat) :
    π (update ph i x q) = π (ph q) := by
  rw [update_apply]
  split <;> simp [*]

/-- `count.add` twice, as `split` and `merge` do it. -/
theorem count_add_add (h : Counters ph H) {H' : Heap} {j j' : Nat} {d d' : Int}
    (hH' : H'.WF) (hjj : j ≠ j') (hp : H'.pages = H.pages) (hu : H'.used = H.used)
    (hcount : ∀ i' k, (H'.count i' k : Int) = H.count i' k +
      (if i' = i ∧ k = j then d else 0) + if i' = i ∧ k = j' then d' else 0) :
    Counters (update ph i (((ph i).addCount j d).addCount j' d')) H' := by
  refine ⟨fun i' hi' k hk => ?_, fun i' hi' k hk => ?_⟩
  · rw [hp] at hi'
    have hc := hcount i' k
    rw [← h.count i' hi' k hk] at hc
    by_cases hii : i' = i
    · subst hii
      simp only [true_and] at hc
      have hle := hH'.count_le i' hk
      rw [update_self]
      unfold PageHeader.addCount
      by_cases hkj : k = j'
      · have hne : k ≠ j := hkj ▸ hjj.symm
        rw [if_neg hne, add_zero] at hc
        exact PHCount.get_add _ hk (by rw [PHCount.get_add_ne _ hne, hc]) hle
      · rw [if_neg hkj, add_zero] at hc
        rw [PHCount.get_add_ne _ hkj]
        exact PHCount.get_add _ hk hc hle
    · rw [update_of_ne hii]
      simp only [hii, false_and, if_false] at hc
      omega
  · rw [update_part (·.countUsed), h.countUsed i' (hp ▸ hi') k hk]
    · unfold countUsed
      rw [hu]
    · rfl

/-- `count_used.add`, as `set_used` and `set_free` do it. -/
theorem countUsed_add (h : Counters ph H) {H' : Heap} {d : Int}
    (hH' : H'.WF) (hp : H'.pages = H.pages) (ht : H'.tiles = H.tiles)
    (hcount : ∀ i' k, (H'.countUsed i' k : Int) = H.countUsed i' k + if i' = i ∧ k = j then d else 0) :
    Counters (update ph i ((ph i).addCountUsed j d)) H' := by
  refine ⟨fun i' hi' k hk => ?_, fun i' hi' k hk => ?_⟩
  · rw [update_part (·.count), h.count i' (hp ▸ hi') k hk]
    · unfold Heap.count
      rw [ht]
    · rfl
  · rw [hp] at hi'
    have hc := hcount i' k
    rw [← h.countUsed i' hi' k hk] at hc
    by_cases hii : i' = i
    · subst hii
      simp only [true_and] at hc
      rw [update_self]
      exact PHCount.get_add _ hk hc ((hH'.countUsed_le_count i' k).trans (hH'.count_le i' hk))
    · rw [update_of_ne hii]
      simp only [hii, false_and, if_false] at hc
      omega

end Counters

/-! ## The functions of `FreeBlock` -/

section Functions

variable {L : Layout} {s : State} {H : Heap} {a i : Nat} {k : Fin 7} {b : Block}

theorem Rep.unused_header (hr : Rep L s H) (hb : b ∈ H.tiles) (hu : b ∉ H.used) :
    s.mem.read32 b.addr = headerWord b.cls False :=
  (hr.image.header b hb).trans (headerWord_congr _ (iff_of_false hu id))

theorem Rep.sizeno_eq (hr : Rep L s H) (hb : b ∈ H.tiles) : sizeno s.mem b.addr = b.cls :=
  sizeno_of_header (hr.wf.cls_le hb) (hr.image.header b hb)

theorem ph_ok (hs : sizeno s.mem a ≤ 7) (hp : a / 0x1000 = pageNo i) (hi : i < 1024) :
    ph s a = .ok i := by
  have hidx : sub32 (kaddr2va a) MMAP_KERNEL_TMP_PAGE_BASE / 0x1000 = i := by
    unfold sub32 kaddr2va add32 MMAP_KERNEL_TMP_PAGE_BASE MMAP_KERNEL_BASE
    unfold pageNo at hp
    omega
  unfold ph
  dsimp only
  rw [hidx, ASSERT_ok (by unfold LAST_SIZENO; omega), ASSERT_ok hi]
  rfl

theorem countAdd_ok (h : ph s a = .ok i) (j : Nat) (d : Int) : countAdd s a j d =
    .ok { s with
      pageHeaders := update s.pageHeaders i ((s.pageHeaders i).addCount j d) } := by
  unfold countAdd
  rw [h]
  rfl

theorem countUsedAdd_ok (h : ph s a = .ok i) (j : Nat) (d : Int) : countUsedAdd s a j d =
    .ok { s with
      pageHeaders := update s.pageHeaders i ((s.pageHeaders i).addCountUsed j d) } := by
  unfold countUsedAdd
  rw [h]
  rfl

theorem right_eq (hs : sizeno m a = j) (hb : a + size 32 j < 2 ^ 32) :
    FreeBlock.right m a = a + size 32 j := by
  unfold FreeBlock.right add32
  rw [size_of_sizeno hs, Nat.mod_eq_of_lt hb]

theorem left_eq (hs : sizeno m a = j) (hb : a < 2 ^ 32) (hle : size 32 j ≤ a) :
    FreeBlock.left m a = a - size 32 j := by
  unfold FreeBlock.left sub32
  rw [size_of_sizeno hs]
  omega

/-- `pair()` is the buddy. -/
theorem pair_eq (hs : sizeno m b.addr = b.cls) (hk : b.cls ≤ 6)
    (hlow : size 32 b.cls ≤ b.addr) (hb : b.addr + size 32 b.cls < 2 ^ 32) :
    FreeBlock.pair m b.addr = b.buddy 32 := by
  have hne : size 32 b.cls ≠ 0x1000 := by
    have hv := size_values (k := b.cls) (by omega)
    have h2 : 2 ≤ 2 ^ (7 - b.cls) := by
      calc 2 = 2 ^ 1 := rfl
        _ ≤ 2 ^ (7 - b.cls) := Nat.pow_le_pow_right (by omega) (by omega)
    intro he
    rw [he] at hv
    omega
  unfold FreeBlock.pair Block.buddy add32 sub32
  dsimp only
  rw [size_of_sizeno hs, if_neg hne]
  split <;> omega

theorem split_spec (hr : Rep L s H) (hh : H.held = some ⟨a, k + 1⟩) (hi : s.cpu.ifl = false) (hl : H.lists k = []) :
    ∃ s', FreeBlock.split L s a = .ok (a, s') ∧ Next L H.used s s' (H.split a k) := by
  have hwf := hr.wf
  obtain ⟨hb, hbu⟩ := hwf.held _ hh
  obtain ⟨p, hp, hpage⟩ := hwf.page hb
  have hpb := hwf.pages p hp
  have hbnd := hwf.bounds hb
  have hss := size_succ 32 k
  dsimp only at hbnd
  have hw : s.mem.read32 a = headerWord (k + 1) False := hr.unused_header hb hbu
  have hsz : sizeno s.mem a = k + 1 := hr.sizeno_eq hb
  have hsub : sub32 (k + 1) 1 = k := by
    unfold sub32
    omega
  have hph : ph s a = .ok p := ph_ok (by omega) hpage hpb
  have hcu : (s.pageHeaders p).count.get k = (s.pageHeaders p).countUsed.get k := by
    rw [hr.counters.count p hp k (by omega), hr.counters.countUsed p hp k (by omega)]
    refine hwf.count_eq_countUsed hl (fun c hc => ?_) p
    rw [hh] at hc
    cases hc
    dsimp only
    omega
  have hun : FreeBlock.unlist s.mem a = s.mem := if_pos (hr.image.held _ hh)
  unfold FreeBlock.split countUsedGet countGet
  rw [Cpu.assertIntDisable_ok hi]
  simp only [ok_bind, hph, hsz, hsub, pure, Except.pure, ASSERT_ok hcu, hun]
  have hm1 : setSizeno s.mem a k = s.mem.write32 a (headerWord k False) :=
    setSizeno_of_header (by omega) (by omega) hw
  have hw1 : (s.mem.write32 a (headerWord k False)).read32 a = headerWord k False :=
    Mem.read32_self _ _ (headerWord_lt (by omega) _)
  have hs1 : sizeno (s.mem.write32 a (headerWord k False)) a = k :=
    sizeno_of_header (by omega) hw1
  rw [hm1, countAdd_ok (ph_ok (by dsimp only; omega) hpage hpb), ok_bind,
    countAdd_ok (ph_ok (by dsimp only; omega) hpage hpb), ok_bind]
  have hright : FreeBlock.right (s.mem.write32 a (headerWord k False)) a = a + size 32 k :=
    right_eq hs1 (by omega)
  have hpair : FreeBlock.pair (s.mem.write32 a (headerWord k False)) a = a + size 32 k := by
    have hal := hwf.tiling.aligned _ hb
    refine (pair_eq (b := .lower a k) hs1 (by simp only [Block.lower]; omega) ?_ ?_).trans
      (Block.buddy_lower (by omega) hal)
    · simp only [Block.lower]
      omega
    · simp only [Block.lower]
      omega
  dsimp only
  rw [ASSERT_ok (hpair.trans hright.symm), hright, hw1, ok_bind]
  have hcut : init ((s.mem.write32 a (headerWord k False)).write32 (a + size 32 k)
      (headerWord k False)) (listNode (a + size 32 k)) = cutMem s.mem a k := rfl
  have hs2 : sizeno (cutMem s.mem a k) a = k :=
    sizeno_of_header (by omega) (cutMem_header s.mem (by omega)).1
  obtain ⟨hok, him, hkeep⟩ := hr.image.split hwf hh
  rw [hcut, hs2, ASSERT_ok hok, ok_bind, hs1]
  refine ⟨_, rfl, ⟨hwf.split hh, him, ?_, hr.pages⟩, hkeep, rfl,
    fun h => h.update (hr.pages ▸ hp) rfl fun _ hi => (update_of_ne hi ..).trans (update_of_ne hi ..)⟩
  rw [update_self, update_idem]
  refine count_add_add hr.counters (hwf.split hh) (by omega) rfl rfl fun q j => ?_
  have hc := split_count hwf hh q j
  have hq : a / 0x1000 = pageNo q ↔ q = p := by
    unfold InPage pageNo at *
    dsimp only at hpage
    omega
  simp only [eq_comm (a := j)]
  split_ifs at hc ⊢ <;> omega

theorem inPage_iff {p q : Nat} (hp : InPage p b) : InPage q b ↔ q = p := by
  unfold InPage pageNo at *
  omega

theorem setUsed_spec (hr : Rep L s H) (hh : H.held = some b) (hk : b.cls ≤ 6) :
    ∃ s', FreeBlock.setUsed s b.addr = .ok s' ∧ Next L H.used s s' (H.use b) := by
  have hwf := hr.wf
  obtain ⟨hb, hbu⟩ := hwf.held _ hh
  obtain ⟨p, hp, hpage⟩ := hwf.page hb
  have hm : BlockHeader.setUsed s.mem b.addr = s.mem.write32 b.addr (headerWord b.cls True) := by
    unfold BlockHeader.setUsed
    rw [hr.sizeno_eq hb]
    rfl
  have hs1 : sizeno (s.mem.write32 b.addr (headerWord b.cls True)) b.addr = b.cls :=
    sizeno_of_header (by omega) (Mem.read32_self _ _ (headerWord_lt (by omega) _))
  unfold FreeBlock.setUsed
  rw [ASSERT_ok (hr.image.held b hh), ok_bind, hm]
  dsimp only
  rw [countUsedAdd_ok (ph_ok (by dsimp only; omega) hpage (hwf.pages p hp)), hs1]
  refine ⟨_, rfl, ⟨hwf.use hh hk, hr.image.use hwf hh hk, ?_, hr.pages⟩,
    write_header_keeps hwf hb _, rfl, fun h => h.update (hr.pages ▸ hp) rfl fun _ hi => update_of_ne hi ..⟩
  refine countUsed_add hr.counters (hwf.use hh hk) rfl rfl fun q j => ?_
  rw [use_countUsed hwf hh, Nat.cast_add, Nat.cast_ite]
  simp only [inPage_iff hpage, eq_comm (a := j)]
  rfl

theorem setFree_spec (hr : Rep L s H) (hn : H.held = none) (hb : b ∈ H.used) :
    ∃ s', FreeBlock.setFree s b.addr = .ok s' ∧ Next L (H.used.erase b) s s' (H.unuse b) := by
  have hwf := hr.wf
  have hbt := hwf.used b hb
  have hk := hwf.used_cls hb
  obtain ⟨p, hp, hpage⟩ := hwf.page hbt
  have hfree : ¬ BlockHeader.isFree s.mem b.addr := by
    rw [isFree_of_header (by omega) (hr.image.header b hbt)]
    exact not_not.2 hb
  have hm : BlockHeader.setFree s.mem b.addr = s.mem.write32 b.addr (headerWord b.cls False) := by
    unfold BlockHeader.setFree
    rw [hr.sizeno_eq hbt]
    rfl
  have hs1 : sizeno (s.mem.write32 b.addr (headerWord b.cls False)) b.addr = b.cls :=
    sizeno_of_header (by omega) (Mem.read32_self _ _ (headerWord_lt (by omega) _))
  unfold FreeBlock.setFree
  rw [ASSERT_ok hfree, ok_bind, hm]
  dsimp only
  rw [countUsedAdd_ok (ph_ok (by dsimp only; omega) hpage (hwf.pages p hp)), hs1, ok_bind]
  obtain ⟨him, hkeep⟩ := hr.image.unuse hwf hb
  refine ⟨_, rfl, ⟨hwf.unuse hn hb, him, ?_, hr.pages⟩, hkeep, rfl,
    fun h => h.update (hr.pages ▸ hp) rfl fun _ hi => update_of_ne hi ..⟩
  refine countUsed_add hr.counters (hwf.unuse hn hb) rfl rfl fun q j => ?_
  have hc := unuse_countUsed hb q j
  simp only [inPage_iff hpage, eq_comm (b := j)] at hc
  split_ifs at hc ⊢ <;> omega

/-- A held block and its free buddy are the halves of a block. -/
theorem halves_of_buddy (h : H.WF) (hh : H.held = some b) (hk : b.cls = k) (hf : H.Free ⟨b.buddy 32, b.cls⟩) :
    ∃ a, H.Halves a k b ⟨b.buddy 32, b.cls⟩ ∧
      ((b.addr = a ∧ b.buddy 32 = a + size 32 k) ∨
        (b.addr = a + size 32 k ∧ b.buddy 32 = a)) := by
  obtain ⟨x, j⟩ := b
  dsimp only at hk
  subst hk
  rcases Block.buddy_cases (by omega) (h.tiling.aligned _ (h.held _ hh).1) with ⟨h1, h2⟩ | ⟨h1, h2⟩
  · refine ⟨x, ⟨hh, hf, h1, Or.inl ⟨rfl, ?_⟩⟩, Or.inl ⟨rfl, h2⟩⟩
    rw [h2]
    rfl
  · refine ⟨_, ⟨hh, hf, h1, Or.inr ⟨?_, rfl⟩⟩, Or.inr ⟨h2, rfl⟩⟩
    exact congrArg (fun y => Block.mk y k) h2

theorem merge_spec (hr : Rep L s H) (hh : H.held = some b) (hk : b.cls = k)
    (hf : H.Free ⟨b.buddy 32, b.cls⟩) (hi : s.cpu.ifl = false) :
    ∃ a ys zs s', FreeBlock.merge s b.addr = .ok (a, s') ∧ H.lists k = ys ++ b.buddy 32 :: zs ∧
      H.Halves a k b ⟨b.buddy 32, b.cls⟩ ∧ Next L H.used s s' (H.merge a k (ys ++ zs)) := by
  have hwf := hr.wf
  obtain ⟨hb, hbu⟩ := hwf.held _ hh
  have hkb : b.cls ≤ 6 := by omega
  obtain ⟨p, hp, hpage⟩ := hwf.page hb
  have hbnd := hwf.bounds hb
  have hsmall : size 32 b.cls ≤ 0x1000 := size_le (by omega)
  have hw := hr.unused_header hb hbu
  have hwc : s.mem.read32 (b.buddy 32) = headerWord b.cls False := hr.unused_header hf.1 hf.2.1
  have hsz := hr.sizeno_eq hb
  have hpair : FreeBlock.pair s.mem b.addr = b.buddy 32 := pair_eq hsz hkb (by omega) (by omega)
  obtain ⟨a, hc, hab⟩ := halves_of_buddy hwf hh hk hf
  have hmem : b.buddy 32 ∈ H.lists k := (hwf.lists k _).2 (hk ▸ hf)
  obtain ⟨ys, zs, hx⟩ := append_of_mem hmem
  have hlist := list_of_listed hr.image.lists hmem
  have hnot : ¬ isFree s.mem (listNode (b.buddy 32)) := by
    unfold isFree
    rw [hlist]
    unfold Layout.list
    omega
  refine ⟨a, ys, zs, ?_⟩
  have him := hr.image.merge hwf hc hx
  have hrel := (erase_relisted hr.image.lists hx).2.2
  have hheader : ∀ d ∈ H.tiles,
      (List2.erase s.mem (L.list k) (listNode (b.buddy 32))).2.read32 d.addr =
        s.mem.read32 d.addr := fun d hd =>
    Relisted.header (b := ⟨b.buddy 32, b.cls⟩) hrel hwf hf.1 hd
  unfold FreeBlock.merge
  rw [Cpu.assertIntDisable_ok hi, ok_bind, hpair]
  dsimp only
  rw [ASSERT_ok ((isFree_of_header (by omega) hwc).2 id), ok_bind,
    ASSERT_ok ((isFree_of_header (by omega) hw).2 id), ok_bind,
    ASSERT_ok ((sizeno_of_header (by omega) hwc).trans hsz.symm), ok_bind,
    ASSERT_ok (hr.image.held b hh), ok_bind, ASSERT_ok hnot, ok_bind, hlist]
  generalize (List2.erase s.mem (L.list k) (listNode (b.buddy 32))).2 = m1 at hheader him ⊢
  have hsz1 : sizeno m1 b.addr = b.cls := sizeno_of_header (by omega) ((hheader b hb).trans hw)
  rw [countAdd_ok (ph_ok (by dsimp only; omega) hpage (hwf.pages p hp)), ok_bind,
    countAdd_ok (ph_ok (by dsimp only; omega) hpage (hwf.pages p hp)), ok_bind]
  dsimp only
  rw [hsz1, left_eq hsz1 (by omega) (by omega)]
  have hres : (if b.buddy 32 = b.addr - size 32 b.cls then b.buddy 32 else b.addr) = a := by
    rw [← hk] at hab
    split <;> omega
  have hlow := hc.mem hwf
  have hwa : m1.read32 a = headerWord k False :=
    (hheader _ hlow.1).trans (hr.unused_header hlow.1 (hc.not_used hwf).1)
  rw [hres, sizeno_of_header (by omega) hwa, setSizeno_of_header (by omega) (by omega) hwa,
    ASSERT_ok (him.1.held _ rfl), ok_bind, update_self, update_idem, hk]
  have hwf' := hwf.merge hc (l := ys ++ zs) (hx ▸ perm_middle)
  refine ⟨_, rfl, hx, hk ▸ hc, ⟨hwf', him.1, ?_, hr.pages⟩, him.2, rfl,
    fun h => h.update (hr.pages ▸ hp) rfl fun _ hi => update_of_ne hi ..⟩
  refine count_add_add hr.counters hwf' (by omega) rfl rfl fun q j => ?_
  have hcount := merge_count (l := ys ++ zs) hwf hc q j
  have hq : a / 0x1000 = pageNo q ↔ q = p := by
    have hpa : a / 0x1000 = b.addr / 0x1000 := by
      rcases hab with ⟨h1, -⟩ | ⟨-, h1⟩
      · rw [h1]
      · rw [← h1]
        exact buddy_page hkb (hwf.tiling.aligned b hb)
    unfold InPage pageNo at *
    omega
  simp only [eq_comm (a := j)]
  split_ifs at hcount ⊢ <;> omega

/-- A push of the held block, whatever operation made it. -/
theorem put_next (hr : Rep L s H) (hh : H.held = some ⟨a, k⟩) {m' : Mem}
    (hl : l.Perm (a :: H.lists k)) (hm : Relisted L s.mem m' H.lists (update H.lists k l) a) :
    Next L H.used s { s with mem := m' } (H.put k l) := by
  obtain ⟨him, hkeep⟩ := hr.image.put hr.wf hh hm
  exact ⟨⟨hr.wf.put hh hl, him, ⟨hr.counters.count, hr.counters.countUsed⟩, hr.pages⟩, hkeep, rfl, id⟩

theorem take_next (hr : Rep L s H) (hn : H.held = none) (hx : H.lists k = ys ++ a :: zs) :
    Next L H.used s { s with mem := (List2.erase s.mem (L.list k) (listNode a)).2 }
      (H.take k a (ys ++ zs)) := by
  obtain ⟨him, hkeep⟩ := hr.image.take hr.wf hx
  exact ⟨⟨hr.wf.take hn (hx ▸ perm_middle), him,
    ⟨hr.counters.count, hr.counters.countUsed⟩, hr.pages⟩, hkeep, rfl, id⟩

/-- `pop_front` of a non-empty list. -/
theorem popFront_next (hr : Rep L s H) (hn : H.held = none) (hx : H.lists k = a :: l) :
    List2.first s.mem (L.list k) = listNode a ∧ (List2.popFront s.mem (L.list k)).1 = true ∧
      Next L H.used s { s with mem := (List2.popFront s.mem (L.list k)).2 } (H.take k a l) := by
  have hx' : listNodes H.lists k = listNode a :: l.map listNode := by
    unfold listNodes
    rw [hx, List.map_cons]
  have hfirst : List2.first s.mem (L.list k) = listNode a := by
    refine (hr.image.lists.first_eq (i := k)).trans ?_
    rw [hx']
    rfl
  have heq : List2.popFront s.mem (L.list k) = (true, (List2.erase s.mem (L.list k) (listNode a)).2) :=
    hr.image.lists.popFront_eq (i := k) hx'
  have hx'' : H.lists k = [] ++ a :: l := hx
  rw [heq]
  exact ⟨hfirst, rfl, take_next hr hn hx''⟩

theorem tmpPageKaddr_eq (hi : i < 1024) : tmpPageKaddr i = (pageBlock i).addr := by
  unfold tmpPageKaddr va2kaddr sub32 MMAP_KERNEL_TMP_PAGE_BASE MMAP_KERNEL_BASE pageBlock pageNo
  dsimp only
  omega

theorem tmpPageAllocMap_cpu (s : State) (p : TmpPage) : (tmpPageAllocMap s p).cpu = s.cpu := by
  unfold tmpPageAllocMap
  rfl

/-- The bit field holds what was written to it. -/
theorem sizeno_setSizeno (m : Mem) (a j : Nat) : sizeno (setSizeno m a j) a = j % 2 ^ 4 := by
  have hlt := m.read32_lt a
  unfold sizeno setSizeno
  dsimp only
  rw [Mem.read32_write32]
  omega

/-- The memory of a new page after the first lines of `init`. -/
def initMem (m : Mem) (a : Nat) : Mem :=
  init (BlockHeader.setFree (setSizeno m a (LAST_SIZENO + 1)) a) (listNode a)

theorem initMem_frame (m : Mem) (h : x < a ∨ a + 16 ≤ x) : initMem m a x = m x := by
  unfold initMem BlockHeader.setFree setSizeno
  rw [init_apply _ (by unfold listNode; omega), Mem.write32_apply _ _ (by omega),
    Mem.write32_apply _ _ (by omega)]

theorem initMem_header (m : Mem) (a : Nat) :
    (BlockHeader.setFree (setSizeno m a (LAST_SIZENO + 1)) a).read32 a = headerWord 7 False ∧
      (initMem m a).read32 a = headerWord 7 False := by
  have h1 : (BlockHeader.setFree (setSizeno m a (LAST_SIZENO + 1)) a).read32 a =
      headerWord 7 False := by
    unfold BlockHeader.setFree
    rw [sizeno_setSizeno, Mem.read32_self _ _ (by decide)]
    decide
  refine ⟨h1, ?_⟩
  rw [← h1]
  exact Mem.read32_congr fun x h1 h2 => init_apply _ (by unfold listNode; omega)

/-- The state `split` is called in when a page is new. -/
theorem addPage_next {p : TmpPage} (hr : Rep L s H) (hn : H.held = none)
    (hpi : p.index < 1024) (hpn : p.index ∉ s.tmpPages) :
    Next L H.used s
      { s with
        mem := initMem (tmpPageAllocMap s p).mem (pageBlock p.index).addr
        pageHeaders := update s.pageHeaders p.index PageHeader.zero
        tmpPages := insert p.index s.tmpPages }
      (H.addPage p.index) := by
  rw [hr.pages] at hpn
  have hwf := hr.wf
  have haddr := tmpPageKaddr_eq hpi
  have hbase : (pageBlock p.index).addr = pageNo p.index * 0x1000 := rfl
  have hframe : ∀ x, x / 0x1000 ≠ pageNo p.index →
      initMem (tmpPageAllocMap s p).mem (pageBlock p.index).addr x = s.mem x := by
    intro x hx
    rw [initMem_frame _ (by omega)]
    unfold tmpPageAllocMap
    dsimp only
    rw [haddr, if_neg (by omega)]
  obtain ⟨him, hkeep⟩ := hr.image.addPage hwf hpn hframe (initMem_header _ _).2
    (isFree_init _ _)
  refine ⟨⟨hwf.addPage hn hpn hpi, him, ⟨fun q hq k hk => ?_, fun q hq k hk => ?_⟩, ?_⟩, hkeep, rfl, fun h i hi => ?_⟩
  · dsimp only
    rw [addPage_count hwf hpn q hk]
    by_cases hqi : q = p.index
    · subst hqi
      rw [update_self, (PHCount.get_zero hk).1, hwf.count_of_not_page hpn]
    · rw [update_of_ne hqi]
      exact hr.counters.count q ((mem_insert.1 hq).resolve_left hqi) k hk
  · have hsame : (H.addPage p.index).countUsed q k = H.countUsed q k := rfl
    dsimp only
    rw [hsame]
    by_cases hqi : q = p.index
    · subst hqi
      have h0 := hwf.countUsed_le_count p.index k
      rw [hwf.count_of_not_page hpn] at h0
      rw [update_self, (PHCount.get_zero hk).2]
      omega
    · rw [update_of_ne hqi]
      exact hr.counters.countUsed q ((mem_insert.1 hq).resolve_left hqi) k hk
  · exact congrArg (insert p.index) hr.pages
  · rw [mem_insert, not_or] at hi
    exact (update_of_ne hi.1 ..).trans (h i hi.2)

end Functions

end MakarnaX.Kmalloc
