import MakarnaX.Memory.Paging.Frames

/-!
# The list of free frames is a queue

`page_alloc` and `page_free` called one after the other, from a list with no
frame on it.  A frame that is freed goes behind the others and the first one is
handed out, so the calls do what they would do to a queue of numbers.  No call
that meets the assertions of the function fails.
-/

namespace MakarnaX

open Library List

variable {pagesNr : Nat} {ty : Nat → PageType} {s : Phys} {L : Ledger Nat} {c : Cpu}

/-- A call of `page_alloc` or `page_free`. -/
inductive FrameOp
  | alloc
  | free (p : Nat)

namespace FrameOp

/-- What `page_alloc` returns; `none` is `-ENOMEM`. -/
def run : FrameOp → PhysM (Option Nat)
  | alloc => pageAlloc
  | free p => do pageFree p; return none

/-- The assertions of the call hold. -/
def allowed (pagesNr : Nat) (s : Phys) : FrameOp → Prop
  | alloc => True
  | free p => p ≠ 0 ∧ p < pagesNr ∧ (s.pages p).type = .available ∧ (s.pages p).free = false ∧
      (s.pages p).refcountGet = 0

/-- The call on a queue. -/
def fifo : FrameOp → List Nat → Option Nat × List Nat
  | alloc, q => (q.head?, q.tail)
  | free p, q => (none, q ++ [p])

end FrameOp

/-- The calls one after the other. -/
def frameOps : List FrameOp → PhysM (List (Option Nat))
  | [] => return []
  | op :: ops => do
    let r ← op.run
    return r :: (← frameOps ops)

/-- Every call is allowed where it is made. -/
def FramesAllowed (pagesNr : Nat) : List FrameOp → Phys → Prop
  | [], _ => True
  | op :: ops, s => op.allowed pagesNr s ∧ ∀ r s', op.run s = .ok (r, s') → FramesAllowed pagesNr ops s'

/-- The calls on a queue: what they return and what is left. -/
def fifoOps : List FrameOp → List Nat → List (Option Nat) × List Nat
  | [], q => ([], q)
  | op :: ops, q => ((op.fifo q).1 :: (fifoOps ops (op.fifo q).2).1, (fifoOps ops (op.fifo q).2).2)

/-! ## One call -/

/-- A call that is allowed returns and does what it does to a queue. -/
theorem FrameOp.step {op : FrameOp} (A : s.Account pagesNr ty L c) (hc : c.ifl = false) (h : op.allowed pagesNr s) :
    ∃ s', op.run s = .ok ((op.fifo L.free).1, s') ∧
      ∃ L' : Ledger Nat, s'.Account pagesNr ty L' c ∧ L'.free = (op.fifo L.free).2 := by
  cases op with
  | alloc =>
    cases hL : L.free with
    | nil => exact ⟨s, A.pageAlloc_none hc hL, L, A, hL⟩
    | cons p rest =>
      obtain ⟨s', hs, A'⟩ := A.pageAlloc_some hc hL
      exact ⟨s', hs, _, A', rfl⟩
  | free p =>
    obtain ⟨h0, hN, ht, hf, hr⟩ := h
    have hp := A.rep.notMem_of_not_free hf
    have hrefs : L.refs p = 0 := by rw [← A.rep.refs p hp, ← hr, Page.refcountGet, hf, if_neg Bool.false_ne_true]
    obtain ⟨s', hs, A'⟩ := A.pageFree hc hN h0 hp hrefs (A.types p ▸ ht)
    exact ⟨s', bind_run hs, _, A', rfl⟩

/-! ## Runs -/

theorem frameOps_account {ops : List FrameOp} (A : s.Account pagesNr ty L c) (hc : c.ifl = false)
    (h : FramesAllowed pagesNr ops s) :
    ∃ s', frameOps ops s = .ok ((fifoOps ops L.free).1, s') ∧
      ∃ L' : Ledger Nat, s'.Rep pagesNr L' ∧ L'.free = (fifoOps ops L.free).2 := by
  induction ops generalizing s L with
  | nil => exact ⟨s, rfl, L, A.rep, rfl⟩
  | cons op ops ih =>
    obtain ⟨s1, h1, L1, A1, hL1⟩ := op.step A hc h.1
    obtain ⟨s', h', L', R', hL'⟩ := ih A1 (h.2 _ _ h1)
    rw [hL1] at h' hL'
    exact ⟨s', by rw [frameOps, bind_run h1, bind_run h']; rfl, L', R', hL'⟩

/-- Frames of which none is on the list, with interrupts disabled. -/
structure NoFrameFree (s : Phys) : Prop where
  list : s.freePageList = .init
  free : ∀ f, (s.pages f).free = false
  field : ∀ f, (s.pages f).nextFreeIndexOrRefCount < 2 ^ 20
  ifl : s.cpu.ifl = false

theorem NoFrameFree.rep (N : NoFrameFree s) :
    s.Rep pagesNr ⟨[], fun f => (s.pages f).nextFreeIndexOrRefCount, nodup_nil, fun _ h => (by cases h)⟩ where
  first := by rw [N.list]; rfl
  last := by rw [N.list]; rfl
  count := by rw [N.list]; rfl
  linked := Linked.nil
  free f := by simp [N.free f]
  refs _ _ := rfl
  bound f hf := by cases hf
  small := N.field

/-- The chain of the free frames is the queue `q`. -/
structure FrameQueue (pagesNr : Nat) (s : Phys) (q : List Nat) : Prop where
  chain : s.freeFrames pagesNr = q
  ends : s.freePageList.endPage = q.getLast?
  count : s.freePageList.count = q.length
  distinct : q.Nodup
  free : ∀ f, (s.pages f).free = true ↔ f ∈ q

theorem Phys.Rep.queue (R : s.Rep pagesNr L) (hN : pagesNr ≤ 2 ^ 20) : FrameQueue pagesNr s L.free where
  chain := R.freeFrames
  ends := R.last
  count := by
    have hlen : L.free.length ≤ pagesNr := by
      simpa using (subperm_of_subset L.nodup fun f hf => mem_range.mpr (R.bound f hf).2).length_le
    rw [R.count, Nat.mod_eq_of_lt (by omega)]
  distinct := L.nodup
  free := R.free

/-- `page_alloc` and `page_free` are a queue: the frames come back in the order in
which they were freed, and none comes exactly when none is left. -/
theorem frames_are_fifo (pagesNr : Nat) (hN : pagesNr ≤ 2 ^ 20) (s : Phys) (hs : NoFrameFree s) (ops : List FrameOp)
    (h : FramesAllowed pagesNr ops s) :
    ∃ s', frameOps ops s = .ok ((fifoOps ops []).1, s') ∧ FrameQueue pagesNr s' (fifoOps ops []).2 := by
  obtain ⟨s', h', L', R', hL'⟩ := frameOps_account ⟨hs.rep, fun _ => rfl, fun _ h => (by cases h), .refl _⟩ hs.ifl h
  exact ⟨s', h', hL' ▸ R'.queue hN⟩

/-- Two frames are freed and one is taken. -/
theorem frames_are_fifo_three : ∃ s', frameOps [.free 2, .free 1, .alloc]
      ⟨fun _ => ⟨0, false, .available⟩, .init, ⟨false, 0, false⟩⟩ = .ok ([none, none, some 2], s') ∧
    FrameQueue 3 s' [1] := by
  refine frames_are_fifo 3 (by decide) _ ⟨rfl, fun _ => rfl, fun _ => Nat.two_pow_pos 20, rfl⟩ [.free 2, .free 1, .alloc] ?_
  refine ⟨by simp [FrameOp.allowed, Page.refcountGet], fun r s' h => ?_⟩
  cases h
  refine ⟨by simp [FrameOp.allowed, Page.refcountGet, Phys.setNext, Phys.setPage], fun r s' h => ?_⟩
  cases h
  exact ⟨trivial, fun _ _ _ => trivial⟩

end MakarnaX
