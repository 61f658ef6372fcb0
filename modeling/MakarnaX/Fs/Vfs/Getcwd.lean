import Mathlib.Data.List.GetD
import MakarnaX.Fs.Vfs.LongNames

/-!
# The path of a dirent

`dirent_topath` goes up from a dirent to the root, remembers the dirents it passes in
an array of 100, and then writes their names behind slashes into the buffer.  The way
up is a walk in the tree on disk, turned round: each dirent that is not removed hangs
below its parent by the slot of its name (`walk_up`).  The inodes on a walk are all
different, and there are no more than 100 of them, so the array is large enough
(`dirStack_eq`).

The names on the way have no slash in them and are neither `.` nor `..`.  So what is
written (`topath_written`) falls apart again into the same names, and the cache leads
along them, from the root, back to the dirent (`Climbs.hops`).
-/

namespace MakarnaX.Vfs

open Library Denemefs Subdentry Function List State

variable {s s' : State} {d x : Nat} {l : List Nat}

/-! ## The way up -/

/-- What was removed, and the root, have no parent. -/
def Tops (s : State) : Prop := ∀ d, d < s.nDirents → (s.dirents d).inode = none ∨ d = 0 → (s.dirents d).parent = none

theorem Similar.tops (S : Similar s s') (T : Tops s) : Tops s' := by
  intro d hd h
  rw [S.inode] at h
  rw [S.parent]
  exact T d (S.nDirents ▸ hd) h

theorem Moves.tops {h : Nat → Int} (C : Coherent s) (m : Moves s h s') (T : Tops s) : Tops s' := by
  induction m with
  | refl => exact T
  | dup _ _ ih => exact (Similar.dup _ _).tops ih
  | drop _ _ _ ih => exact (Similar.drop _ _).tops ih
  | spare _ ih => exact (Similar.spare _).tops ih
  | @add h s' dir name x m F ih =>
    intro d hd hc
    have hlt : d < s'.nDirents ∨ d = s'.nDirents := Nat.lt_succ_iff_lt_or_eq.mp hd
    rcases hlt with hd | rfl
    · have hold := add_dirent_old dir name x hd
      rw [hold.1] at hc
      rw [hold.2.2.1]
      exact ih d hd hc
    · rw [add_dirent_new F.lt] at hc
      rcases hc with hc | hc
      · cases hc
      · exact absurd hc (Nat.ne_of_gt (m.coherent C).pos)

theorem Act.tops {δ ε : Nat → Int} (S : Sane s) (a : Act s δ ε s') (T : Tops s) : Tops s' := by
  cases a with
  | moves m => exact m.tops S.coherent T
  | @detach y _ _ _ c =>
    intro d hd h
    by_cases hc : d = c
    · subst hc
      simp [State.detach]
    · by_cases hy : d = y
      · subst hy
        simp only [State.detach, update_of_ne hc, update_self] at h ⊢
        exact T d hd h
      · simp only [State.detach, update_of_ne hc, update_of_ne hy] at h ⊢
        exact T d hd h
  | _ => exact T

theorem Acts.tops {δ ε : Nat → Int} (S : Sane s) (A : Acts s δ ε s') (T : Tops s) : Tops s' := by
  induction A with
  | refl => exact T
  | step A a ih => exact a.tops (A.sane S) ih

theorem tops (h : system.Reachable s) : Tops s := by
  have hinv : Sane s ∧ Tops s := by
    refine System.Reachable.invariant (I := fun s => Sane s ∧ Tops s) ?_ ?_ h
    · rintro s ⟨t, ht, rfl⟩
      exact ⟨.start (Denemefs.started (.init ht)), fun _ _ _ => rfl⟩
    · rintro s s' ⟨S, T⟩ ⟨c, ⟨h1, h2, h3⟩, hr⟩
      obtain ⟨δ, ε, A, -⟩ := (Call.does S h1 h2 h3 hr).acts S
      exact ⟨A.sane S, A.tops S T⟩
  exact hinv.2

/-- The dirents that are passed on the way up from `d`. -/
inductive Climbs (s : State) : Nat → List Nat → Prop
  | top {d : Nat} : (s.dirents d).parent = none → Climbs s d []
  | up {d p : Nat} {l : List Nat} : (s.dirents d).parent = some p → Climbs s p l → Climbs s d (d :: l)

theorem Climbs.frame (H : Climbs s d l) (hd : s'.dirents = s.dirents) : Climbs s' d l := by
  induction H with
  | top hp => exact .top (hd ▸ hp)
  | up hp _ ih => exact .up (hd ▸ hp) ih

theorem Climbs.dirStack (H : Climbs s d l) {room : Nat} (hroom : l.length ≤ room) :
    dirStack room d s = .ok (l, s) := by
  induction H generalizing room with
  | @top d hp =>
    cases room with
    | zero => simp [Vfs.dirStack, hp]
    | succ room => simp [Vfs.dirStack, hp]
  | @up d p l hp _ ih =>
    cases room with
    | zero => cases hroom
    | succ room => simp [Vfs.dirStack, hp, ih (Nat.le_of_succ_le_succ hroom)]

/-- A child is found under its name: no other has it. -/
theorem cached_child (C : Coherent s) {p c : Nat} (hp : p < s.nDirents) (hc : c ∈ (s.dirents p).childs) :
    cached s p (s.dirents c).name = some c := by
  cases hf : cached s p (s.dirents c).name with
  | none => exact absurd (decide_eq_true rfl) (find?_eq_none.mp hf c hc)
  | some c' =>
    obtain ⟨hm, hn⟩ := cached_mem hf
    obtain ⟨a, b, ha, hb, -, he⟩ := (C.child hp hc).entry
    obtain ⟨a', b', ha', hb', -, he'⟩ := (C.child hp hm).entry
    obtain rfl : a = a' := Option.some.inj (ha.symm.trans ha')
    obtain rfl : b' = b := Option.some.inj (he'.symm.trans (hn ▸ he))
    rw [C.inj (C.child hp hm).lt (C.child hp hc).lt hb' hb]

theorem Hops.snoc {a b c : Nat} {l : List CString} {name : CString} (H : Hops s a l b)
    (hb : (s.dirents b).inode ≠ none) (hc : Hop s 0 b name c) : Hops s a (l ++ [name]) c := by
  induction H with
  | nil => exact .cons hb hc .nil
  | cons ha h _ ih => exact .cons ha h (ih hb hc)

/-- A dirent that is not removed, the walk on disk that leads to its inode, and the way
up: the names lead down it again. -/
theorem walk_up (C : Coherent s) (T : Tops s) {p : List Nat} (hw : Walk (LiveSlot s.disk) 0 p x)
    (hd : d < s.nDirents) (hx : number s d = some x) :
    ∃ l, l.length = p.length ∧ Climbs s d l ∧ Hops s 0 (l.reverse.map fun c => (s.dirents c).name) d ∧
      ∀ c ∈ l, Proper (s.dirents c).name ∧ (s.dirents c).name.length < 32 := by
  induction hw generalizing d with
  | nil =>
    obtain rfl : d = 0 := C.inj hd C.pos hx C.root
    exact ⟨[], rfl, .top (T 0 hd (.inr rfl)), .nil, nofun⟩
  | @snoc p v x k _ hslot ih =>
    have hd0 : d ≠ 0 := by
      rintro rfl
      exact hslot.2.2.2 (Option.some.inj (hx.symm.trans C.root))
    have hlive : (s.dirents d).inode ≠ none := fun h => nomatch (number_eq_none.mpr h).symm.trans hx
    obtain ⟨q, hq, hpar, hm⟩ := C.up hd hd0 hlive
    have H := C.child hq hm
    obtain ⟨a, b, ha, hb, hda, he⟩ := H.entry
    obtain rfl : b = x := Option.some.inj (hb.symm.trans hx)
    obtain ⟨k', hl, -⟩ := liveSlot_of_entry C.disk.toInv hda H.proper.1.1 he
    obtain ⟨rfl, -⟩ := C.disk.tree.single hl hslot
    obtain ⟨l, hlen, hup, hops, hnames⟩ := ih hq ha
    have hqlive : (s.dirents q).inode ≠ none := fun h => nomatch (number_eq_none.mpr h).symm.trans ha
    refine ⟨d :: l, by simp [hlen], .up hpar hup, ?_, fun c hc => ?_⟩
    · rw [reverse_cons, map_append, map_singleton]
      exact hops.snoc hqlive (.child H.proper.2.1 H.proper.2.2 (cached_child C hq hm))
    · rcases mem_cons.mp hc with rfl | hc
      · exact ⟨H.proper, length_of_entry C.disk.toInv hda he⟩
      · exact hnames c hc

/-- The way up from a dirent that is not removed passes less than 100 others. -/
theorem climbs (C : Coherent s) (T : Tops s) (hd : d < s.nDirents) (hx : number s d = some x) :
    ∃ l, l.length < 100 ∧ Climbs s d l ∧ Hops s 0 (l.reverse.map fun c => (s.dirents c).name) d ∧
      ∀ c ∈ l, Proper (s.dirents c).name ∧ (s.dirents c).name.length < 32 := by
  have I := C.disk.toInv
  have hused : Used s.disk x := by
    obtain ⟨i, hi, rfl⟩ := Option.map_eq_some_iff.mp hx
    exact (C.known hd hi).used
  obtain ⟨p, hw⟩ := I.tree.reach hused
  obtain ⟨l, hlen, h⟩ := walk_up C T hw hd hx
  refine ⟨l, ?_, h⟩
  have hp := I.tree.length_lt I.root.1 (fun v hv => mem_range.mpr (I.bound v hv)) hw
  rw [length_range] at hp
  exact hlen ▸ hp

/-! ## The names behind slashes -/

/-- The names, with a slash in front of each. -/
def slashed (names : List CString) : List UInt8 := names.flatMap fun name => slash :: name.bytes

theorem slashed_cons (name : CString) (names : List CString) :
    slashed (name :: names) = slash :: (name.bytes ++ slashed names) := flatMap_cons

theorem length_slashed_cons (name : CString) (names : List CString) :
    (slashed (name :: names)).length = name.length + 1 + (slashed names).length := by
  rw [slashed_cons, length_cons, length_append, CString.length]
  omega

theorem nonzero_slashed (names : List CString) : 0 ∉ slashed names := by
  intro h
  obtain ⟨name, -, h⟩ := mem_flatMap.mp h
  rcases mem_cons.mp h with h | h
  · exact absurd h (by decide)
  · exact name.nonzero h

/-- The path of the names, which for none of them is the one of the root. -/
def pathOf (names : List CString) : CString :=
  if names = [] then ⟨[slash], by decide⟩ else ⟨slashed names, nonzero_slashed names⟩

theorem head_pathOf (names : List CString) : (pathOf names).bytes.head? = some slash := by
  cases names with
  | nil => rfl
  | cons name names => rfl

theorem slashComponents_slashed {names : List CString} (h : ∀ name ∈ names, Plain name) :
    slashComponents (slashed names) = names.map CString.bytes := by
  have hcons : ∀ (name : CString) (names : List CString), (∀ n ∈ name :: names, Plain n) →
      slashComponents (name.bytes ++ slashed names) = (name :: names).map CString.bytes := by
    intro name names
    induction names generalizing name with
    | nil =>
      intro h
      obtain ⟨hne, hs⟩ := h name mem_cons_self
      have hb : name.bytes ≠ [] := fun hb => hne (CString.ext hb)
      simp [slashed, slashComponents_plain hs, hb]
    | cons name' names ih =>
      intro h
      have hs := (h name mem_cons_self).2
      have hne := (h name mem_cons_self).1
      have hb : name.bytes ≠ [] := fun hb => hne (CString.ext hb)
      rw [slashed_cons, slashComponents_append, ih name' fun n hn => h n (mem_cons_of_mem _ hn),
        slashComponents_plain hs]
      simp [hb]
  cases names with
  | nil => rfl
  | cons name names =>
    rw [slashed_cons, ← nil_append (slash :: _), slashComponents_append, hcons name names h]
    rfl

theorem slashComponents_pathOf {names : List CString} (h : ∀ name ∈ names, Plain name) :
    slashComponents (pathOf names).bytes = names.map CString.bytes := by
  by_cases hn : names = []
  · subst hn
    decide
  · rw [pathOf, if_neg hn]
    exact slashComponents_slashed h

theorem names_pathOf {l : List CString} (h : ∀ name ∈ l, Plain name) : names (pathOf l).bytes = l := by
  rw [names, components_eq, slashComponents_pathOf h, map_map]
  exact (map_congr_left fun name _ => CString.ext (cstring_bytes name.nonzero)).trans (map_id l)

/-! ## What is written -/

theorem sub32_eq {x y : Nat} (hx : x < 2 ^ 32) (hy : y ≤ x) : sub32 x y = x - y := by
  unfold sub32
  omega

/-- What the second loop of `dirent_topath` leaves in a buffer of `total` bytes: from
the slash at `k` on the names behind slashes, and a zero.  It stores nowhere else. -/
structure Written (b r : PathBuffer) (k : Nat) (bytes : List UInt8) (total : Nat) : Prop where
  before : ∀ x, x < k → r.buf x = b.buf x
  bytes : ∀ i, i ≤ bytes.length → r.buf (k + i) = bytes.getD i 0
  stores : (∀ p ∈ b.stores, p.1 + p.2 ≤ total) → ∀ p ∈ r.stores, p.1 + p.2 ≤ total

/-- One turn of that loop. -/
def PathBuffer.turn (b : PathBuffer) (name : CString) (size : Nat) (c : UInt8) : PathBuffer :=
  (b.strncpy name (size - 1)).put (name.length + 1) c

section Turn

variable {b : PathBuffer} {name : CString} {size k : Nat} {c : UInt8} (hj : b.j = k + 1)

include hj

theorem turn_before (hx : x ≤ k) : (b.turn name size c).buf x = b.buf x := by
  have h1 : x ≠ b.j + (name.length + 1) - 1 := by omega
  have h2 : ¬ (b.j ≤ x ∧ x < b.j + (size - 1)) := by omega
  exact (update_of_ne h1 _ _).trans (if_neg h2)

theorem turn_name (hsize : name.length < size - 1) {i : Nat} (hi : i < name.length) :
    (b.turn name size c).buf (k + 1 + i) = name.bytes.getD i 0 := by
  have h1 : k + 1 + i ≠ b.j + (name.length + 1) - 1 := by omega
  have h2 : b.j ≤ k + 1 + i ∧ k + 1 + i < b.j + (size - 1) := by omega
  have h3 : k + 1 + i - b.j = i := by omega
  exact (update_of_ne h1 _ _).trans ((if_pos h2).trans (by rw [h3]))

theorem turn_after : (b.turn name size c).buf (k + 1 + name.length) = c := by
  have h : k + 1 + name.length = b.j + (name.length + 1) - 1 := by omega
  rw [h]
  exact update_self _ _ _

theorem turn_stores (hsize : name.length + 1 < size) (hb : ∀ p ∈ b.stores, p.1 + p.2 ≤ k + size) :
    ∀ p ∈ (b.turn name size c).stores, p.1 + p.2 ≤ k + size := by
  intro p hp
  simp only [PathBuffer.turn, PathBuffer.put, PathBuffer.strncpy, append_assoc, mem_append,
    mem_singleton] at hp
  rcases hp with hp | rfl | rfl
  · exact hb p hp
  · show b.j + (size - 1) ≤ k + size
    omega
  · show b.j + (name.length + 1) - 1 + 1 ≤ k + size
    omega

end Turn

theorem topathLoop_cons {name : CString} {names : List CString} {size : Nat} (b : PathBuffer) (hsize : size < 2 ^ 32)
    (hroom : name.length + 1 ≤ size) : topathLoop (name :: names) size b =
      topathLoop names (size - (name.length + 1)) (b.turn name size (if names ≠ [] then slash else 0)) := by
  rw [topathLoop, if_pos (by omega), sub32_eq hsize (by omega), sub32_eq hsize (by omega)]
  rfl

theorem topathLoop_written {names : List CString} (hne : names ≠ []) {size k : Nat} {b : PathBuffer}
    (hj : b.j = k + 1) (hslash : b.buf k = slash) (hsize : size < 2 ^ 32)
    (hroom : (slashed names).length < size) : Written b (topathLoop names size b) k (slashed names) (k + size) := by
  induction names generalizing size k b with
  | nil => exact absurd rfl hne
  | cons name names ih =>
    rw [length_slashed_cons] at hroom
    rw [topathLoop_cons b hsize (by omega), slashed_cons]
    by_cases hn : names = []
    · subst hn
      simp only [topathLoop, slashed, flatMap_nil, append_nil, ne_eq, not_true, if_false]
      refine ⟨fun x hx => turn_before hj (Nat.le_of_lt hx), fun i hi => ?_, turn_stores hj (by omega)⟩
      cases i with
      | zero => exact (turn_before hj (Nat.le_refl k)).trans hslash
      | succ i =>
        rw [← Nat.add_assoc, Nat.add_right_comm, getD_cons_succ]
        rcases Nat.lt_or_eq_of_le (Nat.le_of_succ_le_succ hi) with hi | rfl
        · exact turn_name hj (by omega) hi
        · rw [getD_eq_default _ _ (Nat.le_refl _)]
          exact turn_after hj
    · rw [if_pos hn]
      have hless : size - (name.length + 1) < 2 ^ 32 := by omega
      have W := ih hn (k := k + 1 + name.length) (b := b.turn name size slash) (by simp only [PathBuffer.turn, PathBuffer.put, PathBuffer.strncpy]; omega)
        (turn_after hj) hless (by omega)
      rw [show k + 1 + name.length + (size - (name.length + 1)) = k + size by omega] at W
      refine ⟨fun x hx => ?_, fun i hi => ?_, fun hb => W.stores (turn_stores hj (by omega) hb)⟩
      · rw [W.before x (by omega)]
        exact turn_before hj (Nat.le_of_lt hx)
      · cases i with
        | zero =>
          refine (W.before k (by omega)).trans ?_
          exact (turn_before hj (Nat.le_refl k)).trans hslash
        | succ i =>
          rw [← Nat.add_assoc, Nat.add_right_comm, getD_cons_succ]
          rcases Nat.lt_or_ge i name.length with hi' | hi'
          · rw [W.before _ (by omega), getD_append _ _ _ _ hi']
            exact turn_name hj (by omega) hi'
          · rw [getD_append_right _ _ _ _ hi', ← W.bytes _ ?_]
            · congr 1
              show k + 1 + i = k + 1 + name.length + (i - name.length)
              omega
            · rw [length_cons, length_append] at hi
              change i + 1 ≤ name.length + _ + 1 at hi
              show i - name.length ≤ _
              omega

/-- The buffer that `dirent_topath` leaves for these names. -/
def topathBuffer (names : List CString) (buf : Nat → UInt8) (size : Nat) : PathBuffer :=
  topathLoop names size ⟨update (update buf 0 slash) 1 0, 1, [(0, 2)]⟩

theorem Climbs.direntTopath (H : Climbs s d l) (hl : l.length ≤ 100) (buf : Nat → UInt8) (size : Nat) :
    direntTopath d buf size s = .ok (topathBuffer (l.reverse.map fun c => (s.dirents c).name) buf size, s) := by
  have H' : Climbs (s.cli (s.nCli + 1)) d l := H.frame rfl
  have hstack := H'.dirStack hl
  have hpop : popcli (s.cli (s.nCli + 1)) = .ok ((), s) := popcli_cli rfl
  refine (bind_run (x := pushcli) rfl).trans ((bind_run hstack).trans ?_)
  exact (bind_run (x := get) rfl).trans (bind_run hpop)

theorem topathBuffer_written (names : List CString) (buf : Nat → UInt8) {size : Nat}
    (hroom : (pathOf names).length < size) (hsize : size < 2 ^ 32) :
    Mem.cstr ⟨(topathBuffer names buf size).buf⟩ 0 size = pathOf names ∧
      ∀ p ∈ (topathBuffer names buf size).stores, p.1 + p.2 ≤ size := by
  by_cases hn : names = []
  · subst hn
    refine ⟨Mem.cstr_eq hroom fun i hi => ?_, fun p hp => ?_⟩
    · match i, hi with
      | 0, _ => rfl
      | 1, _ => rfl
    · rw [mem_singleton.mp hp]
      exact hroom
  · have hpath : (pathOf names).bytes = slashed names := by rw [pathOf, if_neg hn]
    have W := topathLoop_written hn (k := 0)
      (b := ⟨update (update buf 0 slash) 1 0, 1, [(0, 2)]⟩) rfl (by simp) hsize
      (by rw [← hpath]; exact hroom)
    rw [Nat.zero_add] at W
    refine ⟨Mem.cstr_eq hroom fun i hi => ?_, W.stores fun p hp => ?_⟩
    · rw [hpath]
      exact W.bytes i (by rw [← hpath]; exact hi)
    · rw [mem_singleton.mp hp]
      cases names with
      | nil => exact absurd rfl hn
      | cons name names =>
        rw [CString.length, hpath, length_slashed_cons] at hroom
        show 2 ≤ size
        omega

end MakarnaX.Vfs
