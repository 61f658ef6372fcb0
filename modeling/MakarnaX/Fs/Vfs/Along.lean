import MakarnaX.Fs.Vfs.Find

/-!
# Going along the names of a path

The loop of `dirent_find` looks up the components of the path, each in the directory
found for the one before.  `Along` is what comes of it, for any path: the names lead
somewhere on disk, or they do not, or one that is too long for the array of
`parse_path_i` is reached.
-/

namespace MakarnaX.Vfs

open Library Denemefs List

variable {s s' : State} {t : Table} {d turns : Nat} {b path : List UInt8} {rest : Option (List UInt8)}
  {bs : List (List UInt8)} {h : Nat → Int} {x : Option Nat} {fs : TaskFs}

/-! ## The loop -/

theorem findLoop_end (hp : parsePathI [] path = ([], none)) :
    direntFindLoop (turns + 1) d path s = .ok (.ok d, s) := by
  unfold direntFindLoop
  simp [hp, maxDirentryNameSize]

/-- What the loop does with the outcome of a turn. -/
def nextTurn (turns : Nat) : Except Int Nat → Option (List UInt8) → VfsM (Except Int Nat)
  | .error e, _ => return .error e
  | .ok next, none => return .ok next
  | .ok next, some path => direntFindLoop turns next path

theorem findLoop_turn {rest : Option (List UInt8)}
    (hp : parsePathI [] path = (b, rest)) (hb : b ≠ []) (hlen : b.length < maxDirentryNameSize) :
    direntFindLoop (turns + 1) d path = (do
      let r ← direntLookup d (cstring b)
      direntFree d
      pure r) >>= fun next => nextTurn turns next rest := by
  have hlen' : ¬ b.length ≥ maxDirentryNameSize := by omega
  conv_lhs => unfold direntFindLoop
  simp only [hp, hb, hlen', if_false, bind_assoc, pure_bind]
  refine bind_congr fun r => bind_congr fun _ => ?_
  cases r <;> cases rest <;> rfl

/-- Each of these names is looked up in the directory found for the one before.  A name
that does not fit in the array of `parse_path_i` is a fault. -/
def lookupAlong : Nat → List (List UInt8) → VfsM (Except Int Nat)
  | curr, [] => return .ok curr
  | curr, b :: bs => do
    if b.length ≥ maxDirentryNameSize then
      throw .overflow
    let r ← direntLookup curr (cstring b)
    direntFree curr
    match r with
    | .error e => return .error e
    | .ok next => lookupAlong next bs

theorem lookupAlong_long (hb : maxDirentryNameSize ≤ b.length) (d : Nat) (bs : List (List UInt8)) :
    lookupAlong d (b :: bs) = throw .overflow := by
  simp only [lookupAlong, ge_iff_le, hb, if_true]
  rfl

/-- What is done with the outcome of a lookup. -/
def lookupNext (bs : List (List UInt8)) : Except Int Nat → VfsM (Except Int Nat)
  | .error e => return .error e
  | .ok next => lookupAlong next bs

theorem lookupAlong_cons (hb : b.length < maxDirentryNameSize) (d : Nat) (bs : List (List UInt8)) :
    lookupAlong d (b :: bs) = (do
      let r ← direntLookup d (cstring b)
      direntFree d
      pure r) >>= lookupNext bs := by
  simp only [lookupAlong, ge_iff_le, Nat.not_le.mpr hb, if_false, bind_assoc, pure_bind]
  refine congrArg _ (funext fun r => congrArg _ (funext fun _ => ?_))
  cases r <;> rfl

theorem findLoop_long (hp : parsePathI [] path = (b, rest)) (hb : maxDirentryNameSize ≤ b.length) :
    direntFindLoop (turns + 1) d path = throw .overflow := by
  unfold direntFindLoop
  simp only [hp, ge_iff_le, hb, if_true]
  rfl

theorem findLoop_eq_lookupAlong (hturns : path.length < turns) :
    direntFindLoop turns d path = lookupAlong d (components [] path) := by
  induction turns generalizing d path with
  | zero => cases hturns
  | succ turns ih =>
    cases h : parsePathI [] path with
    | mk b rest =>
      cases rest with
      | none =>
        have hc := parsePathI_none h
        by_cases hne : b = []
        · subst hne
          rw [hc, if_pos rfl]
          exact funext fun s => findLoop_end h
        · rw [hc, if_neg hne]
          by_cases hb : b.length < maxDirentryNameSize
          · rw [findLoop_turn h hne hb, lookupAlong_cons hb]
            refine congrArg _ (funext fun r => ?_)
            cases r <;> rfl
          · rw [findLoop_long h (Nat.not_lt.mp hb), lookupAlong_long (Nat.not_lt.mp hb)]
      | some rest =>
        obtain ⟨hne, hc, hlt, -⟩ := parsePathI_some h
        rw [hc]
        by_cases hb : b.length < maxDirentryNameSize
        · rw [findLoop_turn h hne hb, lookupAlong_cons hb]
          refine congrArg _ (funext fun r => ?_)
          cases r with
          | error e => rfl
          | ok next => exact ih (by omega)
        · rw [findLoop_long h (Nat.not_lt.mp hb), lookupAlong_long (Nat.not_lt.mp hb)]

theorem currFs_eq {fs : TaskFs} (hfs : s.tasks s.curr = some fs) : currFs s = .ok (fs, s) := by
  simp [currFs, hfs]

theorem direntFind_run (hU : Unlocked s) (hfs : s.tasks s.curr = some fs) (path : List UInt8) (len : Nat) :
    direntFind path len s = lookupAlong (startOf fs path) (components [] (path.take len)) (s.dup (startOf fs path)) := by
  refine (bind_run (currFs_eq hfs)).trans ((bind_run (direntDup_eq (hU _))).trans ?_)
  exact congrFun (findLoop_eq_lookupAlong (Nat.lt_succ_of_le (length_take_le' ..))) _

/-! ## Error codes -/

/-- An error code of `x` is negative. -/
def NegativeErrors {σ α : Type} (x : StateT σ Exec (Except Int α)) : Prop :=
  ∀ s e s', x s = .ok (.error e, s') → e < 0

namespace NegativeErrors

variable {σ α β : Type} {x : StateT σ Exec α} {f : α → StateT σ Exec (Except Int β)}

theorem bind (hf : ∀ a, NegativeErrors (f a)) : NegativeErrors (x >>= f) := by
  intro s e s' h
  obtain ⟨a, s1, -, h⟩ := bind_apply_ok.mp h
  exact hf a s1 e s' h

/-- The first part has an error code as well. -/
theorem bind_except {x : StateT σ Exec (Except Int α)} {f : Except Int α → StateT σ Exec (Except Int β)}
    (hx : NegativeErrors x) (hok : ∀ a, NegativeErrors (f (.ok a)))
    (herr : ∀ e, e < 0 → NegativeErrors (f (.error e))) : NegativeErrors (x >>= f) := by
  intro s e s' h
  obtain ⟨a, s1, hx1, h⟩ := bind_apply_ok.mp h
  cases a with
  | ok a => exact hok a s1 e s' h
  | error e' => exact herr e' (hx s e' s1 hx1) s1 e s' h

theorem ok (b : β) : NegativeErrors (pure (.ok b) : StateT σ Exec (Except Int β)) := by
  rintro s e s' ⟨⟩

theorem error {e : Int} (h : e < 0) : NegativeErrors (pure (.error e) : StateT σ Exec (Except Int β)) := by
  rintro s e s' ⟨⟩
  exact h

theorem throw (e : Fault) : NegativeErrors (throw e : StateT σ Exec (Except Int β)) := by
  rintro s e s' ⟨⟩

end NegativeErrors

theorem denemefsLookup_negative (dir : Nat) (name : CString) : NegativeErrors (denemefsLookup dir name) := by
  refine .bind fun s => ?_
  split
  · exact .error (by decide)
  · refine .bind fun sd => ?_
    split
    · exact .error (by decide)
    · exact .bind fun _ => .bind fun op => .ok _

theorem opLookup_negative (i : Nat) (name : CString) : NegativeErrors (opLookup i name) := by
  refine .bind fun s => ?_
  split
  · exact .throw _
  · intro s e s' h
    unfold onDisk at h
    cases hl : denemefsLookup _ name s.disk with
    | error f =>
      rw [hl] at h
      cases h
    | ok p =>
      obtain ⟨r, t⟩ := p
      rw [hl] at h
      cases h
      exact denemefsLookup_negative _ _ _ _ _ hl

theorem direntLookup_negative (dir : Nat) (name : CString) : NegativeErrors (direntLookup dir name) := by
  refine .bind fun s => ?_
  split
  · exact .error (by decide)
  · refine .bind fun _ => ?_
    split
    · exact .bind fun _ => .bind fun _ => .ok _
    split
    · refine .bind fun fs => ?_
      split
      · exact .bind fun _ => .bind fun _ => .ok _
      · refine .bind fun s => ?_
        split
        · exact .throw _
        · exact .bind fun _ => .bind fun _ => .ok _
    · refine .bind fun s => ?_
      split
      · exact .bind fun _ => .bind fun _ => .ok _
      · refine .bind fun _ => .bind fun _ => .bind fun _ => .bind fun inode => ?_
        refine .bind_except (opLookup_negative _ name) (fun x => ?_) fun e he => ?_
        · exact .bind fun _ => .bind fun d => .bind fun _ => .bind fun _ => .bind fun _ => .ok d
        · exact .bind fun _ => .bind fun _ => .bind fun _ => .error he

/-! ## Any path -/

theorem number_eq_none : number s d = none ↔ (s.dirents d).inode = none := Option.map_eq_none_iff

/-- On the way along these names from inode `x` there is one that does not fit in the
array of `parse_path_i`. -/
inductive LongReached (t : Table) : Option Nat → List (List UInt8) → Prop
  | here {x : Option Nat} {b : List UInt8} {bs : List (List UInt8)} : maxDirentryNameSize ≤ b.length →
      LongReached t x (b :: bs)
  | there {x y : Nat} {b : List UInt8} {bs : List (List UInt8)} : DiskStep t x (cstring b) y →
      LongReached t (some y) bs → LongReached t (some x) (b :: bs)

theorem longReached_cons : LongReached t x (b :: bs) ↔
    maxDirentryNameSize ≤ b.length ∨ ∃ y z, x = some y ∧ DiskStep t y (cstring b) z ∧ LongReached t (some z) bs := by
  constructor
  · intro h
    cases h with
    | here hb => exact .inl hb
    | there hstep hrest => exact .inr ⟨_, _, rfl, hstep, hrest⟩
  · rintro (hb | ⟨y, z, rfl, hstep, hrest⟩)
    · exact .here hb
    · exact .there hstep hrest

theorem LongReached.mem (h : LongReached t x bs) : ∃ b ∈ bs, maxDirentryNameSize ≤ b.length := by
  induction h with
  | here hb => exact ⟨_, mem_cons_self, hb⟩
  | there _ _ ih =>
    obtain ⟨b, hmem, hb⟩ := ih
    exact ⟨b, mem_cons_of_mem _ hmem, hb⟩

theorem not_longReached_nil : ¬ LongReached t x [] := by
  intro h
  obtain ⟨b, hmem, -⟩ := h.mem
  cases hmem

/-- What looking up the names one after the other yields. -/
inductive Along (s : State) (d : Nat) (bs : List (List UInt8)) (h : Nat → Int) : Exec (Except Int Nat × State) → Prop
  | long : LongReached s.disk (number s d) bs → Along s d bs h (.error .overflow)
  | ends {r : Except Int Nat} {s' : State} : ¬ LongReached s.disk (number s d) bs → Moves s (holds r - h) s' →
      Result s s' d (bs.map cstring) r → (∀ e, r = .error e → e < 0) → Along s d bs h (.ok (r, s'))

/-- The first name leads from `d` to `c`. -/
theorem longReached_hop (bs : List (List UInt8)) (C : Coherent s) (m : Moves s h s') (hd : d < s.nDirents)
    (hb : b.length < maxDirentryNameSize) {c : Nat} (H : Hops s' d [cstring b] c) :
    LongReached s.disk (number s d) (b :: bs) ↔ LongReached s'.disk (number s' c) bs := by
  have hd' := Nat.lt_of_lt_of_le hd m.extends.nDirents
  cases H with
  | cons hi H1 H2 =>
    cases H2
    obtain ⟨x, hx⟩ := Option.ne_none_iff_exists'.mp (mt number_eq_none.mp hi)
    obtain ⟨y, hy, hstep⟩ := H1.disk (m.coherent C) hd' hx
    rw [m.extends.disk] at hstep ⊢
    rw [longReached_cons, hy, ← m.extends.number C hd, hx]
    constructor
    · rintro (hlong | ⟨x', z, hx', hstep', hrest⟩)
      · omega
      · cases hx'
        rwa [DiskStep.unique C.disk.toInv hstep hstep']
    · exact fun hrest => .inr ⟨x, y, rfl, hstep, hrest⟩

theorem lookupAlong_along (C : Coherent s) (T : TasksOk s) (hfs : s.tasks s.curr = some fs)
    (hd : d < s.nDirents) (hpos : 0 < (s.dirents d).refCount) (hbs : ∀ b ∈ bs, Plain (cstring b)) :
    Along s d bs (Pi.single d 1) (lookupAlong d bs s) := by
  induction bs generalizing s d with
  | nil => exact .ends not_longReached_nil (by simpa [holds] using Moves.refl) ⟨hd, hpos, .nil⟩ nofun
  | cons b bs ih =>
    by_cases hb : b.length < maxDirentryNameSize
    · obtain ⟨r, s1, hr, m, R⟩ := lookup_leave C T hfs hd hpos (hbs b mem_cons_self)
      have hneg : ∀ e, r = .error e → e < 0 := by
        rintro e rfl
        refine NegativeErrors.bind_except (direntLookup_negative d (cstring b)) (fun c => ?_) (fun e he => ?_) s e s1 hr
        · exact .bind fun _ => .ok c
        · exact .bind fun _ => .error he
      rw [lookupAlong_cons hb, bind_run hr]
      cases r with
      | error e =>
        refine .ends ?_ m (fun x hx y hy => ?_) hneg
        · rw [longReached_cons]
          rintro (hlong | ⟨x, y, hx, hstep, -⟩)
          · omega
          · exact R x hx y (.cons hstep .nil)
        · cases hy with
          | cons hstep _ => exact R x hx _ (.cons hstep .nil)
      | ok c =>
        have hfs' : s1.tasks s1.curr = some fs := by rw [m.extends.tasks, m.extends.curr, hfs]
        have A := ih (m.coherent C) (T.extends m.extends) hfs' R.1 R.2.1
          fun b hb => hbs b (mem_cons_of_mem _ hb)
        have hlong := longReached_hop bs C m hd hb R.2.2
        show Along s d (b :: bs) _ (lookupAlong c bs s1)
        generalize lookupAlong c bs s1 = out at A ⊢
        cases A with
        | long h => exact .long (hlong.mpr h)
        | ends h m' R' hneg' =>
          refine .ends (mt hlong.mp h) ?_ (.cons C m m' hd R.2.2 R') hneg'
          rw [← sub_add_sub_cancel']
          exact m.trans m'
    · rw [lookupAlong_long (Nat.not_lt.mp hb)]
      exact .long (.here (Nat.not_lt.mp hb))

/-! ## Finding dirents -/

section Find

variable (C : Coherent s) (T : TasksOk s) (hfs : s.tasks s.curr = some fs)

include C T hfs

theorem direntFind_along (h0 : 0 ∉ path) (len : Nat) :
    Along s (startOf fs path) (components [] (path.take len)) 0 (direntFind path len s) := by
  have hlt : startOf fs path < s.nDirents := startOf_lt C T hfs
  rw [direntFind_run C.unlocked hfs]
  generalize startOf fs path = start at hlt ⊢
  have m : Moves s (0 + Pi.single start 1) (s.dup start) := .dup .refl hlt
  have hnum : number (s.dup start) start = number s start := m.extends.number C hlt
  have hplain : ∀ b ∈ components [] (path.take len), Plain (cstring b) :=
    fun b hb => plain_component (fun h => h0 (mem_of_mem_take h)) hb
  have A := lookupAlong_along (m.coherent C) (T.extends m.extends) hfs hlt (refCount_dup_self C _) hplain
  generalize lookupAlong start (components [] (path.take len)) (s.dup start) = out at A ⊢
  cases A with
  | long h =>
    rw [hnum] at h
    exact .long h
  | @ends r s' h m' R hneg =>
    rw [hnum] at h
    refine .ends h ?_ ?_ hneg
    · have he : 0 + Pi.single start 1 + (holds r - Pi.single start 1) = holds r - 0 := by
        rw [zero_add, add_sub_cancel, sub_zero]
      rw [← he]
      exact m.trans m'
    · cases r with
      | ok c => exact R
      | error e =>
        intro x hx
        rw [← hnum] at hx
        exact R x hx

/-- `dirent_find` of a path without a name that is too long. -/
theorem find_result {len : Nat} (h0 : 0 ∉ path) (hshort : Short (path.take len)) :
    ∃ r s', direntFind path len s = .ok (r, s') ∧ Moves s (holds r) s' ∧
      Result s s' (startOf fs path) (names (path.take len)) r := by
  have A := direntFind_along C T hfs h0 len
  generalize direntFind path len s = out at A ⊢
  cases A with
  | long h =>
    obtain ⟨b, hmem, hb⟩ := h.mem
    exact absurd (hshort b hmem) (Nat.not_lt.mpr hb)
  | ends _ m R _ => exact ⟨_, _, rfl, sub_zero (holds _) ▸ m, R⟩

end Find

end MakarnaX.Vfs
