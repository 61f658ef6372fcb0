import MakarnaX.Fs.Vfs.Run

/-!
# Descriptors and the objects they were opened on

An open file holds the number of an inode, and the number of what was removed is
given to the next thing that is made.  So a number stands for one object after the
other.  An object is what one call made: `Objects` names it, and says along a run
which object a number stands for and on which one a descriptor was opened.

While the object of a descriptor is there, the number of the open file stands for
it.  If it was removed, the number stands for nothing or for another object; then
reading and writing through the descriptor, which nobody checks, is reading and
writing the other one.  Permissions are checked when the file is opened only, so
that this one need not allow it.
-/

namespace MakarnaX.Vfs

open Library Denemefs Subdentry Nat

variable {s s' s'' : State} {c : Call} {δ ε h : Nat → Int} {t fd f a : Nat} {fs : TaskFs}

/-! ## Objects -/

/-- Number `a` comes into use. -/
def New (t t' : Table) (a : Nat) : Prop := ¬ Used t a ∧ Used t' a

instance (t t' : Table) (a : Nat) : Decidable (New t t' a) := inferInstanceAs (Decidable (_ ∧ _))

/-- The file behind descriptor `fd` of task `t`. -/
def State.fileOf (s : State) (t fd : Nat) : Option Nat := (s.tasks t).bind (·.files fd)

/-- The number an open file holds. -/
def State.numberOf (s : State) (f : Nat) : Nat := (s.inodes (s.files f).inode).ino

/-- The number a path leads to. -/
def resolve (s : State) (path : CString) : Option Nat :=
  match direntFind path.bytes path.length s with
  | .ok (r, s') => r.toOption.bind (number s')
  | .error _ => none

/-- Which object a number stands for, which objects were made writable, and on which
one descriptor `fd` of task `t` was opened. -/
structure Objects where
  owner : Nat → Nat
  next : Nat
  writable : Nat → Bool
  opened : Nat → Nat → Nat

/-- The objects behind a call. -/
def Objects.after (g : Objects) (s s' : State) (c : Call) : Objects where
  owner a := if New s.disk s'.disk a then g.next else g.owner a
  next := g.next + 1
  writable o := if o = g.next then c.makesWritable else g.writable o
  opened t fd :=
    match c with
    | .sysOpen path _ =>
      if t = s.curr ∧ s.fileOf t fd = none ∧ s'.fileOf t fd ≠ none then (resolve s path).elim 0 g.owner
      else g.opened t fd
    | .fork => if t = s.nTasks then g.opened s.curr fd else g.opened t fd
    | _ => g.opened t fd

/-- The objects of a new disk: every number stands for one. -/
def Objects.start (t : Table) : Objects where
  owner a := a
  next := diCount
  writable a := (t.di a).mode.write
  opened _ _ := 0

/-! ## The table -/

/-- From one table to the next.  A number in use keeps its mode; at most one comes
into use, and `w` says if that is writable. -/
structure Turns (t t' : Table) (w : Bool) : Prop where
  mode : ∀ {a}, Used t a → Used t' a → (t'.di a).mode = (t.di a).mode
  one : ∀ {a b}, New t t' a → New t t' b → a = b
  made : ∀ {a}, New t t' a → (t'.di a).mode.write = w

section Turns

variable {t t' : Table} {w : Bool}

/-- Nothing comes into use. -/
theorem Turns.none_new (hu : ∀ a, Used t' a → Used t a) (hm : ∀ a, Used t' a → (t'.di a).mode = (t.di a).mode) :
    Turns t t' w where
  mode _ h := hm _ h
  one h := absurd (hu _ h.2) h.1
  made h := absurd (hu _ h.2) h.1

theorem Turns.refl : Turns t t w := .none_new (fun _ h => h) fun _ _ => rfl

theorem Turns.cut {d i b : Nat} : Turns t (cut t d i b) w :=
  .none_new (fun a h => ((used_cut a).mp h).1) fun a h => cut_mode ((used_cut a).mp h).2

theorem Turns.link {d a : Nat} {name : CString} {new : DenemeInode} (hf : freeDi t = some a) (hn : new.nlinks ≠ 0) :
    Turns t (link t d name a new) new.mode.write := by
  have hnew : ∀ {x}, New t (Denemefs.link t d name a new) x → x = a := fun h =>
    ((used_link hn _).mp h.2).resolve_left h.1
  refine ⟨fun {x} hu _ => link_mode ?_, fun h h' => (hnew h).trans (hnew h').symm, fun {x} h => ?_⟩
  · rintro rfl
    exact (freeDi_eq_some hf).2 hu
  · rw [hnew h, link_di_self]

end Turns

end MakarnaX.Vfs

/-- What the call makes can be written. -/
def MakarnaX.Denemefs.Op.makesWritable : Denemefs.Op → Bool
  | .create _ _ mode | .mkdir _ _ mode => mode.testBit 1
  | _ => false

namespace MakarnaX.Vfs

open Library Denemefs Subdentry

variable {s s' s'' : State} {c : Call}

theorem turns_of_effect {t t' : Table} {op : Op} {r : Int} (E : Effect t op r t') : Turns t t' op.makesWritable := by
  cases E with
  | fails | lookup => exact .refl
  | create _ hf | mkdir _ hf => exact .link hf one_ne_zero
  | unlink | rmdir => exact .cut
  | write => exact .none_new (fun a h => (used_fill a).mp h) fun a _ => mode_fill a

/-- What a call does to the table. -/
theorem Does.turns (hexec : ∀ path loaded, c ≠ .exec path loaded) (hexit : c ≠ .exit) (D : Does s c s') :
    Turns s.disk s'.disk c.makesWritable := by
  have same : s'.disk = s.disk → Turns s.disk s'.disk c.makesWritable := by
    intro h
    rw [h]
    exact .refl
  cases D with
  | moves _ _ _ _ m => exact same m.extends.disk
  | refers _ _ R | opens _ _ R | full _ R => exact same R.moves.extends.disk
  | chdirs _ _ m => exact same m.extends.disk
  | forks _ F => exact same F.disk
  | closes | reads | seeks | switches => exact .refl
  | writes _ _ _ _ E => exact turns_of_effect E
  | @enters _ _ s' e i a mode name op t hfs hf R E hop hw =>
    have T := turns_of_effect E
    rw [R.moves.extends.disk] at T
    have hop : op.makesWritable = c.makesWritable := by
      rw [← hw]
      rcases hop with rfl | rfl <;> rfl
    rw [← hop]
    exact T
  | cuts _ _ _ R | detaches _ _ _ R =>
    show Turns s.disk (cut _ _ _ _) _
    rw [R.moves.extends.disk]
    exact .cut
  | loads => exact absurd rfl (hexec _ _)
  | exits => exact absurd rfl hexit

/-- The objects of the numbers in use. -/
structure Numbers (t : Table) (g : Objects) : Prop where
  lt : ∀ {a}, Used t a → g.owner a < g.next
  inj : ∀ {a b}, Used t a → Used t b → g.owner a = g.owner b → a = b
  mode : ∀ {a}, Used t a → (t.di a).mode.write = g.writable (g.owner a)

/-- A descriptor that was opened on object `o`, of a file with number `a`: either the
number stands for the object, or the object is gone. -/
structure Tracks (t : Table) (g : Objects) (a flags o : Nat) : Prop where
  lt : o < g.next
  stands : Used t a ∧ g.owner a = o ∨ ∀ b, Used t b → g.owner b ≠ o
  writes : flags &&& 2 = 2 → g.writable o = true

section After

variable {g : Objects}

theorem owner_new (h : New s.disk s'.disk a) : (g.after s s' c).owner a = g.next := if_pos h

theorem owner_old (h : Used s.disk a) : (g.after s s' c).owner a = g.owner a := if_neg fun hn => hn.1 h

theorem writable_old {o : Nat} (h : o < g.next) : (g.after s s' c).writable o = g.writable o :=
  if_neg (ne_of_lt h)

theorem Numbers.after (N : Numbers s.disk g) (T : Turns s.disk s'.disk c.makesWritable) :
    Numbers s'.disk (g.after s s' c) where
  lt {a} h := by
    by_cases hu : Used s.disk a
    · rw [owner_old hu]
      exact Nat.lt_succ_of_lt (N.lt hu)
    · rw [owner_new ⟨hu, h⟩]
      exact Nat.lt_succ_self _
  inj {a b} ha hb h := by
    by_cases hua : Used s.disk a <;> by_cases hub : Used s.disk b
    · rw [owner_old hua, owner_old hub] at h
      exact N.inj hua hub h
    · rw [owner_old hua, owner_new ⟨hub, hb⟩] at h
      exact absurd h (Nat.ne_of_lt (N.lt hua))
    · rw [owner_new ⟨hua, ha⟩, owner_old hub] at h
      exact absurd h.symm (Nat.ne_of_lt (N.lt hub))
    · exact T.one ⟨hua, ha⟩ ⟨hub, hb⟩
  mode {a} h := by
    by_cases hu : Used s.disk a
    · rw [owner_old hu, writable_old (N.lt hu), T.mode hu h]
      exact N.mode hu
    · rw [owner_new ⟨hu, h⟩, T.made ⟨hu, h⟩]
      exact (if_pos rfl).symm

/-- An object that is gone stays gone. -/
theorem owner_ne {o b : Nat} (h : ∀ b, Used s.disk b → g.owner b ≠ o) (ho : o < g.next) (hb : Used s'.disk b) :
    (g.after s s' c).owner b ≠ o := by
  by_cases hu : Used s.disk b
  · rw [owner_old hu]
    exact h b hu
  · rw [owner_new ⟨hu, hb⟩]
    exact ne_of_gt ho

theorem Tracks.after {a flags o : Nat} (N : Numbers s.disk g) (K : Tracks s.disk g a flags o) :
    Tracks s'.disk (g.after s s' c) a flags o where
  lt := Nat.lt_succ_of_lt K.lt
  stands := by
    rcases K.stands with ⟨hu, ho⟩ | hgone
    · by_cases hu' : Used s'.disk a
      · exact .inl ⟨hu', (owner_old hu).trans ho⟩
      · -- the object is removed by this call: no other number stood for it
        refine .inr fun b hb hbo => ?_
        by_cases hub : Used s.disk b
        · rw [owner_old hub, ← ho] at hbo
          exact hu' (N.inj hub hu hbo ▸ hb)
        · rw [owner_new ⟨hub, hb⟩] at hbo
          exact absurd hbo.symm (Nat.ne_of_lt K.lt)
    · exact .inr fun b hb => owner_ne hgone K.lt hb
  writes h := (writable_old K.lt).trans (K.writes h)

end After

/-! ## Modes in the cache -/

/-- What the cache says can be written can be written. -/
def CacheModes (s : State) : Prop :=
  ∀ d i, d < s.nDirents → (s.dirents d).inode = some i → (s.inodes i).mode.write = true →
    (s.disk.di (s.inodes i).ino).mode.write = true

/-- What the cache says of a mode is so on disk. -/
def CacheAgrees (p : FileMode → Bool) (s : State) : Prop :=
  ∀ d i, d < s.nDirents → (s.dirents d).inode = some i → p (s.inodes i).mode = true →
    p (s.disk.di (s.inodes i).ino).mode = true

section Agree

variable {p : FileMode → Bool}

/-- The dirents and inodes are as they were. -/
theorem CacheAgrees.frame (M : CacheAgrees p s) (hd : s'.disk = s.disk) (hn : s'.nDirents ≤ s.nDirents)
    (hi : ∀ d i, (s'.dirents d).inode = some i → (s.dirents d).inode = some i ∧
      (s'.inodes i).mode = (s.inodes i).mode ∧ (s'.inodes i).ino = (s.inodes i).ino) : CacheAgrees p s' := by
  intro d i hlt hdi hw
  obtain ⟨h1, h2, h3⟩ := hi d i hdi
  rw [h3, hd]
  rw [h2] at hw
  exact M d i (lt_of_lt_of_le hlt hn) h1 hw

theorem Moves.cacheAgrees (C : Coherent s) (m : Moves s h s') (M : CacheAgrees p s) : CacheAgrees p s' := by
  induction m with
  | refl => exact M
  | dup _ _ ih =>
    exact ih.frame rfl (Nat.le_refl _) fun d i h => ⟨((Similar.dup _ _).inode d).symm.trans h, rfl, rfl⟩
  | drop _ _ _ ih =>
    exact ih.frame rfl (Nat.le_refl _) fun d i h => ⟨((Similar.drop _ _).inode d).symm.trans h, rfl, rfl⟩
  | @spare h s' m ih =>
    intro d i hlt hdi hw
    have hne : i ≠ s'.nInodes := Nat.ne_of_lt ((m.coherent C).known hlt hdi).lt
    have hold : s'.spare.inodes i = s'.inodes i := Function.update_of_ne hne ..
    rw [hold] at hw ⊢
    exact ih d i hlt hdi hw
  | @add h s' dir name x m F ih =>
    have C' := m.coherent C
    intro d i hlt hdi hw
    by_cases hd : d < s'.nDirents
    · have E : Extends s' (s'.add dir name x) := .add
      rw [E.inode d hd] at hdi
      have hi := (C'.known hd hdi).lt
      rw [E.inodes i hi] at hw ⊢
      exact ih d i hd hdi hw
    · -- the new dirent has the mode that was found on disk
      obtain rfl : d = s'.nDirents := Nat.le_antisymm (Nat.lt_succ_iff.mp hlt) (Nat.not_lt.mp hd)
      have hself : ((s'.add dir name x).dirents s'.nDirents).inode = some s'.nInodes := by
        simp [State.add, State.attach, Nat.ne_of_gt F.lt]
      obtain rfl := Option.some.inj (hself.symm.trans hdi)
      have hino : (s'.add dir name x).inodes s'.nInodes = ⟨x.ino, 1, some x.op, x.mode, x.size, 1⟩ :=
        Function.update_self ..
      rw [hino] at hw ⊢
      have hx := congrArg Denemefs.Inode.mode F.inode
      rw [hx] at hw
      exact hw

/-- Another table, in which the numbers of the cache are in use. -/
theorem CacheAgrees.turn {t : Table} {w : Bool} (M : CacheAgrees p s) (C : Coherent s) (T : Turns s.disk t w)
    (hs' : s'.disk = t) (C' : Coherent s') (hn : s'.nDirents ≤ s.nDirents)
    (hi : ∀ d i, (s'.dirents d).inode = some i → (s.dirents d).inode = some i) (hinodes : s'.inodes = s.inodes) :
    CacheAgrees p s' := by
  intro d i hlt hdi hw
  have hd := hi d i hdi
  have hold := lt_of_lt_of_le hlt hn
  have hu' := (C'.known hlt hdi).used
  rw [hinodes] at hw hu' ⊢
  rw [hs'] at hu' ⊢
  rw [T.mode (C.known hold hd).used hu']
  exact M d i hold hd hw

theorem detach_inode {y d x i : Nat} (h : ((s.detach y d).dirents x).inode = some i) :
    (s.dirents x).inode = some i := by
  by_cases hd : x = d
  · subst hd
    simp [State.detach] at h
  · by_cases hy : x = y
    · subst hy
      simpa [State.detach, hd] using h
    · simpa [State.detach, hd, hy] using h

theorem Act.cacheAgrees (S : Sane s) (a : Act s δ ε s') (M : CacheAgrees p s) : CacheAgrees p s' := by
  have C' := (a.sane S).coherent
  cases a with
  | moves m => exact m.cacheAgrees S.coherent M
  | @refer i k =>
    refine M.frame rfl (le_refl _) fun d j h => ⟨h, ?_⟩
    by_cases hj : j = i
    · subst hj
      simp [State.refer]
    · simp [State.refer, hj]
  | disk E => exact M.turn S.coherent (turns_of_effect E) rfl C' (le_refl _) (fun _ _ h => h) rfl
  | cut => exact M.turn S.coherent (Turns.cut (w := false)) rfl C' (le_refl _) (fun _ _ h => h) rfl
  | detach =>
    exact M.turn S.coherent (Turns.cut (w := false)) rfl C' (le_refl _) (fun _ _ h => detach_inode h) rfl
  | newFile | seek | take | give | chdir | newTask | endTask | switch => exact M

theorem Acts.cacheAgrees (S : Sane s) (A : Acts s δ ε s') (M : CacheAgrees p s) : CacheAgrees p s' := by
  induction A with
  | refl => exact M
  | step A a ih => exact a.cacheAgrees (A.sane S) ih

end Agree

theorem Moves.cacheModes (C : Coherent s) (m : Moves s h s') (M : CacheModes s) : CacheModes s' :=
  m.cacheAgrees (p := FileMode.write) C M

theorem Acts.cacheModes (S : Sane s) (A : Acts s δ ε s') (M : CacheModes s) : CacheModes s' :=
  A.cacheAgrees (p := FileMode.write) S M

/-! ## Files -/

/-- Open files keep their inode and their flags, and inodes their number. -/
structure FilesKept (s s' : State) : Prop where
  nFiles : s.nFiles ≤ s'.nFiles
  nInodes : s.nInodes ≤ s'.nInodes
  inode : ∀ f, f < s.nFiles → (s'.files f).inode = (s.files f).inode
  flags : ∀ f, f < s.nFiles → (s'.files f).flags = (s.files f).flags
  ino : ∀ i, i < s.nInodes → (s'.inodes i).ino = (s.inodes i).ino

theorem FilesKept.trans (h : FilesKept s s') (h' : FilesKept s' s'') : FilesKept s s'' where
  nFiles := le_trans h.nFiles h'.nFiles
  nInodes := le_trans h.nInodes h'.nInodes
  inode f hf := (h'.inode f (lt_of_lt_of_le hf h.nFiles)).trans (h.inode f hf)
  flags f hf := (h'.flags f (lt_of_lt_of_le hf h.nFiles)).trans (h.flags f hf)
  ino i hi := (h'.ino i (lt_of_lt_of_le hi h.nInodes)).trans (h.ino i hi)

theorem FilesKept.numberOf (h : FilesKept s s') (S : Sane s) {f : Nat} (hf : f < s.nFiles) :
    s'.numberOf f = s.numberOf f := by
  unfold State.numberOf
  rw [h.inode f hf, h.ino _ (S.inodes hf)]

theorem Act.filesKept (a : Act s δ ε s') : FilesKept s s' := by
  cases a with
  | moves m =>
    have E := m.extends
    refine ⟨Nat.le_of_eq E.nFiles.symm, E.nInodes, fun f _ => ?_, fun f _ => ?_, fun i hi => ?_⟩
    · rw [E.files]
    · rw [E.files]
    · rw [E.inodes i hi]
  | @refer j k =>
    refine ⟨Nat.le_refl _, Nat.le_refl _, fun _ _ => rfl, fun _ _ => rfl, fun i _ => ?_⟩
    by_cases h : i = j
    · subst h
      simp [State.refer]
    · simp [State.refer, h]
  | @newFile x =>
    have hold : ∀ f, f < s.nFiles → (s.newFile x).files f = s.files f := fun f hf =>
      Function.update_of_ne (Nat.ne_of_lt hf) ..
    refine ⟨Nat.le_succ _, Nat.le_refl _, fun f hf => ?_, fun f hf => ?_, fun _ _ => rfl⟩
    · rw [hold f hf]
    · rw [hold f hf]
  | @seek g p =>
    refine ⟨Nat.le_refl _, Nat.le_refl _, fun f _ => ?_, fun f _ => ?_, fun _ _ => rfl⟩ <;>
    · by_cases h : f = g
      · subst h
        simp [State.seek]
      · simp [State.seek, h]
  | disk | cut | detach | take | give | chdir | newTask | endTask | switch =>
    exact ⟨Nat.le_refl _, Nat.le_refl _, fun _ _ => rfl, fun _ _ => rfl, fun _ _ => rfl⟩

theorem Acts.filesKept (A : Acts s δ ε s') : FilesKept s s' := by
  induction A with
  | refl => exact ⟨le_refl _, le_refl _, fun _ _ => rfl, fun _ _ => rfl, fun _ _ => rfl⟩
  | step _ a ih => exact ih.trans a.filesKept

/-! ## Descriptors -/

theorem fileOf_setFd {t fd u x : Nat} {v : Option Nat} (h : s.tasks t = some fs) :
    (s.setFd t fd v).fileOf u x = if u = t ∧ x = fd then v else s.fileOf u x := by
  unfold State.fileOf State.setFd
  by_cases hu : u = t
  · subst hu
    by_cases hx : x = fd
    · subst hx
      simp [h]
    · simp [h, hx]
  · simp [hu]

theorem fileOf_setPwd {t d u x : Nat} (h : s.tasks t = some fs) :
    (s.setPwd t d).fileOf u x = s.fileOf u x := by
  unfold State.fileOf State.setPwd
  by_cases hu : u = t
  · subst hu
    simp [h]
  · simp [hu]

theorem testBit_of_and {n : Nat} (h : n &&& 2 = 2) : n.testBit 1 = true := by
  have h1 := congrArg (Nat.testBit · 1) h
  have h2 : Nat.testBit 2 1 = true := by decide
  simpa [Nat.testBit_and, h2] using h1

/-- Flags for writing are granted for what can be written. -/
theorem permits_write (M : CacheModes s) {d i flags : Nat} (hd : d < s.nDirents) (hi : (s.dirents d).inode = some i)
    (hp : permits s i flags = true) (hw : flags &&& 2 = 2) : (s.disk.di (s.inodes i).ino).mode.write = true := by
  have hbit := testBit_of_and hw
  unfold permits denemefsPermission at hp
  rw [Bool.or_eq_true, Bool.or_eq_true, Bool.and_eq_true, decide_eq_true_eq, beq_iff_eq] at hp
  rcases hp with (⟨h, -⟩ | h) | h
  · exact h
  · have h1 := congrArg (Nat.testBit · 1) h
    have h2 : Nat.testBit 3 1 ≠ Nat.testBit 1 1 := by decide
    exact absurd (by simpa [Nat.testBit_and, hbit] using h1) h2
  · have h1 := congrArg (Nat.testBit · 1) h
    simp only [Nat.testBit_and, hbit, Bool.and_true, testBit_mode] at h1
    exact M d i hd hi h1

/-- What `resolve` yields is what the names lead to. -/
theorem resolve_of_hops (S : Sane s) (hfs : s.tasks s.curr = some fs) {path : CString}
    (hshort : Short path.bytes) {e y : Nat} (m : Moves s h s')
    (H : Hops s' (fs.start path) (names path.bytes) e) (hy : number s' e = some y) : resolve s path = some y := by
  obtain ⟨r, t, hr, hres⟩ := find_number S hfs hshort
  have hlt : fs.start path < s.nDirents := by
    obtain ⟨hroot, hpwd⟩ := S.tasks _ fs hfs
    unfold TaskFs.start
    split
    · rw [hroot]
      exact S.coherent.pos
    · exact hpwd
  have hlt' := lt_of_lt_of_le hlt m.extends.nDirents
  have hnum := m.extends.number S.coherent hlt
  unfold resolve
  rw [hr]
  refine (hres y).mpr ?_
  cases hx : number s (fs.start path) with
  | some x =>
    obtain ⟨z, hz, hzr⟩ := H.resolves (m.coherent S.coherent) hlt' (hnum.trans hx)
    rw [m.extends.disk] at hzr
    obtain rfl := Option.some.inj (hy.symm.trans hz)
    exact ⟨x, rfl, hzr⟩
  | none =>
    -- nothing is reached from a directory that was removed
    have hdead := number_eq_none.mp (hnum.trans hx)
    generalize fs.start path = start, names path.bytes = l at H hnum hdead hx
    cases H with
    | nil => rw [hnum.trans hx] at hy; cases hy
    | cons hi => exact absurd hdead hi

/-- Where a descriptor comes from. -/
inductive Descriptor (s s' : State) : Call → Nat → Nat → Nat → Prop
  | kept {c : Call} {t fd f : Nat} : s.fileOf t fd = some f → Descriptor s s' c t fd f
  | opened {path : CString} {flags fd f : Nat} : s.fileOf s.curr fd = none →
      resolve s path = some (s'.numberOf f) → Used s.disk (s'.numberOf f) →
      ((s'.files f).flags &&& 2 = 2 → (s.disk.di (s'.numberOf f)).mode.write = true) →
      Descriptor s s' (.sysOpen path flags) s.curr fd f
  | forked {fd f f₀ : Nat} : s.fileOf s.curr fd = some f₀ → s'.files f = s.files f₀ →
      Descriptor s s' .fork s.nTasks fd f

theorem Does.descriptor (S : Sane s) (M : CacheModes s) (hshort : c.short)
    (hexec : ∀ path loaded, c ≠ .exec path loaded) (hexit : c ≠ .exit) (D : Does s c s')
    (hf : s'.fileOf t fd = some f) : Descriptor s s' c t fd f := by
  have same : s'.tasks = s.tasks → Descriptor s s' c t fd f := by
    intro h
    refine .kept ?_
    rw [← hf, State.fileOf, State.fileOf, h]
  cases D with
  | moves _ _ _ _ m => exact same m.extends.tasks
  | refers _ _ R => exact same R.moves.extends.tasks
  | full _ R => exact same R.moves.extends.tasks
  | @opens flags x e i path fs s' hfs hfd R H hp hx hn =>
    have E := R.moves.extends
    have C := R.moves.coherent S.coherent
    have hfs' : ((s'.refer i 3).newFile ⟨i, 0, openFlags flags⟩).tasks s'.curr = some fs := by
      show s'.tasks s'.curr = some fs
      rw [E.tasks, E.curr, hfs]
    rw [fileOf_setFd hfs'] at hf
    split at hf
    · next h =>
      obtain ⟨rfl, rfl⟩ := h
      obtain rfl := Option.some.inj hf
      have hfile : ∀ t, ((((s'.refer i 3).newFile ⟨i, 0, openFlags flags⟩).setFd t fd (some s'.nFiles)).files
          s'.nFiles) = ⟨i, 0, openFlags flags⟩ := fun _ => Function.update_self ..
      have hnumber : ∀ t, (((s'.refer i 3).newFile ⟨i, 0, openFlags flags⟩).setFd t fd (some s'.nFiles)).numberOf
          s'.nFiles = (s'.inodes i).ino := by
        intro t
        unfold State.numberOf
        rw [hfile]
        simp [State.setFd, State.newFile, State.refer]
      have hy : number s' e = some (s'.inodes i).ino := by
        unfold number
        rw [R.inode]
        rfl
      have hused := (C.known R.lt R.inode).used
      rw [E.disk] at hused
      rw [E.curr]
      refine .opened ?_ ?_ ?_ fun hw => ?_
      · rw [State.fileOf, hfs]
        exact hn
      · rw [hnumber]
        exact resolve_of_hops S hfs hshort R.moves H hy
      · rw [hnumber]
        exact hused
      · rw [hfile] at hw
        rw [hnumber, ← E.disk]
        exact permits_write (R.moves.cacheModes S.coherent M) R.lt R.inode hp hw
    · refine .kept ?_
      rw [← hf, State.fileOf, State.fileOf]
      show _ = (s'.tasks t).bind _
      rw [E.tasks]
  | @closes x g fs hfs hx =>
    rw [fileOf_setFd (s := s.refer _ _) hfs] at hf
    split at hf
    · cases hf
    · exact .kept hf
  | reads | seeks | writes | switches => exact .kept hf
  | enters _ _ R | cuts _ _ _ R | detaches _ _ _ R => exact same R.moves.extends.tasks
  | @chdirs path fs s' d hfs _ m =>
    have hfs' : s'.tasks s'.curr = some fs := by rw [m.extends.tasks, m.extends.curr, hfs]
    rw [fileOf_setPwd hfs', State.fileOf, m.extends.tasks] at hf
    exact .kept hf
  | @forks fs s' hfs F =>
    by_cases ht : t = s.nTasks
    · subst ht
      obtain ⟨gs, hgs, hfiles⟩ := F.child
      have hx := hfiles fd
      have hf' : gs.files fd = some f := by
        rw [State.fileOf, hgs] at hf
        exact hf
      rw [hf'] at hx
      obtain ⟨f₀, h₀, heq⟩ := Option.map_eq_some_iff.mp hx.symm
      refine .forked ?_ heq.symm
      rw [State.fileOf, hfs]
      exact h₀
    · refine .kept ?_
      rw [← hf, State.fileOf, State.fileOf, F.tasks t ht]
  | loads => exact absurd rfl (hexec _ _)
  | exits => exact absurd rfl hexit

/-! ## Runs with a history -/

/-- A state and the objects that its history says. -/
structure History where
  state : State
  objects : Objects

/-- A call, and what it does to the objects. -/
def Call.traced (c : Call) : StateT History Exec Unit := fun h => do
  let (_, s') ← c.run h.state
  return ((), ⟨s', h.objects.after h.state s' c⟩)

/-- Neither `exec` nor `exit`. -/
def Call.tracked : Call → Bool
  | .exec .. | .exit => false
  | _ => true

/-- The object was not removed. -/
def History.live (h : History) (o : Nat) : Prop := ∃ a, a < diCount ∧ Used h.state.disk a ∧ h.objects.owner a = o

instance (h : History) (o : Nat) : Decidable (h.live o) := inferInstanceAs (Decidable (∃ a, a < diCount ∧ _))

/-- The object on which descriptor `fd` of the current task was opened. -/
def History.object (h : History) (fd : Nat) : Nat := h.objects.opened h.state.curr fd

def historySystem : System History :=
  .ofOps (fun h => ∃ t, Denemefs.Initial t ∧ h = ⟨start t, .start t⟩) (fun h c => c.ok h.state ∧ c.tracked = true)
    Call.traced

theorem traced_ok {h h' : History} {u : Unit} (hr : c.traced h = .ok (u, h')) :
    c.run h.state = .ok ((), h'.state) ∧ h'.objects = h.objects.after h.state h'.state c := by
  unfold Call.traced at hr
  obtain ⟨⟨u, s'⟩, h1, h2⟩ := bind_ok hr
  cases h2
  exact ⟨h1, rfl⟩

/-- What is known of the objects. -/
structure Kept (s : State) (g : Objects) : Prop where
  sane : Sane s
  modes : CacheModes s
  numbers : Numbers s.disk g
  file : ∀ {t fd f}, s.fileOf t fd = some f → Tracks s.disk g (s.numberOf f) (s.files f).flags (g.opened t fd)

theorem State.fileOf_eq (h : s.fileOf t fd = some f) : ∃ fs, s.tasks t = some fs ∧ fs.files fd = some f :=
  Option.bind_eq_some_iff.mp h

theorem Kept.start {t : Table} (S : Started t) : Kept (start t) (.start t) where
  sane := .start S
  modes := by
    intro d i hd hi hw
    cases hw
  numbers := ⟨fun h => S.bound _ h, fun _ _ h => h, fun _ => rfl⟩
  file h := by
    obtain ⟨fs, h1, h2⟩ := State.fileOf_eq h
    obtain ⟨-, rfl⟩ := start_tasks h1
    cases h2

/-- A descriptor that is kept keeps its object. -/
theorem opened_kept {g : Objects} (S : Sane s) (h : s.fileOf t fd = some f) :
    (g.after s s' c).opened t fd = g.opened t fd := by
  cases c with
  | sysOpen path flags => exact if_neg fun hc => Option.some_ne_none f (h.symm.trans hc.2.1)
  | fork =>
    obtain ⟨fs, hfs, -⟩ := State.fileOf_eq h
    exact if_neg (ne_of_lt (S.range hfs))
  | _ => rfl

theorem Kept.step {g : Objects} (K : Kept s g) (hok : c.ok s) (ht : c.tracked = true) (hr : c.run s = .ok ((), s')) :
    Kept s' (g.after s s' c) := by
  have S := K.sane
  have hexec : ∀ path loaded, c ≠ .exec path loaded := by
    rintro path loaded rfl
    cases ht
  have hexit : c ≠ .exit := by
    rintro rfl
    cases ht
  have D := Call.does S hok.1 hok.2.1 hok.2.2 hr
  obtain ⟨δ, ε, A, -⟩ := D.acts S
  have F := A.filesKept
  have T := D.turns hexec hexit
  refine ⟨A.sane S, A.cacheModes S K.modes, K.numbers.after T, fun {t fd f} hf => ?_⟩
  cases D.descriptor S K.modes hok.2.1 hexec hexit hf with
  | kept h =>
    obtain ⟨fs, hfs, hfd⟩ := State.fileOf_eq h
    have hlt := (S.files hfs hfd).2
    rw [opened_kept S h, F.numberOf S hlt, F.flags f hlt]
    exact (K.file h).after K.numbers
  | @opened path flags _ _ hnone hres hused hw =>
    have hopened : (g.after s s' (.sysOpen path flags)).opened s.curr fd = g.owner (s'.numberOf f) := by
      refine (if_pos ⟨rfl, hnone, fun hn => Option.some_ne_none f (hf.symm.trans hn)⟩).trans ?_
      rw [hres]
      rfl
    rw [hopened]
    refine Tracks.after K.numbers ⟨K.numbers.lt hused, .inl ⟨hused, rfl⟩, fun h => ?_⟩
    rw [← K.numbers.mode hused]
    exact hw h
  | @forked _ _ f₀ h₀ heq =>
    obtain ⟨fs, hfs, hfd⟩ := State.fileOf_eq h₀
    have hopened : (g.after s s' .fork).opened s.nTasks fd = g.opened s.curr fd := if_pos rfl
    have hnumber : s'.numberOf f = s.numberOf f₀ := by
      unfold State.numberOf
      rw [heq, F.ino _ (S.inodes (S.files hfs hfd).2)]
    rw [hopened, hnumber, heq]
    exact (K.file h₀).after K.numbers

variable {h : History}

theorem kept (hr : historySystem.Reachable h) : Kept h.state h.objects := by
  refine System.Reachable.invariant (I := fun h => Kept h.state h.objects) ?_ ?_ hr
  · rintro _ ⟨t, ht, rfl⟩
    exact .start (Denemefs.started (.init ht))
  · rintro h h' K ⟨c, ⟨hok, ht⟩, hc⟩
    obtain ⟨h1, h2⟩ := traced_ok hc
    rw [h2]
    exact K.step hok ht h1

/-! ## Reading and writing -/

/-- The number of an open file stands for the object of the descriptor exactly if that
was not removed. -/
theorem Kept.owner_iff (K : Kept h.state h.objects) {fd f : Nat}
    (hf : h.state.fileOf h.state.curr fd = some f) (hu : Used h.state.disk (h.state.numberOf f)) :
    h.objects.owner (h.state.numberOf f) = h.object fd ↔ h.live (h.object fd) := by
  refine ⟨fun ho => ⟨_, K.sane.coherent.disk.bound _ hu, hu, ho⟩, fun ⟨b, _, hb, hbo⟩ => ?_⟩
  rcases (K.file hf).stands with ⟨-, ho⟩ | hgone
  · exact ho
  · exact absurd hbo (hgone b hb)

/-- `denemefs_read` of a regular file. -/
theorem read_regular {t : Table} (I : Inv t) {ino : Nat} (hu : Used t ino) (ht : (t.di ino).mode.type = .regular)
    (fpos size : Nat) : denemefsRead ino fpos size t =
      .ok (some (readLoop (block t ino) fpos (t.di ino).size 0 size), t) := by
  simp only [denemefsRead, get_run, ht, ne_eq, not_true_eq_false, if_false]
  rw [bind_run (dataOf_some (I.hasData ino hu))]
  rfl

theorem read_notRegular {t : Table} {ino : Nat} (ht : (t.di ino).mode.type ≠ .regular) (fpos size : Nat) :
    denemefsRead ino fpos size t = .ok (none, t) := by
  simp [denemefsRead, ht]

/-- A call through a descriptor returns for a task that is there. -/
theorem curr_of_openFile {fd : Nat} {α : Type} {k : Nat → VfsM α} {a : α} (h : (openFile fd >>= k) s = .ok (a, s')) :
    ∃ fs, s.tasks s.curr = some fs := by
  cases hfs : s.tasks s.curr with
  | some fs => exact ⟨fs, rfl⟩
  | none =>
    have hcurr : currFile fd s = .error (if fd < taskMaxFileNr then .null else .overflow) := by
      unfold currFile
      split
      · exact bind_fail (by simp [currFs, hfs])
      · rfl
    have hopen : openFile fd s = .error (if fd < taskMaxFileNr then .null else .overflow) := bind_fail hcurr
    rw [bind_fail hopen] at h
    cases h

/-- The bytes `sys_read` returns. -/
theorem sysRead_bytes {fd size : Nat} {bytes : List UInt8} (S : Sane s) (h : sysRead fd size s = .ok (some bytes, s')) :
    ∃ f, s.fileOf s.curr fd = some f ∧ Used s.disk (s.numberOf f) ∧
      bytes = readLoop (block s.disk (s.numberOf f)) (s.files f).fpos (s.disk.di (s.numberOf f)).size 0 size := by
  have I := S.coherent.disk.toInv
  obtain ⟨fs, hfs⟩ := curr_of_openFile h
  have E : Ends (sysRead fd size) s (fun _ => True) fun r _ => r = some bytes → ∃ f, s.fileOf s.curr fd = some f ∧
      Used s.disk (s.numberOf f) ∧
      bytes = readLoop (block s.disk (s.numberOf f)) (s.files f).fpos (s.disk.di (s.numberOf f)).size 0 size := by
    refine (openFile_ends (fun _ _ => trivial) hfs fd).bind fun f t ht => ?_
    obtain ⟨rfl, hf⟩ := ht
    refine .bind_ok rfl ?_
    dsimp only
    split
    · exact .pure nofun
    refine (fileOperations_ends (fun _ _ => trivial) f).bind fun _ t ht => ?_
    obtain ⟨rfl, -⟩ := ht
    refine .bind_ok rfl ?_
    by_cases hreg : (t.disk.di (t.numberOf f)).mode.type = .regular
    · have hu := used_of_regular I hreg
      refine .bind_ok (onDisk_eq (read_regular I hu hreg _ size)) (.of_ok rfl fun hb => ⟨f, ?_, hu, ?_⟩)
      · rw [State.fileOf, hfs]
        exact hf
      · exact (Option.some.inj hb).symm
    · exact .bind_ok (onDisk_eq (read_notRegular hreg _ size)) (.pure nofun)
  exact E.ok h rfl

/-- The contents `sys_write` changes. -/
theorem sysWrite_changes {fd : Nat} {buf : List UInt8} {r : Option Nat} (S : Sane s)
    (h : sysWrite fd buf s = .ok (r, s')) (ha : s'.disk.di a ≠ s.disk.di a) :
    ∃ f, s.fileOf s.curr fd = some f ∧ (s.files f).flags &&& 2 = 2 ∧ Used s.disk a ∧ a = s.numberOf f := by
  obtain ⟨fs, hfs⟩ := curr_of_openFile h
  have D := (write_ends (E := fun _ => True) (fun _ _ => trivial) S hfs fd buf).ok h
  cases D with
  | moves _ _ _ _ m => exact absurd (congrArg (fun t => Table.di t a) m.extends.disk) ha
  | @writes _ f p ino _ fs' _ t hfs' hf hflags hino E =>
    have hfile : s.fileOf s.curr fd = some f := by
      rw [State.fileOf, hfs']
      exact hf
    cases E with
    | fails => exact absurd rfl ha
    | write hu ht =>
      have hai : a = ino := by
        by_contra hne
        exact ha (fill_di hne)
      exact ⟨f, hfile, hflags, hai ▸ hu, hai.trans hino.symm⟩
  | refers _ hf => exact absurd hf id
  | enters _ hf => exact absurd hf id
  | cuts _ _ hf => exact absurd hf id
  | detaches _ _ hf => exact absurd hf id

/-- In every state of every run: the bytes a read through a descriptor returns are of
one file, and what a write changes is the contents of a file; and that file is the
object on which the descriptor was opened if and only if this was not removed.  Then
nothing is written to what was made without the right to write. -/
theorem descriptor_reaches_object {h : History} (hr : historySystem.Reachable h) (fd : Nat) :
    (∀ size bytes s', sysRead fd size h.state = .ok (some bytes, s') →
      ∃ a p, Used h.state.disk a ∧ bytes = readLoop (block h.state.disk a) p (h.state.disk.di a).size 0 size ∧
        (h.objects.owner a = h.object fd ↔ h.live (h.object fd))) ∧
    ∀ buf r s', sysWrite fd buf h.state = .ok (r, s') → ∀ a, s'.disk.di a ≠ h.state.disk.di a →
      Used h.state.disk a ∧ (h.objects.owner a = h.object fd ↔ h.live (h.object fd)) ∧
        (h.live (h.object fd) → h.objects.writable (h.objects.owner a) = true) := by
  have K := kept hr
  refine ⟨fun size bytes s' hread => ?_, fun buf r s' hwrite a ha => ?_⟩
  · obtain ⟨f, hf, hu, hbytes⟩ := sysRead_bytes K.sane hread
    exact ⟨_, _, hu, hbytes, K.owner_iff hf hu⟩
  · obtain ⟨f, hf, hflags, hu, rfl⟩ := sysWrite_changes K.sane hwrite ha
    have hiff := K.owner_iff hf hu
    refine ⟨hu, hiff, fun hlive => ?_⟩
    rw [hiff.mpr hlive]
    exact (K.file hf).writes hflags

/-- The history of some calls, from a disk without a RAM disk. -/
def historyOf (calls : List Call) : Option History :=
  (denemefsInit zeroed none ⟨fun _ => .zero⟩).toOption.bind fun p =>
    System.after (fun h c => Call.ok h.state c ∧ c.tracked = true) Call.traced ⟨start p.2, .start p.2⟩ calls

theorem historyOf_reachable {calls : List Call} (hs : historyOf calls = some h) :
    historySystem.Reachable h := by
  obtain ⟨⟨u, t⟩, h0, h1⟩ := Option.bind_eq_some_iff.mp hs
  exact System.Reachable.after (.init ⟨t, ⟨zeroed, none, _, (fun _ h => nomatch h), of_toOption h0⟩, rfl⟩) h1

/-- A file is made in `/home`, opened and read. -/
theorem descriptor_reaches_home : ∃ h, historySystem.Reachable h ∧ h.live (h.object 3) ∧
    ∃ bytes s', sysRead 3 4 h.state = .ok (some bytes, s') ∧
      ∃ a p, Used h.state.disk a ∧ bytes = readLoop (block h.state.disk a) p (h.state.disk.di a).size 0 4 ∧
        (h.objects.owner a = h.object 3 ↔ h.live (h.object 3)) := by
  obtain ⟨h, hh, hlive, hread⟩ : ∃ h, historyOf [.sysCreat (.ofString "/home/a") 3, .sysOpen (.ofString "/home/a") 3] =
      some h ∧ h.live (h.object 3) ∧ ((sysRead 3 4 h.state).toOption.bind Prod.fst).isSome = true :=
    observed (by decide +kernel)
  obtain ⟨bytes, hb⟩ := Option.isSome_iff_exists.mp hread
  obtain ⟨⟨r, s'⟩, h1, h2⟩ := Option.bind_eq_some_iff.mp hb
  obtain rfl : r = some bytes := h2
  have hr := historyOf_reachable hh
  exact ⟨h, hr, hlive, bytes, s', of_toOption h1,
    (descriptor_reaches_object hr 3).1 4 bytes s' (of_toOption h1)⟩

/-- A file is opened and removed, and another one is made, which nobody may write.  It
gets the number of the first one, and is written through the old descriptor. -/
theorem stale_descriptor_writes : ∃ h s' a, historySystem.Reachable h ∧ (∃ r, sysWrite 3 [88] h.state = .ok (r, s')) ∧
    Used h.state.disk a ∧ h.objects.owner a ≠ h.object 3 ∧ h.objects.writable (h.objects.owner a) = false ∧
    block h.state.disk a 0 = 0 ∧ block s'.disk a 0 = 88 := by
  obtain ⟨h, hh, hx⟩ : ∃ h, historyOf [.sysCreat (.ofString "/home/a") 3, .sysOpen (.ofString "/home/a") 3,
      .sysUnlink (.ofString "/home/a"), .sysCreat (.ofString "/home/b") 1] = some h ∧
        ((sysWrite 3 [88] h.state).toOption.map fun p => decide (Used h.state.disk 6 ∧
          h.objects.owner 6 ≠ h.object 3 ∧ h.objects.writable (h.objects.owner 6) = false ∧
          block h.state.disk 6 0 = 0 ∧ block p.2.disk 6 0 = 88)) = some true := observed (by decide +kernel)
  obtain ⟨⟨r, s'⟩, hw, hx⟩ := observed hx
  exact ⟨h, s', 6, historyOf_reachable hh, ⟨r, of_toOption hw⟩, hx⟩

end MakarnaX.Vfs
