import MakarnaX.Fs.Vfs.Resolve
import MakarnaX.Library.Ledger
import Mathlib.Algebra.BigOperators.Pi
import Mathlib.Algebra.Order.BigOperators.Group.Finset

/-!
# What calls are made of

A call is a sequence of small changes of the state: references that are taken and
dropped, files and tasks that come and go, changes on disk.  An `Act` is one of
them.  It has two labels: how many references to each dirent, and to each inode,
it takes without putting them anywhere.  `Account` and `InodeAccount` are the
books, and an act changes them by its labels.
-/

namespace MakarnaX.Vfs

open Library Denemefs Subdentry Function Finset

variable {s s' s'' : State} {x : Denemefs.Inode} {δ ε ε₀ δ₀ : Nat → Int} {name : CString} {dir d : Nat}
  {v : Option TaskFs}

/-! ## Changes of files and tasks -/

/-- A new `struct file`. -/
def State.newFile (s : State) (x : File) : State :=
  { s with nFiles := s.nFiles + 1, files := update s.files s.nFiles x }

def State.seek (s : State) (f p : Nat) : State :=
  { s with files := update s.files f { s.files f with fpos := p } }

/-- Descriptor `fd` of task `t`. -/
def State.setFd (s : State) (t fd : Nat) (v : Option Nat) : State :=
  { s with tasks := update s.tasks t ((s.tasks t).map fun fs =>
      { fs with files := update fs.files fd v }) }

def State.setPwd (s : State) (t d : Nat) : State :=
  { s with tasks := update s.tasks t ((s.tasks t).map fun fs => { fs with pwd := d }) }

def State.newTask (s : State) (fs : TaskFs) : State :=
  { s with nTasks := s.nTasks + 1, tasks := update s.tasks s.nTasks (some fs) }

def State.endTask (s : State) (t : Nat) : State := { s with tasks := update s.tasks t none }

/-! ## The books -/

/-- The directories of a task. -/
def TaskFs.points (fs : TaskFs) : Nat → Int := Pi.single fs.pwd 1 + Pi.single fs.root 1

/-- How many directories of tasks a dirent is. -/
def pointers (s : State) : Nat → Int := ∑ t ∈ range s.nTasks, (s.tasks t).elim 0 TaskFs.points

/-- A dirent with an inode is in the tree. -/
def Dirent.place (x : Dirent) : Int := if x.inode = none then 0 else 1

/-- The inode of a dirent. -/
def Dirent.refers (x : Dirent) : Nat → Int := x.inode.elim 0 (Pi.single · 1)

/-- How many dirents have an inode. -/
def places (s : State) : Nat → Int := ∑ d ∈ range s.nDirents, (s.dirents d).refers

/-- The inode of the file behind a descriptor. -/
def fileRefers (files : Nat → File) (f : Option Nat) : Nat → Int := f.elim 0 fun f => Pi.single (files f).inode 1

/-- The inodes of the files of a task. -/
def TaskFs.opens (files : Nat → File) (fs : TaskFs) : Nat → Int :=
  ∑ fd ∈ range taskMaxFileNr, fileRefers files (fs.files fd)

/-- How many open files have an inode. -/
def opens (s : State) : Nat → Int := ∑ t ∈ range s.nTasks, (s.tasks t).elim 0 (TaskFs.opens s.files)

/-- The counts of the dirents are as they should be, up to `δ`. -/
structure Account (s : State) (δ : Nat → Int) : Prop where
  count : ∀ d, d < s.nDirents → (s.dirents d).refCount = (s.dirents d).place + pointers s d + δ d
  new : ∀ d, s.nDirents ≤ d → δ d = 0

/-- The counts of the inodes are as they should be, up to `ε`. -/
structure InodeAccount (s : State) (ε : Nat → Int) : Prop where
  count : ∀ i, i < s.nInodes → (s.inodes i).refCount = places s i + opens s i + ε i
  new : ∀ i, s.nInodes ≤ i → ε i = 0

/-! ## Acts -/

end MakarnaX.Vfs

/-- The call takes an entry away. -/
def MakarnaX.Denemefs.Op.removes : Denemefs.Op → Bool
  | .unlink .. | .rmdir .. => true
  | _ => false

namespace MakarnaX.Vfs

open Library Denemefs Subdentry

variable {s s' s'' : State} {fs : TaskFs} {files : Nat → File}

inductive Act (s : State) : (Nat → Int) → (Nat → Int) → State → Prop
  | moves {h : Nat → Int} {s' : State} : Moves s h s' → Act s h 0 s'
  | refer {i : Nat} {k : Int} : i < s.nInodes → Act s 0 (Pi.single i k) (s.refer i k)
  | disk {op : Op} {r : Int} {t : Table} : Effect s.disk op r t → op.removes = false → Act s 0 0 { s with disk := t }
  | cut {y a k b : Nat} {name : CString} : Cut s y name a k b → cached s y name = none →
      Act s 0 0 { s with disk := Denemefs.cut s.disk a k b }
  | detach {y a k b c j : Nat} {name : CString} : Cut s y name a k b → cached s y name = some c →
      0 < (s.dirents c).refCount → (s.dirents c).inode = some j →
      Act s 0 (Pi.single j 1) { s.detach y c with disk := Denemefs.cut s.disk a k b }
  | newFile {x : File} : x.inode < s.nInodes → Act s 0 0 (s.newFile x)
  | seek {f p : Nat} : Act s 0 0 (s.seek f p)
  | take {t fd f : Nat} {fs : TaskFs} : s.tasks t = some fs → fd < taskMaxFileNr → fs.files fd = none →
      f < s.nFiles → Act s 0 (-Pi.single (s.files f).inode 1) (s.setFd t fd (some f))
  | give {t fd f : Nat} {fs : TaskFs} : s.tasks t = some fs → fs.files fd = some f →
      Act s 0 (Pi.single (s.files f).inode 1) (s.setFd t fd none)
  | chdir {t d : Nat} {fs : TaskFs} : s.tasks t = some fs → d < s.nDirents →
      Act s (Pi.single fs.pwd 1 - Pi.single d 1) 0 (s.setPwd t d)
  | newTask {t : Nat} {fs : TaskFs} : s.tasks t = some fs →
      Act s (-fs.points) 0 (s.newTask { fs with files := fun _ => none })
  | endTask {t : Nat} {fs : TaskFs} : s.tasks t = some fs → (∀ fd, fs.files fd = none) →
      Act s fs.points 0 (s.endTask t)
  | switch {t : Nat} {fs : TaskFs} : s.tasks t = some fs → Act s 0 0 { s with curr := t }

/-- One act after the other. -/
inductive Acts (s : State) : (Nat → Int) → (Nat → Int) → State → Prop
  | refl : Acts s 0 0 s
  | step {δ ε δ' ε' : Nat → Int} {s' s'' : State} : Acts s δ ε s' → Act s' δ' ε' s'' → Acts s (δ + δ') (ε + ε') s''

theorem Acts.trans {δ ε δ' ε' : Nat → Int} (A : Acts s δ ε s') (B : Acts s' δ' ε' s'') :
    Acts s (δ + δ') (ε + ε') s'' := by
  induction B with
  | refl => simpa using A
  | step _ a ih =>
    rw [← add_assoc, ← add_assoc]
    exact .step ih a

theorem Act.acts (a : Act s δ ε s') : Acts s δ ε s' := by
  simpa using Acts.step .refl a

/-! ## What stays in order -/

/-- The state between two calls. -/
structure Sane (s : State) : Prop where
  coherent : Coherent s
  tasks : TasksOk s
  range : ∀ {t fs}, s.tasks t = some fs → t < s.nTasks
  files : ∀ {t fs fd f}, s.tasks t = some fs → fs.files fd = some f → fd < taskMaxFileNr ∧ f < s.nFiles
  inodes : ∀ {f}, f < s.nFiles → (s.files f).inode < s.nInodes

/-- Nothing has changed in the cache and on disk. -/
theorem Coherent.frame (C : Coherent s) (hdisk : s'.disk = s.disk) (hd : s'.dirents = s.dirents)
    (hnd : s'.nDirents = s.nDirents) (hi : s'.inodes = s.inodes) (hni : s'.nInodes = s.nInodes) : Coherent s' := by
  cases s
  cases s'
  cases hdisk
  cases hd
  cases hnd
  cases hi
  cases hni
  refine ⟨C.disk, C.unlocked, C.free, C.pos, C.root, fun hd hi => ?_, fun hp hc => ?_, C.up, C.inj, C.nodup, C.counts⟩
  · have K := C.known hd hi
    exact ⟨K.lt, K.used, K.op⟩
  · have H := C.child hp hc
    exact ⟨H.lt, H.ne, H.parent, H.proper, H.entry⟩

/-- Other dirents, inodes and another disk. -/
theorem Sane.cache (S : Sane s) (C : Coherent s') (htasks : s'.tasks = s.tasks) (hnt : s'.nTasks = s.nTasks)
    (hf : s'.files = s.files) (hnf : s'.nFiles = s.nFiles) (hnd : s.nDirents ≤ s'.nDirents)
    (hni : s.nInodes ≤ s'.nInodes) : Sane s' where
  coherent := C
  tasks t fs h := by
    rw [htasks] at h
    obtain ⟨h1, h2⟩ := S.tasks t fs h
    exact ⟨h1, Nat.lt_of_lt_of_le h2 hnd⟩
  range h := by
    rw [htasks] at h
    exact hnt ▸ S.range h
  files h hfd := by
    rw [htasks] at h
    exact hnf ▸ S.files h hfd
  inodes h := by
    rw [hnf] at h
    rw [hf]
    exact Nat.lt_of_lt_of_le (S.inodes h) hni

/-- The disk keeps the entries of the cache, unless one is taken away. -/
theorem Coherent.effect {op : Op} {r : Int} {t : Table} (C : Coherent s) (E : Effect s.disk op r t)
    (h : op.removes = false) : Coherent { s with disk := t } := by
  have S := E.started C.disk
  cases E with
  | fails | lookup => exact C
  | create hd hf he hfits => exact C.link hd (.newDi (.inl rfl)) hf he hfits S
  | mkdir hd hf he hfits => exact C.link hd (.newDi (.inr rfl)) hf he hfits S
  | unlink | rmdir => cases h
  | write hu ht => exact C.fill hu ht

section Tasks

variable {t u fd : Nat} {fs : TaskFs}

/-- Changing one task. -/
theorem update_task {gs : TaskFs} (h : Function.update s.tasks t v u = some gs) :
    u = t ∧ v = some gs ∨ u ≠ t ∧ s.tasks u = some gs := by
  by_cases hu : u = t
  · subst hu
    rw [Function.update_self] at h
    exact .inl ⟨rfl, h⟩
  · rw [Function.update_of_ne hu] at h
    exact .inr ⟨hu, h⟩

/-- Another task `t`. -/
theorem Sane.task (S : Sane s) {n : Nat} (hn : s.nTasks ≤ n)
    (hv : ∀ gs, v = some gs → t < n ∧ gs.root = 0 ∧ gs.pwd < s.nDirents ∧
      ∀ fd f, gs.files fd = some f → fd < taskMaxFileNr ∧ f < s.nFiles) :
    Sane { s with tasks := Function.update s.tasks t v, nTasks := n } where
  coherent := S.coherent.frame rfl rfl rfl rfl rfl
  tasks u gs h := by
    rcases update_task h with ⟨rfl, hu⟩ | ⟨-, h⟩
    · exact ⟨(hv gs hu).2.1, (hv gs hu).2.2.1⟩
    · exact S.tasks u gs h
  range h := by
    rcases update_task h with ⟨rfl, hu⟩ | ⟨-, h⟩
    · exact (hv _ hu).1
    · exact Nat.lt_of_lt_of_le (S.range h) hn
  files h hfd := by
    rcases update_task h with ⟨rfl, hu⟩ | ⟨-, h⟩
    · exact (hv _ hu).2.2.2 _ _ hfd
    · exact S.files h hfd
  inodes := S.inodes

end Tasks

theorem Act.sane (S : Sane s) (a : Act s δ ε s') : Sane s' := by
  have C := S.coherent
  cases a with
  | moves m =>
    have E := m.extends
    exact S.cache (m.coherent C) E.tasks E.nTasks E.files E.nFiles E.nDirents E.nInodes
  | refer hi => exact S.cache (C.refer _ _) rfl rfl rfl rfl (Nat.le_refl _) (Nat.le_refl _)
  | disk E h => exact S.cache (C.effect E h) rfl rfl rfl rfl (Nat.le_refl _) (Nat.le_refl _)
  | cut X hc => exact S.cache (C.cut_uncached X hc) rfl rfl rfl rfl (Nat.le_refl _) (Nat.le_refl _)
  | detach X hc h0 hj => exact S.cache (C.cut_cached X hc h0) rfl rfl rfl rfl (Nat.le_refl _) (Nat.le_refl _)
  | newFile hx =>
    refine ⟨C.frame rfl rfl rfl rfl rfl, S.tasks, S.range, ?_, ?_⟩
    · intro t fs fd f h hfd
      obtain ⟨h1, h2⟩ := S.files h hfd
      exact ⟨h1, Nat.lt_succ_of_lt h2⟩
    · intro f hf
      show (Function.update s.files s.nFiles _ f).inode < s.nInodes
      by_cases h : f = s.nFiles
      · rw [h, Function.update_self]
        exact hx
      · rw [Function.update_of_ne h]
        exact S.inodes (Nat.lt_of_le_of_ne (Nat.le_of_lt_succ hf) h)
  | @seek f p =>
    refine ⟨C.frame rfl rfl rfl rfl rfl, S.tasks, S.range, S.files, ?_⟩
    intro g hg
    show (Function.update s.files f _ g).inode < s.nInodes
    by_cases h : g = f
    · rw [h, Function.update_self]
      exact S.inodes (h ▸ hg)
    · rw [Function.update_of_ne h]
      exact S.inodes hg
  | @take t fd f fs hfs hfd hn hf =>
    refine S.task (Nat.le_refl _) fun gs hgs => ?_
    rw [hfs] at hgs
    cases hgs
    refine ⟨S.range hfs, (S.tasks t fs hfs).1, (S.tasks t fs hfs).2, fun x g hx => ?_⟩
    have hx : Function.update fs.files fd (some f) x = some g := hx
    by_cases h : x = fd
    · subst h
      rw [Function.update_self] at hx
      cases hx
      exact ⟨hfd, hf⟩
    · rw [Function.update_of_ne h] at hx
      exact S.files hfs hx
  | @give t fd f fs hfs hf =>
    refine S.task (Nat.le_refl _) fun gs hgs => ?_
    rw [hfs] at hgs
    cases hgs
    refine ⟨S.range hfs, (S.tasks t fs hfs).1, (S.tasks t fs hfs).2, fun x g hx => ?_⟩
    have hx : Function.update fs.files fd none x = some g := hx
    by_cases h : x = fd
    · subst h
      rw [Function.update_self] at hx
      cases hx
    · rw [Function.update_of_ne h] at hx
      exact S.files hfs hx
  | @chdir t d fs hfs hd =>
    refine S.task (Nat.le_refl _) fun gs hgs => ?_
    rw [hfs] at hgs
    cases hgs
    exact ⟨S.range hfs, (S.tasks t fs hfs).1, hd, fun x g hx => S.files hfs hx⟩
  | @newTask t fs hfs =>
    refine S.task (Nat.le_succ _) fun gs hgs => ?_
    cases hgs
    exact ⟨Nat.lt_succ_self _, (S.tasks t fs hfs).1, (S.tasks t fs hfs).2, nofun⟩
  | endTask hfs hn => exact S.task (Nat.le_refl _) nofun
  | switch h => exact ⟨C.frame rfl rfl rfl rfl rfl, S.tasks, S.range, S.files, S.inodes⟩

theorem Acts.sane (S : Sane s) (A : Acts s δ ε s') : Sane s' := by
  induction A with
  | refl => exact S
  | step _ a ih => exact a.sane ih

/-! ## The books are kept -/

theorem pointers_new (T : TasksOk s) (h0 : 0 < s.nDirents) (hd : s.nDirents ≤ d) : pointers s d = 0 := by
  unfold pointers
  rw [Finset.sum_apply]
  refine Finset.sum_eq_zero fun t _ => ?_
  cases hfs : s.tasks t with
  | none => rfl
  | some fs =>
    obtain ⟨hr, hp⟩ := T t fs hfs
    have h1 : d ≠ fs.pwd := by omega
    have h2 : d ≠ fs.root := by omega
    simp [TaskFs.points, h1, h2]

theorem pointers_nonneg (s : State) (d : Nat) : 0 ≤ pointers s d := by
  unfold pointers
  rw [Finset.sum_apply]
  refine Finset.sum_nonneg fun t _ => ?_
  cases s.tasks t with
  | none => exact Int.le_refl 0
  | some fs => exact Int.add_nonneg (single_nonneg fs.pwd d) (single_nonneg fs.root d)

/-- A dirent in the tree is referred to. -/
theorem Account.pos (A : Account s δ) (hd : d < s.nDirents) (hi : (s.dirents d).inode ≠ none)
    (hδ : 0 ≤ δ d) : 0 < (s.dirents d).refCount := by
  have h := A.count d hd
  have hp := pointers_nonneg s d
  rw [Dirent.place, if_neg hi] at h
  omega

theorem places_new (C : Coherent s) {i : Nat} (hi : s.nInodes ≤ i) : places s i = 0 := by
  unfold places
  rw [Finset.sum_apply]
  refine Finset.sum_eq_zero fun d hd => ?_
  unfold Dirent.refers
  cases hj : (s.dirents d).inode with
  | none => rfl
  | some j =>
    have := (C.known (Finset.mem_range.mp hd) hj).lt
    have hne : i ≠ j := by omega
    simp [hne]

theorem opens_new (S : Sane s) {i : Nat} (hi : s.nInodes ≤ i) : opens s i = 0 := by
  unfold opens
  rw [Finset.sum_apply]
  refine Finset.sum_eq_zero fun t _ => ?_
  cases hfs : s.tasks t with
  | none => rfl
  | some fs =>
    show TaskFs.opens s.files fs i = 0
    unfold TaskFs.opens
    rw [Finset.sum_apply]
    refine Finset.sum_eq_zero fun fd _ => ?_
    cases hf : fs.files fd with
    | none => rfl
    | some f =>
      have := S.inodes (S.files hfs hf).2
      have hne : i ≠ (s.files f).inode := by omega
      simp [fileRefers, hne]

theorem Account.hold {δ h : Nat → Int} (A : Account s δ) (hh : ∀ d, s.nDirents ≤ d → h d = 0) :
    Account (s.hold h) (δ + h) where
  count d hd := by
    have := A.count d hd
    show (s.dirents d).refCount + h d = (s.dirents d).place + pointers s d + (δ d + h d)
    omega
  new d hd := by
    show δ d + h d = 0
    rw [A.new d hd, hh d hd]
    rfl

theorem single_of_le {n d x : Nat} (hd : d < n) (hx : n ≤ x) : (Pi.single d 1 : Nat → Int) x = 0 :=
  Pi.single_eq_of_ne (by omega) _

theorem Account.add (S : Sane s) (A : Account s δ) (F : Finds s dir name x) : Account (s.add dir name x) δ where
  count d hd := by
    have hd : d < s.nDirents + 1 := hd
    show _ = _ + pointers s d + δ d
    by_cases h : d = s.nDirents
    · subst h
      rw [pointers_new S.tasks S.coherent.pos (Nat.le_refl _), A.new _ (Nat.le_refl _), add_dirent_new F.lt]
      rfl
    · have hold := add_dirent_old dir name x (show d < s.nDirents by omega)
      rw [hold.2.2.2.2.1, A.count d (by omega), Dirent.place, Dirent.place, hold.1]
  new d hd := A.new d (Nat.le_of_succ_le hd)

theorem Moves.sane {h : Nat → Int} (S : Sane s) (m : Moves s h s') : Sane s' := (Act.moves m).sane S

theorem Moves.account {h δ : Nat → Int} (S : Sane s) (A : Account s δ) (m : Moves s h s') : Account s' (δ + h) := by
  induction m with
  | refl => simpa using A
  | dup _ hd ih =>
    rw [← add_assoc, dup_eq_hold]
    exact ih.hold fun _ => single_of_le hd
  | drop _ hd _ ih =>
    rw [← add_sub_assoc, drop_eq_hold, sub_eq_add_neg]
    refine ih.hold fun x hx => ?_
    rw [Pi.neg_apply, single_of_le hd hx]
    rfl
  | spare _ ih => exact ⟨ih.count, ih.new⟩
  | add m F ih => exact ih.add (m.sane S) F

theorem InodeAccount.spare {ε : Nat → Int} (S : Sane s) (A : InodeAccount s ε) : InodeAccount s.spare ε where
  count i hi := by
    have hi : i < s.nInodes + 1 := hi
    show (Function.update s.inodes s.nInodes _ i).refCount = places s i + opens s i + ε i
    by_cases h : i = s.nInodes
    · subst h
      rw [Function.update_self, places_new S.coherent (Nat.le_refl _), opens_new S (Nat.le_refl _),
        A.new _ (Nat.le_refl _)]
      rfl
    · rw [Function.update_of_ne h]
      exact A.count i (by omega)
  new i hi := A.new i (Nat.le_of_succ_le hi)

theorem places_add (hd : dir < s.nDirents) :
    places (s.add dir name x) = places s + Pi.single s.nInodes 1 := by
  unfold places
  show ∑ d ∈ Finset.range (s.nDirents + 1), _ = _
  rw [Finset.sum_range_succ]
  congr 1
  · refine Finset.sum_congr rfl fun d hd => ?_
    unfold Dirent.refers
    rw [(add_dirent_old _ _ _ (Finset.mem_range.mp hd)).1]
  · rw [add_dirent_new hd]
    rfl

theorem InodeAccount.add {ε : Nat → Int} (S : Sane s) (A : InodeAccount s ε)
    (F : Finds s dir name x) : InodeAccount (s.add dir name x) ε where
  count i hi := by
    have hi : i < s.nInodes + 1 := hi
    rw [places_add F.lt]
    show _ = places s i + (Pi.single s.nInodes 1 : Nat → Int) i + opens s i + ε i
    by_cases h : i = s.nInodes
    · subst h
      rw [places_new S.coherent (Nat.le_refl _), opens_new S (Nat.le_refl _), A.new _ (Nat.le_refl _),
        Pi.single_eq_same, add_inode_new]
      rfl
    · have hlt : i < s.nInodes := by omega
      rw [add_inode_old hlt, A.count i hlt, Pi.single_eq_of_ne h]
      omega
  new i hi := A.new i (Nat.le_of_succ_le hi)

theorem Moves.inodeAccount {h ε : Nat → Int} (S : Sane s) (A : InodeAccount s ε) (m : Moves s h s') :
    InodeAccount s' ε := by
  induction m with
  | refl => exact A
  | dup _ _ ih =>
    rw [dup_eq_hold]
    exact ⟨ih.count, ih.new⟩
  | drop _ _ _ ih =>
    rw [drop_eq_hold]
    exact ⟨ih.count, ih.new⟩
  | spare m ih => exact ih.spare (m.sane S)
  | add m F ih => exact ih.add (m.sane S) F

/-! ### Tasks -/

section Tasks

variable {t : Nat}

theorem pointers_update (ht : t < s.nTasks) (v : Option TaskFs) :
    pointers { s with tasks := Function.update s.tasks t v } =
      pointers s + (v.elim 0 TaskFs.points - (s.tasks t).elim 0 TaskFs.points) := by
  have h := sum_range_change (g := fun u => (s.tasks u).elim 0 TaskFs.points)
    (k := fun u => (Function.update s.tasks t v u).elim 0 TaskFs.points) ht fun u _ hu => by
      rw [Function.update_of_ne hu]
  rw [Function.update_self] at h
  exact h

theorem opens_update (ht : t < s.nTasks) (v : Option TaskFs) :
    opens { s with tasks := Function.update s.tasks t v } =
      opens s + (v.elim 0 (TaskFs.opens s.files) - (s.tasks t).elim 0 (TaskFs.opens s.files)) := by
  have h := sum_range_change (g := fun u => (s.tasks u).elim 0 (TaskFs.opens s.files))
    (k := fun u => (Function.update s.tasks t v u).elim 0 (TaskFs.opens s.files)) ht fun u _ hu => by
      rw [Function.update_of_ne hu]
  rw [Function.update_self] at h
  exact h

theorem sum_newTask (g : TaskFs → Nat → Int) (fs : TaskFs) : ∑ u ∈ Finset.range (s.nTasks + 1),
    (Function.update s.tasks s.nTasks (some fs) u).elim 0 g =
      ∑ u ∈ Finset.range s.nTasks, (s.tasks u).elim 0 g + g fs := by
  rw [Finset.sum_range_succ, Function.update_self]
  congr 1
  refine Finset.sum_congr rfl fun u hu => ?_
  rw [Function.update_of_ne (Nat.ne_of_lt (Finset.mem_range.mp hu))]

theorem pointers_newTask (fs : TaskFs) : pointers (s.newTask fs) = pointers s + fs.points := sum_newTask TaskFs.points fs

theorem opens_newTask (fs : TaskFs) : opens (s.newTask fs) = opens s + fs.opens s.files :=
  sum_newTask (TaskFs.opens s.files) fs

theorem TaskFs.opens_none (h : ∀ fd, fs.files fd = none) : fs.opens files = 0 := by
  unfold TaskFs.opens
  refine Finset.sum_eq_zero fun fd _ => ?_
  rw [h fd]
  rfl

theorem TaskFs.opens_congr {files files' : Nat → File}
    (h : ∀ fd f, fs.files fd = some f → (files f).inode = (files' f).inode) : fs.opens files = fs.opens files' := by
  unfold TaskFs.opens
  refine Finset.sum_congr rfl fun fd _ => ?_
  cases hf : fs.files fd with
  | none => rfl
  | some f =>
    show Pi.single (files f).inode 1 = Pi.single (files' f).inode 1
    rw [h fd f hf]

/-- One descriptor of a task is changed. -/
theorem TaskFs.opens_update {fd : Nat} (hfd : fd < taskMaxFileNr) (v : Option Nat) :
    TaskFs.opens files { fs with files := Function.update fs.files fd v } =
      fs.opens files + (fileRefers files v - fileRefers files (fs.files fd)) := by
  have h := sum_range_change (g := fun x => fileRefers files (fs.files x))
    (k := fun x => fileRefers files (Function.update fs.files fd v x)) hfd fun x _ hx => by
      rw [Function.update_of_ne hx]
  rw [Function.update_self] at h
  exact h

theorem opens_setFd (S : Sane s) (hfs : s.tasks t = some fs) {fd : Nat} (hfd : fd < taskMaxFileNr) (v : Option Nat) :
    opens (s.setFd t fd v) = opens s + (fileRefers s.files v - fileRefers s.files (fs.files fd)) := by
  have h : opens (s.setFd t fd v) = _ := opens_update (S.range hfs) _
  rw [h, hfs]
  show opens s + (TaskFs.opens s.files { fs with files := Function.update fs.files fd v } - fs.opens s.files) = _
  rw [TaskFs.opens_update hfd]
  abel

/-- Only the inodes of the open files matter. -/
theorem opens_congr (S : Sane s) (h : ∀ f, f < s.nFiles → (files f).inode = (s.files f).inode)
    {n : Nat} : opens { s with files := files, nFiles := n } = opens s := by
  unfold opens
  refine Finset.sum_congr rfl fun t _ => ?_
  show (s.tasks t).elim 0 (TaskFs.opens files) = _
  cases hfs : s.tasks t with
  | none => rfl
  | some fs => exact TaskFs.opens_congr fun fd f hf => h f (S.files hfs hf).2

end Tasks

/-- The tasks point elsewhere. -/
theorem Account.pointers {δ h : Nat → Int} (A : Account s δ) (hd : s'.dirents = s.dirents)
    (hn : s'.nDirents = s.nDirents) (hp : pointers s' + h = pointers s) (hh : ∀ d, s.nDirents ≤ d → h d = 0) :
    Account s' (δ + h) where
  count d hd' := by
    have h1 := A.count d (hn ▸ hd')
    have h2 := congrFun hp d
    rw [Pi.add_apply] at h2
    rw [hd, Pi.add_apply]
    omega
  new d hd' := by
    rw [hn] at hd'
    rw [Pi.add_apply, A.new d hd', hh d hd']
    rfl

theorem Account.detach (A : Account s δ) {y c j : Nat} (hcy : c ≠ y)
    (hj : (s.dirents c).inode = some j) (t : Table) : Account { s.detach y c with disk := t } δ where
  count d hd := by
    have h := A.count d hd
    show ((s.detach y c).dirents d).refCount = ((s.detach y c).dirents d).place + Vfs.pointers s d + δ d
    by_cases hc : d = c
    · subst hc
      simp only [Dirent.place, hj, State.detach, Function.update_self] at h ⊢
      simp only [reduceCtorEq, if_false, if_true] at h ⊢
      omega
    · by_cases hy : d = y
      · subst hy
        simpa [State.detach, hc, Dirent.place] using h
      · simpa [State.detach, hc, hy] using h
  new := A.new

theorem points_of_le (S : Sane s) {t : Nat} (hfs : s.tasks t = some fs) (hd : s.nDirents ≤ d) :
    fs.points d = 0 := by
  obtain ⟨hr, hp⟩ := S.tasks t fs hfs
  have h0 := S.coherent.pos
  rw [TaskFs.points, Pi.add_apply, single_of_le hp hd, single_of_le (hr ▸ h0) hd]
  rfl

/-- An act changes the book of the dirents by its label. -/
theorem Act.account (S : Sane s) (A : Account s δ₀) (a : Act s δ ε s') : Account s' (δ₀ + δ) := by
  cases a with
  | moves m => exact m.account S A
  | refer | disk | cut | newFile | seek | switch =>
    rw [add_zero]
    exact ⟨A.count, A.new⟩
  | @detach y a k b c j name X hc h0 hj =>
    rw [add_zero]
    exact A.detach (cached_ne S.coherent X hc) hj _
  | @take t fd f fs hfs | @give t fd f fs hfs =>
    refine A.pointers rfl rfl ?_ fun _ _ => rfl
    rw [add_zero]
    refine (pointers_update (S.range hfs) _).trans ?_
    rw [hfs]
    exact add_eq_left.mpr (sub_self _)
  | @chdir t d fs hfs hd =>
    refine A.pointers rfl rfl ?_ fun x hx => ?_
    · have h : Vfs.pointers (s.setPwd t d) = _ := pointers_update (S.range hfs) _
      rw [h, hfs]
      show Vfs.pointers s + (TaskFs.points { fs with pwd := d } - fs.points) + _ = _
      unfold TaskFs.points
      abel
    · rw [Pi.sub_apply, single_of_le (S.tasks t fs hfs).2 hx, single_of_le hd hx]
      rfl
  | @newTask t fs hfs =>
    refine A.pointers rfl rfl ?_ fun x hx => ?_
    · rw [pointers_newTask]
      show Vfs.pointers s + fs.points + -fs.points = _
      abel
    · rw [Pi.neg_apply, points_of_le S hfs hx]
      rfl
  | @endTask t fs hfs hn =>
    refine A.pointers rfl rfl ?_ fun x hx => points_of_le S hfs hx
    have h : Vfs.pointers (s.endTask t) = _ := pointers_update (S.range hfs) none
    rw [h, hfs]
    show Vfs.pointers s + (0 - fs.points) + fs.points = _
    abel

theorem Acts.account (S : Sane s) (A : Account s δ₀) (as : Acts s δ ε s') :
    Account s' (δ₀ + δ) := by
  induction as with
  | refl => simpa using A
  | step as a ih =>
    rw [← add_assoc]
    exact a.account (as.sane S) ih

/-- Other files are open. -/
theorem InodeAccount.opens {ε g : Nat → Int} (A : InodeAccount s ε) (hi : s'.inodes = s.inodes)
    (hn : s'.nInodes = s.nInodes) (hp : places s' = places s) (ho : opens s' + g = opens s)
    (hg : ∀ i, s.nInodes ≤ i → g i = 0) : InodeAccount s' (ε + g) where
  count i hi' := by
    have h1 := A.count i (hn ▸ hi')
    have h2 := congrFun ho i
    rw [Pi.add_apply] at h2
    rw [hi, hp, Pi.add_apply]
    omega
  new i hi' := by
    rw [hn] at hi'
    rw [Pi.add_apply, A.new i hi', hg i hi']
    rfl

theorem places_detach {y c j : Nat} (hc : c < s.nDirents) (hcy : c ≠ y) (hj : (s.dirents c).inode = some j) (t : Table) :
    places { s.detach y c with disk := t } + Pi.single j 1 = places s := by
  have h := sum_range_change (g := fun d => (s.dirents d).refers) (k := fun d => ((s.detach y c).dirents d).refers) hc
    fun d _ hd => by
      by_cases hy : d = y
      · subst hy
        simp [State.detach, hd, Dirent.refers]
      · simp [State.detach, hd, hy]
  have h1 : (s.dirents c).refers = Pi.single j 1 := by rw [Dirent.refers, hj]; rfl
  have h2 : ((s.detach y c).dirents c).refers = 0 := by simp [State.detach, Dirent.refers]
  rw [h1, h2] at h
  show ∑ d ∈ Finset.range s.nDirents, ((s.detach y c).dirents d).refers + _ = _
  rw [h, places]
  abel

theorem Act.inodeAccount (S : Sane s) (A : InodeAccount s ε₀) (a : Act s δ ε s') :
    InodeAccount s' (ε₀ + ε) := by
  cases a with
  | moves m =>
    rw [add_zero]
    exact m.inodeAccount S A
  | @refer i k hi =>
    refine ⟨fun j hj => ?_, fun j hj => ?_⟩
    · have h := A.count j hj
      show ((s.refer i k).inodes j).refCount = places s j + Vfs.opens s j + (ε₀ j + (Pi.single i k : Nat → Int) j)
      by_cases hji : j = i
      · subst hji
        simp only [State.refer, Function.update_self, Pi.single_eq_same]
        omega
      · simp only [State.refer, Function.update_of_ne hji, Pi.single_eq_of_ne hji]
        omega
    · have hj : s.nInodes ≤ j := hj
      rw [Pi.add_apply, A.new j hj, Pi.single_eq_of_ne (by omega)]
      rfl
  | disk | cut | switch =>
    rw [add_zero]
    exact ⟨A.count, A.new⟩
  | @chdir t d fs hfs hd =>
    refine A.opens rfl rfl rfl ?_ fun _ _ => rfl
    have h : Vfs.opens (s.setPwd t d) = _ := opens_update (S.range hfs) _
    rw [add_zero, h, hfs]
    exact add_eq_left.mpr (sub_self _)
  | @detach y a k b c j name X hc h0 hj =>
    have hlt := (S.coherent.child X.lt (cached_mem hc).1).lt
    have hp := places_detach hlt (cached_ne S.coherent X hc) hj (Denemefs.cut s.disk a k b)
    refine ⟨fun i hi => ?_, fun i hi => ?_⟩
    · have h1 := A.count i hi
      have h2 := congrFun hp i
      rw [Pi.add_apply] at h2
      show (s.inodes i).refCount = places _ i + Vfs.opens s i + (ε₀ i + (Pi.single j 1 : Nat → Int) i)
      omega
    · rw [Pi.add_apply, A.new i hi, single_of_le (S.coherent.known hlt hj).lt hi]
      rfl
  | newFile hx =>
    refine A.opens rfl rfl rfl ?_ fun _ _ => rfl
    rw [add_zero]
    exact opens_congr S fun f hf => by rw [Function.update_of_ne (Nat.ne_of_lt hf)]
  | @seek f p =>
    refine A.opens rfl rfl rfl ?_ fun _ _ => rfl
    rw [add_zero]
    refine opens_congr (n := s.nFiles) S fun g _ => ?_
    by_cases h : g = f
    · rw [h, Function.update_self]
    · rw [Function.update_of_ne h]
  | @take t fd f fs hfs hfd hn hf =>
    refine A.opens rfl rfl rfl ?_ fun i hi => ?_
    · rw [opens_setFd S hfs hfd, hn]
      show Vfs.opens s + (Pi.single _ 1 - 0) + _ = _
      abel
    · rw [Pi.neg_apply, single_of_le (S.inodes hf) hi]
      rfl
  | @give t fd f fs hfs hf =>
    refine A.opens rfl rfl rfl ?_ fun i hi => ?_
    · rw [opens_setFd S hfs (S.files hfs hf).1, hf]
      show Vfs.opens s + (0 - Pi.single _ 1) + _ = _
      abel
    · exact single_of_le (S.inodes (S.files hfs hf).2) hi
  | @newTask t fs hfs =>
    refine A.opens rfl rfl rfl ?_ fun _ _ => rfl
    rw [add_zero, opens_newTask, TaskFs.opens_none fun _ => rfl, add_zero]
  | @endTask t fs hfs hn =>
    refine A.opens rfl rfl rfl ?_ fun _ _ => rfl
    have h : Vfs.opens (s.endTask t) = _ := opens_update (S.range hfs) none
    rw [add_zero, h, hfs]
    show Vfs.opens s + (0 - fs.opens s.files) = _
    rw [TaskFs.opens_none hn, sub_self, add_zero]

theorem Acts.inodeAccount (S : Sane s) (A : InodeAccount s ε₀) (as : Acts s δ ε s') :
    InodeAccount s' (ε₀ + ε) := by
  induction as with
  | refl => simpa using A
  | step as a ih =>
    rw [← add_assoc]
    exact a.inodeAccount (as.sane S) ih

end MakarnaX.Vfs
