import MakarnaX.Fs.Vfs.Effects

/-!
# Runs of the virtual file system

The tasks call in any order.  A run starts when the root is mounted and one task
is there, and ends if a call fails.  Paths have short components and entries that
are stored fit: what the code does otherwise is written over memory that belongs
to someone else.

Then the cache cannot be told from the disk: `dirent_find` yields the inode that
looking up the names one by one on disk yields, or fails if there is none.
-/

namespace MakarnaX.Vfs

open Library Denemefs Subdentry State Function

variable {s s' : State} {c : Call} {fs : TaskFs} {δ ε : Nat → Int} {t : Table} {d : Nat}

/-! ## Acts of a call -/

theorem number_refer (s : State) (i : Nat) (k : Int) (d : Nat) : number (s.refer i k) d = number s d := by
  unfold number
  refine congrArg (fun f => Option.map f (s.dirents d).inode) (funext fun j => ?_)
  by_cases h : j = i
  · subst h
    simp [refer]
  · simp [refer, h]

theorem Cut.refer {y a k b : Nat} {name : CString} (X : Cut s y name a k b) (i : Nat) (n : Int) :
    Cut (s.refer i n) y name a k b :=
  ⟨X.lt, (number_refer s i n y).trans X.number, X.live, X.name, X.leaf, X.started⟩

theorem unheld_eq_zero {path : CString} : unheld fs path = 0 ↔ strrchr path.bytes ≠ none := by
  unfold unheld
  split
  · next h =>
    refine ⟨fun h0 => ?_, fun hn => absurd h hn⟩
    have h1 := congrFun h0 fs.pwd
    rw [Pi.neg_apply, Pi.single_eq_same] at h1
    cases h1
  · next h => exact ⟨fun _ => h, fun _ => rfl⟩

theorem Call.slashed.of_none (h : c.entryPath = none) : c.slashed :=
  fun _ hp => absurd (h.symm.trans hp) (Option.some_ne_none _).symm

theorem Call.unheld_eq_zero : c.unheld fs = 0 ↔ c.slashed := by
  unfold Call.unheld Call.slashed
  cases hp : c.entryPath with
  | none => exact ⟨fun _ _ h => (nomatch h), fun _ => rfl⟩
  | some path =>
    refine Vfs.unheld_eq_zero.trans ⟨fun h p hp => ?_, fun h => h path rfl⟩
    cases hp
    exact h

/-- Dropping twice is as bad as dropping once. -/
theorem Call.unheld_twice : c.unheld fs + c.unheld fs = 0 ↔ c.slashed := by
  rw [← Call.unheld_eq_zero]
  refine ⟨fun h => funext fun d => ?_, fun h => by rw [h, add_zero]⟩
  have h1 : c.unheld fs d + c.unheld fs d = 0 := congrFun h d
  show c.unheld fs d = 0
  omega

theorem Call.finds_only (h : c.finds s) : c ≠ .exit ∧ ¬ c.changes s := by
  cases c with
  | sysChdir => exact absurd h id
  | exit => exact absurd h id
  | _ => exact ⟨nofun, id⟩

/-- The labels of a call.  It never takes too few references to inodes, and it takes
too many if it finds one.  It gives back what it takes of dirents, unless it drops
the working directory, changes it or ends the task. -/
structure Labels (s s' : State) (c : Call) (δ ε : Nat → Int) : Prop where
  nonneg : ∀ i, 0 ≤ ε i
  inodes : ¬ c.finds s → ε = 0
  leaks : c.finds s → ∃ i, i < s'.nInodes ∧ 0 < ε i
  dirents : δ = 0 ↔ c.slashed ∧ c ≠ .exit ∧ ¬ c.changes s

/-- The labels of a call that finds an inode. -/
theorem Labels.found (hf : c.finds s) {i : Nat} (hi : i < s'.nInodes) (hε : ∀ x, 0 ≤ ε x)
    (h0 : 0 < ε i) (hδ : δ = 0 ↔ c.slashed) : Labels s s' c δ ε :=
  ⟨hε, fun h => absurd hf h, fun _ => ⟨i, hi, h0⟩, hδ.trans ⟨fun h => ⟨h, Call.finds_only hf⟩, And.left⟩⟩

/-- The labels of a call that is not about paths. -/
theorem Labels.other (hf : ¬ c.finds s) (h : c.slashed ∧ c ≠ .exit ∧ ¬ c.changes s) : Labels s s' c 0 0 :=
  ⟨fun _ => Int.le_refl 0, fun _ => rfl, fun h' => absurd h' hf, ⟨fun _ => h, fun _ => rfl⟩⟩

/-- A call is a sequence of acts. -/
theorem Does.acts (S : Sane s) (D : Does s c s') : ∃ δ ε, Acts s δ ε s' ∧ Labels s s' c δ ε := by
  have zero : ∀ i, (0 : Int) ≤ (0 : Nat → Int) i := fun _ => Int.le_refl 0
  cases D with
  | moves _ he hf hc m =>
    refine ⟨_, _, (Act.moves m).acts, zero, fun _ => rfl, fun h => absurd h hf, ?_⟩
    exact Call.unheld_eq_zero.trans ⟨fun h => ⟨h, he, hc⟩, And.left⟩
  | @refers _ _ _ e i _ hf R =>
    have K := (R.moves.coherent S.coherent).known R.lt R.inode
    refine ⟨_, _, (Act.moves R.moves).acts.step (.refer K.lt), .found (i := i) hf K.lt ?_ ?_ ?_⟩
    · rw [zero_add]
      exact single_nonneg i
    · simp
    · rw [add_zero]
      exact Call.unheld_eq_zero
  | @opens flags fd e i path fs s' hfs hf R _ hp hfd hn =>
    have K := (R.moves.coherent S.coherent).known R.lt R.inode
    have A := reaches_acts R (R.moves.coherent S.coherent) ⟨i, 0, openFlags flags⟩ rfl 3
    have E := R.moves.extends
    have hfs' : s'.tasks s'.curr = some fs := by rw [E.tasks, E.curr, hfs]
    have hino : (((s'.refer i 3).newFile ⟨i, 0, openFlags flags⟩).files (s'.refer i 3).nFiles).inode = i := by
      simp [newFile]
    have A := A.step (.take hfs' hfd hn (Nat.lt_succ_self _))
    rw [hino, ← sub_eq_add_neg, ← Pi.single_sub] at A
    refine ⟨_, _, A, .found (i := i) hf K.lt (single_nonneg_of (by decide) i) (by simp) ?_⟩
    exact ⟨fun _ => .of_none rfl, fun _ => add_zero 0⟩
  | @full _ _ i _ _ hf R =>
    have K := (R.moves.coherent S.coherent).known R.lt R.inode
    refine ⟨_, _, reaches_acts R (R.moves.coherent S.coherent) _ rfl 2,
      .found (i := i) hf K.lt (single_nonneg_of (by decide) i) (by simp) ⟨fun _ => .of_none rfl, fun _ => rfl⟩⟩
  | closes hfs hf => exact ⟨_, _, closes_acts S hfs hf, .other id ⟨.of_none rfl, by simp, id⟩⟩
  | reads | seeks => exact ⟨_, _, Act.seek.acts, .other id ⟨.of_none rfl, by simp, id⟩⟩
  | writes _ _ _ _ he =>
    refine ⟨_, _, Act.seek.acts.step (.disk he rfl), ?_⟩
    rw [add_zero]
    exact .other id ⟨.of_none rfl, by simp, id⟩
  | @enters _ _ s' _ i _ _ _ op _ _ hf R he hop _ =>
    have K := (R.moves.coherent S.coherent).known R.lt R.inode
    have hr : op.removes = false := by rcases hop with rfl | rfl <;> rfl
    refine ⟨_, _, ((Act.moves R.moves).acts.step (.refer K.lt)).step (.disk he hr), .found (i := i) hf K.lt ?_ ?_ ?_⟩
    · rw [zero_add, add_zero]
      exact single_nonneg i
    · simp
    · rw [add_zero, add_zero]
      exact Call.unheld_eq_zero
  | @cuts _ _ _ s' y i a k b _ _ hf R X hc =>
    have K := (R.moves.coherent S.coherent).known R.lt R.inode
    refine ⟨_, _, ((Act.moves R.moves).acts.step (.refer K.lt)).step (.cut (X.refer i 1) hc),
      .found (i := i) hf K.lt ?_ ?_ ?_⟩
    · rw [zero_add, add_zero]
      exact single_nonneg i
    · simp
    · rw [add_zero, add_zero]
      exact Call.unheld_twice
  | @detaches _ _ _ s' y i a k b d j _ _ hf R X hc h0 hj =>
    have K := (R.moves.coherent S.coherent).known R.lt R.inode
    refine ⟨_, _, ((Act.moves R.moves).acts.step (.refer K.lt)).step (.detach (X.refer i 1) hc h0 hj),
      .found (i := i) hf K.lt ?_ ?_ ?_⟩
    · rw [zero_add]
      exact fun x => Int.add_nonneg (single_nonneg i x) (single_nonneg j x)
    · have := single_nonneg j i
      rw [zero_add, Pi.add_apply, Pi.single_eq_same]
      omega
    · rw [add_zero, add_zero]
      exact Call.unheld_twice
  | @chdirs path fs s' d hfs hf m hd =>
    have E := m.extends
    have hfs' : s'.tasks s'.curr = some fs := by rw [E.tasks, E.curr, hfs]
    refine ⟨_, _, (Act.moves m).acts.step (.chdir hfs' hd), zero, fun _ => rfl, fun h => absurd h id, ?_⟩
    refine ⟨fun h => ?_, fun h => absurd hf h.2.2⟩
    have h1 := congrFun h fs.pwd
    simp at h1
  | forks _ F => exact ⟨_, _, F.acts, .other id ⟨.of_none rfl, by simp, id⟩⟩
  | loads hf A hge hpos =>
    obtain ⟨i, hi, h0⟩ := hpos
    exact ⟨_, _, A, .found hf hi hge h0 ⟨fun _ => .of_none rfl, fun _ => rfl⟩⟩
  | @exits fs s' _ A _ =>
    refine ⟨_, _, A, zero, fun _ => rfl, fun h => absurd h id, fun h => ?_, fun h => absurd rfl h.2.1⟩
    have h1 := congrFun h fs.pwd
    have h2 := single_nonneg fs.root fs.pwd
    rw [TaskFs.points, Pi.add_apply, Pi.single_eq_same, Pi.zero_apply] at h1
    omega
  | switches h => exact ⟨_, _, (Act.switch h).acts, .other id ⟨.of_none rfl, by simp, id⟩⟩

/-! ## Runs -/

/-- A task that is there calls, with a path whose components are short, and an entry
that is stored fits. -/
def Call.ok (s : State) (c : Call) : Prop := c.enabled s ∧ c.short ∧ c.fits s

instance (path : List UInt8) : Decidable (Short path) := inferInstanceAs (Decidable (∀ b ∈ _, _))

instance : (c : Call) → Decidable c.short
  | .sysOpen .. | .sysStat .. | .sysChdir .. | .exec .. | .sysCreat .. | .sysMkdir .. | .sysUnlink .. | .sysRmdir .. =>
    inferInstanceAs (Decidable (Short _))
  | .sysClose .. | .sysRead .. | .sysWrite .. | .fileLseek .. | .fork | .exit | .switch .. =>
    inferInstanceAs (Decidable True)

instance (s : State) : (c : Call) → Decidable (c.enabled s)
  | .switch .. => inferInstanceAs (Decidable True)
  | .sysOpen .. | .sysStat .. | .sysChdir .. | .exec .. | .sysCreat .. | .sysMkdir .. | .sysUnlink .. | .sysRmdir ..
  | .sysClose .. | .sysRead .. | .sysWrite .. | .fileLseek .. | .fork | .exit =>
    inferInstanceAs (Decidable (s.tasks s.curr ≠ none))

/-- Whether an entry of this path fits, by what `inode_find2` finds. -/
instance decidableFits (s : State) (path : CString) (mode : Nat) : Decidable (Call.fits s (.sysCreat path mode)) :=
  match h : inodeFind2 path s with
  | .ok (.ok (i, name), s') =>
    decidable_of_iff ((Op.create (s'.inodes i).ino name mode).fits s.disk) (by simp [Call.fits, h])
  | .ok (.error _, _) => .isTrue (by simp [Call.fits, h])
  | .error _ => .isTrue (by simp [Call.fits, h])

instance (s : State) : (c : Call) → Decidable (c.fits s)
  | .sysCreat path mode | .sysMkdir path mode => decidableFits s path mode
  | .sysOpen .. | .sysStat .. | .sysChdir .. | .exec .. | .sysUnlink .. | .sysRmdir ..
  | .sysClose .. | .sysRead .. | .sysWrite .. | .fileLseek .. | .fork | .exit | .switch .. =>
    inferInstanceAs (Decidable True)

instance (s : State) (c : Call) : Decidable (c.ok s) := inferInstanceAs (Decidable (_ ∧ _ ∧ _))

def Initial (s : State) : Prop := ∃ t, Denemefs.Initial t ∧ s = start t

def system : System State := .ofOps Initial (fun s c => Call.ok s c) Call.run

theorem Coherent.start (S : Started t) : Coherent (start t) where
  disk := S
  unlocked _ := rfl
  free _ := rfl
  pos := Nat.one_pos
  root := rfl
  known := by
    intro d i hd hi
    cases hi
    exact ⟨Nat.one_pos, S.root.1, (by show _ = some (opOf t 0); rw [opOf, if_pos S.root.2]; rfl)⟩
  child _ hc := absurd hc (List.not_mem_nil)
  up := by
    intro c hc hne
    exact absurd (Nat.lt_one_iff.mp hc) hne
  inj := by
    intro a b x ha hb _ _
    exact (Nat.lt_one_iff.mp ha).trans (Nat.lt_one_iff.mp hb).symm
  nodup _ := List.nodup_nil
  counts _ := (by decide : (0 : Int) ≤ 3)

theorem start_tasks {u : Nat} (h : (start t).tasks u = some fs) :
    u = 0 ∧ fs = ⟨0, 0, fun _ => none⟩ := by
  by_cases hu : u = 0
  · subst hu
    have h : update (fun _ => none) 0 (some (⟨0, 0, fun _ => none⟩ : TaskFs)) 0 = some fs := h
    rw [update_self] at h
    exact ⟨rfl, (Option.some.inj h).symm⟩
  · have h : update (fun _ => none) 0 (some (⟨0, 0, fun _ => none⟩ : TaskFs)) u = some fs := h
    rw [update_of_ne hu] at h
    cases h

theorem Sane.start (S : Started t) : Sane (start t) where
  coherent := .start S
  tasks u fs h := by
    obtain ⟨-, rfl⟩ := start_tasks h
    exact ⟨rfl, Nat.one_pos⟩
  range h := by
    obtain ⟨rfl, -⟩ := start_tasks h
    exact Nat.one_pos
  files h hf := by
    obtain ⟨-, rfl⟩ := start_tasks h
    cases hf
  inodes h := absurd h (Nat.not_lt_zero _)

theorem sane (h : system.Reachable s) : Sane s := by
  refine System.Reachable.invariant ?_ ?_ h
  · rintro s ⟨t, ht, rfl⟩
    exact .start (Denemefs.started (.init ht))
  · rintro s s' S ⟨c, ⟨h1, h2, h3⟩, hr⟩
    obtain ⟨δ, ε, A, -⟩ := (Call.does S h1 h2 h3 hr).acts S
    exact A.sane S

/-- The state behind some calls, from a disk without a RAM disk. -/
def runFrom (calls : List Call) : Option State :=
  (denemefsInit zeroed none ⟨fun _ => .zero⟩).toOption.bind fun p =>
    System.after (fun s c => Call.ok s c) Call.run (start p.2) calls

theorem runFrom_reachable {calls : List Call} (h : runFrom calls = some s) : system.Reachable s := by
  obtain ⟨⟨u, t⟩, h0, h1⟩ := Option.bind_eq_some_iff.mp h
  have hi : Initial (start t) := ⟨t, ⟨zeroed, none, _, (fun _ h => nomatch h), of_toOption h0⟩, rfl⟩
  exact System.Reachable.after (.init hi) h1

/-- One call after the boot. -/
theorem runFrom_one (h : runFrom [c] = some s) : ∃ s₀, Initial s₀ ∧ Call.ok s₀ c ∧ c.run s₀ = .ok ((), s) := by
  obtain ⟨⟨u, t⟩, h0, h1⟩ := Option.bind_eq_some_iff.mp h
  refine ⟨start t, ⟨t, ⟨zeroed, none, _, (fun _ h => nomatch h), of_toOption h0⟩, rfl⟩, ?_⟩
  simp only [System.after] at h1
  split at h1
  · next hok =>
    split at h1
    · next u s' hr =>
      cases h1
      exact ⟨hok, hr⟩
    · cases h1
  · cases h1

/-! ## The cache is transparent -/

/-- A dirent without an inode never gets one. -/
theorem Act.dead (a : Act s δ ε s') (hd : d < s.nDirents)
    (hi : (s.dirents d).inode = none) : d < s'.nDirents ∧ (s'.dirents d).inode = none := by
  cases a with
  | moves m => exact ⟨Nat.lt_of_lt_of_le hd m.extends.nDirents, (m.extends.inode d hd).trans hi⟩
  | @detach y _ _ _ c =>
    refine ⟨hd, ?_⟩
    show ((s.detach y c).dirents d).inode = none
    by_cases hc : d = c
    · subst hc
      simp [State.detach]
    · by_cases hy : d = y
      · subst hy
        simpa [State.detach, hc] using hi
      · simpa [State.detach, hc, hy] using hi
  | _ => exact ⟨hd, hi⟩

theorem Acts.dead (A : Acts s δ ε s') (hd : d < s.nDirents)
    (hi : (s.dirents d).inode = none) : d < s'.nDirents ∧ (s'.dirents d).inode = none := by
  induction A with
  | refl => exact ⟨hd, hi⟩
  | step _ a ih => exact a.dead ih.1 ih.2

/-- What `dirent_find` yields, against the names on disk. -/
theorem find_number (S : Sane s) (hfs : s.tasks s.curr = some fs) {path : CString} (hshort : Short path.bytes) :
    ∃ r s', direntFind path.bytes path.length s = .ok (r, s') ∧ ∀ y, r.toOption.bind (number s') = some y ↔
      ∃ x, number s (fs.start path) = some x ∧ Resolves s.disk x (names path.bytes) y := by
  have C := S.coherent
  have htake : path.bytes.take path.length = path.bytes := List.take_length
  obtain ⟨r, s', hr, m, R⟩ := find_result C S.tasks hfs path.nonzero (htake.symm ▸ hshort)
  rw [htake] at R
  refine ⟨r, s', hr, fun y => ?_⟩
  obtain ⟨hroot, hpwd⟩ := S.tasks _ fs hfs
  have hlt : fs.start path < s.nDirents := by
    unfold TaskFs.start
    split
    · rw [hroot]
      exact C.pos
    · exact hpwd
  have hnum := m.extends.number C hlt
  cases r with
  | error e =>
    refine ⟨nofun, ?_⟩
    rintro ⟨x, hx, hres⟩
    exact absurd hres (R x hx y)
  | ok d =>
    have H : Hops s' (fs.start path) (names path.bytes) d := R.2.2
    show number s' d = some y ↔ _
    cases hx : number s (fs.start path) with
    | some x =>
      obtain ⟨z, hz, hres⟩ := H.resolves (m.coherent C) (Nat.lt_of_lt_of_le hlt m.extends.nDirents) (hnum.trans hx)
      rw [m.extends.disk] at hres
      rw [hz]
      constructor
      · intro h
        cases h
        exact ⟨x, rfl, hres⟩
      · rintro ⟨x', hx', hres'⟩
        cases hx'
        rw [Resolves.unique C.disk.toInv hres hres']
    | none =>
      -- the directory was removed, and no name can be looked up in it
      have hdead := number_eq_none.mp (hnum.trans hx)
      refine ⟨fun h => ?_, fun ⟨x, hx', _⟩ => nomatch hx'⟩
      generalize fs.start path = start, names path.bytes = l at H hnum hdead hx
      cases H with
      | nil =>
        rw [hnum, hx] at h
        cases h
      | cons hi => exact absurd hdead hi

/-- In every state of every run, whatever path is looked up: the number of the inode
`dirent_find` yields is the one the names lead to on disk, and it yields none if
they lead nowhere.  Every child of a dirent stands for an entry on disk, and what
was removed stays removed. -/
theorem cache_transparent (h : system.Reachable s) :
    (∀ fs, s.tasks s.curr = some fs → ∀ path : CString, Short path.bytes →
      ∃ r s', direntFind path.bytes path.length s = .ok (r, s') ∧ ∀ y, r.toOption.bind (number s') = some y ↔
        ∃ x, number s (fs.start path) = some x ∧ Resolves s.disk x (names path.bytes) y) ∧
    (∀ p d, p < s.nDirents → d ∈ (s.dirents p).childs → ∃ a b, number s p = some a ∧ number s d = some b ∧
      IsDir s.disk a ∧ entry s.disk a (s.dirents d).name = some b) ∧
    ∀ c s', Call.ok s c → c.run s = .ok ((), s') → ∀ d, d < s.nDirents → number s d = none → number s' d = none := by
  have S := sane h
  refine ⟨fun fs hfs path hshort => find_number S hfs hshort, fun p d hp hd => (S.coherent.child hp hd).entry, ?_⟩
  rintro c s' ⟨h1, h2, h3⟩ hr d hd hn
  obtain ⟨δ, ε, A, -⟩ := (Call.does S h1 h2 h3 hr).acts S
  exact number_eq_none.mpr (A.dead hd (number_eq_none.mp hn)).2

/-- A file in `/home` that was looked up and removed is not found any more, and
another one is. -/
theorem cache_transparent_home : ∃ s, system.Reachable s ∧
    ∃ r s', direntFind (CString.ofString "/home/b").bytes 7 s = .ok (r, s') ∧ ∀ y,
      r.toOption.bind (number s') = some y ↔
        ∃ x, number s 0 = some x ∧ Resolves s.disk x (names (CString.ofString "/home/b").bytes) y := by
  obtain ⟨s, hs, hx⟩ : ∃ s, runFrom [.sysCreat (.ofString "/home/a") 3, .sysStat (.ofString "/home/a"),
      .sysUnlink (.ofString "/home/a"), .sysCreat (.ofString "/home/b") 3] = some s ∧
      (s.tasks s.curr).map (fun fs => (fs.pwd, fs.root)) = some (0, 0) := observed (by decide +kernel)
  obtain ⟨fs, hfs, hroot⟩ := Option.map_eq_some_iff.mp hx
  have hr := runFrom_reachable hs
  have h := (cache_transparent hr).1 fs hfs (.ofString "/home/b") (by decide)
  have hstart : fs.start (.ofString "/home/b") = 0 := by
    rw [TaskFs.start, if_pos (by decide)]
    exact congrArg Prod.snd hroot
  rw [hstart] at h
  exact ⟨s, hr, h⟩

/-- `parse_path_i` writes a component of 256 bytes past the end of its array. -/
theorem long_component_overflows : ∃ s, system.Reachable s ∧
    direntFind (CString.ofString (String.ofList (List.replicate 256 'a'))).bytes 256 s = .error .overflow := by
  obtain ⟨s, hs, hx⟩ : ∃ s, runFrom [] = some s ∧
      (match direntFind (CString.ofString (String.ofList (List.replicate 256 'a'))).bytes 256 s with
      | .error .overflow => true
      | _ => false) = true := observed (by decide +kernel)
  refine ⟨s, runFrom_reachable hs, ?_⟩
  split at hx
  · assumption
  · cases hx

end MakarnaX.Vfs
