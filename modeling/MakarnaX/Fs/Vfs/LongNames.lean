import MakarnaX.Fs.Vfs.Parents

/-!
# Names that are too long

A name is copied three times, and no copy is bounded: by `parse_path_i` into an
array of 256 bytes, by `dirent_cache_add` into the 256 bytes of a dirent, and by
`denemefs_add_entry` into the 32 bytes of a slot.  The second copy is of the array
of the first, so that it is in bounds if the first is.  The third is of what follows
the last slash of the path, which `parse_path_i` has never seen.
-/

namespace MakarnaX.Vfs

open Library Denemefs Subdentry List State

variable {s s' : State} {t : Table} {path : CString} {x : VfsM Int} {kind : PathKind} {δ ε : Nat → Int} {e i : Nat}
  {bytes : List UInt8} {fmode : FileMode}

/-! ## Names that are there are short -/

theorem length_of_entry (I : Inv t) {x y : Nat} {name : CString} (hd : IsDir t x) (he : entry t x name = some y) :
    name.length < 32 := by
  obtain ⟨i, hs, hi, -⟩ := (entry_eq_some I hd).mp he
  obtain ⟨-, rfl, -⟩ := (slot_eq_some (I.wf x hd)).mp hs
  exact (Mem.cstr_mono ((I.wf x hd).ends i hi) (Nat.le_refl 32)).2

theorem length_of_resolves (I : Inv t) {x y : Nat} {l : List CString} (h : Resolves t x l y) :
    ∀ name ∈ l, name.length < 32 := by
  induction h with
  | nil => exact fun _ h => absurd h not_mem_nil
  | cons hstep _ ih =>
    intro name hmem
    rcases mem_cons.mp hmem with rfl | hmem
    · cases hstep with
      | dot hn => rw [hn]; decide
      | root hn | up hn => rw [hn]; decide
      | down _ _ hd he => exact length_of_entry I hd he
    · exact ih name hmem

/-- The components of a path that leads somewhere are short. -/
theorem components_of_resolves (I : Inv t) {x y : Nat} (h0 : 0 ∉ bytes)
    (h : Resolves t x (names bytes) y) : ∀ b ∈ components [] bytes, b.length < 32 := by
  intro b hb
  have hz : 0 ∉ b := by
    intro hz
    rcases mem_components hb hz with h | h
    · cases h
    · exact h0 h
  have := length_of_resolves I h (cstring b) (mem_map_of_mem hb)
  rwa [CString.length, cstring_bytes hz] at this

/-! ## Names in dirents -/

/-- Every name that was stored in a dirent fits in it. -/
def NamesStored (s s' : State) : Prop :=
  ∀ d, (s'.dirents d).name = (s.dirents d).name ∨ (s'.dirents d).name.length < maxDirentryNameSize

instance : IsPreorder State NamesStored where
  refl _ _ := .inl rfl
  trans s s' s'' h h' d := by
    rcases h' d with h' | h'
    · rw [h']
      exact h d
    · exact .inr h'

theorem Moves.namesStored {h : Nat → Int} (C : Coherent s) (m : Moves s h s') : NamesStored s s' := by
  induction m with
  | refl => exact refl_of NamesStored s
  | dup _ _ ih => exact trans_of NamesStored ih fun d => .inl ((Similar.dup _ _).name d)
  | drop _ _ _ ih => exact trans_of NamesStored ih fun d => .inl ((Similar.drop _ _).name d)
  | spare _ ih => exact ih
  | @add h s' dir name x m F ih =>
    refine trans_of NamesStored ih fun d => ?_
    by_cases hd : d = s'.nDirents
    · rw [hd, add_dirent_new F.lt]
      obtain ⟨a, -, hda, he⟩ := F.entry
      exact .inr (Nat.lt_trans (length_of_entry (m.coherent C).disk.toInv hda he) (by decide))
    · by_cases hdir : d = dir
      · rw [hdir, add_dirent_dir]
        exact .inl rfl
      · rw [add_dirent_ne hd hdir]
        exact .inl rfl

theorem Act.namesStored (S : Sane s) (a : Act s δ ε s') : NamesStored s s' := by
  cases a with
  | moves m => exact m.namesStored S.coherent
  | @detach y _ _ _ c =>
    intro d
    by_cases hc : d = c
    · subst hc
      simp [State.detach]
    · by_cases hy : d = y
      · subst hy
        simp [State.detach, hc]
      · simp [State.detach, hc, hy]
  | _ => exact refl_of NamesStored s

theorem Acts.namesStored (S : Sane s) (A : Acts s δ ε s') : NamesStored s s' := by
  induction A with
  | refl => exact refl_of NamesStored s
  | step A a ih => exact trans_of NamesStored ih (a.namesStored (A.sane S))

/-! ## Calls with a path -/

/-- `sys_stat` as its return code. -/
def statCode (path : CString) : VfsM Int := do
  match ← sysStat path with
  | some _ => return 0
  | none => return -1

/-- What a call does with its path. -/
inductive PathKind
  | looks
  | makes
  | removes
deriving DecidableEq

/-- The part of the path that is looked up. -/
def PathKind.part (path : CString) : PathKind → List UInt8
  | .looks => path.bytes
  | .makes | .removes => dirOf path

/-- The calls with a path. -/
inductive PathCall (path : CString) : PathKind → VfsM Int → Prop
  | sysOpen (flags : Nat) : PathCall path .looks (sysOpen path flags)
  | sysStat : PathCall path .looks (statCode path)
  | sysChdir : PathCall path .looks (sysChdir path)
  | sysCreat (mode : Nat) : PathCall path .makes (sysCreat path mode)
  | sysMkdir (mode : Nat) : PathCall path .makes (sysMkdir path mode)
  | sysUnlink : PathCall path .removes (sysUnlink path)
  | sysRmdir : PathCall path .removes (sysRmdir path)

/-- Where `create` stores an entry, if it comes to that: the directory, the slot and the
name. -/
def storedEntry (path : CString) (s : State) : Option (Nat × Nat × CString) :=
  match inodeFind2 path s with
  | .ok (.ok (i, name), s') =>
    let ino := (s'.inodes i).ino
    if permits s' i 3 ∧ (s'.inodes i).op = some .denemefsDir ∧ freeDi s'.disk ≠ none ∧ entry s'.disk ino name = none then
      some (ino, n (block s'.disk ino), name)
    else none
  | _ => none

/-- The path has a component that does not fit in a slot. -/
def LongPath (path : CString) : Prop := ∃ b ∈ slashComponents path.bytes, 32 ≤ b.length

/-- What the call stores in the array of `parse_path_i`, in dirents and in the slots of
a directory stays in there, and a component that is too long for a slot makes it
fail. -/
structure Inside (s : State) (path : CString) (kind : PathKind) (x : VfsM Int) : Prop where
  array : x s ≠ .error .overflow
  dirents : ∀ r s', x s = .ok (r, s') → NamesStored s s'
  slots : kind = .makes → ∀ y k name, storedEntry path s = some (y, k, name) →
    k < denemeSubdentryCount ∧ name.length < 32
  rejects : LongPath path → FailsCleanly x s

/-! ## Looking up -/

/-- What was found along names has short ones. -/
theorem hops_short (C : Coherent s) {d e : Nat} (hd : d < s.nDirents) (h0 : 0 ∉ bytes)
    (H : Hops s d (names bytes) e) : ∀ b ∈ components [] bytes, b.length < 32 := by
  intro b hb
  have hlive : (s.dirents d).inode ≠ none := by
    generalize hl : names bytes = l at H
    cases H with
    | nil =>
      rw [names, map_eq_nil_iff] at hl
      rw [hl] at hb
      cases hb
    | cons hi => exact hi
  obtain ⟨x, hx⟩ := Option.ne_none_iff_exists'.mp (mt number_eq_none.mp hlive)
  obtain ⟨y, -, hres⟩ := H.resolves C hd hx
  exact components_of_resolves C.disk.toInv h0 hres b hb

section Looks

variable (S : Sane s) {fs : TaskFs} (hfs : s.tasks s.curr = some fs)

include S hfs

/-- What `dirent_find` yields for the whole path. -/
theorem direntFind_path (path : CString) :
    Along s (fs.start path) (components [] path.bytes) 0 (direntFind path.bytes path.length s) := by
  have A := direntFind_along S.coherent S.tasks hfs path.nonzero path.length
  rwa [show path.bytes.take path.length = path.bytes from take_length] at A

/-- A name that is too long is reached. -/
theorem direntFind_long (hlong : LongReached s.disk (number s (fs.start path)) (components [] path.bytes)) :
    direntFind path.bytes path.length s = .error .overflow := by
  have A := direntFind_path S hfs path
  generalize direntFind path.bytes path.length s = out at A
  cases A with
  | long => rfl
  | ends h => exact absurd hlong h

/-- No such name is reached: the names lead nowhere, or all of them are short. -/
theorem direntFind_not_long (hlong : ¬ LongReached s.disk (number s (fs.start path)) (components [] path.bytes)) :
    (∃ e s', direntFind path.bytes path.length s = .ok (.error e, s') ∧ e < 0 ∧ Moves s 0 s') ∨
      Short path.bytes ∧ ¬ LongPath path := by
  have A := direntFind_path S hfs path
  generalize direntFind path.bytes path.length s = out at A
  cases A with
  | long h => exact absurd h hlong
  | @ends r s' _ m R hneg =>
    rw [sub_zero] at m
    cases r with
    | error e => exact .inl ⟨e, s', rfl, hneg e rfl, m⟩
    | ok c =>
      have hstart := Nat.lt_of_lt_of_le (start_lt S hfs path) m.extends.nDirents
      have hshort := hops_short (m.coherent S.coherent) hstart path.nonzero R.2.2
      refine .inr ⟨fun b hb => Nat.lt_trans (hshort b hb) (by decide), ?_⟩
      rintro ⟨b, hb, hlen⟩
      rw [← components_eq] at hb
      exact absurd (hshort b hb) (Nat.not_lt.mpr hlen)

theorem looks_long (hx : PathCall path .looks x)
    (hlong : LongReached s.disk (number s (fs.start path)) (components [] path.bytes)) : x s = .error .overflow := by
  have hfind := direntFind_long S hfs hlong
  cases hx with
  | sysOpen flags =>
    have hfind' := direntFind_long (s := s.cli (s.nCli + 1)) (S.cli _) hfs hlong
    have hopen : fileOpen path flags (s.cli (s.nCli + 1)) = .error .overflow :=
      bind_fail (bind_fail hfind')
    exact (bind_run (x := pushcli) rfl).trans (bind_fail hopen)
  | sysStat => exact bind_fail (bind_fail (bind_fail hfind))
  | sysChdir => exact bind_fail hfind

omit hfs in
/-- A call that returns without a fault, on a path without a long name. -/
theorem Inside.of_ends {c : Call} (hkind : kind ≠ .makes) (hpath : ¬ LongPath path)
    (h : Ends x s (fun _ => False) fun _ s' => Does s c s') : Inside s path kind x where
  array he := h.error he
  dirents r s' hr := by
    obtain ⟨δ, ε, A, -⟩ := (h.ok hr).acts S
    exact A.namesStored S
  slots hk := absurd hk hkind
  rejects hl := absurd hl hpath

omit hfs in
/-- A call that fails and has only moved along the cache. -/
theorem Inside.of_fails (hkind : kind ≠ .makes) {r : Int}
    (hx : x s = .ok (r, s')) (hneg : r < 0) (hdisk : s'.disk = s.disk) (A : Acts s δ ε s') : Inside s path kind x where
  array he := by
    rw [hx] at he
    cases he
  dirents r s' hr := by
    rw [hx] at hr
    cases hr
    exact A.namesStored S
  slots hk := absurd hk hkind
  rejects _ := ⟨r, s', hx, hneg, hdisk⟩

theorem looks_inside (hx : PathCall path .looks x)
    (hlong : ¬ LongReached s.disk (number s (fs.start path)) (components [] path.bytes)) : Inside s path .looks x := by
  cases hx with
  | sysOpen flags =>
    rcases direntFind_not_long (s := s.cli (s.nCli + 1)) (S.cli _) hfs hlong with ⟨e, s', hfind, hneg, m⟩ | ⟨hshort, hpath⟩
    · have hfound : inodeFind path (s.cli (s.nCli + 1)) = .ok (.error e, s') := bind_run hfind
      have hopen : fileOpen path flags (s.cli (s.nCli + 1)) = .ok (.error e, s') := by
        rw [fileOpen_eq]
        exact bind_run hfound
      have hrun : sysOpen path flags s = .ok (e, s'.cli s.nCli) := (bind_run (x := pushcli) rfl).trans <|
        (bind_run hopen).trans (bind_run (popcli_cli m.extends.nCli))
      exact .of_fails S (by decide) hrun hneg m.extends.disk (Act.moves (m.cli s.nCli)).acts
    · exact .of_ends S (by decide) hpath (open_ends S hfs hshort flags)
  | sysStat =>
    rcases direntFind_not_long S hfs hlong with ⟨e, s', hfind, hneg, m⟩ | ⟨hshort, hpath⟩
    · have hfound : inodeFind path s = .ok (.error e, s') := bind_run hfind
      have hstat : sysStat path s = .ok (none, s') := bind_run hfound
      exact .of_fails S (by decide) (bind_run hstat) (by decide) m.extends.disk (Act.moves m).acts
    · refine .of_ends S (c := .sysStat path) (by decide) hpath ((stat_ends S hfs hshort).bind fun r t D => ?_)
      cases r with
      | none => exact .pure D
      | some _ => exact .pure D
  | sysChdir =>
    rcases direntFind_not_long S hfs hlong with ⟨e, s', hfind, hneg, m⟩ | ⟨hshort, hpath⟩
    · exact .of_fails S (by decide) (bind_run hfind) hneg m.extends.disk (Act.moves m).acts
    · exact .of_ends S (by decide) hpath (chdir_ends S hfs hshort)

end Looks

/-! ## Making and removing entries -/

theorem dirOf_nonzero : 0 ∉ dirOf path := by
  unfold dirOf
  cases hp : strrchr path.bytes with
  | none => exact not_mem_nil
  | some p =>
    intro h
    refine path.nonzero ?_
    rw [strrchr_some hp]
    exact mem_append_left _ h

/-- If no name in front of the last slash is too long, the last one is. -/
theorem LongPath.name (h : LongPath path) (hdir : ∀ b ∈ components [] (dirOf path), b.length < 32) :
    32 ≤ (nameIn path).length := by
  obtain ⟨b, hb, hlen⟩ := h
  have hplain : ∀ {l : List UInt8}, slash ∉ l → b ∈ slashComponents l → b = l := by
    intro l hl hb
    rw [slashComponents_plain hl] at hb
    split at hb
    · cases hb
    · exact mem_singleton.mp hb
  cases hp : strrchr path.bytes with
  | none =>
    have hname : nameIn path = path := by simp [nameIn, hp]
    rw [hname]
    rwa [hplain (strrchr_eq_none.mp hp) hb] at hlen
  | some p =>
    obtain ⟨front, back⟩ := p
    have hname : nameIn path = cstring back := by simp [nameIn, hp]
    have hfront : dirOf path = front := by simp [dirOf, hp]
    have heq := strrchr_some hp
    have hback := strrchr_back hp
    rw [heq, slashComponents_append, mem_append] at hb
    rcases hb with hb | hb
    · rw [hfront, components_eq] at hdir
      exact absurd (hdir b hb) (Nat.not_lt.mpr hlen)
    · rw [hname, CString.length, cstring_bytes fun h => path.nonzero (by simp [heq, h])]
      rwa [hplain hback hb] at hlen

/-- An entry is stored in directory `y`. -/
structure StoresIn (s : State) (fs : TaskFs) (path : CString) (y : Nat) : Prop where
  held : Droppable s fs path
  parent : Parent s fs path y
  dir : IsDir s.disk y
  permitted : readWrite (s.disk.di y).mode
  free : freeDi s.disk ≠ none
  absent : entry s.disk y (nameIn path) = none

/-- How a call ends that is to make or remove an entry. -/
inductive Enters (s : State) (fs : TaskFs) (path : CString) : Exec (Int × State) → Prop
  | last : (Droppable s fs path → ¬ LongPath path) → Enters s fs path (.error lastDirent)
  | long : LongParent s fs path → Enters s fs path (.error .overflow)
  | null {y : Nat} : Parent s fs path y → ¬ IsDir s.disk y → readWrite (s.disk.di y).mode →
      Enters s fs path (.error .null)
  | ends {r : Int} {s' : State} {δ ε : Nat → Int} : Droppable s fs path → ¬ LongParent s fs path →
      (∀ y, Parent s fs path y → ¬ IsDir s.disk y → ¬ readWrite (s.disk.di y).mode) → Acts s δ ε s' →
      (LongPath path → r < 0 ∧ s'.disk = s.disk) → Enters s fs path (.ok (r, s'))

section Entries

variable (S : Sane s) (M : CacheAgrees readWrite s) {fs : TaskFs} (hfs : s.tasks s.curr = some fs)

include S M hfs

/-- `create` comes to storing an entry exactly then. -/
theorem storedEntry_eq_some {y k : Nat} {name : CString} : storedEntry path s = some (y, k, name) ↔
    StoresIn s fs path y ∧ ¬ LongParent s fs path ∧ k = n (block s.disk y) ∧ name = nameIn path := by
  have F := inodeFind2_findsParent S hfs path
  unfold storedEntry
  generalize inodeFind2 path s = out at F ⊢
  cases F with
  | last hdrop => exact ⟨nofun, fun h => absurd h.1.held hdrop⟩
  | long hlong => exact ⟨nofun, fun h => absurd hlong h.2.1⟩
  | absent _ _ hnone => exact ⟨nofun, fun h => absurd h.1.parent (hnone y)⟩
  | @found s' e i hdrop hlong hpar R H =>
    have hop := found_dir_op S R
    have hdisk := R.moves.extends.disk
    have hperm := found_permits S M R
    have hperm' : permits (s'.refer i 1) i 3 = permits s' i 3 := by simp [permits, refer]
    have hop' : ((s'.refer i 1).inodes i).op = (s'.inodes i).op := by simp [refer]
    have hino' : ((s'.refer i 1).inodes i).ino = (s'.inodes i).ino := by simp [refer]
    have hdisk' : (s'.refer i 1).disk = s.disk := hdisk
    simp only [hperm', hop', hino', hdisk']
    constructor
    · intro h
      split at h
      · next hc =>
        cases h
        exact ⟨⟨hdrop, hpar, hop.mp hc.2.1, hperm ▸ hc.1, hc.2.2.1, hc.2.2.2⟩, hlong, rfl, rfl⟩
      · cases h
    · rintro ⟨P, -, rfl, rfl⟩
      obtain rfl := P.parent.unique S.coherent hpar
      rw [if_pos ⟨hperm.trans P.permitted, hop.mpr P.dir, P.free, P.absent⟩]

omit M in
/-- The name of an entry in a directory that was found is not too long, if it is there. -/
theorem not_longPath_of_entry (R : Reaches s (unheld fs path) s' e i)
    (H : Hops s' (fs.start path) (names (dirOf path)) e) (h : (nameIn path).length < 32) : ¬ LongPath path := by
  have hstart := Nat.lt_of_lt_of_le (start_lt S hfs path) R.moves.extends.nDirents
  exact fun hl => absurd h
    (Nat.not_lt.mpr (hl.name (hops_short (R.moves.coherent S.coherent) hstart dirOf_nonzero H)))

omit M in
/-- Where an entry is made or removed, its name is short enough. -/
theorem EntryEnds.short {T : State → Nat → Nat → Exec (Int × State) → Prop} {out : Exec (Int × State)}
    (B : EntryEnds s fs path T out)
    (hT : ∀ {s' e i out}, inodeFind2 path s = .ok (.ok (i, nameIn path), s'.refer i 1) →
      Reaches s (unheld fs path) s' e i → Hops s' (fs.start path) (names (dirOf path)) e →
      IsDir s'.disk (s'.inodes i).ino → T s' e i out → (nameIn path).length < 32 ∧
        Ends (fun _ => out) s (· = lastDirent) fun _ s'' => ∃ δ ε, Acts s δ ε s'') : Enters s fs path out := by
  cases B with
  | last h => exact .last fun hdrop => absurd hdrop h
  | long h => exact .long h
  | null hpar hnd hrw => exact .null hpar hnd hrw
  | fails hdrop hlong hall hneg hdisk A => exact .ends hdrop hlong hall A fun _ => ⟨hneg, hdisk⟩
  | enters hdrop hlong hpar hd hrun R H h =>
    obtain ⟨hname, hends⟩ := hT hrun R H (R.moves.extends.disk.symm ▸ hd) h
    have hpath := not_longPath_of_entry S hfs R H hname
    cases out with
    | error f =>
      obtain rfl : f = lastDirent := hends
      exact .last fun _ => hpath
    | ok p =>
      obtain ⟨δ, ε, A⟩ := hends
      refine .ends hdrop hlong (fun y hy hny => ?_) A fun hl => absurd hl hpath
      exact absurd (hy.unique S.coherent hpar ▸ hd) hny

theorem create_enters (ht : fmode.type = .regular ∨ fmode.type = .dir)
    (hfits : ∀ y, StoresIn s fs path y → Fits s.disk y (nameIn path)) : Enters s fs path (create path fmode s) := by
  refine (create_entryEnds S M hfs ht fun y hdrop hpar hd hrw _ hfree habs =>
    hfits y ⟨hdrop, hpar, hd, hrw, hfree, habs⟩).short S hfs ?_
  rintro s' e i _ - R - - ⟨he, hop⟩
  have A := R.acts S.coherent
  rcases hop with rfl | rfl
  · refine ⟨?_, _, _, A.step (.disk he rfl)⟩
    cases he with
    | fails h => cases h
    | create _ _ _ hf => exact hf.2
  · refine ⟨?_, _, _, A.step (.disk he rfl)⟩
    cases he with
    | fails h => cases h
    | mkdir _ _ _ hf => exact hf.2

theorem unlink_enters (type : FileType) : Enters s fs path (unlink path type s) := by
  refine (unlink_entryEnds S M hfs type).short S hfs ?_
  rintro s' e i _ hrun R H hd ⟨X⟩
  have C' := R.moves.coherent S.coherent
  have E' := R.moves.extends
  have T := S.tasks _ fs hfs
  have hstart := Nat.lt_of_lt_of_le (start_lt S hfs path) E'.nDirents
  have hbound : entry s'.disk (s'.inodes i).ino (nameIn path) ≠ none := fun hn =>
    (slot_eq_none (C'.disk.wf _ X.live.1)).mp (entry_eq_none.mp hn) _ X.live.2.1 X.name
  obtain ⟨y, hy⟩ := Option.ne_none_iff_exists'.mp hbound
  refine ⟨length_of_entry C'.disk.toInv hd hy, ?_⟩
  have U := unlink_cut (c := .sysUnlink path) (E := (· = lastDirent)) hfs rfl ⟨_, _, hrun⟩ R C' (by rw [E'.tasks, E'.curr, hfs]) T.1
    (Nat.lt_of_lt_of_le T.2 E'.nDirents) H
    (fun b hb => Nat.lt_trans (hops_short C' hstart dirOf_nonzero H b hb) (by decide)) X (.inr rfl)
  have U' := U.mono (Q := fun _ s'' => ∃ δ ε, Acts s δ ε s'') fun _ _ D => by
    obtain ⟨δ, ε, A, -⟩ := D.acts S
    exact ⟨δ, ε, A⟩
  exact U'

omit S M hfs in
theorem LongParent.droppable (h : LongParent s fs path) : Droppable s fs path := by
  intro hp
  have hcomp : components [] (dirOf path) = [] := by simp [dirOf, hp, components]
  rw [LongParent, hcomp] at h
  exact absurd h not_longReached_nil

omit M in
theorem inodeFind2_long (hlong : LongParent s fs path) : inodeFind2 path s = .error .overflow := by
  have F := inodeFind2_findsParent S hfs path
  generalize inodeFind2 path s = out at F
  cases F with
  | last h => exact absurd hlong.droppable h
  | long => rfl
  | absent _ h | found _ h => exact absurd hlong h

/-- A call that ends like this stays inside exactly if no name in front of the last slash
is too long for the array, and a path with a name that is too long for a slot comes to its
end. -/
theorem Enters.inside (E : Enters s fs path (x s)) (hover : LongParent s fs path → x s = .error .overflow)
    (hslots : kind = .makes → ∀ y, StoresIn s fs path y → Fits s.disk y (nameIn path)) :
    Inside s path kind x ↔ ¬ LongParent s fs path ∧ (LongPath path → Droppable s fs path ∧
      ∀ y, Parent s fs path y → ¬ IsDir s.disk y → ¬ readWrite (s.disk.di y).mode) := by
  constructor
  · intro J
    refine ⟨fun hlong => J.array (hover hlong), fun hl => ?_⟩
    obtain ⟨r, s', hx, -⟩ := J.rejects hl
    rw [hx] at E
    cases E with
    | ends hdrop _ hall => exact ⟨hdrop, hall⟩
  · rintro ⟨hlong, hrej⟩
    have harray : x s ≠ .error .overflow := by
      intro hx
      rw [hx] at E
      cases E with
      | long h => exact hlong h
    refine ⟨harray, fun r s' hx => ?_, fun hk y k name hst => ?_, fun hl => ?_⟩
    · rw [hx] at E
      cases E with
      | ends _ _ _ A => exact A.namesStored S
    · obtain ⟨P, -, rfl, rfl⟩ := (storedEntry_eq_some S M hfs).mp hst
      exact hslots hk y P
    · obtain ⟨hdrop, hall⟩ := hrej hl
      generalize hx : x s = out at E
      cases E with
      | last h => exact absurd hl (h hdrop)
      | long h => exact absurd h hlong
      | null hpar hd hrw => exact absurd hrw (hall _ hpar hd)
      | ends _ _ _ _ hfail => exact ⟨_, _, hx, hfail hl⟩

theorem PathCall.enters (hx : PathCall path kind x) (hkind : kind ≠ .looks)
    (hslots : kind = .makes → ∀ y, StoresIn s fs path y → Fits s.disk y (nameIn path)) :
    Enters s fs path (x s) := by
  cases hx with
  | sysOpen | sysStat | sysChdir => exact absurd rfl hkind
  | sysCreat mode => exact create_enters S M hfs (.inl rfl) (hslots rfl)
  | sysMkdir mode => exact create_enters S M hfs (.inr rfl) (hslots rfl)
  | sysUnlink => exact unlink_enters S M hfs .regular
  | sysRmdir => exact unlink_enters S M hfs .dir

omit M in
theorem PathCall.overflows (hx : PathCall path kind x) (hkind : kind ≠ .looks)
    (hlong : LongParent s fs path) : x s = .error .overflow := by
  have hfind := inodeFind2_long S hfs hlong
  cases hx with
  | sysOpen | sysStat | sysChdir => exact absurd rfl hkind
  | sysCreat | sysMkdir | sysUnlink | sysRmdir => exact bind_fail hfind

/-- Making and removing entries. -/
theorem enters_inside (hx : PathCall path kind x) (hkind : kind ≠ .looks) :
    Inside s path kind x ↔ ¬ LongParent s fs path ∧
      (kind = .makes → ∀ y, StoresIn s fs path y → Fits s.disk y (nameIn path)) ∧
      (LongPath path → Droppable s fs path ∧
        ∀ y, Parent s fs path y → ¬ IsDir s.disk y → ¬ readWrite (s.disk.di y).mode) := by
  have hover := hx.overflows S hfs hkind
  constructor
  · intro J
    have hlong : ¬ LongParent s fs path := fun h => J.array (hover h)
    have hslots : kind = .makes → ∀ y, StoresIn s fs path y → Fits s.disk y (nameIn path) := fun hk y P =>
      J.slots hk y _ _ ((storedEntry_eq_some S M hfs).mpr ⟨P, hlong, rfl, rfl⟩)
    exact ⟨hlong, hslots, (((hx.enters S M hfs hkind hslots).inside S M hfs hover hslots).mp J).2⟩
  · rintro ⟨hlong, hslots, hrej⟩
    exact ((hx.enters S M hfs hkind hslots).inside S M hfs hover hslots).mpr ⟨hlong, hrej⟩

end Entries

/-- In every reachable state a call with a path stores names only inside the arrays that
are there for them, and fails cleanly on a component that is too long to be stored,
exactly if three things hold.  No component of 256 bytes or more is come to on the way.
If an entry comes to be stored, its name has less than 32 bytes and the directory has a
free slot.  And if a component has 32 bytes or more, the working directory that making or
removing an entry may drop is still held, and what the entry would be in is no file that can
be read and written. -/
theorem names_stay_inside (h : system.Reachable s) {fs : TaskFs} (hfs : s.tasks s.curr = some fs) (path : CString)
    {kind : PathKind} {x : VfsM Int} (hx : PathCall path kind x) :
    Inside s path kind x ↔
      ¬ LongReached s.disk (number s (fs.start path)) (components [] (kind.part path)) ∧
      (kind = .makes → ∀ y, StoresIn s fs path y → Fits s.disk y (nameIn path)) ∧
      (kind ≠ .looks → LongPath path → Droppable s fs path ∧
        ∀ y, Parent s fs path y → ¬ IsDir s.disk y → ¬ readWrite (s.disk.di y).mode) := by
  have S := sane h
  have M := cacheAgrees h
  cases kind with
  | looks =>
    refine ⟨fun J => ⟨fun hlong => J.array (looks_long S hfs hx hlong), nofun, fun hk => absurd rfl hk⟩, ?_⟩
    exact fun hc => looks_inside S hfs hx hc.1
  | makes =>
    refine (enters_inside S M hfs hx (by decide)).trans (and_congr_right fun _ => and_congr_right fun _ => ?_)
    exact ⟨fun h _ => h, fun h => h (by decide)⟩
  | removes =>
    refine (enters_inside S M hfs hx (by decide)).trans (and_congr_right fun _ => and_congr_right fun _ => ?_)
    exact ⟨fun h _ => h, fun h => h (by decide)⟩

/-- `creat("/home/not")`, with a name that fits. -/
theorem names_stay_inside_home : ∃ s, system.Reachable s ∧
    Inside s (.ofString "/home/not") .makes (sysCreat (.ofString "/home/not") 3) := by
  have hrun : (runFrom []).map (fun s => decide ((s.tasks s.curr).isSome ∧
      ∃ a < 100, entry s.disk 0 (.ofString "home") = some a ∧ Fits s.disk a (.ofString "not"))) = some true := by
    decide +kernel
  obtain ⟨s, hs, hd⟩ := Option.map_eq_some_iff.mp hrun
  obtain ⟨htask, a, -, he, hfit⟩ := of_decide_eq_true hd
  obtain ⟨fs, hfs⟩ := Option.isSome_iff_exists.mp htask
  have hr := runFrom_reachable hs
  refine ⟨s, hr, (names_stay_inside hr hfs _ (.sysCreat 3)).mpr ⟨fun hl => ?_, fun _ y P => ?_, fun _ hl => ?_⟩⟩
  · obtain ⟨b, hb, hlen⟩ := hl.mem
    have hshort : ∀ b ∈ components [] (dirOf (.ofString "/home/not")), b.length < maxDirentryNameSize := by decide
    exact absurd (hshort b hb) (Nat.not_lt.mpr hlen)
  · rw [(parent_eq (sane hr) hfs (by decide) (by decide) (by decide) (by decide) he).mp P.parent]
    exact hfit
  · obtain ⟨b, hb, hlen⟩ := hl
    have hshort : ∀ b ∈ slashComponents (CString.ofString "/home/not").bytes, b.length < 32 := by decide
    exact absurd (hshort b hb) (Nat.not_lt.mpr hlen)

/-- `/home/` and a name of 40 letters. -/
def longHome : CString := .ofString ("/home/" ++ String.ofList (replicate 40 'a'))

/-- `creat` stores a name of 40 letters in a slot of 32 bytes and returns 0. -/
theorem names_stored_outside : ∃ s y k name, system.Reachable s ∧ storedEntry longHome s = some (y, k, name) ∧
    32 ≤ name.length ∧ ∃ s', sysCreat longHome 3 s = .ok (0, s') := by
  obtain ⟨s, hs, h1, h2⟩ : ∃ s, runFrom [] = some s ∧
      (match storedEntry longHome s with
      | some (_, _, name) => decide (32 ≤ name.length)
      | none => false) = true ∧
      (match sysCreat longHome 3 s with
      | .ok (r, _) => decide (r = 0)
      | .error _ => false) = true := observed (by decide +kernel)
  have hr := runFrom_reachable hs
  split at h1
  case h_2 => cases h1
  case h_1 y k name hst =>
    split at h2
    case h_2 => cases h2
    case h_1 r s' hcreat =>
      obtain rfl := of_decide_eq_true h2
      exact ⟨s, y, k, name, hr, hst, of_decide_eq_true h1, s', hcreat⟩

end MakarnaX.Vfs
