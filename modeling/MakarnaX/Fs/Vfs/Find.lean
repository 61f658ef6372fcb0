import MakarnaX.Fs.Vfs.Cache
import Mathlib.Algebra.Group.Pi.Basic
import Mathlib.Algebra.Ring.Int.Defs
import Mathlib.Data.List.TakeWhile

/-!
# Looking up a path

`dirent_find` goes along the components of a path.  It takes a reference to where
it gets and drops the one to where it was, and it may add dirents to the cache;
`Moves` says that it does nothing else, and which references are held more behind
it than in front of it.

If it fails there is no such path on disk.  If it does not, every step it took is
a step along the cache by now.
-/

namespace MakarnaX.Vfs

open Library Denemefs Subdentry List Function

variable {s s' s'' : State} {d dir c turns : Nat} {name : CString} {path buf b : List UInt8} {h : Nat → Int}
  {x : Denemefs.Inode} {fs : TaskFs}

/-! ## Moves -/

/-- Steps that take and drop references to dirents, allocate inodes and add
dirents for what is found on disk.  `h` counts the references taken. -/
inductive Moves (s : State) : (Nat → Int) → State → Prop
  | refl : Moves s 0 s
  | dup {h : Nat → Int} {s' : State} {d : Nat} : Moves s h s' → d < s'.nDirents → Moves s (h + Pi.single d 1) (s'.dup d)
  | drop {h : Nat → Int} {s' : State} {d : Nat} : Moves s h s' → d < s'.nDirents → 0 < (s'.dirents d).refCount →
      Moves s (h - Pi.single d 1) (s'.drop d)
  | spare {h : Nat → Int} {s' : State} : Moves s h s' → Moves s h s'.spare
  | add {h : Nat → Int} {s' : State} {dir : Nat} {name : CString} {x : Denemefs.Inode} : Moves s h s' →
      Finds s' dir name x → Moves s h (s'.add dir name x)

theorem Moves.trans {h h' : Nat → Int} (m : Moves s h s') (m' : Moves s' h' s'') : Moves s (h + h') s'' := by
  induction m' with
  | refl => simpa using m
  | dup _ hd ih =>
    rw [← add_assoc]
    exact .dup ih hd
  | drop _ hd hp ih =>
    rw [← add_sub_assoc]
    exact .drop ih hd hp
  | spare _ ih => exact .spare ih
  | add _ F ih => exact .add ih F

theorem Moves.coherent (C : Coherent s) (m : Moves s h s') : Coherent s' := by
  induction m with
  | refl => exact C
  | dup _ _ ih => exact ih.dup _
  | drop _ _ hp ih => exact ih.drop hp
  | spare _ ih => exact ih.spare
  | add _ F ih => exact ih.add F

/-- What is left as it was: everything but counts of dirents, new dirents, new
inodes and the children. -/
structure Extends (s s' : State) : Prop where
  disk : s'.disk = s.disk
  files : s'.files = s.files
  nFiles : s'.nFiles = s.nFiles
  tasks : s'.tasks = s.tasks
  nTasks : s'.nTasks = s.nTasks
  curr : s'.curr = s.curr
  nCli : s'.nCli = s.nCli
  nDirents : s.nDirents ≤ s'.nDirents
  nInodes : s.nInodes ≤ s'.nInodes
  inodes : ∀ i, i < s.nInodes → s'.inodes i = s.inodes i
  inode : ∀ d, d < s.nDirents → (s'.dirents d).inode = (s.dirents d).inode
  name : ∀ d, d < s.nDirents → (s'.dirents d).name = (s.dirents d).name
  parent : ∀ d, d < s.nDirents → (s'.dirents d).parent = (s.dirents d).parent
  childs : ∀ d, d < s.nDirents → ∃ l, (s'.dirents d).childs = (s.dirents d).childs ++ l

namespace Extends

theorem refl (s : State) : Extends s s :=
  ⟨rfl, rfl, rfl, rfl, rfl, rfl, rfl, Nat.le_refl _, Nat.le_refl _, fun _ _ => rfl, fun _ _ => rfl, fun _ _ => rfl,
    fun _ _ => rfl, fun _ _ => ⟨[], (append_nil _).symm⟩⟩

theorem trans (h : Extends s s') (h' : Extends s' s'') : Extends s s'' where
  disk := h'.disk.trans h.disk
  files := h'.files.trans h.files
  nFiles := h'.nFiles.trans h.nFiles
  tasks := h'.tasks.trans h.tasks
  nTasks := h'.nTasks.trans h.nTasks
  curr := h'.curr.trans h.curr
  nCli := h'.nCli.trans h.nCli
  nDirents := Nat.le_trans h.nDirents h'.nDirents
  nInodes := Nat.le_trans h.nInodes h'.nInodes
  inodes i hi := (h'.inodes i (Nat.lt_of_lt_of_le hi h.nInodes)).trans (h.inodes i hi)
  inode d hd := (h'.inode d (Nat.lt_of_lt_of_le hd h.nDirents)).trans (h.inode d hd)
  name d hd := (h'.name d (Nat.lt_of_lt_of_le hd h.nDirents)).trans (h.name d hd)
  parent d hd := (h'.parent d (Nat.lt_of_lt_of_le hd h.nDirents)).trans (h.parent d hd)
  childs d hd := by
    obtain ⟨l, hl⟩ := h.childs d hd
    obtain ⟨l', hl'⟩ := h'.childs d (Nat.lt_of_lt_of_le hd h.nDirents)
    exact ⟨l ++ l', by rw [hl', hl, append_assoc]⟩

/-- A state with the same dirents, up to their counts. -/
theorem of_similar (S : Similar s s') (hf : s'.files = s.files) (hnf : s'.nFiles = s.nFiles)
    (hnt : s'.nTasks = s.nTasks) (hc : s'.curr = s.curr) (hcli : s'.nCli = s.nCli)
    (hi : ∀ i, i < s.nInodes → s'.inodes i = s.inodes i) : Extends s s' where
  disk := S.disk
  files := hf
  nFiles := hnf
  tasks := S.tasks
  nTasks := hnt
  curr := hc
  nCli := hcli
  nDirents := Nat.le_of_eq S.nDirents.symm
  nInodes := S.nInodes
  inodes := hi
  inode d _ := S.inode d
  name d _ := S.name d
  parent d _ := S.parent d
  childs d _ := ⟨[], by rw [S.childs, append_nil]⟩

theorem add : Extends s (s.add dir name x) := by
  constructor
  case nDirents | nInodes => exact Nat.le_succ _
  case inodes => exact fun i hi => add_inode_old hi
  case inode => exact fun d hd => (add_dirent_old _ _ _ hd).1
  case name => exact fun d hd => (add_dirent_old _ _ _ hd).2.1
  case parent => exact fun d hd => (add_dirent_old _ _ _ hd).2.2.1
  case childs => exact fun d hd => ⟨_, (add_dirent_old _ _ _ hd).2.2.2.2.2⟩
  all_goals rfl

theorem number (E : Extends s s') (C : Coherent s) (hd : d < s.nDirents) : Vfs.number s' d = Vfs.number s d := by
  unfold Vfs.number
  rw [E.inode d hd]
  cases hi : (s.dirents d).inode with
  | none => rfl
  | some i => rw [Option.map_some, Option.map_some, E.inodes i (C.known hd hi).lt]

end Extends

theorem Moves.extends (m : Moves s h s') : Extends s s' := by
  induction m with
  | refl => exact .refl s
  | dup _ _ ih => exact ih.trans (.of_similar (.dup _ _) rfl rfl rfl rfl rfl fun _ _ => rfl)
  | drop _ _ _ ih => exact ih.trans (.of_similar (.drop _ _) rfl rfl rfl rfl rfl fun _ _ => rfl)
  | spare _ ih =>
    refine ih.trans (.of_similar (.spare _) rfl rfl rfl rfl rfl fun i hi => ?_)
    exact update_of_ne (Nat.ne_of_lt hi) ..
  | add _ _ ih => exact ih.trans .add

theorem TasksOk.extends (T : TasksOk s) (E : Extends s s') : TasksOk s' := by
  intro t fs h
  rw [E.tasks] at h
  obtain ⟨h1, h2⟩ := T t fs h
  exact ⟨h1, Nat.lt_of_lt_of_le h2 E.nDirents⟩

/-- The counts of the dirents that were there. -/
theorem Moves.refCount (m : Moves s h s') (hd : d < s.nDirents) :
    (s'.dirents d).refCount = (s.dirents d).refCount + h d := by
  induction m with
  | refl => simp
  | @dup h s' c m _ ih =>
    by_cases hc : d = c
    · subst hc
      simp [State.dup, ih, add_assoc]
    · simp [State.dup, ih, hc]
  | @drop h s' c m _ _ ih =>
    by_cases hc : d = c
    · subst hc
      simp [State.drop, ih, add_sub_assoc]
    · simp [State.drop, ih, hc]
  | spare _ ih => exact ih
  | add m _ ih =>
    rw [← ih]
    exact (add_dirent_old _ _ _ (Nat.lt_of_lt_of_le hd m.extends.nDirents)).2.2.2.2.1

/-! ## Steps along the cache -/

theorem cached_mem (h : cached s dir name = some c) : c ∈ (s.dirents dir).childs ∧ (s.dirents c).name = name := by
  exact ⟨mem_of_find?_eq_some h, by simpa using find?_some h⟩

/-- A step leads to a dirent. -/
theorem Hop.lt (C : Coherent s) (hd : d < s.nDirents) (hlive : (s.dirents d).inode ≠ none)
    (h : Hop s 0 d name c) : c < s.nDirents := by
  cases h with
  | dot | root => exact hd
  | up _ hne hp =>
    obtain ⟨p, hlt, hp', -⟩ := C.up hd hne hlive
    obtain rfl : p = c := Option.some.inj (hp'.symm.trans hp)
    exact hlt
  | child _ _ hc => exact (C.child hd (cached_mem hc).1).lt

/-- A step along the cache is a step on disk. -/
theorem Hop.disk (C : Coherent s) (hd : d < s.nDirents) {x : Nat} (hx : number s d = some x)
    (h : Hop s 0 d name c) : ∃ y, number s c = some y ∧ DiskStep s.disk x name y := by
  have hlive : (s.dirents d).inode ≠ none := by
    intro h0
    rw [number, h0] at hx
    cases hx
  cases h with
  | dot hn => exact ⟨x, hx, .dot hn⟩
  | root hn h0 =>
    subst h0
    obtain rfl : 0 = x := Option.some.inj (C.root.symm.trans hx)
    exact ⟨0, hx, .root hn rfl⟩
  | up hn hne hp =>
    obtain ⟨p, hlt, hp', hm⟩ := C.up hd hne hlive
    obtain rfl : p = c := Option.some.inj (hp'.symm.trans hp)
    have H := C.child hlt hm
    obtain ⟨a, b, ha, hb, hda, he⟩ := H.entry
    obtain rfl : b = x := Option.some.inj (hb.symm.trans hx)
    obtain ⟨k, hl, -⟩ := liveSlot_of_entry C.disk.toInv hda H.proper.1.1 he
    exact ⟨a, ha, .up hn hl⟩
  | child h1 h2 hc =>
    obtain ⟨hm, hn⟩ := cached_mem hc
    obtain ⟨a, b, ha, hb, hda, he⟩ := (C.child hd hm).entry
    obtain rfl : a = x := Option.some.inj (ha.symm.trans hx)
    exact ⟨b, hb, .down h1 h2 hda (hn ▸ he)⟩

/-- Later the same step can be taken. -/
theorem Hop.extends (C : Coherent s) (E : Extends s s') (hd : d < s.nDirents) (h : Hop s 0 d name c) :
    Hop s' 0 d name c := by
  cases h with
  | dot hn => exact .dot hn
  | root hn h0 => exact .root hn h0
  | up hn hne hp => exact .up hn hne ((E.parent d hd).trans hp)
  | child h1 h2 hc =>
    refine .child h1 h2 ?_
    obtain ⟨l, hl⟩ := E.childs d hd
    have hcongr : (s.dirents d).childs.find? (fun c => (s'.dirents c).name = name) =
        (s.dirents d).childs.find? fun c => (s.dirents c).name = name := by
      rw [← head?_filter, ← head?_filter]
      refine congrArg head? (filter_congr fun c hm => ?_)
      rw [E.name c (C.child hd hm).lt]
    unfold cached at hc ⊢
    rw [hl, find?_append, hcongr, hc]
    rfl

/-- A path along the cache. -/
inductive Hops (s : State) : Nat → List CString → Nat → Prop
  | nil {d : Nat} : Hops s d [] d
  | cons {d c e : Nat} {name : CString} {names : List CString} :
      (s.dirents d).inode ≠ none → Hop s 0 d name c → Hops s c names e → Hops s d (name :: names) e

theorem Hops.extends (C : Coherent s) (E : Extends s s') {names : List CString} {e : Nat} (h : Hops s d names e)
    (hd : d < s.nDirents) : Hops s' d names e := by
  induction h with
  | nil => exact .nil
  | cons hlive hop _ ih =>
    exact .cons (by rw [E.inode _ hd]; exact hlive) (hop.extends C E hd) (ih (hop.lt C hd hlive))

/-- A path along the cache is one on disk. -/
theorem Hops.resolves (C : Coherent s) {names : List CString} {e : Nat} (h : Hops s d names e) (hd : d < s.nDirents)
    {x : Nat} (hx : number s d = some x) : ∃ y, number s e = some y ∧ Resolves s.disk x names y := by
  induction h generalizing x with
  | nil => exact ⟨x, hx, .nil⟩
  | cons hlive hop _ ih =>
    obtain ⟨y, hy, hstep⟩ := hop.disk C hd hx
    obtain ⟨z, hz, hres⟩ := ih (hop.lt C hd hlive) hy
    exact ⟨z, hz, .cons hstep hres⟩

/-! ## One name -/

/-- The references a call that returns `r` holds. -/
def holds : Except Int Nat → Nat → Int
  | .ok d => Pi.single d 1
  | .error _ => 0

/-- What `dirent_find` and `dirent_lookup` have found, or not. -/
def Result (s s' : State) (d : Nat) (names : List CString) : Except Int Nat → Prop
  | .ok c => c < s'.nDirents ∧ 0 < (s'.dirents c).refCount ∧ Hops s' d names c
  | .error _ => ∀ x, number s d = some x → ∀ y, ¬ Resolves s.disk x names y

theorem refCount_dup_self (C : Coherent s) (d : Nat) : 0 < ((s.dup d).dirents d).refCount := by
  have := C.counts d
  simp only [State.dup, update_self]
  omega

/-- A step along the cache is in the result. -/
theorem hop_result (C : Coherent s) (hd : d < s.nDirents) (hi : (s.dirents d).inode ≠ none)
    (H : Hop s 0 d name c) : Moves s (holds (.ok c)) (s.dup c) ∧ Result s (s.dup c) d [name] (.ok c) := by
  have hlt := H.lt C hd hi
  have m : Moves s (holds (.ok c)) (s.dup c) := by simpa [holds] using Moves.dup (.refl (s := s)) hlt
  refine ⟨m, hlt, refCount_dup_self C c, .cons ?_ (H.extends C m.extends hd) .nil⟩
  rw [m.extends.inode d hd]
  exact hi

/-- The name of a new child is cached. -/
theorem cached_add (C : Coherent s) (F : Finds s dir name x) :
    cached (s.add dir name x) dir name = some s.nDirents := by
  have hcongr : (s.dirents dir).childs.find? (fun c => ((s.add dir name x).dirents c).name = name) =
      (s.dirents dir).childs.find? fun c => (s.dirents c).name = name := by
    rw [← head?_filter, ← head?_filter]
    refine congrArg head? (filter_congr fun c hm => ?_)
    rw [(add_dirent_old _ _ _ (C.child F.lt hm).lt).2.1]
  have hc := F.fresh
  unfold cached at hc ⊢
  rw [add_dirent_dir, find?_append, hcongr, hc]
  simp [add_dirent_new F.lt]

theorem found_result (C : Coherent s) (F : Finds s d name x) :
    Moves s (holds (.ok s.nDirents)) ((s.add d name x).dup s.nDirents) ∧
      Result s ((s.add d name x).dup s.nDirents) d [name] (.ok s.nDirents) := by
  have m : Moves s (holds (.ok s.nDirents)) ((s.add d name x).dup s.nDirents) := by
    simpa [holds] using Moves.dup (.add .refl F) (Nat.lt_succ_self s.nDirents)
  refine ⟨m, Nat.lt_succ_self _, refCount_dup_self (C.add F) _, .cons ?_ (.child F.proper.2.1 F.proper.2.2 ?_) .nil⟩
  · rw [m.extends.inode d F.lt]
    obtain ⟨a, ha, -⟩ := F.entry
    intro h0
    rw [number, h0] at ha
    cases ha
  · rw [cached_similar (.dup _ _), cached_add C F]

/-- `dirent_lookup` of a component. -/
theorem lookup_result (C : Coherent s) (T : TasksOk s) (hfs : s.tasks s.curr = some fs)
    (hd : d < s.nDirents) (hname : Plain name) :
    ∃ r s', direntLookup d name s = .ok (r, s') ∧ Moves s (holds r) s' ∧ Result s s' d [name] r := by
  have hroot : fs.root = 0 := (T _ fs hfs).1
  have hdisk : ∀ i, (s.dirents d).inode = some i → ∃ r, denemefsLookup (s.inodes i).ino name s.disk = .ok (r, s.disk) := by
    intro i hi
    obtain ⟨r, hr, -⟩ := lookup_used C.disk.toInv (C.known hd hi).used name
    exact ⟨r, hr⟩
  have hparent : (s.dirents d).inode ≠ none → d ≠ fs.root → (s.dirents d).parent ≠ none := by
    intro hi hne
    obtain ⟨p, -, hp, -⟩ := C.up hd (hroot ▸ hne) hi
    simp [hp]
  have hlive : ∀ i, (s.dirents d).inode = some i → i < s.nInodes ∧ (s.inodes i).op ≠ none := by
    intro i hi
    have K := C.known hd hi
    exact ⟨K.lt, by simp [K.op]⟩
  obtain ⟨r, s', hr, L⟩ := direntLookup_looked C.unlocked C.free hfs hd hparent hlive hdisk
  rw [hroot] at L
  refine ⟨r, s', hr, ?_⟩
  cases L with
  | removed hi =>
    refine ⟨.refl, fun x hx => ?_⟩
    rw [number, hi] at hx
    cases hx
  | hop hi H => exact hop_result C hd hi H
  | @absent i e h1 h2 hc hi hl =>
    refine ⟨.spare .refl, fun x hx y hy => ?_⟩
    obtain ⟨r, hr', -, herr⟩ := lookup_used C.disk.toInv (C.known hd hi).used name
    rw [hl] at hr'
    cases hr'
    obtain rfl : (s.inodes i).ino = x := by
      rw [number, hi] at hx
      exact Option.some.inj hx
    cases hy with
    | cons hstep _ =>
      cases hstep with
      | dot h | root h | up h => contradiction
      | down _ _ hdir he =>
        rw [herr e rfl hdir] at he
        cases he
  | @found i x h1 h2 hc hi hl =>
    obtain ⟨r, hr', hok, -⟩ := lookup_used C.disk.toInv (C.known hd hi).used name
    rw [hl] at hr'
    cases hr'
    obtain ⟨hdir, he, hx⟩ := hok x rfl
    have hnum : number s d = some (s.inodes i).ino := by rw [number, hi, Option.map_some]
    exact found_result C ⟨hd, ⟨hname, h1, h2⟩, hc, ⟨_, hnum, hdir, he⟩, hx⟩

/-! ## A path -/

/-- The components of a path, the bytes between the slashes.  `buf` is the start of
the first. -/
def components : List UInt8 → List UInt8 → List (List UInt8)
  | buf, [] => if buf = [] then [] else [buf]
  | buf, c :: path =>
    if c = slash then if buf = [] then components [] path else buf :: components [] path
    else components (buf ++ [c]) path

/-- The names in a path. -/
def names (path : List UInt8) : List CString := (components [] path).map cstring

theorem components_cons (buf : List UInt8) (c : UInt8) (path : List UInt8) : components buf (c :: path) =
    if c = slash then if buf = [] then components [] path else buf :: components [] path
    else components (buf ++ [c]) path := rfl

theorem parsePathI_cons (buf : List UInt8) (c : UInt8) (path : List UInt8) : parsePathI buf (c :: path) =
    if c = slash then if buf ≠ [] then (buf, some path) else parsePathI buf path
    else parsePathI (buf ++ [c]) path := rfl

/-- `parse_path_i` takes the last component off a path. -/
theorem parsePathI_none (h : parsePathI buf path = (b, none)) :
    components buf path = if b = [] then [] else [b] := by
  induction path generalizing buf with
  | nil =>
    cases h
    rfl
  | cons c path ih =>
    rw [parsePathI_cons] at h
    rw [components_cons]
    split at h
    · next hc =>
      rw [if_pos hc]
      split at h
      · cases h
      · next hb =>
        obtain rfl := not_not.mp hb
        rw [if_pos rfl]
        exact ih h
    · next hc =>
      rw [if_neg hc]
      exact ih h

/-- It takes the first component off a path. -/
theorem parsePathI_some {buf path b rest : List UInt8} (h : parsePathI buf path = (b, some rest)) :
    b ≠ [] ∧ components buf path = b :: components [] rest ∧ rest.length < path.length ∧ ∀ c ∈ rest, c ∈ path := by
  induction path generalizing buf with
  | nil => cases h
  | cons c path ih =>
    rw [parsePathI_cons] at h
    rw [components_cons]
    split at h
    · next hc =>
      rw [if_pos hc]
      split at h
      · next hb =>
        cases h
        exact ⟨hb, if_neg hb, Nat.lt_succ_self _, fun x hx => mem_cons_of_mem c hx⟩
      · next hb =>
        obtain rfl := not_not.mp hb
        obtain ⟨h1, h2, h3, h4⟩ := ih h
        exact ⟨h1, by rw [if_pos rfl, h2], Nat.lt_succ_of_lt h3, fun x hx => mem_cons_of_mem c (h4 x hx)⟩
    · next hc =>
      rw [if_neg hc]
      obtain ⟨h1, h2, h3, h4⟩ := ih h
      exact ⟨h1, h2, Nat.lt_succ_of_lt h3, fun x hx => mem_cons_of_mem c (h4 x hx)⟩

/-- The bytes of a component are in the path. -/
theorem mem_components {c : UInt8} (hb : b ∈ components buf path) (hc : c ∈ b) :
    c ∈ buf ∨ c ∈ path := by
  induction path generalizing buf with
  | nil =>
    unfold components at hb
    split at hb
    · cases hb
    · rw [mem_singleton.mp hb] at hc
      exact .inl hc
  | cons x path ih =>
    unfold components at hb
    split at hb
    · split at hb
      · rcases ih hb with h | h
        · cases h
        · exact .inr (mem_cons_of_mem x h)
      · rcases mem_cons.mp hb with rfl | hb
        · exact .inl hc
        · rcases ih hb with h | h
          · cases h
          · exact .inr (mem_cons_of_mem x h)
    · rcases ih hb with h | h
      · rcases mem_append.mp h with h | h
        · exact .inl h
        · rw [mem_singleton.mp h]
          exact .inr mem_cons_self
      · exact .inr (mem_cons_of_mem x h)

theorem cstring_bytes {b : List UInt8} (h : 0 ∉ b) : (cstring b).bytes = b := by
  unfold cstring
  refine takeWhile_eq_self_iff.mpr fun x hx => ?_
  simpa using fun h0 : x = 0 => h (h0 ▸ hx)

theorem slash_components (hbuf : slash ∉ buf) (hb : b ∈ components buf path) : slash ∉ b := by
  induction path generalizing buf with
  | nil =>
    unfold components at hb
    split at hb
    · cases hb
    · rwa [mem_singleton.mp hb]
  | cons x path ih =>
    rw [components_cons] at hb
    split at hb
    · split at hb
      · exact ih not_mem_nil hb
      · rcases mem_cons.mp hb with rfl | hb
        · exact hbuf
        · exact ih not_mem_nil hb
    · rename_i hx
      refine ih (fun h => ?_) hb
      rcases mem_append.mp h with h | h
      · exact hbuf h
      · exact hx (mem_singleton.mp h).symm

theorem components_ne_nil (hb : b ∈ components buf path) : b ≠ [] := by
  induction path generalizing buf with
  | nil =>
    unfold components at hb
    split at hb
    · cases hb
    · next hne => rwa [mem_singleton.mp hb]
  | cons c path ih =>
    rw [components_cons] at hb
    split at hb
    · split at hb
      · exact ih hb
      · next hne => exact (mem_cons.mp hb).elim (fun h => h ▸ hne) ih
    · exact ih hb

/-- What the components of a path are as names. -/
theorem plain_component (h0 : 0 ∉ path) (hb : b ∈ components [] path) : Plain (cstring b) := by
  have hzero : 0 ∉ b := fun h => (mem_components hb h).elim not_mem_nil h0
  have hbytes := cstring_bytes hzero
  refine ⟨fun he => ?_, ?_⟩
  · rw [he] at hbytes
    exact components_ne_nil hb hbytes.symm
  · rw [hbytes]
    exact slash_components not_mem_nil hb

/-- The first component was found, and the rest is looked up behind it. -/
theorem Result.cons (C : Coherent s) (m : Moves s h s') {h' : Nat → Int}
    (m' : Moves s' h' s'') (hd : d < s.nDirents) (H : Hops s' d [name] c) {l : List CString} {r : Except Int Nat}
    (R : Result s' s'' c l r) : Result s s'' d (name :: l) r := by
  have C' := m.coherent C
  have hd' : d < s'.nDirents := Nat.lt_of_lt_of_le hd m.extends.nDirents
  cases H with
  | cons hi H1 H2 =>
    cases H2
    cases r with
    | ok e =>
      refine ⟨R.1, R.2.1, .cons ?_ (H1.extends C' m'.extends hd') R.2.2⟩
      rw [m'.extends.inode d hd']
      exact hi
    | error e =>
      intro x hx y hy
      rw [← m.extends.number C hd] at hx
      obtain ⟨z, hz, hstep⟩ := H1.disk C' hd' hx
      rw [m.extends.disk] at hstep
      cases hy with
      | cons hstep' hrest =>
        obtain rfl := DiskStep.unique C.disk.toInv hstep hstep'
        refine R z hz y ?_
        rw [m.extends.disk]
        exact hrest

/-- A path whose components fit in the array of `parse_path_i`. -/
def Short (path : List UInt8) : Prop := ∀ b ∈ components [] path, b.length < maxDirentryNameSize

/-- One turn of the loop: the directory is left for what was found in it. -/
theorem lookup_leave (C : Coherent s) (T : TasksOk s) (hfs : s.tasks s.curr = some fs)
    (hd : d < s.nDirents) (hpos : 0 < (s.dirents d).refCount) (hname : Plain name) :
    ∃ r s', (do
        let r ← direntLookup d name
        direntFree d
        pure r : VfsM (Except Int Nat)) s = .ok (r, s') ∧
      Moves s (holds r - Pi.single d 1) s' ∧ Result s s' d [name] r := by
  obtain ⟨r, s1, hr, m, R⟩ := lookup_result C T hfs hd hname
  have hcount := m.refCount hd
  have hd' : d < s1.nDirents := Nat.lt_of_lt_of_le hd m.extends.nDirents
  have hge : 0 < (s1.dirents d).refCount := by
    have : 0 ≤ holds r d := by
      cases r with
      | error e => exact Int.le_refl 0
      | ok c =>
        by_cases hc : d = c
        · simp [holds, hc]
        · simp [holds, hc]
    omega
  refine ⟨r, s1.drop d, (bind_run hr).trans (bind_run (direntFree_eq hge)), .drop m hd' hge, ?_⟩
  cases r with
  | error e => exact R
  | ok c =>
    have E : Extends s1 (s1.drop d) := (Moves.drop .refl hd' hge).extends
    refine ⟨R.1, ?_, R.2.2.extends (m.coherent C) E hd'⟩
    by_cases hc : c = d
    · subst hc
      have h1 : holds (.ok c) c = 1 := by simp [holds]
      simp only [State.drop, update_self]
      omega
    · simpa [State.drop, hc] using R.2.1

/-- Where `dirent_find` starts. -/
abbrev startOf (fs : TaskFs) (path : List UInt8) : Nat := if path.head? = some slash then fs.root else fs.pwd

theorem startOf_lt (C : Coherent s) (T : TasksOk s) (hfs : s.tasks s.curr = some fs) : startOf fs path < s.nDirents := by
  obtain ⟨hroot, hpwd⟩ := T _ fs hfs
  unfold startOf
  split
  · rw [hroot]
    exact C.pos
  · exact hpwd

end MakarnaX.Vfs
