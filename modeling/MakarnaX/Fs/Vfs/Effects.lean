import MakarnaX.Fs.Vfs.Calls

/-!
# How calls end

`Call.ends` says more than that a call that returns does one of the things `Does`
lists.  It also says that the assertion of `__dirent_free` fails only in a call
that drops the working directory, or where the counts were wrong before.
-/

namespace MakarnaX.Vfs

open Library Denemefs Subdentry Function List State

variable {s s' : State} {fs gs : TaskFs} {path name : CString} {c : Call} {t : Table} {α : Type} {h : Nat → Int}
  {e i : Nat} {f : Nat → TableM α} {fmode : FileMode}

section Ends

variable {E : Fault → Prop} (hE : ∀ e, e ≠ lastDirent → E e) (S : Sane s) (hfs : s.tasks s.curr = some fs)

/-! ### Making an entry -/

theorem inodePermission_eq {i : Nat} {op : InodeOperations} (flags : Nat) (h : (s.inodes i).op = some op) :
    inodePermission i flags s = .ok (permits s i flags, s) := by
  simp [inodePermission, h, permits]

theorem onDisk_eq {x : TableM α} {a : α} (h : x s.disk = .ok (a, t)) :
    onDisk x s = .ok (a, { s with disk := t }) := by
  simp [onDisk, h]

/-- An inode with the operations of a directory is one. -/
theorem isDir_of_op (C : Coherent s) (he : e < s.nDirents) (hi : (s.dirents e).inode = some i)
    (hop : (s.inodes i).op = some .denemefsDir) : IsDir s.disk (s.inodes i).ino := by
  have K := C.known he hi
  refine ⟨K.used, ?_⟩
  have h := K.op
  rw [hop, opOf] at h
  split at h
  · assumption
  · cases h

theorem opDir_dir (hop : (s.inodes i).op = some .denemefsDir) :
    opDir i f s = onDisk (f (s.inodes i).ino) s := by
  simp [opDir, hop]

theorem opDir_other (hop : (s.inodes i).op ≠ some .denemefsDir) :
    opDir i f s = .error .null := by
  cases h : (s.inodes i).op with
  | none => simp [opDir, h]
  | some op =>
    cases op with
    | denemefsDir => exact absurd h hop
    | denemefsFile => simp [opDir, h]

include S hfs

/-- `inode_find2` can fail only where it drops what it has not taken. -/
theorem inodeFind2_ends (hshort : Short (dirOf path)) (hbad : strrchr path.bytes ≠ none ∨ E lastDirent) :
    Ends (inodeFind2 path) s E
      (Found s (fs.start path) (names (dirOf path)) (unheld fs path) fun i => (i, nameIn path)) := by
  have F := inodeFind2_findsParent S hfs path
  cases hrun : inodeFind2 path s with
  | error f =>
    rw [hrun] at F
    refine .of_error hrun ?_
    cases F with
    | last hdrop => exact hbad.resolve_left fun h => hdrop fun h' => absurd h' h
    | long h =>
      obtain ⟨b, hmem, hb⟩ := h.mem
      exact absurd (hshort b hmem) (Nat.not_lt.mpr hb)
  | ok p =>
    rw [hrun] at F
    refine .of_ok hrun ?_
    cases F with
    | absent _ _ _ m => exact .fails m
    | found _ _ _ R H => exact .finds R.moves R.lt H R.inode

omit S hfs in
/-- What has failed has found nothing. -/
theorem not_found {x : Exec (Except Int α × State)} {e : Int} {t : State} (h : x = .ok (.error e, t)) :
    ¬ ∃ a t, x = .ok (.ok a, t) := by
  rintro ⟨a, t', h'⟩
  rw [h] at h'
  cases h'

omit S hfs in
theorem not_changes (hc : c.entryPath = some path) : ¬ c.changes s := by
  cases c with
  | sysChdir => cases hc
  | _ => exact id

omit S hfs in
theorem not_exit (hc : c.entryPath = some path) : c ≠ .exit := by
  rintro rfl
  cases hc

omit S hfs in
theorem create_cases {d mode : Nat} (I : Inv t) (hd : IsDir t d) (hfits : (Op.create d name mode).fits t) :
    denemefsCreate d name mode t = .ok (.error (-1), t) ∨
      ∃ x t', denemefsCreate d name mode t = .ok (.ok x, t') ∧ Effect t (.create d name mode) 0 t' := by
  cases hf : freeDi t with
  | none => exact .inl (create_noInode hf)
  | some ino =>
    by_cases he : entry t d name = none
    · have hfits := hfits (by simp [hf]) he
      exact .inr ⟨_, _, create_unbound I hd hf he hfits, .create hd hf he hfits⟩
    · exact .inl (create_bound I hd he)

omit S hfs in
theorem testBit_mode (m : FileMode) : m.mode.testBit 1 = m.write := by
  obtain ⟨r, w, -⟩ := m
  show (r.toNat + 2 * w.toNat).testBit 1 = w
  cases r <;> cases w <;> decide

omit S hfs in
/-- How the rest of `create` or `unlink` ends in the inode that was found: it is not
permitted, there is no such operation, it fails, or it has made the entry or removed it
and ends in `T`. -/
inductive EntersDir (s : State) (i : Nat) (T : Exec (Int × State) → Prop) : Exec (Int × State) → Prop
  | fails {r : Int} : permits s i 3 = false ∨ (s.inodes i).op = some .denemefsDir → r < 0 →
      EntersDir s i T (.ok (r, s.refer i 1))
  | null : permits s i 3 = true → (s.inodes i).op ≠ some .denemefsDir → EntersDir s i T (.error .null)
  | enters {out : Exec (Int × State)} : permits s i 3 = true → (s.inodes i).op = some .denemefsDir → T out →
      EntersDir s i T out

omit S hfs in
theorem EntersDir.of_eq {T : Exec (Int × State) → Prop} {out out' : Exec (Int × State)} (h : out = out')
    (h' : EntersDir s i T out') : EntersDir s i T out := h ▸ h'

omit S hfs in
theorem EntersDir.ends {T : Exec (Int × State) → Prop} {x : VfsM Int} {P : Int → State → Prop}
    (h : EntersDir s i T (x (s.refer i 1))) (hfails : ∀ r, P r (s.refer i 1)) (hnull : E .null)
    (hT : ∀ out, T out → Ends (fun _ => out) (s.refer i 1) E P) : Ends x (s.refer i 1) E P := by
  unfold Ends
  generalize x (s.refer i 1) = out at h
  cases h with
  | fails => exact hfails _
  | null => exact hnull
  | enters _ _ h => exact hT _ h

/-- `create` behind `inode_find2`. -/
def createIn (fmode : FileMode) (dir : Nat) (name : CString) : VfsM Int := do
  if !(← inodePermission dir 3) then
    return -2
  match fmode.type with
  | .regular =>
    match ← opDir dir (denemefsCreate · name fmode.mode) with
    | .ok _ => return 0
    | .error _ => return -3
  | .dir => return if (← opDir dir (denemefsMkdir · name fmode.mode)) < 0 then -3 else 0
  | _ => return -4

/-- The entry was made. -/
inductive Stores (s : State) (i : Nat) (name : CString) (mode : Nat) : Exec (Int × State) → Prop
  | mk {op : Op} {t : Table} : Effect s.disk op 0 t →
      op = .create (s.inodes i).ino name mode ∨ op = .mkdir (s.inodes i).ino name mode →
      Stores s i name mode (.ok (0, { s.refer i 1 with disk := t }))

omit S hfs in
theorem createIn_enters (C : Coherent s) (he : e < s.nDirents) (hi : (s.dirents e).inode = some i)
    (ht : fmode.type = .regular ∨ fmode.type = .dir) (hfits : permits s i 3 = true → IsDir s.disk (s.inodes i).ino →
      ∀ mode, (Op.create (s.inodes i).ino name mode).fits s.disk) :
    EntersDir s i (Stores s i name fmode.mode) (createIn fmode i name (s.refer i 1)) := by
  have hop : ((s.refer i 1).inodes i).op = (s.inodes i).op := by simp [refer]
  have hino : ((s.refer i 1).inodes i).ino = (s.inodes i).ino := by simp [refer]
  have hp : permits (s.refer i 1) i 3 = permits s i 3 := by simp [permits, refer]
  have hperm := inodePermission_eq 3 (hop.trans (C.known he hi).op)
  rw [hp] at hperm
  rw [createIn, bind_run hperm]
  cases hpe : permits s i 3 with
  | false => exact .fails (.inl hpe) (by decide)
  | true =>
    rw [if_neg (by decide)]
    by_cases hdir : (s.inodes i).op = some .denemefsDir
    · have hd := isDir_of_op C he hi hdir
      have hon : ∀ {α : Type} {f : Nat → TableM α} {a : α} {t : Table}, f (s.inodes i).ino s.disk = .ok (a, t) →
          opDir i f (s.refer i 1) = .ok (a, { s.refer i 1 with disk := t }) := fun h =>
        (opDir_dir (hop.trans hdir)).trans (onDisk_eq (by rw [hino]; exact h))
      rcases ht with ht | ht
      · rw [ht]
        rcases create_cases C.disk.toInv hd (hfits hpe hd _) with hc | ⟨x, t, hc, he⟩
        · exact .of_eq (bind_run (hon (f := (denemefsCreate · name _)) hc)) (.fails (.inr hdir) (by decide))
        · exact .of_eq (bind_run (hon (f := (denemefsCreate · name _)) hc)) (.enters hpe hdir ⟨he, .inl rfl⟩)
      · rw [ht]
        obtain ⟨r, t, hc, he⟩ := mkdir_effect C.disk.toInv hd (hfits hpe hd 0)
        refine .of_eq (bind_run (hon (f := (denemefsMkdir · name _)) hc)) ?_
        cases he with
        | fails hneg =>
          rw [if_pos hneg]
          exact .fails (.inr hdir) (by decide)
        | mkdir h1 h2 h3 h4 => exact .enters hpe hdir ⟨.mkdir h1 h2 h3 h4, .inr rfl⟩
    · have herr : ∀ {α : Type} (f : Nat → TableM α), opDir i f (s.refer i 1) = .error .null := fun f =>
        opDir_other (hop ▸ hdir)
      rcases ht with ht | ht
      · rw [ht]
        exact .of_eq (bind_fail (herr _)) (.null hpe hdir)
      · rw [ht]
        exact .of_eq (bind_fail (herr _)) (.null hpe hdir)

include hE in
/-- `sys_creat` and `sys_mkdir`. -/
theorem create_ends (hc : c.entryPath = some path)
    (hr : c.finds s ↔ ∃ p t, inodeFind2 path s = .ok (.ok p, t)) (hshort : Short (dirOf path))
    (hbad : strrchr path.bytes ≠ none ∨ E lastDirent)
    (ht : fmode.type = .regular ∨ fmode.type = .dir) (hw : fmode.write = c.makesWritable)
    (hfits : ∀ i name s', inodeFind2 path s = .ok (.ok (i, name), s') →
      ∀ mode, (Op.create (s'.inodes i).ino name mode).fits s.disk) :
    Ends (create path fmode) s E fun _ t => Does s c t := by
  have hu : c.unheld fs = unheld fs path := by rw [Call.unheld, hc]; rfl
  have F := inodeFind2_ends S hfs hshort hbad
  cases hrun : inodeFind2 path s with
  | error e => exact .of_error (bind_fail hrun) (F.error hrun)
  | ok p =>
    obtain ⟨r, s1⟩ := p
    refine .bind_ok hrun ?_
    cases F.ok hrun with
    | fails m => exact .pure (.moves hfs (not_exit hc) (hr.not.mpr (not_found hrun)) (not_changes hc) (hu ▸ m))
    | @finds s' e i m he H hi =>
      have hr := hr.mpr ⟨_, _, hrun⟩
      have R : Reaches s (c.unheld fs) s' e i := ⟨hu ▸ m, he, hi⟩
      have hfits := hfits _ _ _ hrun
      rw [← m.extends.disk] at hfits
      refine (createIn_enters (m.coherent S.coherent) he hi ht fun _ _ mode => ?_).ends (x := createIn fmode i _)
        (fun _ => .refers hfs hr R) (hE _ nofun) ?_
      · simpa [refer] using hfits mode
      · rintro _ ⟨he, hop⟩
        exact .of_ok rfl (.enters hfs hr R he hop ((testBit_mode fmode).trans hw))

/-! ### Removing an entry -/

omit S hfs in
theorem lock_unlock (h : (s.inodes i).val = 1) : (s.lock i).unlock i = s := by
  simp [lock, unlock, Inode.free h]

omit S hfs in
theorem Hops.frame {d e : Nat} {l : List CString} (H : Hops s d l e) (hd : s'.dirents = s.dirents) :
    Hops s' d l e := by
  induction H with
  | nil => exact .nil
  | @cons d c _ name _ hi H1 _ ih =>
    refine .cons (hd ▸ hi) ?_ ih
    cases H1 with
    | dot hn => exact .dot hn
    | root hn h0 => exact .root hn h0
    | up hn hne hp => exact .up hn hne (hd ▸ hp)
    | child h1 h2 hc =>
      refine .child h1 h2 ?_
      unfold cached at hc ⊢
      rw [hd]
      exact hc

omit S hfs in
/-- Only the directory of the path is dropped. -/
theorem unheld_ne {y d : Nat} (H : Hops s (fs.start path) (names (dirOf path)) y) (hd : d ≠ y) :
    unheld fs path d = 0 := by
  unfold unheld
  split
  · next hp =>
    have hstart : fs.start path = fs.pwd := if_neg (strrchr_none hp)
    have hdir : names (dirOf path) = [] := by simp [dirOf, hp, names, components]
    rw [hstart, hdir] at H
    cases H
    rw [Pi.neg_apply, Pi.single_eq_of_ne hd]
    rfl
  · rfl

omit S hfs in
theorem Moves.unheld (m : Moves s h s') (hpwd : fs.pwd < s'.nDirents) (hdrop : Droppable s' fs path) :
    Moves s (h + Vfs.unheld fs path) (s'.hold (Vfs.unheld fs path)) := by
  unfold Vfs.unheld
  split
  · next hp =>
    rw [← drop_eq_hold, ← sub_eq_add_neg]
    exact m.drop hpwd (hdrop hp)
  · rw [hold_zero, add_zero]
    exact m

omit S hfs in
/-- What the file system on disk has removed. -/
theorem cut_of_effect (C : Coherent s) {y i : Nat} (hy : y < s.nDirents)
    (hi : (s.dirents y).inode = some i) {op : Op} {r : Int} (he : Effect s.disk op r t)
    (hop : op = .unlink (s.inodes i).ino name ∨ op = .rmdir (s.inodes i).ino name) :
    r < 0 ∧ t = s.disk ∨ ∃ k b, r = 0 ∧ t = cut s.disk (s.inodes i).ino k b ∧ Cut s y name (s.inodes i).ino k b := by
  have S := he.started C.disk
  cases he with
  | fails h => exact .inl ⟨h, rfl⟩
  | create | mkdir | lookup | write => rcases hop with h | h <;> cases h
  | unlink hs hl ht =>
    rcases hop with h | h
    · cases h
      refine .inr ⟨_, _, rfl, rfl, hy, number_of_inode hi, hl, ?_, ?_, S⟩
      · exact ((slot_eq_some (C.disk.wf _ hl.1)).mp hs).2.1
      · intro hd
        rw [hd.2] at ht
        cases ht
    · cases h
  | rmdir hs hl ht hn =>
    rcases hop with h | h
    · cases h
    · cases h
      refine .inr ⟨_, _, rfl, rfl, hy, number_of_inode hi, hl, ?_, fun _ => hn, S⟩
      exact ((slot_eq_some (C.disk.wf _ hl.1)).mp hs).2.1

omit S in
/-- The entry is gone on disk: the rest of `unlink`. -/
theorem unlink_cut (hc : c.entryPath = some path) (hr : c.finds s) {y i a k b : Nat}
    (R : Reaches s (c.unheld fs) s' y i) (C : Coherent s') (hfs' : s'.tasks s'.curr = some fs) (hroot : fs.root = 0)
    (hpwd : fs.pwd < s'.nDirents) (H : Hops s' (fs.start path) (names (dirOf path)) y) (hshort : Short (dirOf path))
    (X : Cut s' y (nameIn path) a k b)
    (hbad : (strrchr path.bytes ≠ none ∧ ∀ d, cached s' y (nameIn path) = some d → 0 < (s'.dirents d).refCount) ∨
      E lastDirent) :
    Ends (do
      direntCacheRemove path
      inodeUnlock i
      return 0 : VfsM Int) { (s'.refer i 1).lock i with disk := cut s'.disk a k b } E fun _ t => Does s c t := by
  have hu : c.unheld fs = unheld fs path := by rw [Call.unheld, hc]; rfl
  have hchild : ∀ d, cached s' y (nameIn path) = some d →
      d ≠ y ∧ (s'.dirents d).parent = some y ∧ (s'.dirents d).childs = [] := by
    intro d hd
    have hchild := C.child X.lt (cached_mem hd).1
    exact ⟨cached_ne C X hd, hchild.parent, no_childs C X hchild.lt (number_of_cached C X hd)⟩
  have hrem := cacheRemove_ends (E := E) (s := { (s'.refer i 1).lock i with disk := cut s'.disk a k b })
    C.unlocked C.counts hfs' hroot hshort (H.frame rfl) hchild hbad
  refine hrem.bind fun _ w hw => ?_
  obtain ⟨hdrop, hw⟩ := hw
  have m' := R.moves.unheld hpwd hdrop
  have R' : Reaches s (c.unheld fs + c.unheld fs) (s'.hold (unheld fs path)) y i := ⟨by rw [hu] at m' ⊢; exact m', R.lt, R.inode⟩
  have X' : Cut (s'.hold (unheld fs path)) y (nameIn path) a k b := ⟨X.lt, X.number, X.live, X.name, X.leaf, X.started⟩
  have hval : ((s'.refer i 1).inodes i).val = 1 := (C.refer i 1).free i
  cases hw with
  | none hn =>
    refine .bind_ok (inodeUnlock_eq (by simp [hold, lock])) (.pure ?_)
    have heq : unlock (hold { (s'.refer i 1).lock i with disk := cut s'.disk a k b } (unheld fs path)) i =
        { (s'.hold (unheld fs path)).refer i 1 with disk := cut s'.disk a k b } := by
      refine State.ext rfl rfl rfl ?_ rfl rfl rfl rfl rfl rfl rfl
      have h := congrArg State.inodes (lock_unlock hval)
      exact h
    rw [heq]
    exact .cuts hfs hc hr R' X' hn
  | @some d hd h0 =>
    have hne := (hchild d hd).1
    have hpos : 0 < ((s'.hold (unheld fs path)).dirents d).refCount := by
      show 0 < (s'.dirents d).refCount + unheld fs path d
      rw [unheld_ne H hne, add_zero]
      exact h0
    obtain ⟨j, hj⟩ : ∃ j, (s'.dirents d).inode = some j := by
      obtain ⟨j, hj, -⟩ := inode_of_number (number_of_cached C X hd)
      exact ⟨j, hj⟩
    refine .bind_ok (inodeUnlock_eq (by simp [hold, lock, detach])) (.pure ?_)
    have heq : unlock
        ((hold { (s'.refer i 1).lock i with disk := cut s'.disk a k b } (unheld fs path)).detach y d) i =
        { ((s'.hold (unheld fs path)).refer i 1).detach y d with disk := cut s'.disk a k b } := by
      refine State.ext rfl rfl rfl ?_ rfl rfl rfl rfl rfl rfl rfl
      have h := congrArg State.inodes (lock_unlock hval)
      exact h
    rw [heq]
    exact .detaches hfs hc hr R' X' hd hpos hj

omit S hfs in
/-- `unlink` behind `inode_find2`. -/
def unlinkIn (path : CString) (type : FileType) (dir : Nat) (name : CString) : VfsM Int := do
  inodeLock dir
  if !(← inodePermission dir 3) then
    inodeUnlock dir
    return -1
  let r ← if type = .dir then opDir dir (denemefsRmdir · name) else opDir dir (denemefsUnlink · name)
  if r < 0 then
    inodeUnlock dir
    return r
  direntCacheRemove path
  inodeUnlock dir
  return 0

/-- The entry is gone on disk. -/
inductive Removes (s : State) (path : CString) (e i : Nat) : Exec (Int × State) → Prop
  | mk {k b : Nat} : Cut s e (nameIn path) (s.inodes i).ino k b → Removes s path e i
      ((do
        direntCacheRemove path
        inodeUnlock i
        return 0 : VfsM Int) { (s.refer i 1).lock i with disk := cut s.disk (s.inodes i).ino k b })

omit S hfs in
theorem unlinkIn_enters (C : Coherent s) (he : e < s.nDirents) (hi : (s.dirents e).inode = some i) (type : FileType) :
    EntersDir s i (Removes s path e i) (unlinkIn path type i (nameIn path) (s.refer i 1)) := by
  have hval : ((s.refer i 1).inodes i).val = 1 := (C.refer i 1).free i
  have hunlock : inodeUnlock i ((s.refer i 1).lock i) = .ok ((), s.refer i 1) := by
    rw [inodeUnlock_eq (by simp [lock]), lock_unlock hval]
  have hop : (((s.refer i 1).lock i).inodes i).op = (s.inodes i).op := by simp [lock, refer]
  have hino : (((s.refer i 1).lock i).inodes i).ino = (s.inodes i).ino := by simp [lock, refer]
  have hp : permits ((s.refer i 1).lock i) i 3 = permits s i 3 := by simp [permits, lock, refer]
  have hperm := inodePermission_eq 3 (hop.trans (C.known he hi).op)
  rw [hp] at hperm
  rw [unlinkIn, bind_run (inodeLock_eq hval), bind_run hperm]
  cases hpe : permits s i 3 with
  | false => exact .of_eq (bind_run hunlock) (.fails (.inl hpe) (by decide))
  | true =>
    rw [if_neg (by decide)]
    by_cases hdir : (s.inodes i).op = some .denemefsDir
    · have hd := isDir_of_op C he hi hdir
      have hon : ∀ {f : Nat → TableM Int} {r : Int} {t : Table}, f (s.inodes i).ino s.disk = .ok (r, t) →
          opDir i f ((s.refer i 1).lock i) = .ok (r, { (s.refer i 1).lock i with disk := t }) := fun h =>
        (opDir_dir (hop.trans hdir)).trans (onDisk_eq (by rw [hino]; exact h))
      have tail : ∀ {op : Op} {r : Int} {t : Table},
          op = .unlink (s.inodes i).ino (nameIn path) ∨ op = .rmdir (s.inodes i).ino (nameIn path) →
          Effect s.disk op r t → EntersDir s i (Removes s path e i)
            ((if r < 0 then do
                inodeUnlock i
                return r
              else do
                direntCacheRemove path
                inodeUnlock i
                return 0 : VfsM Int) { (s.refer i 1).lock i with disk := t }) := by
        intro op r t hop' heff
        rcases cut_of_effect C he hi heff hop' with ⟨hneg, rfl⟩ | ⟨k, b, rfl, rfl, X⟩
        · rw [if_pos hneg]
          exact .of_eq (bind_run hunlock) (.fails (.inr hdir) hneg)
        · rw [if_neg (by decide)]
          exact .enters hpe hdir ⟨X⟩
      split
      · obtain ⟨r, t, hr, heff⟩ := rmdir_effect C.disk.toInv hd (.inl C.disk.slots)
        exact .of_eq (bind_run (hon (f := (denemefsRmdir · _)) hr)) (tail (.inr rfl) heff)
      · obtain ⟨r, t, hr, heff⟩ := unlink_effect C.disk.toInv hd
        exact .of_eq (bind_run (hon (f := (denemefsUnlink · _)) hr)) (tail (.inl rfl) heff)
    · have hne : (((s.refer i 1).lock i).inodes i).op ≠ some .denemefsDir := hop ▸ hdir
      split
      · exact .of_eq (bind_fail (opDir_other hne)) (.null hpe hdir)
      · exact .of_eq (bind_fail (opDir_other hne)) (.null hpe hdir)

include hE in
/-- `sys_unlink` and `sys_rmdir`. -/
theorem unlink_ends (hc : c.entryPath = some path)
    (hr : c.finds s ↔ ∃ p t, inodeFind2 path s = .ok (.ok p, t)) (hshort : Short (dirOf path))
    (hbad : (strrchr path.bytes ≠ none ∧ Account s 0) ∨ E lastDirent) (type : FileType) :
    Ends (unlink path type) s E fun _ t => Does s c t := by
  have hu : c.unheld fs = unheld fs path := by rw [Call.unheld, hc]; rfl
  have F := inodeFind2_ends S hfs hshort (hbad.imp And.left id)
  cases hrun : inodeFind2 path s with
  | error e => exact .of_error (bind_fail hrun) (F.error hrun)
  | ok p =>
    obtain ⟨r, s1⟩ := p
    refine .bind_ok hrun ?_
    cases F.ok hrun with
    | fails m => exact .pure (.moves hfs (not_exit hc) (hr.not.mpr (not_found hrun)) (not_changes hc) (hu ▸ m))
    | @finds s' e i m he H hi =>
      have hr := hr.mpr ⟨_, _, hrun⟩
      have R : Reaches s (c.unheld fs) s' e i := ⟨hu ▸ m, he, hi⟩
      have C := m.coherent S.coherent
      refine (unlinkIn_enters C he hi type).ends (x := unlinkIn path type i _) (fun _ => .refers hfs hr R) (hE _ nofun) ?_
      rintro _ ⟨X⟩
      have T := S.tasks _ fs hfs
      have E' := m.extends
      refine unlink_cut hfs hc hr R C (by rw [E'.tasks, E'.curr, hfs]) T.1
        (Nat.lt_of_lt_of_le T.2 E'.nDirents) H hshort X (hbad.imp (fun hb => ⟨hb.1, fun d hd => ?_⟩) id)
      -- the child is in the tree, and counted
      have hlt := (C.child X.lt (cached_mem hd).1).lt
      obtain ⟨j, hj, -⟩ := inode_of_number (number_of_cached C X hd)
      refine (m.account S hb.2).pos hlt (by simp [hj]) ?_
      simp [unheld, hb.1]

/-! ### Paths -/

theorem stat_ends (hshort : Short path.bytes) : Ends (sysStat path) s E fun _ t => Does s (.sysStat path) t := by
  obtain ⟨r, s1, hr, F⟩ := inodeFind_found S.coherent S.tasks hfs hshort
  refine .bind_ok hr ?_
  cases F with
  | fails m => exact .pure (.moves hfs nofun (not_found hr) id m)
  | finds m he H hi => exact .of_ok rfl (.refers hfs ⟨_, _, hr⟩ ⟨m, he, hi⟩)

theorem chdir_ends (hshort : Short path.bytes) : Ends (sysChdir path) s E fun _ t => Does s (.sysChdir path) t := by
  have htake : path.bytes.take path.length = path.bytes := take_length
  obtain ⟨r, s1, hr, m, R⟩ := find_result S.coherent S.tasks hfs path.nonzero
    (htake.symm ▸ hshort)
  refine .bind_ok hr ?_
  cases r with
  | error e => exact .pure (.moves hfs nofun id (not_found hr) m)
  | ok d => exact .bind_ok rfl (.pure (.chdirs hfs ⟨_, _, hr⟩ m R.1))

/-! ### Opening -/

omit S hfs in
theorem refer_refer (s : State) (i : Nat) (a b : Int) : (s.refer i a).refer i b = s.refer i (a + b) := by
  simp [refer, add_assoc]

/-- What `file_open` has done. -/
inductive Opened (s : State) (start : Nat) (path : CString) (flags : Nat) : Except Int Nat → State → Prop
  | fails {e : Int} {s' : State} : (¬ ∃ i t, inodeFind path s = .ok (.ok i, t)) → Moves s 0 s' →
      Opened s start path flags (.error e) s'
  | denied {e : Int} {s' : State} {x i : Nat} : (∃ i t, inodeFind path s = .ok (.ok i, t)) → Reaches s 0 s' x i →
      Opened s start path flags (.error e) (s'.refer i 1)
  | file {s' : State} {x i : Nat} : (∃ i t, inodeFind path s = .ok (.ok i, t)) → Reaches s 0 s' x i →
      Hops s' start (names path.bytes) x →
      permits s' i (openFlags flags) = true →
      Opened s start path flags (.ok s'.nFiles) ((s'.refer i 2).newFile ⟨i, 0, openFlags flags⟩)

omit S hfs in
theorem fileOpen_eq (path : CString) (flags : Nat) : fileOpen path flags = (do
    match ← inodeFind path with
    | .error r => return .error r
    | .ok i =>
      if !(← inodePermission i (openFlags flags)) then
        return .error (-1)
      let f := (← get).nFiles
      modify fun s => { s with nFiles := s.nFiles + 1 }
      discard (inodeDup (some i))
      modify fun s => { s with files := update s.files f ⟨i, 0, openFlags flags⟩ }
      return .ok f) := rfl

theorem fileOpen_ends (hshort : Short path.bytes) (flags : Nat) :
    Ends (fileOpen path flags) s E (Opened s (fs.start path) path flags) := by
  obtain ⟨r, s1, hr, F⟩ := inodeFind_found S.coherent S.tasks hfs hshort
  rw [fileOpen_eq]
  refine .bind_ok hr ?_
  cases F with
  | fails m => exact .pure (.fails (not_found hr) m)
  | @finds s' e i m he H hi =>
    have C := (m.coherent S.coherent).refer i 1
    have hp : permits (s'.refer i 1) i (openFlags flags) = permits s' i (openFlags flags) := by
      simp [permits, refer]
    refine .bind_ok (inodePermission_eq _ (C.known he hi).op) ?_
    split
    · exact .pure (.denied ⟨_, _, hr⟩ ⟨m, he, hi⟩)
    · next hperm =>
      have hperm : permits s' i (openFlags flags) = true := by
        rw [← hp]
        simpa using hperm
      have hdup : discard (inodeDup (some i)) { s'.refer i 1 with nFiles := s'.nFiles + 1 } =
          .ok ((), refer { s'.refer i 1 with nFiles := s'.nFiles + 1 } i 1) :=
        discard_run (inodeDup_eq (C.free i))
      have heq : ((s'.refer i 2).newFile ⟨i, 0, openFlags flags⟩) =
          { refer { s'.refer i 1 with nFiles := s'.nFiles + 1 } i 1 with
            files := update s'.files s'.nFiles ⟨i, 0, openFlags flags⟩ } := by
        have h := congrArg inodes (refer_refer s' i 1 1)
        exact State.ext rfl rfl rfl h.symm rfl rfl rfl rfl rfl rfl rfl
      refine .of_ok (a := .ok s'.nFiles) ?_ (.file ⟨_, _, hr⟩ ⟨m, he, hi⟩ H hperm)
      rw [heq]
      exact (get_run _).trans ((modify_run _ _).trans (bind_run hdup))

/-- Other interrupts. -/
def State.cli (s : State) (n : Nat) : State := { s with nCli := n }

omit S hfs in
theorem Moves.cli (m : Moves s h s') (n : Nat) : Moves (s.cli n) h (s'.cli n) := by
  induction m with
  | refl => exact .refl
  | dup _ hd ih => exact .dup ih hd
  | drop _ hd hp ih => exact .drop ih hd hp
  | spare _ ih => exact .spare ih
  | add _ F ih => exact .add ih ⟨F.lt, F.proper, F.fresh, F.entry, F.inode⟩

omit hfs in
theorem Sane.cli (n : Nat) : Sane (s.cli n) :=
  ⟨S.coherent.frame rfl rfl rfl rfl rfl, S.tasks, S.range, S.files, S.inodes⟩

omit S hfs in
theorem Reaches.cli {e i n : Nat} (R : Reaches (s.cli n) h s' e i) :
    Reaches s h (s'.cli s.nCli) e i := ⟨R.moves.cli s.nCli, R.lt, R.inode⟩

omit S hfs in
/-- The end of a critical section. -/
theorem popcli_cli {n : Nat} (h : s.nCli = n + 1) : popcli s = .ok ((), s.cli n) := by
  rw [popcli_eq (by omega), h]
  rfl

theorem open_ends (hshort : Short path.bytes) (flags : Nat) :
    Ends (sysOpen path flags) s E fun _ t => Does s (.sysOpen path flags) t := by
  refine .bind_ok rfl ?_
  refine (fileOpen_ends (s := s.cli (s.nCli + 1)) (S.cli _) hfs hshort flags).bind fun r t O => ?_
  cases O with
  | fails hf m => exact .bind_ok (popcli_cli m.extends.nCli) (.pure (.moves hfs nofun hf id (m.cli s.nCli)))
  | @denied e s' x i hfound R =>
    have D : Does s (.sysOpen path flags) ((s'.cli s.nCli).refer i 1) := .refers hfs hfound R.cli
    exact .bind_ok (popcli_cli (s := s'.refer i 1) R.moves.extends.nCli) (.pure D)
  | @file s' x i hfound R H hp =>
    have hE' := R.moves.extends
    have hfs' : ((s'.refer i 2).newFile ⟨i, 0, openFlags flags⟩).tasks
        ((s'.refer i 2).newFile ⟨i, 0, openFlags flags⟩).curr = some fs := by
      show s'.tasks s'.curr = some fs
      rw [hE'.tasks, hE'.curr]
      exact hfs
    refine .bind_ok (currFs_eq hfs') ?_
    split
    · next fd hfd =>
      have hmem := mem_range'_1.mp (mem_of_find?_eq_some hfd)
      have hnone : fs.files fd = none := by simpa using find?_some hfd
      have hlt : fd < taskMaxFileNr := by
        unfold taskMaxFileNr at hmem ⊢
        omega
      have heq : (((s'.cli s.nCli).refer i 3).newFile ⟨i, 0, openFlags flags⟩).setFd (s'.cli s.nCli).curr fd
            (some (s'.cli s.nCli).nFiles) =
          cli (refer (((s'.refer i 2).newFile ⟨i, 0, openFlags flags⟩).setFd s'.curr fd (some s'.nFiles))
            i 1) s.nCli := by
        have h := congrArg inodes (refer_refer s' i 2 1)
        exact State.ext rfl rfl rfl h.symm rfl rfl rfl rfl rfl rfl rfl
      have hino : ((((s'.refer i 2).newFile ⟨i, 0, openFlags flags⟩).setFd s'.curr fd (some s'.nFiles)).files
          s'.nFiles).inode = i := by
        simp [setFd, newFile, refer]
      refine .of_ok (a := (fd : Int)) ?_ (.opens hfs hfound R.cli (H.frame rfl) hp hlt hnone)
      rw [heq]
      refine (bind_run (t := ((s'.refer i 2).newFile ⟨i, 0, openFlags flags⟩).setFd s'.curr fd
        (some s'.nFiles)) rfl).trans ((get_run _).trans ?_)
      rw [hino]
      refine (bind_run rfl).trans ?_
      exact bind_run (popcli_cli hE'.nCli)
    · exact .bind_ok (popcli_cli hE'.nCli) (.pure (.full hfound R.cli))

/-! ### Descriptors -/

omit S in
include hE in
theorem currFile_ends (fd : Nat) : Ends (currFile fd) s E fun v t => t = s ∧ v = fs.files fd := by
  unfold currFile
  split
  · exact .bind_ok (currFs_eq hfs) (.pure ⟨rfl, rfl⟩)
  · exact .throw (hE _ nofun)

omit S in
include hE in
theorem openFile_ends (fd : Nat) : Ends (openFile fd) s E fun f t => t = s ∧ fs.files fd = some f := by
  refine (currFile_ends hE hfs fd).bind fun v t h => ?_
  obtain ⟨rfl, rfl⟩ := h
  split
  · next f hf => exact .pure ⟨rfl, hf⟩
  · exact .throw (hE _ nofun)

omit S hfs in
include hE in
theorem fileClose_ends {f : Nat} (C : Coherent s) : Ends (fileClose f) s E fun _ t =>
    0 < (s.inodes (s.files f).inode).refCount ∧ t = s.refer (s.files f).inode (-1) := by
  unfold fileClose
  refine .bind_ok rfl (.bind_ok rfl ?_)
  by_cases h0 : 0 < (s.inodes (s.files f).inode).refCount
  · refine .of_ok (a := ()) ?_ ⟨h0, rfl⟩
    exact (check_run _ _).trans ((if_pos h0).trans (inodeFree_eq (C.free _) h0))
  · refine .of_error (e := .assert "f->inode->ref_count > 0") ?_ (hE _ (by decide))
    exact (check_run _ _).trans (if_neg h0)

include hE in
theorem close_ends (fd : Nat) : Ends (sysClose fd) s E fun _ t => Does s (.sysClose fd) t := by
  refine .bind_ok rfl ?_
  refine (currFile_ends (s := s.cli (s.nCli + 1)) hE hfs fd).bind fun v t h => ?_
  obtain ⟨rfl, rfl⟩ := h
  split
  · exact .bind_ok (popcli_cli rfl) (.pure (.moves hfs nofun id id .refl))
  · next f hf =>
    refine (fileClose_ends (s := s.cli (s.nCli + 1)) hE (S.cli _).coherent).bind fun _ t h => ?_
    obtain ⟨h0, rfl⟩ := h
    refine .of_ok (a := 0) ?_ (.closes hfs hf h0)
    refine (bind_run rfl).trans ?_
    exact bind_run (popcli_cli rfl)

omit S hfs in
theorem type_zero : DenemeInode.zero.mode.type ≠ .regular := by decide

omit S hfs in
theorem used_of_regular (I : Inv t) {ino : Nat} (h : (t.di ino).mode.type = .regular) : Used t ino := by
  by_contra hu
  rw [I.free ino hu] at h
  exact type_zero h

omit S hfs in
/-- `denemefs_read` returns and changes nothing. -/
theorem read_unchanged (I : Inv t) (ino fpos size : Nat) : ∃ r, denemefsRead ino fpos size t = .ok (r, t) := by
  by_cases h : (t.di ino).mode.type = .regular
  · have hd := dataOf_some (I.hasData ino (used_of_regular I h))
    refine ⟨some (readLoop (block t ino) fpos (t.di ino).size 0 size), ?_⟩
    simp only [denemefsRead, get_run, h, ne_eq, not_true_eq_false, if_false]
    rw [bind_run hd]
    rfl
  · exact ⟨none, by simp [denemefsRead, h]⟩

omit S hfs in
include hE in
theorem fileOperations_ends (f : Nat) : Ends (fileOperations f) s E fun _ t =>
    t = s ∧ (s.inodes (s.files f).inode).op = some .denemefsFile := by
  refine .bind_ok rfl ?_
  split
  · next h => exact .pure ⟨rfl, h⟩
  · exact .throw (hE _ nofun)

omit hfs in
include hE in
/-- `file_read` moves the position, at most. -/
theorem fileRead_ends (f size : Nat) : Ends (fileRead f size) s E fun r t =>
    r = none ∧ t = s ∨ ∃ p, t = s.seek f p := by
  refine .bind_ok rfl ?_
  dsimp only
  split
  · exact .pure (.inl ⟨rfl, rfl⟩)
  refine (fileOperations_ends hE f).bind fun _ t h => ?_
  obtain ⟨rfl, -⟩ := h
  obtain ⟨r, hr⟩ := read_unchanged S.coherent.disk.toInv (t.inodes (t.files f).inode).ino (t.files f).fpos size
  refine .bind_ok rfl (.bind_ok (onDisk_eq hr) ?_)
  cases r with
  | none => exact .pure (.inl ⟨rfl, rfl⟩)
  | some bytes => exact .of_ok rfl (.inr ⟨_, rfl⟩)

include hE in
theorem read_ends (fd size : Nat) : Ends (sysRead fd size) s E fun _ t => Does s (.sysRead fd size) t := by
  refine (openFile_ends hE hfs fd).bind fun f t h => ?_
  obtain ⟨rfl, hf⟩ := h
  refine (fileRead_ends hE S f size).mono fun r t h => ?_
  rcases h with ⟨-, rfl⟩ | ⟨p, rfl⟩
  · exact .moves hfs nofun id id .refl
  · exact .reads hfs hf

include hE in
theorem write_ends (fd : Nat) (buf : List UInt8) : Ends (sysWrite fd buf) s E fun _ t => Does s (.sysWrite fd buf) t := by
  refine (openFile_ends hE hfs fd).bind fun f t h => ?_
  obtain ⟨rfl, hf⟩ := h
  refine .bind_ok rfl ?_
  dsimp only
  split
  · exact .pure (.moves hfs nofun id id .refl)
  next hflags =>
  refine (fileOperations_ends hE f).bind fun _ t h => ?_
  obtain ⟨rfl, -⟩ := h
  have I := S.coherent.disk.toInv
  refine .bind_ok rfl ?_
  by_cases ht : (t.disk.di (t.inodes (t.files f).inode).ino).mode.type = .regular
  · have hu := used_of_regular I ht
    refine .bind_ok (onDisk_eq (write_regular I hu ht _ _)) (.of_ok rfl ?_)
    exact .writes hfs hf (not_not.mp hflags) rfl (.write hu ht)
  · exact .bind_ok (onDisk_eq (write_notRegular ht _ _)) (.pure (.moves hfs nofun id id .refl))

omit S in
include hE in
theorem lseek_ends (fd offset whence : Nat) :
    Ends (fileLseek fd offset whence) s E fun _ t => Does s (.fileLseek fd offset whence) t := by
  by_cases h : fd < taskMaxFileNr
  · refine .bind_ok (by rw [ASSERT_ok h]; rfl) ?_
    refine (openFile_ends hE hfs fd).bind fun f t h => ?_
    obtain ⟨rfl, hf⟩ := h
    refine .bind_ok rfl (.bind_ok rfl ?_)
    split
    · exact .of_ok rfl (.seeks hfs hf)
    · exact .of_ok rfl (.seeks hfs hf)
    · exact .of_ok rfl (.seeks hfs hf)
    · exact .pure (.moves hfs nofun id id .refl)
  · refine .of_error (e := .assert "fd < TASK_MAX_FILE_NR") ?_ (hE _ (by decide))
    exact (check_run _ _).trans (if_neg h)

/-! ### Tasks -/

omit S hfs in
theorem SameCache.refl (s : State) : SameCache s s := ⟨fun _ => rfl, rfl, rfl⟩

omit S hfs in
theorem SameCache.trans {s'' : State} (h : SameCache s s') (h' : SameCache s' s'') : SameCache s s'' :=
  ⟨fun d => (h'.inode d).trans (h.inode d), h'.nDirents.trans h.nDirents, h'.nInodes.trans h.nInodes⟩

omit S hfs in
/-- A descriptor is closed: the reference of the file is given back. -/
theorem closes_acts (S : Sane s) {t fd f : Nat} (hfs : s.tasks t = some fs) (hf : fs.files fd = some f) :
    Acts s 0 0 ((s.refer (s.files f).inode (-1)).setFd t fd none) := by
  have h1 : Act s 0 (Pi.single (s.files f).inode (-1)) (s.refer (s.files f).inode (-1)) :=
    .refer (S.inodes (S.files hfs hf).2)
  have h2 : Act (s.refer (s.files f).inode (-1)) 0 (Pi.single (s.files f).inode 1)
      ((s.refer (s.files f).inode (-1)).setFd t fd none) := .give hfs hf
  have h := h1.acts.step h2
  rw [← Pi.single_add, add_zero] at h
  simpa using h

/-- All of these descriptors are closed. -/
structure Closed (s : State) (fs : TaskFs) (fds : List Nat) (s' : State) : Prop where
  acts : Acts s 0 0 s'
  cache : SameCache s s'
  curr : s'.curr = s.curr
  files : s'.files = s.files
  nFiles : s'.nFiles = s.nFiles
  task : ∃ gs, s'.tasks s.curr = some gs ∧ gs.points = fs.points ∧ (∀ fd, fd ∈ fds → gs.files fd = none) ∧
    ∀ fd, fs.files fd = none → gs.files fd = none

include hE in
theorem freeFiles_ends (fds : List Nat) : Ends (freeFiles fds) s E fun _ t => Closed s fs fds t := by
  induction fds generalizing s fs with
  | nil => exact .pure ⟨.refl, .refl s, rfl, rfl, rfl, fs, hfs, rfl, nofun, fun _ h => h⟩
  | cons fd fds ih =>
    refine .bind_ok (currFs_eq hfs) ?_
    cases hf : fs.files fd with
    | none =>
      refine (ih S hfs).mono fun _ t h => ?_
      obtain ⟨gs, hgs, hp, h1, h2⟩ := h.task
      refine ⟨h.acts, h.cache, h.curr, h.files, h.nFiles, gs, hgs, hp, fun x hx => ?_, h2⟩
      rcases mem_cons.mp hx with rfl | hx
      · exact h2 x hf
      · exact h1 x hx
    | some f =>
      refine (fileClose_ends hE S.coherent).bind fun _ t h => ?_
      obtain ⟨-, rfl⟩ := h
      have A := closes_acts S hfs hf
      have hfs' : ((s.refer (s.files f).inode (-1)).setFd s.curr fd none).tasks s.curr =
          some { fs with files := update fs.files fd none } := by
        simp [setFd, refer, hfs]
      refine .bind_ok rfl ?_
      refine (ih (A.sane S) hfs').mono fun _ t h => ?_
      obtain ⟨gs, hgs, hp, h1, h2⟩ := h.task
      have h0 : SameCache s ((s.refer (s.files f).inode (-1)).setFd s.curr fd none) := ⟨fun _ => rfl, rfl, rfl⟩
      refine ⟨?_, h0.trans h.cache, h.curr, h.files, h.nFiles, gs, hgs, hp, fun x hx => ?_, fun x hx => h2 x ?_⟩
      · simpa using A.trans h.acts
      · rcases mem_cons.mp hx with rfl | hx
        · exact h2 x (update_self ..)
        · exact h1 x hx
      · by_cases hxf : x = fd
        · rw [hxf]
          exact update_self ..
        · exact (update_of_ne hxf ..).trans hx

include hE in
theorem exit_ends : Ends taskFree s E fun _ t => Does s .exit t := by
  refine (freeFiles_ends hE S hfs (range taskMaxFileNr)).bind fun _ t h => .of_ok (a := ()) rfl ?_
  obtain ⟨gs, hgs, hp, h1, h2⟩ := h.task
  have hnone : ∀ fd, gs.files fd = none := by
    intro fd
    by_cases hfd : fd < taskMaxFileNr
    · exact h1 fd (mem_range.mpr hfd)
    · refine h2 fd ?_
      cases hf : fs.files fd with
      | none => rfl
      | some f => exact absurd (S.files hfs hf).1 hfd
  have hgs : t.tasks t.curr = some gs := h.curr ▸ hgs
  have A := h.acts.step (.endTask hgs hnone)
  rw [zero_add, zero_add, hp] at A
  exact .exits hfs A ⟨h.cache.inode, h.cache.nDirents, h.cache.nInodes⟩

omit S hfs in
theorem reaches_acts (R : Reaches s 0 s' e i) (C : Coherent s') (x : File) (hx : x.inode = i) (k : Int) :
    Acts s 0 (Pi.single i k) ((s'.refer i k).newFile x) := by
  have h1 : Act s' 0 (Pi.single i k) (s'.refer i k) := .refer (C.known R.lt R.inode).lt
  have h2 : Act (s'.refer i k) 0 0 ((s'.refer i k).newFile x) := .newFile (hx ▸ (C.known R.lt R.inode).lt)
  simpa using ((Act.moves R.moves).acts.step h1).step h2

include hE in
theorem exec_ends (hshort : Short path.bytes) (loaded : Bool) :
    Ends (doExecve path loaded) s E fun _ t => Does s (.exec path loaded) t := by
  refine (fileOpen_ends S hfs hshort 1).bind fun r t O => ?_
  cases O with
  | fails hf m => exact .pure (.moves hfs nofun hf id m)
  | @denied e s' x i hfound R =>
    have D : Does s (.exec path loaded) (s'.refer i 1) := .refers hfs hfound R
    exact .pure D
  | @file s' x i hfound R _ hp =>
    have C := R.moves.coherent S.coherent
    have hlt := (C.known R.lt R.inode).lt
    have A := reaches_acts R C ⟨i, 0, openFlags 1⟩ rfl 2
    have S' := A.sane S
    have hE' := R.moves.extends
    have hfs' : s'.tasks s'.curr = some fs := by rw [hE'.tasks, hE'.curr, hfs]
    have hge : ∀ x, 0 ≤ (Pi.single i 2 : Nat → Int) x := single_nonneg_of (by decide) i
    refine (fileRead_ends hE S' s'.nFiles elfHeaderSize).bind fun r t h => ?_
    rcases h with ⟨rfl, rfl⟩ | ⟨p, rfl⟩
    · exact .pure (.loads hfound A hge ⟨i, hlt, by simp⟩)
    have A := A.step (.seek (f := s'.nFiles) (p := p))
    cases r with
    | none => exact .pure (.loads hfound A (by simpa using hge) ⟨i, hlt, by simp⟩)
    | some bytes =>
      refine (freeFiles_ends hE (A.sane S) hfs' (range taskMaxFileNr)).bind fun _ t h => ?_
      have hino : (t.files s'.nFiles).inode = i := by
        rw [h.files]
        simp [seek, newFile, refer]
      have A := A.trans h.acts
      have hnew : s'.nFiles < t.nFiles := h.nFiles ▸ Nat.lt_succ_self s'.nFiles
      have hlt' : i < t.nInodes := hino ▸ (A.sane S).inodes hnew
      cases loaded with
      | false => exact .pure (.loads hfound A (by simpa using hge) ⟨i, hlt', by simp⟩)
      | true =>
        refine (fileClose_ends hE (A.sane S).coherent).bind fun _ u hu => ?_
        obtain ⟨-, rfl⟩ := hu
        rw [hino]
        refine .pure (.loads hfound (A.step (.refer hlt')) (fun x => ?_) ⟨i, hlt', by simp⟩)
        rw [add_zero, add_zero, ← Pi.single_add]
        exact single_nonneg i x

/-- Task `c` has copies of the files behind these descriptors of `fs`. -/
structure Copied (fs : TaskFs) (c : Nat) (fds : List Nat) (s s' : State) : Prop where
  acts : Acts s 0 0 s'
  cache : SameCache s s'
  disk : s'.disk = s.disk
  curr : s'.curr = s.curr
  tasks : ∀ t, t ≠ c → s'.tasks t = s.tasks t
  nFiles : s.nFiles ≤ s'.nFiles
  files : ∀ f, f < s.nFiles → s'.files f = s.files f
  inodes : ∀ i, (s'.inodes i).ino = (s.inodes i).ino ∧ (s'.inodes i).op = (s.inodes i).op ∧
    (s'.inodes i).mode = (s.inodes i).mode
  child : ∀ gs, s.tasks c = some gs → ∃ gs', s'.tasks c = some gs' ∧
    (∀ fd, fd ∈ fds → (gs'.files fd).map s'.files = (fs.files fd).map s.files) ∧
    ∀ fd, fd ∉ fds → gs'.files fd = gs.files fd

/-- One more file of a new task. -/
def State.copy (s : State) (c fd f : Nat) : State :=
  ((s.newFile (s.files f)).refer (s.files f).inode 1).setFd c fd (some s.nFiles)

omit S hfs in
theorem copy_acts (S : Sane s) {c fd f : Nat} (hgs : s.tasks c = some gs) (hfd : fd < taskMaxFileNr)
    (hn : gs.files fd = none) (hf : f < s.nFiles) : Acts s 0 0 (s.copy c fd f) := by
  have hlt := S.inodes hf
  have h1 : Act s 0 0 (s.newFile (s.files f)) := .newFile hlt
  have h2 : Act (s.newFile (s.files f)) 0 (Pi.single (s.files f).inode 1)
    ((s.newFile (s.files f)).refer (s.files f).inode 1) := .refer hlt
  have h3 : Act ((s.newFile (s.files f)).refer (s.files f).inode 1) 0
      (-Pi.single (((s.newFile (s.files f)).refer (s.files f).inode 1).files s.nFiles).inode 1) (s.copy c fd f) :=
    .take hgs hfd hn (Nat.lt_succ_self _)
  have hino : (((s.newFile (s.files f)).refer (s.files f).inode 1).files s.nFiles).inode = (s.files f).inode := by
    simp [newFile, refer]
  rw [hino] at h3
  simpa using (h1.acts.step h2).step h3

omit S hfs in
theorem copy_copied (S : Sane s) {c fd f : Nat} (hgs : s.tasks c = some gs) (hfd : fd < taskMaxFileNr)
    (hn : gs.files fd = none) (hf : fs.files fd = some f) (hlt : f < s.nFiles) :
    Copied fs c [fd] s (s.copy c fd f) where
  acts := copy_acts S hgs hfd hn hlt
  cache := ⟨fun _ => rfl, rfl, rfl⟩
  disk := rfl
  curr := rfl
  tasks t ht := update_of_ne ht ..
  nFiles := Nat.le_succ _
  files g hg := update_of_ne (Nat.ne_of_lt hg) ..
  inodes i := by
    by_cases h : i = (s.files f).inode
    · subst h
      simp [copy, setFd, refer, newFile]
    · simp [copy, setFd, refer, newFile, h]
  child gs' hgs' := by
    have htask : (s.copy c fd f).tasks c = some { gs' with files := update gs'.files fd (some s.nFiles) } := by
      simp [copy, setFd, refer, newFile, hgs']
    refine ⟨_, htask, fun x hx => ?_, fun x hx => ?_⟩
    · rw [mem_singleton.mp hx, hf]
      simp [copy, setFd, refer, newFile]
    · exact update_of_ne (fun h => hx (mem_singleton.mpr h)) ..

omit S hfs in
theorem Copied.cons {c fd : Nat} {fds : List Nat} {s'' : State} (h : Copied fs c [fd] s s') (h' : Copied fs c fds s' s'')
    (hnot : fd ∉ fds) (hfiles : ∀ x f, fs.files x = some f → f < s.nFiles)
    (hnew : ∀ gs f, s'.tasks c = some gs → gs.files fd = some f → f < s'.nFiles) : Copied fs c (fd :: fds) s s'' where
  acts := by simpa using h.acts.trans h'.acts
  cache := h.cache.trans h'.cache
  disk := h'.disk.trans h.disk
  curr := h'.curr.trans h.curr
  tasks t ht := (h'.tasks t ht).trans (h.tasks t ht)
  nFiles := Nat.le_trans h.nFiles h'.nFiles
  files f hf := (h'.files f (Nat.lt_of_lt_of_le hf h.nFiles)).trans (h.files f hf)
  inodes i := by
    obtain ⟨h1, h2, h3⟩ := h.inodes i
    obtain ⟨h1', h2', h3'⟩ := h'.inodes i
    exact ⟨h1'.trans h1, h2'.trans h2, h3'.trans h3⟩
  child gs hgs := by
    obtain ⟨gs1, hgs1, h1, h1'⟩ := h.child gs hgs
    obtain ⟨gs2, hgs2, h2, h2'⟩ := h'.child gs1 hgs1
    refine ⟨gs2, hgs2, fun x hx => ?_, fun x hx => ?_⟩
    · rcases mem_cons.mp hx with rfl | hx
      · rw [h2' x hnot, ← h1 x (mem_singleton_self x)]
        cases hf : gs1.files x with
        | none => rfl
        | some f => exact congrArg some (h'.files f (hnew gs1 f hgs1 hf))
      · rw [h2 x hx]
        cases hf : fs.files x with
        | none => rfl
        | some f => exact congrArg some (h.files f (hfiles x f hf))
    · rw [h2' x fun h => hx (mem_cons_of_mem _ h)]
      exact h1' x fun h => hx (mem_singleton.mp h ▸ mem_cons_self)

omit hfs in
theorem forkFiles_ends {c : Nat} (hgs : s.tasks c = some gs) {fds : List Nat} (hnd : fds.Nodup)
    (hfds : ∀ fd, fd ∈ fds → fd < taskMaxFileNr ∧ gs.files fd = none)
    (hfiles : ∀ x f, fs.files x = some f → f < s.nFiles) :
    Ends (forkFiles fs c fds) s E fun _ t => Copied fs c fds s t := by
  induction fds generalizing s gs with
  | nil =>
    exact .pure ⟨.refl, .refl s, rfl, rfl, fun _ _ => rfl, Nat.le_refl _, fun _ _ => rfl, fun _ => ⟨rfl, rfl, rfl⟩,
      fun gs hgs => ⟨gs, hgs, nofun, fun _ _ => rfl⟩⟩
  | cons fd fds ih =>
    obtain ⟨hnot, hnd⟩ := nodup_cons.mp hnd
    obtain ⟨hlt, hn⟩ := hfds fd mem_cons_self
    unfold forkFiles
    cases hf : fs.files fd with
    | none =>
      have h0 : Copied fs c [fd] s s :=
        ⟨.refl, .refl s, rfl, rfl, fun _ _ => rfl, Nat.le_refl _, fun _ _ => rfl, fun _ => ⟨rfl, rfl, rfl⟩,
          fun gs' hgs' => ⟨gs', hgs', fun x hx => by
            cases hgs.symm.trans hgs'
            rw [mem_singleton.mp hx, hf, hn], fun _ _ => rfl⟩⟩
      refine (ih S hgs hnd (fun x hx => hfds x (mem_cons_of_mem _ hx)) hfiles).mono fun _ t h => ?_
      refine h0.cons h hnot hfiles fun gs' f hgs' hf' => ?_
      exact (S.files hgs' hf').2
    | some f =>
      have h0 := copy_copied S hgs hlt hn hf (hfiles fd f hf)
      obtain ⟨gs', hgs', -, hsame⟩ := h0.child gs hgs
      have S' := h0.acts.sane S
      refine .bind_ok rfl ?_
      refine .bind_ok rfl ?_
      refine (ih S' hgs' hnd (fun x hx => ?_) fun x f hf => Nat.lt_of_lt_of_le (hfiles x f hf) h0.nFiles).mono
        fun _ t h => h0.cons h hnot hfiles fun gs' f hgs' hf' => (S'.files hgs' hf').2
      obtain ⟨h1, h2⟩ := hfds x (mem_cons_of_mem _ hx)
      refine ⟨h1, (hsame x fun h => hnot (mem_singleton.mp h ▸ hx)).trans h2⟩

theorem fork_ends : Ends fsFork s E fun _ t => Does s .fork t := by
  obtain ⟨hroot, hpwd⟩ := S.tasks _ fs hfs
  have hpos : fs.root < s.nDirents := hroot ▸ S.coherent.pos
  have m : Moves s (0 + Pi.single fs.root 1 + Pi.single fs.pwd 1) ((s.dup fs.root).dup fs.pwd) :=
    (Moves.refl.dup hpos).dup hpwd
  have A : Acts s 0 0 (((s.dup fs.root).dup fs.pwd).newTask { fs with files := fun _ => none }) := by
    have h := (Act.moves m).acts.step (.newTask (t := s.curr) hfs)
    have hz : 0 + Pi.single fs.root 1 + Pi.single fs.pwd 1 + -fs.points = 0 := by
      unfold TaskFs.points
      abel
    rw [hz, add_zero] at h
    exact h
  refine .bind_ok (currFs_eq hfs) ?_
  refine .bind_ok (direntDup_eq (S.coherent.unlocked _)) ?_
  refine .bind_ok (direntDup_eq ((S.coherent.dup _).unlocked _)) ?_
  refine .bind_ok rfl ?_
  refine .bind_ok rfl ?_
  have hgs : (((s.dup fs.root).dup fs.pwd).newTask { fs with files := fun _ => none }).tasks s.nTasks =
      some { fs with files := fun _ => none } := update_self ..
  refine (forkFiles_ends (A.sane S) hgs nodup_range (fun fd h => ⟨mem_range.mp h, rfl⟩)
    fun x f hf => (S.files hfs hf).2).bind fun _ t h => .pure (.forks hfs ?_)
  obtain ⟨gs, hgs', h1, h2⟩ := h.child _ hgs
  have hsame : SameCache s (((s.dup fs.root).dup fs.pwd).newTask { fs with files := fun _ => none }) := by
    refine ⟨fun d => ?_, rfl, rfl⟩
    rw [dup_eq_hold, dup_eq_hold]
    rfl
  refine ⟨by simpa using A.trans h.acts, hsame.trans h.cache, h.disk, h.curr, fun t ht => ?_, h.nFiles, h.files,
    h.inodes, gs, hgs', fun fd => ?_⟩
  · exact (h.tasks t ht).trans (update_of_ne ht ..)
  · by_cases hfd : fd < taskMaxFileNr
    · exact h1 fd (mem_range.mpr hfd)
    · rw [h2 fd fun h => hfd (mem_range.mp h)]
      cases hf : fs.files fd with
      | none => rfl
      | some f => exact absurd (S.files hfs hf).1 hfd

omit S hfs in
include hE in
theorem switch_ends (t : Nat) : Ends (Call.switch t).run s E fun _ s' => Does s (.switch t) s' := by
  refine .bind_ok rfl ?_
  split
  · next fs hfs => exact .of_ok (a := ()) rfl (.switches hfs)
  · exact .throw (hE _ nofun)

end Ends

/-- The path with which a call makes or removes an entry has a `/`. -/
def Call.slashed (c : Call) : Prop := ∀ path, c.entryPath = some path → strrchr path.bytes ≠ none

/-- How a call ends.  The assertion of `__dirent_free` fails only if the call drops
the working directory or the counts were wrong. -/
theorem Call.ends {E : Fault → Prop} (hE : ∀ e, e ≠ lastDirent → E e) (S : Sane s) (hen : c.enabled s)
    (hshort : c.short) (hfits : c.fits s) (hbad : (c.slashed ∧ Account s 0) ∨ E lastDirent) :
    Ends c.run s E fun _ s' => Does s c s' := by
  have task : s.tasks s.curr ≠ none → ∃ fs, s.tasks s.curr = some fs := Option.ne_none_iff_exists'.mp
  have fits : ∀ {path mode}, Call.fits s (.sysCreat path mode) → ∀ i name s',
      inodeFind2 path s = .ok (.ok (i, name), s') → ∀ m, (Op.create (s'.inodes i).ino name m).fits s.disk := by
    intro path mode h i name s' hrun m
    simp only [Call.fits, hrun] at h
    exact h
  have slash : ∀ path, c.entryPath = some path → strrchr path.bytes ≠ none ∨ E lastDirent := fun path h =>
    hbad.imp (fun hb => hb.1 path h) id
  have slash' : ∀ path, c.entryPath = some path → (strrchr path.bytes ≠ none ∧ Account s 0) ∨ E lastDirent :=
    fun path h => hbad.imp (fun hb => ⟨hb.1 path h, hb.2⟩) id
  cases c with
  | sysOpen path flags =>
    obtain ⟨fs, hfs⟩ := task hen
    exact .discard (open_ends S hfs hshort flags)
  | sysClose fd =>
    obtain ⟨fs, hfs⟩ := task hen
    exact .discard (close_ends hE S hfs fd)
  | sysRead fd size =>
    obtain ⟨fs, hfs⟩ := task hen
    exact .discard (read_ends hE S hfs fd size)
  | sysWrite fd buf =>
    obtain ⟨fs, hfs⟩ := task hen
    exact .discard (write_ends hE S hfs fd buf)
  | fileLseek fd offset whence =>
    obtain ⟨fs, hfs⟩ := task hen
    exact .discard (lseek_ends hE hfs fd offset whence)
  | sysCreat path mode =>
    obtain ⟨fs, hfs⟩ := task hen
    exact .discard (create_ends hE S hfs rfl Iff.rfl hshort (slash path rfl) (.inl rfl) rfl (fits hfits))
  | sysMkdir path mode =>
    obtain ⟨fs, hfs⟩ := task hen
    exact .discard (create_ends hE S hfs rfl Iff.rfl hshort (slash path rfl) (.inr rfl) rfl (fits hfits))
  | sysUnlink path =>
    obtain ⟨fs, hfs⟩ := task hen
    exact .discard (unlink_ends hE S hfs rfl Iff.rfl hshort (slash' path rfl) .regular)
  | sysRmdir path =>
    obtain ⟨fs, hfs⟩ := task hen
    exact .discard (unlink_ends hE S hfs rfl Iff.rfl hshort (slash' path rfl) .dir)
  | sysStat path =>
    obtain ⟨fs, hfs⟩ := task hen
    exact .discard (stat_ends S hfs hshort)
  | sysChdir path =>
    obtain ⟨fs, hfs⟩ := task hen
    exact .discard (chdir_ends S hfs hshort)
  | fork =>
    obtain ⟨fs, hfs⟩ := task hen
    exact .discard (fork_ends S hfs)
  | exec path loaded =>
    obtain ⟨fs, hfs⟩ := task hen
    exact .discard (exec_ends hE S hfs hshort loaded)
  | exit =>
    obtain ⟨fs, hfs⟩ := task hen
    exact exit_ends hE S hfs
  | switch t => exact switch_ends hE t

/-- A call that returned did one of these things. -/
theorem Call.does (S : Sane s) (hen : c.enabled s) (hshort : c.short) (hfits : c.fits s) {u : Unit}
    (h : c.run s = .ok (u, s')) : Does s c s' :=
  (Call.ends (E := fun _ => True) (fun _ _ => trivial) S hen hshort hfits (.inr trivial)).ok h

end MakarnaX.Vfs
