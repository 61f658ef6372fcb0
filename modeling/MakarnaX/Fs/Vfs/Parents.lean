import MakarnaX.Fs.Vfs.Objects
import MakarnaX.Fs.Vfs.Paths

/-!
# The directory of a path

For a call that makes or removes an entry the question is where the names in front
of the last slash lead.  The operations of a regular file have neither `create`
nor `unlink`, `mkdir` or `rmdir`, and the only check in front of the call is the
one of the permissions.
-/

namespace MakarnaX.Vfs

open Library Denemefs List Option

variable {s s' : State} {t : Table} {d e i : Nat} {b path : List UInt8} {bs : List (List UInt8)} {h : Nat → Int}
  {x : Option Nat} {fs : TaskFs} {l : List CString}

/-- Finding an inode and referring to it. -/
theorem Reaches.acts (C : Coherent s) (R : Reaches s h s' e i) :
    Acts s (h + 0) (0 + Pi.single i 1) (s'.refer i 1) :=
  (Act.moves R.moves).acts.step (.refer ((R.moves.coherent C).known R.lt R.inode).lt)

/-! ## Permissions -/

/-- What `inode_permission` asks of the directory of an entry. -/
def readWrite (m : FileMode) : Bool := m.read && m.write

theorem cacheAgrees (h : system.Reachable s) : CacheAgrees readWrite s := by
  have hinv : Sane s ∧ CacheAgrees readWrite s := by
    refine System.Reachable.invariant (I := fun s => Sane s ∧ CacheAgrees readWrite s) ?_ ?_ h
    · rintro s ⟨t, ht, rfl⟩
      exact ⟨.start (Denemefs.started (.init ht)), fun _ _ _ _ h => nomatch h⟩
    · rintro s s' ⟨S, M⟩ ⟨c, ⟨h1, h2, h3⟩, hr⟩
      obtain ⟨δ, ε, A, -⟩ := (Call.does S h1 h2 h3 hr).acts S
      exact ⟨A.sane S, A.cacheAgrees S M⟩
  exact hinv.2

theorem mode_and_three (m : FileMode) : (m.mode &&& 3 == 3) = readWrite m := by
  obtain ⟨r, w, -⟩ := m
  show ((r.toNat + 2 * w.toNat) &&& 3 == 3) = (r && w)
  cases r <;> cases w <;> decide

theorem permits_three (M : CacheAgrees readWrite s) (he : e < s.nDirents)
    (hi : (s.dirents e).inode = some i) : permits s i 3 = readWrite (s.disk.di (s.inodes i).ino).mode := by
  have hM := M e i he hi
  unfold permits denemefsPermission
  rw [mode_and_three]
  have h3 : decide ((3 : Nat) &&& 3 = 1) = false := by decide
  rw [h3, Bool.or_false, Bool.and_comm]
  show (readWrite _ || _) = _
  cases hc : readWrite (s.inodes i).mode with
  | false => rw [Bool.or_false]
  | true => rw [hM hc, Bool.or_true]

/-! ## Making and removing entries -/

/-- How a call ends that is to make or remove an entry.  Once it has come to that, in the
dirent `e` with the inode `i` of `s'`, it ends in `T`. -/
inductive EntryEnds (s : State) (fs : TaskFs) (path : CString) (T : State → Nat → Nat → Exec (Int × State) → Prop) :
    Exec (Int × State) → Prop
  | last : ¬ Droppable s fs path → EntryEnds s fs path T (.error lastDirent)
  | long : LongParent s fs path → EntryEnds s fs path T (.error .overflow)
  | null {y : Nat} : Parent s fs path y → ¬ IsDir s.disk y → readWrite (s.disk.di y).mode →
      EntryEnds s fs path T (.error .null)
  | fails {r : Int} {s' : State} {δ ε : Nat → Int} : Droppable s fs path → ¬ LongParent s fs path →
      (∀ y, Parent s fs path y → ¬ IsDir s.disk y → ¬ readWrite (s.disk.di y).mode) → r < 0 → s'.disk = s.disk →
      Acts s δ ε s' → EntryEnds s fs path T (.ok (r, s'))
  | enters {s' : State} {e i : Nat} {out : Exec (Int × State)} : Droppable s fs path → ¬ LongParent s fs path →
      Parent s fs path (s'.inodes i).ino → IsDir s.disk (s'.inodes i).ino →
      inodeFind2 path s = .ok (.ok (i, nameIn path), s'.refer i 1) → Reaches s (unheld fs path) s' e i →
      Hops s' (fs.start path) (names (dirOf path)) e → T s' e i out → EntryEnds s fs path T out

theorem Parent.unique (C : Coherent s) {path : CString} {y z : Nat} (h : Parent s fs path y)
    (h' : Parent s fs path z) : y = z := by
  obtain ⟨x, hx, hres⟩ := h
  obtain ⟨x', hx', hres'⟩ := h'
  rw [hx] at hx'
  cases hx'
  exact Resolves.unique C.disk.toInv hres hres'

section Entries

variable (S : Sane s)

include S

/-- A directory has the operations of one. -/
theorem found_dir_op (R : Reaches s h s' e i) :
    (s'.inodes i).op = some .denemefsDir ↔ IsDir s.disk (s'.inodes i).ino := by
  have C' := R.moves.coherent S.coherent
  rw [← R.moves.extends.disk]
  refine ⟨isDir_of_op C' R.lt R.inode, fun hd => ?_⟩
  rw [(C'.known R.lt R.inode).op, opOf, if_pos hd.2]

variable (M : CacheAgrees readWrite s)

include M

theorem found_permits (R : Reaches s h s' e i) : permits s' i 3 = readWrite (s.disk.di (s'.inodes i).ino).mode := by
  rw [permits_three (R.moves.cacheAgrees S.coherent M) R.lt R.inode, R.moves.extends.disk]

variable {fs : TaskFs} (hfs : s.tasks s.curr = some fs) {path : CString}

include hfs

/-- A call that goes on with what `inode_find2` yields. -/
theorem find2_entryEnds {T : State → Nat → Nat → Exec (Int × State) → Prop}
    {k : Except Int (Nat × CString) → VfsM Int} (hk : ∀ e, k (.error e) = pure (-1))
    (hin : ∀ {s' e i}, Droppable s fs path → Parent s fs path (s'.inodes i).ino → Reaches s (unheld fs path) s' e i →
      EntersDir s' i (T s' e i) (k (.ok (i, nameIn path)) (s'.refer i 1))) :
    EntryEnds s fs path T ((inodeFind2 path >>= k) s) := by
  have F := inodeFind2_findsParent S hfs path
  generalize hrun : inodeFind2 path s = out at F
  cases F with
  | last h =>
    rw [bind_fail hrun]
    exact .last h
  | long h =>
    rw [bind_fail hrun]
    exact .long h
  | @absent s' hdrop hlong hnone m =>
    rw [bind_run hrun, hk]
    exact .fails hdrop hlong (fun y hy => absurd hy (hnone y)) (by decide) m.extends.disk (Act.moves m).acts
  | @found s' e i hdrop hlong hpar R H =>
    have D := hin hdrop hpar R
    have hop := found_dir_op S R
    have hperm := found_permits S M R
    rw [bind_run hrun]
    generalize k _ _ = out at D ⊢
    cases D with
    | fails hno hneg =>
      refine .fails hdrop hlong (fun y hy hnd => ?_) hneg R.moves.extends.disk (R.acts S.coherent)
      rw [hy.unique S.coherent hpar] at hnd ⊢
      rcases hno with hno | hno
      · rw [← hperm, hno]
        decide
      · exact absurd (hop.mp hno) hnd
    | null hp hne => exact .null hpar (mt hop.mpr hne) (hperm ▸ hp)
    | enters _ hd hT => exact .enters hdrop hlong hpar (hop.mp hd) hrun R H hT

theorem create_entryEnds {fmode : FileMode} (ht : fmode.type = .regular ∨ fmode.type = .dir)
    (hfits : ∀ y, Droppable s fs path → Parent s fs path y → IsDir s.disk y → readWrite (s.disk.di y).mode →
      ∀ mode, (Op.create y (nameIn path) mode).fits s.disk) :
    EntryEnds s fs path (fun s' _ i => Stores s' i (nameIn path) fmode.mode) (create path fmode s) := by
  refine find2_entryEnds S M hfs (fun _ => rfl) fun hdrop hpar R => ?_
  refine createIn_enters (R.moves.coherent S.coherent) R.lt R.inode ht fun hp hd mode => ?_
  rw [R.moves.extends.disk] at hd ⊢
  exact hfits _ hdrop hpar hd (found_permits S M R ▸ hp) mode

theorem unlink_entryEnds (type : FileType) :
    EntryEnds s fs path (fun s' e i => Removes s' path e i) (unlink path type s) :=
  find2_entryEnds S M hfs (fun _ => rfl) fun _ _ R => unlinkIn_enters (R.moves.coherent S.coherent) R.lt R.inode type

end Entries

/-! ## Below what is no directory -/

/-- The calls that make or remove the entry a path names. -/
inductive EntryCall (path : CString) : VfsM Int → Prop
  | creat (mode : Nat) : EntryCall path (sysCreat path mode)
  | mkdir (mode : Nat) : EntryCall path (sysMkdir path mode)
  | unlink : EntryCall path (sysUnlink path)
  | rmdir : EntryCall path (sysRmdir path)

/-- The call returns a negative value, and the directories, inodes and files on disk are
as they were. -/
def FailsCleanly (x : VfsM Int) (s : State) : Prop := ∃ r s', x s = .ok (r, s') ∧ r < 0 ∧ s'.disk = s.disk

/-- In every state of every run, for every path whose part in front of the last slash
leads to something that is no directory, or nowhere: making or removing the entry
fails, without a call of a NULL operation and without a change, exactly if what it
leads to cannot be read and written.  (And if nothing else goes wrong: no name on
the way is too long for the array of `parse_path_i`, and the working directory, which
a path without a slash drops, is still held.) -/
theorem entry_below_file (h : system.Reachable s) {fs : TaskFs} (hfs : s.tasks s.curr = some fs) (path : CString)
    (hnd : ∀ y, Parent s fs path y → ¬ IsDir s.disk y) {x : VfsM Int} (hx : EntryCall path x) :
    FailsCleanly x s ↔ (∀ y, Parent s fs path y → ¬ readWrite (s.disk.di y).mode) ∧
      ¬ LongParent s fs path ∧ Droppable s fs path := by
  have S := sane h
  have M := cacheAgrees h
  have hfits : ∀ y, Droppable s fs path → Parent s fs path y → IsDir s.disk y → readWrite (s.disk.di y).mode →
      ∀ mode, (Op.create y (nameIn path) mode).fits s.disk := fun y _ hp hd => absurd hd (hnd y hp)
  obtain ⟨T, B⟩ : ∃ T, EntryEnds s fs path T (x s) := by
    cases hx with
    | creat mode => exact ⟨_, create_entryEnds S M hfs (.inl rfl) hfits⟩
    | mkdir mode => exact ⟨_, create_entryEnds S M hfs (.inr rfl) hfits⟩
    | unlink => exact ⟨_, unlink_entryEnds S M hfs .regular⟩
    | rmdir => exact ⟨_, unlink_entryEnds S M hfs .dir⟩
  unfold FailsCleanly
  generalize x s = out at B
  cases B with
  | last hdrop => exact ⟨nofun, fun hc => absurd hc.2.2 hdrop⟩
  | long hlong => exact ⟨nofun, fun hc => absurd hlong hc.2.1⟩
  | null hpar _ hrw => exact ⟨nofun, fun hc => absurd hrw (hc.1 _ hpar)⟩
  | fails hdrop hlong hall hneg hdisk =>
    exact ⟨fun _ => ⟨fun y hy => hall y hy (hnd y hy), hlong, hdrop⟩, fun _ => ⟨_, _, rfl, hneg, hdisk⟩⟩
  | enters _ _ hpar hd => exact absurd hd (hnd _ hpar)

/-- The directory of a path with two names, the first of which is in the root directory. -/
theorem parent_eq (S : Sane s) (hfs : s.tasks s.curr = some fs) {path name : CString}
    (hhead : path.bytes.head? = some slash) (hnames : names (dirOf path) = [name]) (hdot : name ≠ dot)
    (hdotdot : name ≠ dotdot) {a : Nat} (he : entry s.disk 0 name = some a) {y : Nat} :
    Parent s fs path y ↔ y = a := by
  have C := S.coherent
  have hpar : Parent s fs path a := by
    refine ⟨0, ?_, ?_⟩
    · rw [TaskFs.start, if_pos hhead, (S.tasks _ fs hfs).1, C.root]
    · rw [hnames]
      exact .cons (.down hdot hdotdot C.disk.root he) .nil
  exact ⟨fun h => h.unique C hpar, fun h => h ▸ hpar⟩

/-- `/dosya1` is a file that cannot be written, and nothing can be made below it. -/
theorem entry_below_file_dosya1 : ∃ s, system.Reachable s ∧ FailsCleanly (sysCreat (.ofString "/dosya1/x") 3) s := by
  have hrun : (runFrom []).map (fun s => decide ((s.tasks s.curr).isSome ∧
      entry s.disk 0 (.ofString "dosya1") = some 2 ∧ (s.disk.di 2).mode = ⟨true, false, .regular⟩)) = some true := by
    decide +kernel
  obtain ⟨s, hs, hx⟩ := map_eq_some_iff.mp hrun
  obtain ⟨htask, he, hmode⟩ := of_decide_eq_true hx
  obtain ⟨fs, hfs⟩ := isSome_iff_exists.mp htask
  have hr := runFrom_reachable hs
  have hpar := fun y => parent_eq (sane hr) hfs (show (CString.ofString "/dosya1/x").bytes.head? = some slash by decide) (by decide) (by decide)
    (by decide) he (y := y)
  refine ⟨s, hr, (entry_below_file hr hfs _ (fun y hy => ?_) (.creat 3)).mpr ⟨fun y hy => ?_, fun hl => ?_, ?_⟩⟩
  · rw [(hpar y).mp hy, IsDir, hmode]
    exact fun h => nomatch h.2
  · rw [(hpar y).mp hy, hmode]
    decide
  · obtain ⟨b, hb, hlen⟩ := hl.mem
    have hshort : ∀ b ∈ components [] (dirOf (.ofString "/dosya1/x")), b.length < maxDirentryNameSize := by decide
    exact absurd (hshort b hb) (Nat.not_lt.mpr hlen)
  · exact fun hp => absurd hp (by decide)

/-- `/dosya2` is a file that can be read and written; making an entry below it calls the
operation that files do not have. -/
theorem entry_below_file_null : ∃ s fs, system.Reachable s ∧ s.tasks s.curr = some fs ∧
    (∀ y, Parent s fs (.ofString "/dosya2/x") y → ¬ IsDir s.disk y) ∧
    sysCreat (.ofString "/dosya2/x") 3 s = .error .null := by
  have hrun : (runFrom []).map (fun s => decide ((s.tasks s.curr).isSome ∧
      entry s.disk 0 (.ofString "dosya2") = some 3 ∧ (s.disk.di 3).mode = ⟨true, true, .regular⟩) &&
      match sysCreat (.ofString "/dosya2/x") 3 s with
      | .error .null => true
      | _ => false) = some true := by
    decide +kernel
  obtain ⟨s, hs, hx⟩ := map_eq_some_iff.mp hrun
  obtain ⟨h1, h2⟩ := Bool.and_eq_true_iff.mp hx
  obtain ⟨htask, he, hmode⟩ := of_decide_eq_true h1
  obtain ⟨fs, hfs⟩ := isSome_iff_exists.mp htask
  have hr := runFrom_reachable hs
  refine ⟨s, fs, hr, hfs, fun y hy => ?_, ?_⟩
  · have hy := (parent_eq (sane hr) hfs (by decide) (by decide) (by decide) (by decide) he).mp hy
    rw [hy, IsDir, hmode]
    exact fun h => nomatch h.2
  · split at h2
    · assumption
    · cases h2

end MakarnaX.Vfs
