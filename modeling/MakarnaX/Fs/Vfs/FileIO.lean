import MakarnaX.Fs.Vfs.Effects
import MakarnaX.Library.Cursors

/-!
# Reading, writing and seeking

A regular file is an array of fixed length, and its open files are cursors into
it.  The loops of `denemefs_read` and `denemefs_write` add the index to `fpos` as
unsigned words and stop at the size, so a position in front of the file is as far
behind its end as any other: nothing is transferred there.
-/

namespace MakarnaX.Vfs

open Library Denemefs Function List State

variable {data : Mem} {fpos size n i : Nat} {buf : List UInt8}

/-! ## The loops -/

theorem readLoop_inside (hS : size < 2 ^ 31) (h : fpos + i ≤ size) :
    readLoop data fpos size i n = (range' (fpos + i) (min n (size - (fpos + i)))).map data.byte := by
  induction n generalizing i with
  | zero => simp [readLoop]
  | succ n ih =>
    have hadd : add32 i fpos = fpos + i := by
      unfold add32
      omega
    unfold readLoop
    rw [hadd]
    split
    · next hlt =>
      have hmin : min (n + 1) (size - (fpos + i)) = min n (size - (fpos + (i + 1))) + 1 := by omega
      rw [ih (by omega), hmin, range'_succ]
      rfl
    · next hge =>
      have hmin : min (n + 1) (size - (fpos + i)) = 0 := by omega
      rw [hmin]
      rfl

/-- `denemefs_read` takes the bytes from `fpos` on, as far as there are any. -/
theorem readLoop_eq (hS : size < 2 ^ 31) (hp : fpos < 2 ^ 32) :
    readLoop data fpos size 0 n = (range' fpos (min n (size - fpos))).map data.byte := by
  by_cases h : fpos ≤ size
  · exact readLoop_inside hS h
  · have hzero : size - fpos = 0 := by omega
    cases n with
    | zero => rfl
    | succ n =>
      have hnot : ¬ add32 0 fpos < size := by
        unfold add32
        omega
      rw [readLoop, if_neg hnot, hzero]
      rfl

theorem writeLoop_inside (data : Mem) (buf : List UInt8) (hS : size < 2 ^ 31) (h : fpos + i ≤ size) :
    (writeLoop fpos size data i buf).1 = i + min buf.length (size - (fpos + i)) ∧
      ∀ x, (writeLoop fpos size data i buf).2 x =
        if fpos + i ≤ x ∧ x < fpos + i + min buf.length (size - (fpos + i)) then buf.getD (x - (fpos + i)) 0
        else data x := by
  induction buf generalizing data i with
  | nil => simp [writeLoop]
  | cons v buf ih =>
    have hadd : add32 i fpos = fpos + i := by
      unfold add32
      omega
    unfold writeLoop
    rw [hadd]
    split
    · next hlt =>
      obtain ⟨h1, h2⟩ := ih (data.write8 (fpos + i) v) (i := i + 1) (by omega)
      have hmin : min (v :: buf).length (size - (fpos + i)) = min buf.length (size - (fpos + (i + 1))) + 1 := by
        rw [length_cons]
        omega
      refine ⟨by rw [h1, hmin]; omega, fun x => ?_⟩
      rw [h2, hmin]
      by_cases hx : x = fpos + i
      · subst hx
        rw [if_neg (by omega), if_pos (by omega), Nat.sub_self]
        simp [Mem.write8]
      · by_cases hin : fpos + (i + 1) ≤ x ∧ x < fpos + (i + 1) + min buf.length (size - (fpos + (i + 1)))
        · have hsub : x - (fpos + i) = x - (fpos + (i + 1)) + 1 := by omega
          rw [if_pos hin, if_pos (by omega), hsub]
          rfl
        · rw [if_neg hin, if_neg (by omega)]
          simp [Mem.write8, hx]
    · next hge =>
      have hmin : min (v :: buf).length (size - (fpos + i)) = 0 := by omega
      rw [hmin]
      exact ⟨rfl, fun x => (if_neg (by omega)).symm⟩

/-- `denemefs_write` fills the bytes from `fpos` on, as far as there are any. -/
theorem writeLoop_eq (data : Mem) (buf : List UInt8) (hS : size < 2 ^ 31) (hp : fpos < 2 ^ 32) :
    (writeLoop fpos size data 0 buf).1 = min buf.length (size - fpos) ∧
      ∀ x, (writeLoop fpos size data 0 buf).2 x =
        if fpos ≤ x ∧ x < fpos + min buf.length (size - fpos) then buf.getD (x - fpos) 0 else data x := by
  by_cases h : fpos ≤ size
  · have hin := writeLoop_inside data buf (i := 0) hS h
    rwa [Nat.zero_add] at hin
  · have hzero : min buf.length (size - fpos) = 0 := by omega
    have hnone : writeLoop fpos size data 0 buf = (0, data) := by
      cases buf with
      | nil => rfl
      | cons v buf =>
        refine if_neg ?_
        unfold add32
        omega
    rw [hnone, hzero]
    exact ⟨rfl, fun x => (if_neg (by omega)).symm⟩

/-! ## Open files -/

/-- Descriptor `fd` of task `t` is the file `f`, which is open on the regular file `ino`. -/
structure OpenRegular (s : State) (ino t fd f : Nat) : Prop where
  file : ∃ fs, s.tasks t = some fs ∧ fs.files fd = some f
  index : fd < taskMaxFileNr
  op : (s.inodes (s.files f).inode).op = some .denemefsFile
  number : (s.inodes (s.files f).inode).ino = ino
  fpos : (s.files f).fpos < 2 ^ 32
  regular : (s.disk.di ino).mode.type = .regular
  data : (s.disk.di ino).data = some (block s.disk ino)
  size : (s.disk.di ino).size < 2 ^ 31

variable {s s' : State} {ino t fd f : Nat}

/-- The bytes of a file, with the cursors of all open files. -/
def State.cursors (s : State) (ino : Nat) : Cursors Nat where
  bytes := (range (s.disk.di ino).size).map (block s.disk ino).byte
  pos f := .ofNat 32 (s.files f).fpos
  reads f := decide ((s.files f).flags &&& 1 = 1)
  writes f := decide ((s.files f).flags &&& 2 = 2)

/-- The data of `ino` are `d`. -/
def State.fill (s : State) (ino : Nat) (d : Mem) : State :=
  { s with disk := ⟨update s.disk.di ino { s.disk.di ino with data := some d }⟩ }

/-- Where `file_lseek` moves to. -/
def State.target (s : State) (f offset : Nat) : Nat → Nat
  | 0 => offset % 2 ^ 32
  | 1 => add32 (s.files f).fpos offset
  | _ => sub32 (s.inodes (s.files f).inode).size offset

/-- What task `t` does through descriptor `fd`. -/
def transfer (t fd : Nat) (op : Cursors.Op) : VfsM Cursors.Out := do
  modify fun s => { s with curr := t }
  match op with
  | .read n =>
    match ← sysRead fd n with
    | some l => return .bytes l
    | none => return .refused
  | .write buf =>
    match ← sysWrite fd buf with
    | some n => return .count n
    | none => return .refused
  | .set p => return if (← fileLseek fd p.toNat 0) = 0 then .done else .refused
  | .move d => return if (← fileLseek fd d.toNat 1) = 0 then .done else .refused

/-- Files have moved, and bytes of `ino` inside its size may have changed. -/
structure Transferred (ino : Nat) (s s' : State) : Prop where
  tasks : s'.tasks = s.tasks
  inodes : s'.inodes = s.inodes
  inode : ∀ f, (s'.files f).inode = (s.files f).inode
  flags : ∀ f, (s'.files f).flags = (s.files f).flags
  fpos : ∀ f, (s.files f).fpos < 2 ^ 32 → (s'.files f).fpos < 2 ^ 32
  others : ∀ a, a ≠ ino → s'.disk.di a = s.disk.di a
  kept : s'.disk.di ino = { s.disk.di ino with data := some (block s'.disk ino) }
  outside : ∀ x, (s.disk.di ino).size ≤ x → block s'.disk ino x = block s.disk ino x

namespace OpenRegular

variable (H : OpenRegular s ino t fd f)

include H

theorem switch : OpenRegular { s with curr := t } ino t fd f := ⟨H.1, H.2, H.3, H.4, H.5, H.6, H.7, H.8⟩

theorem openFile (hc : s.curr = t) : Vfs.openFile fd s = .ok (f, s) := by
  obtain ⟨fs, hfs, hf⟩ := H.file
  have hcurr : currFile fd s = .ok (some f, s) := by
    simp [currFile, currFs, H.index, hc, hfs, hf]
  exact bind_run hcurr

theorem operations : fileOperations f s = .ok ((), s) := by
  simp [fileOperations, H.op]

theorem pos : ((s.cursors ino).pos f).toNat = (s.files f).fpos := by
  rw [cursors, BitVec.toNat_ofNat, Nat.mod_eq_of_lt H.fpos]

theorem length : (s.cursors ino).bytes.length < 2 ^ 31 := by
  simpa [cursors] using H.size

theorem room (n : Nat) : (s.cursors ino).room f n = min n ((s.disk.di ino).size - (s.files f).fpos) := by
  rw [Cursors.room_eq H.length, H.pos]
  simp [cursors]

theorem slice (n : Nat) :
    (s.cursors ino).slice f n = readLoop (block s.disk ino) (s.files f).fpos (s.disk.di ino).size 0 n := by
  rw [Cursors.slice, H.room, H.pos, readLoop_eq H.size H.fpos, cursors]
  refine ext_getElem? fun x => ?_
  simp only [getElem?_take, getElem?_drop, getElem?_map]
  grind

theorem overwrite (buf : List UInt8) : (s.cursors ino).overwrite f buf = (range (s.disk.di ino).size).map
    (writeLoop (s.files f).fpos (s.disk.di ino).size (block s.disk ino) 0 buf).2.byte := by
  have hbyte := (writeLoop_eq (block s.disk ino) buf H.size H.fpos).2
  rw [Cursors.overwrite, H.room, H.pos, cursors]
  refine ext_getElem? fun x => ?_
  simp only [getElem?_append, getElem?_take, getElem?_drop, getElem?_map, length_append, length_take, length_map,
    length_range]
  grind

theorem read (h : (s.files f).flags &&& 1 = 1) : fileRead f n s =
    .ok (some ((s.cursors ino).slice f n), s.seek f (add32 (s.files f).fpos ((s.cursors ino).room f n))) := by
  have hread : denemefsRead ino (s.files f).fpos n s.disk = .ok (some ((s.cursors ino).slice f n), s.disk) := by
    simp only [denemefsRead, get_run, H.regular, ne_eq, not_true_eq_false, if_false]
    rw [bind_run (dataOf_some H.data), H.slice]
    rfl
  have hlen : ((s.cursors ino).slice f n).length = (s.cursors ino).room f n := by
    rw [H.slice, readLoop_eq H.size H.fpos, H.room]
    simp
  simp only [fileRead, get_run, h, ne_eq, not_true_eq_false, if_false]
  rw [bind_run H.operations]
  simp only [get_run, H.number]
  rw [bind_run (onDisk_eq hread), ← hlen]
  rfl

theorem write (h : (s.files f).flags &&& 2 = 2) : fileWrite f buf s = .ok (some ((s.cursors ino).room f buf.length),
    (s.seek f (add32 (s.files f).fpos ((s.cursors ino).room f buf.length))).fill ino
      (writeLoop (s.files f).fpos (s.disk.di ino).size (block s.disk ino) 0 buf).2) := by
  have hwrite : denemefsWrite ino (s.files f).fpos buf s.disk = .ok (some ((s.cursors ino).room f buf.length),
      (s.fill ino (writeLoop (s.files f).fpos (s.disk.di ino).size (block s.disk ino) 0 buf).2).disk) := by
    simp only [denemefsWrite, get_run, H.regular, ne_eq, not_true_eq_false, if_false]
    rw [bind_run (dataOf_some H.data), H.room, ← (writeLoop_eq _ _ H.size H.fpos).1]
    rfl
  simp only [fileWrite, get_run, h, ne_eq, not_true_eq_false, if_false]
  rw [bind_run H.operations]
  simp only [get_run, H.number]
  rw [bind_run (onDisk_eq hwrite)]
  rfl

theorem seek (hc : s.curr = t) (offset : Nat) {whence : Nat} (hw : whence ≤ 2) :
    fileLseek fd offset whence s = .ok (0, s.seek f (s.target f offset whence)) := by
  have hassert : (ASSERT (fd < taskMaxFileNr) "fd < TASK_MAX_FILE_NR" : VfsM Unit) s = .ok ((), s) :=
    lift_apply_ok.mpr ⟨ASSERT_ok H.index _, rfl⟩
  unfold fileLseek
  rw [bind_run hassert, bind_run (H.openFile hc)]
  match whence, hw with
  | 0, _ => simp [State.target, State.seek]
  | 1, _ => simp [State.target, State.seek]
  | 2, _ => simp [State.target, State.seek]

theorem kept (T : Transferred ino s s') : OpenRegular s' ino t fd f where
  file := T.tasks ▸ H.file
  index := H.index
  op := by
    rw [T.inodes, T.inode]
    exact H.op
  number := by
    rw [T.inodes, T.inode]
    exact H.number
  fpos := T.fpos f H.fpos
  regular := by
    rw [T.kept]
    exact H.regular
  data := by rw [T.kept]
  size := by
    rw [T.kept]
    exact H.size

omit H in
theorem seek_transferred {p : Nat} (hd : (s.disk.di ino).data = some (block s.disk ino)) (hp : p < 2 ^ 32) :
    Transferred ino s (s.seek f p) := by
  have hfile : ∀ g, ((s.seek f p).files g) = if g = f then { s.files f with fpos := p } else s.files g := fun g => by
    by_cases hg : g = f
    · subst hg
      simp [State.seek]
    · simp [State.seek, hg]
  refine ⟨rfl, rfl, fun g => ?_, fun g => ?_, fun g hg => ?_, fun _ _ => rfl, ?_, fun _ _ => rfl⟩
  · rw [hfile]
    split <;> simp_all
  · rw [hfile]
    split <;> simp_all
  · rw [hfile]
    split
    · exact hp
    · exact hg
  · show s.disk.di ino = { s.disk.di ino with data := some (block s.disk ino) }
    rw [← hd]

end OpenRegular

theorem seek_cursors {p : Nat} : (s.seek f p).cursors ino = (s.cursors ino).moveTo f (.ofNat 32 p) := by
  simp only [cursors, Cursors.moveTo, Cursors.mk.injEq]
  refine ⟨rfl, funext fun g => ?_, funext fun g => ?_, funext fun g => ?_⟩ <;>
  · by_cases hg : g = f
    · subst hg
      simp [seek]
    · simp [seek, hg]

theorem fill_cursors {d : Mem} :
    (s.fill ino d).cursors ino = { s.cursors ino with bytes := (range (s.disk.di ino).size).map d.byte } := by
  have hdata : block (s.fill ino d).disk ino = d := by simp [State.fill, block]
  have hsize : ((s.fill ino d).disk.di ino).size = (s.disk.di ino).size := by simp [State.fill]
  rw [State.cursors, hdata, hsize]
  rfl

theorem ofNat_add32 (x y : Nat) : BitVec.ofNat 32 (add32 x y) = .ofNat 32 x + .ofNat 32 y := by
  refine BitVec.eq_of_toNat_eq ?_
  simp [add32]

theorem fill_transferred {d : Mem} (h : ∀ x, (s.disk.di ino).size ≤ x → d x = block s.disk ino x) :
    Transferred ino s (s.fill ino d) where
  tasks := rfl
  inodes := rfl
  inode _ := rfl
  flags _ := rfl
  fpos _ := id
  others a ha := update_of_ne ha _ _
  kept := by simp [State.fill, block]
  outside x hx := by
    rw [← h x hx]
    simp [State.fill, block]

theorem Transferred.switch (h : (s.disk.di ino).data = some (block s.disk ino)) :
    Transferred ino s { s with curr := t } :=
  ⟨rfl, rfl, fun _ => rfl, fun _ => rfl, fun _ => id, fun _ _ => rfl, by rw [← h], fun _ _ => rfl⟩

theorem Transferred.trans {s'' : State} (h : Transferred ino s s') (h' : Transferred ino s' s'') :
    Transferred ino s s'' where
  tasks := h'.tasks.trans h.tasks
  inodes := h'.inodes.trans h.inodes
  inode g := (h'.inode g).trans (h.inode g)
  flags g := (h'.flags g).trans (h.flags g)
  fpos g hg := h'.fpos g (h.fpos g hg)
  others a ha := (h'.others a ha).trans (h.others a ha)
  kept := by rw [h'.kept, h.kept]
  outside x hx := by
    rw [← h.outside x hx]
    exact h'.outside x (by rw [h.kept]; exact hx)

/-- One call does what the array with cursors does. -/
theorem transfer_step (H : OpenRegular s ino t fd f) (op : Cursors.Op) :
    ∃ s', transfer t fd op s = .ok (((s.cursors ino).step f op).1, s') ∧
      s'.cursors ino = ((s.cursors ino).step f op).2 ∧ Transferred ino s s' := by
  have hadd : ∀ x y, add32 x y < 2 ^ 32 := fun x y => Nat.mod_lt _ (by decide)
  have hpos : (s.cursors ino).pos f = .ofNat 32 (s.files f).fpos := rfl
  have switched : Transferred ino s { s with curr := t } := .switch H.data
  have moved : ∀ p < 2 ^ 32, Transferred ino s ({ s with curr := t }.seek f p) := fun p hp =>
    switched.trans (OpenRegular.seek_transferred H.data hp)
  have H1 := H.switch
  have hopen := H1.openFile rfl
  cases op with
  | read n =>
    have hread : (s.cursors ino).reads f = decide ((s.files f).flags &&& 1 = 1) := rfl
    have hcall : sysRead fd n { s with curr := t } = fileRead f n { s with curr := t } := bind_run hopen
    by_cases hr : (s.files f).flags &&& 1 = 1
    · refine ⟨_, ?_, ?_, moved (add32 (s.files f).fpos ((s.cursors ino).room f n)) (hadd _ _)⟩
      · simp only [transfer, modify_run, Cursors.step, hread, hr, decide_true, if_true]
        rw [bind_run (hcall.trans (H1.read hr))]
        rfl
      · simp only [Cursors.step, hread, hr, decide_true, if_true]
        rw [seek_cursors, ofNat_add32]
        rfl
    · refine ⟨{ s with curr := t }, ?_, ?_, switched⟩
      · simp only [transfer, modify_run, Cursors.step, hread, hr, decide_false]
        have hnone : fileRead f n { s with curr := t } = .ok (none, { s with curr := t }) := by
          rw [fileRead, get_run, if_pos hr]
          rfl
        rw [bind_run (hcall.trans hnone)]
        rfl
      · simp only [Cursors.step, hread, hr, decide_false]
        rfl
  | write buf =>
    have hwrite : (s.cursors ino).writes f = decide ((s.files f).flags &&& 2 = 2) := rfl
    have hcall : sysWrite fd buf { s with curr := t } = fileWrite f buf { s with curr := t } := bind_run hopen
    by_cases hw : (s.files f).flags &&& 2 = 2
    · have hout : ∀ x, (s.disk.di ino).size ≤ x →
          (writeLoop (s.files f).fpos (s.disk.di ino).size (block s.disk ino) 0 buf).2 x = block s.disk ino x :=
        fun x hx => by rw [(writeLoop_eq _ _ H.size H.fpos).2, if_neg (by omega)]
      refine ⟨_, ?_, ?_, (moved (add32 (s.files f).fpos ((s.cursors ino).room f buf.length)) (hadd _ _)).trans
        (fill_transferred hout)⟩
      · simp only [transfer, modify_run, Cursors.step, hwrite, hw, decide_true, if_true]
        rw [bind_run (hcall.trans (H1.write hw))]
        rfl
      · simp only [Cursors.step, hwrite, hw, decide_true, if_true]
        rw [H.overwrite, hpos, ← ofNat_add32, fill_cursors, seek_cursors]
        rfl
    · refine ⟨{ s with curr := t }, ?_, ?_, switched⟩
      · simp only [transfer, modify_run, Cursors.step, hwrite, hw, decide_false]
        have hnone : fileWrite f buf { s with curr := t } = .ok (none, { s with curr := t }) := by
          rw [fileWrite, get_run, if_pos hw]
          rfl
        rw [bind_run (hcall.trans hnone)]
        rfl
      · simp only [Cursors.step, hwrite, hw, decide_false]
        rfl
  | set p =>
    refine ⟨_, ?_, ?_, moved (p.toNat % 2 ^ 32) (Nat.mod_lt _ (by decide))⟩
    · simp only [transfer, modify_run]
      rw [bind_run (H1.seek rfl p.toNat (Nat.zero_le 2))]
      rfl
    · rw [seek_cursors, ← BitVec.toNat_ofNat, BitVec.ofNat_toNat]
      simp [Cursors.step]
      rfl
  | move d =>
    refine ⟨_, ?_, ?_, moved (add32 (s.files f).fpos d.toNat) (hadd _ _)⟩
    · simp only [transfer, modify_run]
      rw [bind_run (H1.seek rfl d.toNat (by decide : 1 ≤ 2))]
      rfl
    · rw [seek_cursors, ofNat_add32]
      simp [Cursors.step]
      rfl

/-- Calls one after the other. -/
def transfers : List (Nat × Nat × Cursors.Op) → VfsM (List Cursors.Out)
  | [] => return []
  | (t, fd, op) :: ops => do
    let out ← transfer t fd op
    return out :: (← transfers ops)

theorem transfers_cons {s'' : State} {op : Cursors.Op} {ops : List (Nat × Nat × Cursors.Op)} {a : Cursors.Out}
    {l : List Cursors.Out} (h : transfer t fd op s = .ok (a, s')) (h' : transfers ops s' = .ok (l, s'')) :
    transfers ((t, fd, op) :: ops) s = .ok (a :: l, s'') := by
  rw [transfers, bind_run h, bind_run h']
  rfl

theorem transfers_run {file : Nat → Nat → Nat} {ops : List (Nat × Nat × Cursors.Op)}
    (H : ∀ x ∈ ops, OpenRegular s ino x.1 x.2.1 (file x.1 x.2.1))
    (hd : (s.disk.di ino).data = some (block s.disk ino)) :
    ∃ s', transfers ops s = .ok (((s.cursors ino).run (ops.map fun x => (file x.1 x.2.1, x.2.2))).1, s') ∧
      s'.cursors ino = ((s.cursors ino).run (ops.map fun x => (file x.1 x.2.1, x.2.2))).2 ∧ Transferred ino s s' := by
  induction ops generalizing s with
  | nil =>
    exact ⟨s, rfl, rfl, .switch hd⟩
  | cons x ops ih =>
    obtain ⟨t, fd, op⟩ := x
    obtain ⟨s', h1, h2, T⟩ := transfer_step (H _ (.head _)) op
    obtain ⟨s'', h3, h4, T'⟩ := ih (fun x hx => (H x (.tail _ hx)).kept T) (by rw [T.kept])
    rw [h2] at h3 h4
    exact ⟨s'', transfers_cons h1 h3, h4, T.trans T'⟩

/-- Reads, writes and seeks refine the array with cursors, and a file that is written is read
through every descriptor. -/
theorem transfers_refine {file : Nat → Nat → Nat} {ops : List (Nat × Nat × Cursors.Op)}
    (H : ∀ x ∈ ops, OpenRegular s ino x.1 x.2.1 (file x.1 x.2.1))
    (hd : (s.disk.di ino).data = some (block s.disk ino)) :
    ∃ s', transfers ops s = .ok (((s.cursors ino).run (ops.map fun x => (file x.1 x.2.1, x.2.2))).1, s') ∧
      s'.cursors ino = ((s.cursors ino).run (ops.map fun x => (file x.1 x.2.1, x.2.2))).2 ∧ Transferred ino s s' ∧
      ∀ {t fd f t' fd' f' buf p r}, OpenRegular s ino t fd f → OpenRegular s ino t' fd' f' →
        (s.files f).flags &&& 2 = 2 → (s.files f').flags &&& 1 = 1 → p = (s'.files f).fpos →
        r = min buf.length ((s.disk.di ino).size - p) →
        ∃ s'', transfers [(t, fd, .write buf), (t', fd', .set (.ofNat 32 p)), (t', fd', .read r)] s' =
          .ok ([.count r, .done, .bytes (buf.take r)], s'') := by
  obtain ⟨s', h1, h2, T⟩ := transfers_run H hd
  refine ⟨s', h1, h2, T, fun {t fd f t' fd' f' buf p r} h h' hw hr hp hr' => ?_⟩
  have K := h.kept T
  have K' := h'.kept T
  obtain ⟨s1, e1, c1, T1⟩ := transfer_step K (.write buf)
  obtain ⟨s2, e2, c2, T2⟩ := transfer_step (K'.kept T1) (.set (.ofNat 32 p))
  obtain ⟨s3, e3, -, -⟩ := transfer_step ((K'.kept T1).kept T2) (.read r)
  have hsize : (s'.disk.di ino).size = (s.disk.di ino).size := by rw [T.kept]
  have hroom : (s'.cursors ino).room f buf.length = r := by rw [K.room, hr', hp, hsize]
  have hwr := Cursors.write_read f' buf K.length (i := f) (decide_eq_true (T.flags f ▸ hw))
    (decide_eq_true (T.flags f' ▸ hr))
  have hpos : (s'.cursors ino).pos f = .ofNat 32 p := hp ▸ rfl
  rw [hroom, hpos] at hwr
  have hcalls : transfers [(t, fd, .write buf), (t', fd', .set (.ofNat 32 p)), (t', fd', .read r)] s' =
      .ok (((s'.cursors ino).run [(f, .write buf), (f', .set (.ofNat 32 p)), (f', .read r)]).1, s3) := by
    rw [c2, c1] at e3
    rw [c1] at e2
    exact transfers_cons e1 (transfers_cons e2 (transfers_cons e3 rfl))
  exact ⟨s3, hwr ▸ hcalls⟩

/-- A file of three bytes, open in every descriptor of every task, each at a position of its own. -/
def threeBytes : State where
  disk := ⟨fun _ => ⟨⟨true, true, .regular⟩, 1, 3, some ⟨.ofNat⟩⟩⟩
  dirents _ := ⟨false, 1, none, .empty, none, []⟩
  nDirents := 0
  inodes _ := ⟨0, 1, some .denemefsFile, ⟨true, true, .regular⟩, 3, 0⟩
  nInodes := 1
  files f := ⟨0, f, 3⟩
  nFiles := 32
  tasks _ := some ⟨0, 0, some⟩
  nTasks := 2
  curr := 0
  nCli := 0

theorem openRegular_threeBytes (t : Nat) {fd : Nat} (h : fd < 32) : OpenRegular threeBytes 0 t fd fd :=
  ⟨⟨_, rfl, rfl⟩, h, rfl, rfl, Nat.lt_trans h (by decide), rfl, rfl, by decide⟩

theorem transfers_refine_threeBytes : ∃ s', transfers
    [(0, 2, .write [7, 8]), (1, 1, .read 5), (1, 1, .set (-1)), (1, 1, .read 5)] threeBytes =
      .ok ([.count 1, .bytes [1, 7], .done, .bytes []], s') := by
  obtain ⟨s', h, -⟩ := @transfers_refine threeBytes 0 (fun _ fd => fd)
    [(0, 2, .write [7, 8]), (1, 1, .read 5), (1, 1, .set (-1)), (1, 1, .read 5)]
    (by
      intro x hx
      have hlt : x.2.1 < 32 := by
        simp only [mem_cons, not_mem_nil, or_false] at hx
        rcases hx with rfl | rfl | rfl | rfl <;> decide
      exact openRegular_threeBytes _ hlt) rfl
  exact ⟨s', h⟩

/-! ## Seeking -/

/-- From where an offset counts. -/
def State.seekBase (s : State) (f : Nat) : Nat → Int
  | 0 => 0
  | 1 => (BitVec.ofNat 32 (s.files f).fpos).toInt
  | _ => (s.inodes (s.files f).inode).size

/-- `lseek`, then `read`. -/
def lseekRead (fd offset whence k : Nat) : VfsM (Option (List UInt8)) := do
  let _ ← fileLseek fd offset whence
  sysRead fd k

theorem OpenRegular.lseekRead (H : OpenRegular s ino t fd f) {whence : Nat} (hw : whence ≤ 2) (hc : s.curr = t)
    (offset k : Nat) : ∃ s', Vfs.lseekRead fd offset whence k s = .ok (if (s.files f).flags &&& 1 = 1 then
      some ((range' (s.target f offset whence) (min k ((s.disk.di ino).size - s.target f offset whence))).map
        (block s.disk ino).byte) else none, s') := by
  have hlt : s.target f offset whence < 2 ^ 32 := by
    unfold State.target
    split <;> exact Nat.mod_lt _ (by decide)
  have K := H.kept (OpenRegular.seek_transferred (f := f) H.data hlt)
  have hcall : Vfs.lseekRead fd offset whence k s = fileRead f k (s.seek f (s.target f offset whence)) :=
    (bind_run (H.seek hc offset hw)).trans (bind_run (K.openFile hc))
  have hfile : (s.seek f (s.target f offset whence)).files f = { s.files f with fpos := s.target f offset whence } := by
    simp [State.seek]
  rw [hcall]
  by_cases hr : (s.files f).flags &&& 1 = 1
  · rw [K.read (by rw [hfile]; exact hr), K.slice, readLoop_eq K.size K.fpos, if_pos hr, hfile]
    exact ⟨_, rfl⟩
  · rw [fileRead, get_run, hfile, if_pos hr, if_neg hr]
    exact ⟨_, rfl⟩

section

variable {whence p : Nat} {offset : BitVec 32} (H : OpenRegular s ino t fd f) (hw : whence ≤ 2)
  (hsize : (s.inodes (s.files f).inode).size = (s.disk.di ino).size) (hp : (p : Int) = s.seekBase f whence + offset.toInt)
  (hle : p ≤ (s.disk.di ino).size)

include H hw hsize hp hle

/-- With `SEEK_END` the offset goes the other way, behind the file. -/
theorem OpenRegular.target :
    s.target f offset.toNat whence = if whence = 2 then 2 * (s.disk.di ino).size - p else p := by
  have hlt := offset.isLt
  have hS := H.size
  have hf := H.fpos
  match whence, hw with
  | 0, _ =>
    simp only [seekBase, BitVec.toInt_eq_toNat_cond] at hp
    rw [if_neg (by decide)]
    simp only [State.target]
    split at hp <;> omega
  | 1, _ =>
    simp only [seekBase, BitVec.toInt_eq_toNat_cond, BitVec.toNat_ofNat] at hp
    rw [if_neg (by decide)]
    simp only [State.target, add32]
    split at hp <;> split at hp <;> omega
  | 2, _ =>
    simp only [seekBase, BitVec.toInt_eq_toNat_cond] at hp
    rw [if_pos rfl]
    simp only [State.target, sub32, hsize]
    split at hp <;> omega

theorem lseekRead_iff (hc : s.curr = t) :
    (∀ k, ∃ s', lseekRead fd offset.toNat whence k s =
      .ok (some ((range' p (min k ((s.disk.di ino).size - p))).map (block s.disk ino).byte), s')) ↔
        (s.files f).flags &&& 1 = 1 ∧ (whence = 2 → offset = 0) := by
  have htarget := H.target hw hsize hp hle
  constructor
  · intro h
    obtain ⟨s', hs'⟩ := h 1
    obtain ⟨s'', hs''⟩ := H.lseekRead hw hc offset.toNat 1
    obtain ⟨hread, -⟩ := Prod.mk.inj (Except.ok.inj (hs''.symm.trans hs'))
    split at hread
    · next hr =>
      refine ⟨hr, fun h2 => ?_⟩
      have hlen := congrArg length (Option.some.inj hread)
      subst h2
      rw [htarget, if_pos rfl, length_map, length_range', length_map, length_range'] at hlen
      have hp' : (p : Int) = (s.disk.di ino).size + offset.toInt := hsize ▸ hp
      have hzero : offset.toInt = 0 := by omega
      exact BitVec.eq_of_toInt_eq hzero
    · cases hread
  · rintro ⟨hr, h2⟩ k
    obtain ⟨s', hs'⟩ := H.lseekRead hw hc offset.toNat k
    have hp' : s.target f offset.toNat whence = p := by
      rw [htarget]
      split
      · next h =>
        rw [h2 h, h] at hp
        have hp' : (p : Int) = (s.disk.di ino).size + 0 := hsize ▸ hp
        omega
      · rfl
    rw [if_pos hr, hp'] at hs'
    exact ⟨s', hs'⟩

end

theorem lseekRead_iff_threeBytes : ∃ s', lseekRead 0 (2 : BitVec 32).toNat 0 5 threeBytes = .ok (some [2], s') := by
  have h : ∀ k, ∃ s', lseekRead 0 (2 : BitVec 32).toNat 0 k threeBytes =
      .ok (some ((range' 2 (min k (3 - 2))).map .ofNat), s') :=
    (lseekRead_iff (openRegular_threeBytes 0 (by decide)) (by decide) rfl (by decide) (by decide) rfl).mpr
      ⟨by decide, nofun⟩
  exact h 5

/-- One byte from one before the end. -/
theorem lseek_end_reads_nothing : (2 : Int) = threeBytes.seekBase 0 2 + (-1 : BitVec 32).toInt ∧
    (lseekRead 0 (-1 : BitVec 32).toNat 2 1 threeBytes).map Prod.fst = .ok (some []) ∧
    (range' 2 (min 1 (3 - 2))).map (block threeBytes.disk 0).byte = [2] :=
  ⟨by decide, rfl, rfl⟩

end MakarnaX.Vfs
