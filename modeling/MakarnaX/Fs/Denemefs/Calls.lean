import MakarnaX.Fs.Denemefs.Tree

/-!
# What the calls do

On a table that is a tree, each call on a live directory returns, and it leaves
the table as it was, links one new inode or cuts one off.  `denemefs_create` and
`denemefs_mkdir` reserve the inode before they look for the name.  If the name is
there the inode is cleared again, and as a free inode was clear before, nothing
has changed.
-/

namespace MakarnaX.Denemefs

open Library Subdentry Function List

variable {s : Table} {d i ino : Nat} {name : CString}

/-- The first free inode, the one `find_empty_di` takes. -/
def freeDi (s : Table) : Option Nat := (range diCount).find? fun i => (s.di i).nlinks = 0

/-- The inode of the slot with this name. -/
def entry (s : Table) (d : Nat) (name : CString) : Option Nat := (slot (block s d) name).map (no (block s d))

/-- What `denemefs_lookup` fills in for inode `ino`. -/
def inodeOf (s : Table) (ino : Nat) : Inode where
  ino := ino
  op := if (s.di ino).mode.type = .dir then .denemefsDir else .denemefsFile
  size := (s.di ino).size
  mode := (s.di ino).mode

/-- What `denemefs_create` and `denemefs_mkdir` make of a free inode. -/
def newDi (mode size : Nat) (type : FileType) : DenemeInode where
  mode := ⟨mode.testBit 0, mode.testBit 1, type⟩
  nlinks := 1
  size := size
  data := some zeroed

theorem freeDi_eq_some (h : freeDi s = some ino) : ino < diCount ∧ ¬ Used s ino := by
  have hm := mem_of_find?_eq_some h
  have hz := find?_some h
  simp only [decide_eq_true_eq] at hz
  exact ⟨mem_range.mp hm, fun hu => hu hz⟩

theorem Fresh.newDi {mode size : Nat} {type : FileType} (h : type = .regular ∨ type = .dir) :
    Fresh (newDi mode size type) where
  nlinks := rfl
  typed := h
  data := rfl

/-! ## Looking up -/

theorem dataOf_some {b : Mem} (h : (s.di ino).data = some b) : dataOf ino s = .ok (b, s) := by
  simp [dataOf, h]

theorem operations_eq {t : FileType} (h : t = .regular ∨ t = .dir) :
    operations t = .ok (if t = .dir then .denemefsDir else .denemefsFile) := by
  rcases h with rfl | rfl <;> rfl

/-- `denemefs_lookup` in a directory whose slots have used inodes. -/
theorem denemefsLookup_dir {sd : Mem} (hd : (s.di d).mode.type = .dir) (hsd : (s.di d).data = some sd)
    (hok : ∀ i, i < n sd → Used s (no sd i) ∧
      ((s.di (no sd i)).mode.type = .regular ∨ (s.di (no sd i)).mode.type = .dir)) :
    denemefsLookup d name s =
      .ok (match (slot sd name).map (no sd) with
        | none => .error (-1)
        | some ino => .ok (inodeOf s ino), s) := by
  simp only [denemefsLookup, get_run, hd, ne_eq, not_true_eq_false, if_false,
    bind_run (dataOf_some hsd)]
  cases hs : slot sd name with
  | none => rfl
  | some i =>
    have hi : i < n sd := mem_range.mp (mem_of_find?_eq_some hs)
    obtain ⟨hu, ht⟩ := hok i hi
    have hop : (monadLift (operations (s.di (no sd i)).mode.type) : TableM _) s =
        .ok (if (s.di (no sd i)).mode.type = .dir then .denemefsDir else .denemefsFile, s) := by
      rw [operations_eq ht]
      rfl
    simp only [ASSERT, check_run, if_pos (Nat.pos_of_ne_zero hu), Option.map_some]
    exact bind_run hop

theorem lookup_eq (I : Inv s) (hd : IsDir s d) (name : CString) :
    denemefsLookup d name s =
      .ok (match entry s d name with
        | none => .error (-1)
        | some ino => .ok (inodeOf s ino), s) :=
  denemefsLookup_dir hd.2 (I.hasData d hd.1) fun _ hi =>
    ⟨I.used_no hd hi, I.typed _ (I.used_no hd hi)⟩

/-- A file is no directory. -/
theorem lookup_notDir (h : (s.di d).mode.type ≠ .dir) (name : CString) :
    denemefsLookup d name s = .ok (.error (-2), s) := by
  simp [denemefsLookup, h]

/-- A name is bound to a live slot, or it is the empty name. -/
theorem entry_eq_some (I : Inv s) (hd : IsDir s d) :
    entry s d name = some ino ↔ ∃ i, slot (block s d) name = some i ∧ i < n (block s d) ∧ no (block s d) i = ino := by
  unfold entry
  rw [Option.map_eq_some_iff]
  refine exists_congr fun i => ⟨fun h => ⟨h.1, ((slot_eq_some (I.wf d hd)).mp h.1).1, h.2⟩, fun h => ⟨h.1, h.2.2⟩⟩

theorem entry_eq_none : entry s d name = none ↔ slot (block s d) name = none := Option.map_eq_none_iff

theorem used_of_entry (I : Inv s) (hd : IsDir s d) (h : entry s d name = some ino) : Used s ino := by
  obtain ⟨i, -, hi, rfl⟩ := (entry_eq_some I hd).mp h
  exact I.used_no hd hi

/-! ## Creating -/

/-- The table with inode `ino` reserved. -/
def reserved (s : Table) (ino : Nat) : Table where
  di := update s.di ino { s.di ino with nlinks := 1 }

theorem findEmptyDi_eq (s : Table) : findEmptyDi s =
    .ok (match freeDi s with
      | none => (none, s)
      | some ino => (some ino, reserved s ino)) := by
  unfold findEmptyDi freeDi
  rw [get_run]
  cases (range diCount).find? fun i => (s.di i).nlinks = 0 with
  | none => rfl
  | some ino => rfl

theorem denemefsNewInode_eq (s : Table) : denemefsNewInode s =
    .ok (match freeDi s with
      | none => (none, s)
      | some ino => (some ino, reserved s ino)) := by
  have he := findEmptyDi_eq s
  unfold denemefsNewInode
  cases hf : freeDi s with
  | none =>
    rw [hf] at he
    rw [bind_run he]
    rfl
  | some ino =>
    rw [hf] at he
    rw [bind_run he]
    simp [setDi, reserved]

section Reserved

variable (I : Inv s) (hd : IsDir s d) (hf : ¬ Used s ino)

include I hd hf

/-- A reserved inode is in nobody's way. -/
theorem lookup_reserved (name : CString) :
    denemefsLookup d name (reserved s ino) =
      .ok (match entry s d name with
        | none => .error (-1)
        | some ino' => .ok (inodeOf (reserved s ino) ino'), reserved s ino) := by
  have hdi : ∀ {x}, Used s x → (reserved s ino).di x = s.di x := by
    intro x hx
    have hne : x ≠ ino := fun h => hf (h ▸ hx)
    simp [reserved, hne]
  refine denemefsLookup_dir ?_ ?_ ?_
  · rw [hdi hd.1]
    exact hd.2
  · rw [hdi hd.1]
    exact I.hasData d hd.1
  · intro i hi
    have hu := I.used_no hd hi
    unfold Used
    rw [hdi hu]
    exact ⟨hu, I.typed _ hu⟩

theorem dataOf_reserved : dataOf d (reserved s ino) = .ok (block s d, reserved s ino) := by
  refine dataOf_some ?_
  simp only [reserved, update_of_ne (dir_ne hd hf)]
  exact I.hasData d hd.1

/-- The name is there: nothing is entered. -/
theorem addEntry_bound (h : entry s d name ≠ none) :
    denemefsAddEntry d name ino (reserved s ino) = .ok (-1, reserved s ino) := by
  have hl := lookup_reserved I hd hf name
  cases he : entry s d name with
  | none => exact absurd he h
  | some ino' =>
    rw [he] at hl
    unfold denemefsAddEntry
    rw [bind_run hl]
    rfl

theorem addEntry_unbound (h : entry s d name = none) :
    denemefsAddEntry d name ino (reserved s ino) =
      .ok (0, link s d name ino { s.di ino with nlinks := 1 }) := by
  have hl := lookup_reserved I hd hf name
  rw [h] at hl
  have hne := dir_ne hd hf
  unfold denemefsAddEntry
  rw [bind_run hl]
  simp only
  rw [bind_run (dataOf_reserved I hd hf)]
  simp only [setDi, modify_run, pure_apply, reserved, link, update_of_ne hne,
    update_comm hne]

end Reserved

/-- Clearing a reserved inode undoes the reservation. -/
theorem freeInode_reserved (I : Inv s) (hf : ¬ Used s ino) : denemefsFreeInode ino (reserved s ino) = .ok ((), s) := by
  simp only [denemefsFreeInode, setDi, modify_apply, reserved, update_idem]
  rw [← I.free ino hf, update_eq_self]

section Enter

variable {mode size : Nat} {type : FileType} (I : Inv s) (hd : IsDir s d)

theorem enter_noInode (h : freeDi s = none) : denemefsEnter d name mode size type s = .ok (-1, s) := by
  have hn := denemefsNewInode_eq s
  rw [h] at hn
  unfold denemefsEnter
  rw [bind_run hn]
  rfl

include I hd

theorem enter_bound (h : entry s d name ≠ none) : denemefsEnter d name mode size type s = .ok (-1, s) := by
  cases hf : freeDi s with
  | none => exact enter_noInode hf
  | some ino =>
    have hn := denemefsNewInode_eq s
    rw [hf] at hn
    have hu := (freeDi_eq_some hf).2
    unfold denemefsEnter
    rw [bind_run hn]
    simp only
    rw [bind_run (addEntry_bound I hd hu h), if_pos (by decide)]
    rw [bind_run (freeInode_reserved I hu)]
    rfl

theorem enter_unbound (hf : freeDi s = some ino) (h : entry s d name = none) :
    denemefsEnter d name mode size type s = .ok (0, link s d name ino (newDi mode size type)) := by
  have hn := denemefsNewInode_eq s
  rw [hf] at hn
  have hu := (freeDi_eq_some hf).2
  unfold denemefsEnter
  rw [bind_run hn]
  simp only
  rw [bind_run (addEntry_unbound I hd hu h), if_neg (by decide)]
  simp [setDi, link, newDi]

end Enter

section Create

variable {mode : Nat} (I : Inv s) (hd : IsDir s d)

theorem create_noInode (h : freeDi s = none) : denemefsCreate d name mode s = .ok (.error (-1), s) := by
  unfold denemefsCreate
  rw [bind_run (enter_noInode h), if_pos (by decide)]
  rfl

include I hd

theorem create_bound (h : entry s d name ≠ none) : denemefsCreate d name mode s = .ok (.error (-1), s) := by
  unfold denemefsCreate
  rw [bind_run (enter_bound I hd h), if_pos (by decide)]
  rfl

omit hd in
/-- The name of the new slot is found in it. -/
theorem entry_link_self {new : DenemeInode} (hd : IsDir s d) (hf : freeDi s = some ino) (h : entry s d name = none)
    (hfits : Fits s d name) : entry (link s d name ino new) d name = some ino := by
  obtain ⟨hino, hu⟩ := freeDi_eq_some hf
  have W := I.wf d hd
  have hnew := (slot_eq_none W).mp (entry_eq_none.mp h)
  unfold entry
  rw [block_link_dir (dir_ne hd hu)]
  have hs : slot (add (block s d) name ino) name = some (n (block s d)) := by
    rw [slot_eq_some (W.add hfits.1 hfits.2), n_add W]
    refine ⟨Nat.lt_succ_self _, (nameOf_add_self hfits.2).1, fun j hj => ?_⟩
    rw [(nameOf_add_ne W hfits.1 hj).1]
    exact hnew j hj
  rw [hs, Option.map_some, no_add_self hfits.1 (by unfold diCount at hino; omega)]

theorem link_inv {size : Nat} {type : FileType} (ht : type = .regular ∨ type = .dir) (hf : freeDi s = some ino)
    (h : entry s d name = none) (hfits : Fits s d name) :
    Inv (link s d name ino (newDi mode size type)) :=
  I.link hd (freeDi_eq_some hf).1 (freeDi_eq_some hf).2 (.newDi ht) hfits (entry_eq_none.mp h)

theorem create_unbound (hf : freeDi s = some ino) (h : entry s d name = none) (hfits : Fits s d name) :
    denemefsCreate d name mode s =
      .ok (.ok (inodeOf (link s d name ino (newDi mode 1000 .regular)) ino),
        link s d name ino (newDi mode 1000 .regular)) := by
  have hu := (freeDi_eq_some hf).2
  have I' : Inv (link s d name ino (newDi mode 1000 .regular)) := link_inv I hd (.inl rfl) hf h hfits
  have hd' : IsDir (link s d name ino (newDi mode 1000 .regular)) d :=
    (isDir_link hu Nat.one_ne_zero d).mpr (.inl hd)
  have hl := lookup_eq I' hd' name
  rw [entry_link_self I hd hf h hfits] at hl
  unfold denemefsCreate
  rw [bind_run (enter_unbound I hd hf h), if_neg (by decide)]
  rw [bind_run hl]
  rfl

end Create

/-! ## Removing -/

section Remove

variable (I : Inv s) (hd : IsDir s d)

theorem unlink_unbound (I : Inv s) (hd : IsDir s d) (h : entry s d name = none) :
    denemefsUnlink d name s = .ok (-1, s) := by
  have hl := lookup_eq I hd name
  rw [h] at hl
  unfold denemefsUnlink
  rw [bind_run hl]
  rfl

theorem rmdir_unbound (I : Inv s) (hd : IsDir s d) (h : entry s d name = none) :
    denemefsRmdir d name s = .ok (-1, s) := by
  have hl := lookup_eq I hd name
  rw [h] at hl
  unfold denemefsRmdir
  rw [bind_run hl]
  rfl

include I hd

theorem drop_eq (hs : slot (block s d) name = some i) :
    denemefsDrop d name ino s = .ok (0, cut s d i ino) := by
  have hr : denemefsRemoveEntry d name s =
      .ok (0, ⟨update s.di d { s.di d with data := some (clear (block s d) i) }⟩) := by
    unfold denemefsRemoveEntry
    rw [bind_run (dataOf_some (I.hasData d hd.1))]
    simp [hs, setDi]
  unfold denemefsDrop
  rw [bind_run hr]
  simp [ASSERT, check_run, denemefsFreeInode, setDi, cut]

section

variable (h : entry s d name = some ino)

include h

theorem lookup_entry : denemefsLookup d name s = .ok (.ok (inodeOf s ino), s) := by
  rw [lookup_eq I hd, h]

theorem unlink_notRegular (ht : (s.di ino).mode.type ≠ .regular) :
    denemefsUnlink d name s = .ok (-1, s) := by
  unfold denemefsUnlink
  rw [bind_run (lookup_entry I hd h)]
  simp [inodeOf, ht]

theorem unlink_regular (ht : (s.di ino).mode.type = .regular) :
    ∃ i, slot (block s d) name = some i ∧ LiveSlot s d i ino ∧ denemefsUnlink d name s = .ok (0, cut s d i ino) := by
  obtain ⟨i, hs, hi, hno⟩ := (entry_eq_some I hd).mp h
  -- the root is no regular file, so the slot is a live one
  have h0 : ino ≠ 0 := by
    rintro rfl
    rw [I.root.2] at ht
    cases ht
  refine ⟨i, hs, ⟨hd, hi, hno, h0⟩, ?_⟩
  unfold denemefsUnlink
  rw [bind_run (lookup_entry I hd h)]
  simp only [inodeOf, ht, ne_eq, not_true_eq_false, if_false]
  exact drop_eq I hd hs

theorem rmdir_notDir (ht : (s.di ino).mode.type ≠ .dir) :
    denemefsRmdir d name s = .ok (-2, s) := by
  unfold denemefsRmdir
  rw [bind_run (lookup_entry I hd h)]
  simp [inodeOf, ht]

theorem rmdir_dir (ht : (s.di ino).mode.type = .dir) : denemefsRmdir d name s =
    if n (block s ino) ≠ 0 then .ok (-3, s) else denemefsDrop d name ino s := by
  unfold denemefsRmdir
  rw [bind_run (lookup_entry I hd h)]
  simp only [inodeOf, ht, ne_eq, not_true_eq_false, if_false]
  rw [bind_run (dataOf_some (I.hasData ino (used_of_entry I hd h)))]
  split <;> rfl

theorem rmdir_notEmpty (ht : (s.di ino).mode.type = .dir)
    (hn : n (block s ino) ≠ 0) : denemefsRmdir d name s = .ok (-3, s) := by
  rw [rmdir_dir I hd h ht, if_pos hn]

/-- `denemefs_rmdir` of a directory without slots, if that is not the root. -/
theorem rmdir_empty (ht : (s.di ino).mode.type = .dir) (hn : n (block s ino) = 0) (h0 : ino ≠ 0) :
    ∃ i, slot (block s d) name = some i ∧ LiveSlot s d i ino ∧ denemefsRmdir d name s = .ok (0, cut s d i ino) := by
  obtain ⟨i, hs, hi, hno⟩ := (entry_eq_some I hd).mp h
  refine ⟨i, hs, ⟨hd, hi, hno, h0⟩, ?_⟩
  rw [rmdir_dir I hd h ht, if_neg (not_not.mpr hn)]
  exact drop_eq I hd hs

end

end Remove

end MakarnaX.Denemefs
