import MakarnaX.Fs.Denemefs.Names
import Mathlib.Data.List.Perm.Subperm

/-!
# Removed slots

A slot whose entry was removed stays in its directory, with the number 0 and the
empty name.  `denemefs_lookup` never finds it, but two functions see it.
`denemefs_rmdir` takes a directory for empty if it has no slot, so that one in
which something was made cannot be removed any more.  And `denemefs_readdir`
yields the slots one after the other, the removed ones among them.
-/

namespace MakarnaX.Denemefs

open Library Subdentry List

variable {s s' : Table} {d i ino : Nat} {name : CString}

/-! ## Removing directories -/

/-- Slot `i` of directory `d` has this name and refers to a directory without a live
entry. -/
structure EmptyDir (s : Table) (d : Nat) (name : CString) (i ino : Nat) : Prop where
  live : LiveSlot s d i ino
  name : nameOf (block s d) i = name
  dir : IsDir s ino
  empty : ∀ k w, ¬ LiveSlot s ino k w

/-- Slot `i` of directory `d` and inode `ino`, to which it refers, are gone and all
else is as it was. -/
structure Without (s s' : Table) (d i ino : Nat) : Prop where
  slots : ∀ v k w, LiveSlot s' v k w ↔ LiveSlot s v k w ∧ ¬ (v = d ∧ k = i)
  names : ∀ v k w, LiveSlot s' v k w → nameOf (block s' v) k = nameOf (block s v) k
  used : ∀ x, Used s' x ↔ Used s x ∧ x ≠ ino
  inodes : ∀ x, x ≠ d → x ≠ ino → s'.di x = s.di x
  mode : (s'.di d).mode = (s.di d).mode

theorem Without.cut (I : Inv s) (hl : LiveSlot s d i ino) (hn : n (block s ino) = 0) :
    Without s (cut s d i ino) d i ino := by
  have hlive := live_cut I hl fun _ => hn
  have hd : d ≠ ino := by
    rintro rfl
    have := hl.2.1
    omega
  refine ⟨fun v k w => ?_, fun v k w h => ?_, used_cut, fun x hxd hxi => ?_, cut_mode hd⟩
  · rw [hlive]
    refine and_congr_right fun h => not_congr ?_
    constructor
    · rintro rfl
      exact I.tree.single h hl
    · rintro ⟨rfl, rfl⟩
      exact h.2.2.1.symm.trans hl.2.2.1
  · obtain ⟨hk, hw⟩ := (hlive v k w).mp h
    have hv : v ≠ ino := by
      rintro rfl
      have := hk.2.1
      omega
    rw [nameOf_block_cut I hl hk.1 hv hk.2.1, if_neg]
    rintro ⟨rfl, rfl⟩
    exact hw (hk.2.2.1.symm.trans hl.2.2.1)
  · rw [cut_di hxi, if_neg hxd]

/-- `denemefs_rmdir` removes the entry if it is an empty directory, and only then. -/
def RemovesEmptyDir (s : Table) (d : Nat) (name : CString) : Prop :=
  (∃ i ino, EmptyDir s d name i ino ∧ ∃ s', denemefsRmdir d name s = .ok (0, s') ∧ Without s s' d i ino) ∨
  (¬ ∃ i ino, EmptyDir s d name i ino) ∧ ∃ r, r < 0 ∧ denemefsRmdir d name s = .ok (r, s)

/-- In every state of every run and for every name in every directory:
`denemefs_rmdir` removes the entry with this name if it is a directory without a
live entry, and fails without a change if it is not, exactly if such a directory
never had a slot.  (The slot must also be the first with its name.  So it is,
unless the name is empty.) -/
theorem rmdir_removes_empty_dirs (h : system.Reachable s) (hd : IsDir s d) (name : CString) :
    RemovesEmptyDir s d name ↔ ((∃ i ino, EmptyDir s d name i ino) → ∃ i ino, slot (block s d) name = some i ∧
      LiveSlot s d i ino ∧ IsDir s ino ∧ n (block s ino) = 0) := by
  have S := started h
  have I := S.toInv
  obtain ⟨r, s', hr, E⟩ := rmdir_effect I hd (.inl S.slots)
  have hr : denemefsRmdir d name s = .ok (r, s') := hr
  cases E with
  | fails hneg =>
    constructor
    · rintro (⟨i, ino, -, t, ht, -⟩ | ⟨hnone, -⟩) hex
      · rw [hr] at ht
        cases ht
        cases hneg
      · exact absurd hex hnone
    · intro hcond
      refine .inr ⟨fun hex => ?_, r, hneg, hr⟩
      obtain ⟨i, ino, hs, hl, hdir, hn⟩ := hcond hex
      have he : entry s d name = some ino := (entry_eq_some I hd).mpr ⟨i, hs, hl.2.1, hl.2.2.1⟩
      obtain ⟨j, -, -, hok⟩ := rmdir_empty I hd he hdir.2 hn hl.2.2.2
      rw [hr, Except.ok.injEq, Prod.mk.injEq] at hok
      omega
  | @rmdir _ i ino _ hs hl ht hn =>
    have hdir : IsDir s ino := ⟨I.tree.target hl, ht⟩
    refine iff_of_true (.inl ⟨i, ino, ⟨hl, ((slot_eq_some (I.wf d hd)).mp hs).2.1, hdir, ?_⟩, _, hr,
      .cut I hl hn⟩) fun _ => ⟨i, ino, hs, hl, hdir, hn⟩
    intro k w hk
    have := hk.2.1
    omega

/-- The state behind some calls, from a disk without a RAM disk. -/
def runFrom (ops : List Op) : Option Table :=
  (denemefsInit zeroed none ⟨fun _ => .zero⟩).toOption.bind fun p =>
    System.after (fun s (op : Op) => op.enabled s ∧ op.fits s) (fun op => discard op.run) p.2 ops

theorem runFrom_reachable {ops : List Op} (h : runFrom ops = some s) : system.Reachable s := by
  obtain ⟨⟨u, t⟩, h0, h1⟩ := Option.bind_eq_some_iff.mp h
  exact System.Reachable.after (.init ⟨zeroed, none, _, (fun _ h => nomatch h), of_toOption h0⟩) h1

/-- The directory `/home/a`, in which nothing was made, is removed. -/
theorem rmdir_removes_empty_dirs_home : ∃ s, system.Reachable s ∧ RemovesEmptyDir s 1 (.ofString "a") := by
  obtain ⟨s, hs, hx⟩ : ∃ s, runFrom [.mkdir 1 (.ofString "a") 3] = some s ∧ IsDir s 1 ∧
      slot (block s 1) (.ofString "a") = some 0 ∧ 0 < n (block s 1) ∧ no (block s 1) 0 = 6 ∧ IsDir s 6 ∧
      n (block s 6) = 0 := observed (by decide +kernel)
  obtain ⟨hd, hslot, hlt, hno, hdir, hn⟩ := hx
  have hr := runFrom_reachable hs
  exact ⟨s, hr, (rmdir_removes_empty_dirs hr hd _).mpr fun _ => ⟨0, 6, hslot, ⟨hd, hlt, hno, by decide⟩, hdir, hn⟩⟩

/-- `/dir1/dir11` was removed, `/dir1` has no other entry, and `denemefs_rmdir` does
not remove it. -/
theorem rmdir_keeps_empty_dir : ∃ s i ino, system.Reachable s ∧ EmptyDir s 0 (.ofString "dir1") i ino ∧
    denemefsRmdir 0 (.ofString "dir1") s = .ok (-3, s) := by
  obtain ⟨s, hs, hx⟩ : ∃ s, runFrom [.rmdir 4 (.ofString "dir11")] = some s ∧
      slot (block s 0) (.ofString "dir1") = some 3 ∧ no (block s 0) 3 = 4 ∧ IsDir s 4 ∧ n (block s 4) = 1 ∧
      no (block s 4) 0 = 0 := observed (by decide +kernel)
  obtain ⟨hslot, hno, hdir, hn, hno'⟩ := hx
  have hr := runFrom_reachable hs
  have I := (started hr).toInv
  obtain ⟨hlt, hname, -⟩ := (slot_eq_some (I.wf 0 I.root)).mp hslot
  have he : entry s 0 (.ofString "dir1") = some 4 := (entry_eq_some I I.root).mpr ⟨3, hslot, hlt, hno⟩
  refine ⟨s, 3, 4, hr, ⟨⟨I.root, hlt, hno, by decide⟩, hname, hdir, ?_⟩, ?_⟩
  · rintro k w ⟨-, hk, hw, h0⟩
    obtain rfl : k = 0 := by omega
    exact h0 (hw.symm.trans hno')
  · exact rmdir_notEmpty I I.root he hdir.2 (by omega)

/-! ## Listing a directory -/

/-- What `denemefs_readdir` fills in. -/
structure DirentUser where
  dIno : Nat
  dOff : Nat
  dReclen : Nat
  dType : Nat
  dName : CString
deriving DecidableEq

/-- The size of `d_name`. -/
def direntNameSize : Nat := 256

/-- What was filled in and the new `fpos` of the file, or the negative return code.
`strcpy` leaves `d_name` if the name in the slot does not end in time. -/
def denemefsReaddir (ino fpos : Nat) : TableM (Except Int (DirentUser × Nat)) := do
  let inode := (← get).di ino
  if inode.mode.type ≠ .dir then
    return .error (-1)
  let sd ← dataOf ino
  if n sd = 0 then
    return .error (-2)
  if n sd ≤ fpos then
    return .error (-3)
  let name := sd.cstr (nameAt fpos) direntNameSize
  if name.length = direntNameSize then
    throw .overflow
  return .ok (⟨no sd fpos, 0, 0, 0, name⟩, fpos + 1)

/-- `denemefs_readdir` is called until it returns a negative value, at most `calls`
times; what was filled in, or none if it was not called often enough. -/
def readdirAll (ino : Nat) : Nat → Nat → TableM (Option (List DirentUser))
  | 0, _ => return none
  | calls + 1, fpos => do
    match ← denemefsReaddir ino fpos with
    | .error _ => return some []
    | .ok (dirent, fpos) =>
      let rest ← readdirAll ino calls fpos
      return rest.map (dirent :: ·)

/-- What `denemefs_readdir` makes of slot `i`. -/
def direntOf (sd : Mem) (i : Nat) : DirentUser := ⟨no sd i, 0, 0, 0, nameOf sd i⟩

section Readdir

variable (I : Inv s) (hd : IsDir s d)

include I hd

theorem readdir_slot (hi : i < n (block s d)) :
    denemefsReaddir d i s = .ok (.ok (direntOf (block s d) i, i + 1), s) := by
  obtain ⟨hname, hlen⟩ := Mem.cstr_mono ((I.wf d hd).ends i hi) (b := direntNameSize) (by decide)
  have hlen' : ((block s d).cstr (nameAt i) 32).length ≠ direntNameSize := by
    unfold direntNameSize
    omega
  have h0 : n (block s d) ≠ 0 := by omega
  unfold denemefsReaddir
  simp only [get_run, hd.2, ne_eq, not_true_eq_false, if_false]
  rw [bind_run (dataOf_some (I.hasData d hd.1)), hname]
  simp [h0, Nat.not_le.mpr hi, direntOf, hlen', nameOf]

theorem readdir_end (hi : n (block s d) ≤ i) : ∃ r, r < 0 ∧ denemefsReaddir d i s = .ok (.error r, s) := by
  unfold denemefsReaddir
  simp only [get_run, hd.2, ne_eq, not_true_eq_false, if_false]
  rw [bind_run (dataOf_some (I.hasData d hd.1))]
  by_cases h0 : n (block s d) = 0
  · exact ⟨-2, by decide, by simp [h0]⟩
  · exact ⟨-3, by decide, by simp [h0, hi]⟩

/-- From slot `i` on, the slots are yielded one after the other. -/
theorem readdirAll_slots (calls k i : Nat) (hk : i + k = n (block s d)) (hcalls : k < calls) :
    readdirAll d calls i s = .ok (some ((range' i k).map (direntOf (block s d))), s) := by
  induction calls generalizing k i with
  | zero => cases hcalls
  | succ calls ih =>
    unfold readdirAll
    cases k with
    | zero =>
      obtain ⟨r, -, hr⟩ := readdir_end (i := i) I hd (Nat.le_of_eq hk.symm)
      rw [bind_run hr]
      rfl
    | succ k =>
      rw [bind_run (readdir_slot I hd (by omega))]
      simp only
      rw [bind_run (ih k (i + 1) (by omega) (by omega))]
      rfl

end Readdir

/-- Each live entry of directory `d` is in the list once, and nothing else is. -/
def ListsLive (s : Table) (d : Nat) (l : List DirentUser) : Prop :=
  ∃ slots : List Nat, slots.Nodup ∧ (∀ i, i ∈ slots ↔ ∃ ino, LiveSlot s d i ino) ∧
    l.map (fun e => (e.dName, e.dIno)) = slots.map fun i => (nameOf (block s d) i, no (block s d) i)

/-- In every state of every run, for every directory: calling `denemefs_readdir` on a
file that was just opened comes to an end, and yields each live entry once and
nothing else exactly if no entry was removed from the directory. -/
theorem readdir_lists_live (h : system.Reachable s) (hd : IsDir s d) :
    ∃ l, (∀ calls, n (block s d) < calls → readdirAll d calls 0 s = .ok (some l, s)) ∧
      (ListsLive s d l ↔ ∀ i, i < n (block s d) → no (block s d) i ≠ 0) := by
  have I := (started h).toInv
  refine ⟨_, fun calls => readdirAll_slots I hd calls (n (block s d)) 0 (Nat.zero_add _), ?_⟩
  rw [← range_eq_range']
  constructor
  · rintro ⟨slots, hnodup, hmem, hmap⟩ i hi
    -- there are as many live slots as slots, so that all of them are live
    have hsub : slots ⊆ range (n (block s d)) := by
      intro j hj
      obtain ⟨ino, hl⟩ := (hmem j).mp hj
      exact mem_range.mpr hl.2.1
    have hlen : slots.length = (range (n (block s d))).length := by
      simpa using (congrArg length hmap).symm
    have hperm := (subperm_of_subset hnodup hsub).perm_of_length_le (Nat.le_of_eq hlen.symm)
    obtain ⟨ino, hl⟩ := (hmem i).mp (hperm.symm.subset (mem_range.mpr hi))
    rw [hl.2.2.1]
    exact hl.2.2.2
  · intro hlive
    refine ⟨range (n (block s d)), nodup_range, fun i => ?_, by simp [direntOf]⟩
    rw [mem_range]
    constructor
    · intro hi
      exact ⟨_, hd, hi, rfl, hlive i hi⟩
    · rintro ⟨ino, hl⟩
      exact hl.2.1

/-- `/home` with two files. -/
theorem readdir_lists_live_home : ∃ s l, system.Reachable s ∧ readdirAll 1 3 0 s = .ok (some l, s) ∧
    ListsLive s 1 l := by
  obtain ⟨s, hs, hx⟩ : ∃ s, runFrom [.create 1 (.ofString "a") 3, .create 1 (.ofString "b") 3] = some s ∧ IsDir s 1 ∧
      n (block s 1) = 2 ∧ no (block s 1) 0 = 6 ∧ no (block s 1) 1 = 7 := observed (by decide +kernel)
  obtain ⟨hd, hn, h0, h1⟩ := hx
  have hr := runFrom_reachable hs
  obtain ⟨l, hl, hiff⟩ := readdir_lists_live hr hd
  refine ⟨s, l, hr, hl 3 (by omega), hiff.mpr fun i hi => ?_⟩
  have : i = 0 ∨ i = 1 := by omega
  rcases this with rfl | rfl <;> omega

/-- A file was made in `/home` and removed: a nameless entry with number 0 is listed. -/
theorem readdir_lists_removed : ∃ s l, system.Reachable s ∧ IsDir s 1 ∧ readdirAll 1 3 0 s = .ok (some l, s) ∧
    ⟨0, 0, 0, 0, .empty⟩ ∈ l ∧ ¬ ListsLive s 1 l := by
  obtain ⟨s, hs, hx⟩ : ∃ s, runFrom [.create 1 (.ofString "a") 3, .create 1 (.ofString "b") 3,
      .unlink 1 (.ofString "a")] = some s ∧ IsDir s 1 ∧ n (block s 1) = 2 ∧
      direntOf (block s 1) 0 = ⟨0, 0, 0, 0, .empty⟩ := observed (by decide +kernel)
  obtain ⟨hd, hn, h0⟩ := hx
  have hr := runFrom_reachable hs
  have hall := readdirAll_slots (started hr).toInv hd 3 (n (block s 1)) 0 (Nat.zero_add _) (by omega)
  have hmem : ⟨0, 0, 0, 0, .empty⟩ ∈ (range' 0 (n (block s 1))).map (direntOf (block s 1)) := by
    rw [hn]
    exact mem_map.mpr ⟨0, by simp, h0⟩
  refine ⟨s, _, hr, hd, hall, hmem, ?_⟩
  rintro ⟨slots, -, hlive, hmap⟩
  have hm := mem_map_of_mem (f := fun e : DirentUser => (e.dName, e.dIno)) hmem
  rw [hmap] at hm
  obtain ⟨i, hi, hp⟩ := mem_map.mp hm
  obtain ⟨ino, hl⟩ := (hlive i).mp hi
  exact hl.2.2.2 (hl.2.2.1.symm.trans (congrArg Prod.snd hp))

end MakarnaX.Denemefs
