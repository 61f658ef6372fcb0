import MakarnaX.Fs.Denemefs.Init

/-!
# A directory is a map

The abstract view of the directories is a map from a directory and a name to an
inode.  It knows nothing of slots: a call that made an entry binds the name to the
inode it took, a call that removed one unbinds it.  In every run whose entries
fit, `denemefs_lookup` finds exactly what the map says.

If an entry does not fit this fails.  A name of 32 bytes or more continues in the
next slot, and the next entry overwrites its end; and as slots are not used again,
a directory runs out of them however few entries it has.
-/

namespace MakarnaX.Denemefs

open Library Subdentry Option

variable {s s' : Table} {d i ino : Nat} {name : CString} {op : Op} {m : Names} {r : Int} {new : DenemeInode}

/-! ## Entries by name -/

/-- A name that is not empty is in one slot at most, so the first is the one. -/
theorem entry_iff (I : Inv s) (hd : IsDir s d) (hname : name ≠ .empty) :
    entry s d name = some ino ↔
      ∃ i, i < n (block s d) ∧ nameOf (block s d) i = name ∧ no (block s d) i = ino := by
  rw [entry_eq_some I hd]
  refine exists_congr fun i => ?_
  constructor
  · rintro ⟨hs, hi, hno⟩
    exact ⟨hi, ((slot_eq_some (I.wf d hd)).mp hs).2.1, hno⟩
  · rintro ⟨hi, hn, hno⟩
    refine ⟨(slot_eq_some (I.wf d hd)).mpr ⟨hi, hn, fun j hj hj' => ?_⟩, hi, hno⟩
    have := I.distinct d i j hd hi (Nat.lt_trans hj hi) (hn.trans hj'.symm) (hn ▸ hname)
    omega

theorem entry_of_empty (h : n (block s d) = 0) (name : CString) : entry s d name = none := by
  simp [entry, slot, h]

/-- The new entry, and no other, is there. -/
theorem entry_link (I : Inv s) (hd : IsDir s d) (F : Fresh new) (hf : freeDi s = some ino)
    (he : entry s d name = none) (hfits : Fits s d name) {d' : Nat} (hd' : IsDir s d') {name' : CString}
    (hname : name' ≠ .empty) :
    entry (link s d name ino new) d' name' = if d' = d ∧ name' = name then some ino else entry s d' name' := by
  obtain ⟨hino, hu⟩ := freeDi_eq_some hf
  by_cases hdd : d' = d
  · subst hdd
    by_cases hnn : name' = name
    · rw [if_pos ⟨rfl, hnn⟩, hnn]
      exact entry_link_self I hd hf he hfits
    · have W := I.wf d' hd
      have I' := I.link hd hino hu F hfits (entry_eq_none.mp he)
      have hd2 : IsDir (link s d' name ino new) d' := (isDir_link hu F.nlinks_ne d').mpr (.inl hd)
      rw [if_neg fun h => hnn h.2]
      refine ext fun x => ?_
      rw [entry_iff I' hd2 hname, entry_iff I hd hname, block_link_dir (dir_ne hd hu), n_add W]
      refine exists_congr fun i => ?_
      constructor
      · rintro ⟨hi, hn, hno⟩
        rcases Nat.lt_succ_iff_lt_or_eq.mp hi with hi | rfl
        · rw [(nameOf_add_ne W hfits.1 hi).1] at hn
          rw [no_add_ne W hi] at hno
          exact ⟨hi, hn, hno⟩
        · rw [(nameOf_add_self hfits.2).1] at hn
          exact absurd hn.symm hnn
      · rintro ⟨hi, hn, hno⟩
        exact ⟨by omega, by rw [(nameOf_add_ne W hfits.1 hi).1, hn], by rw [no_add_ne W hi, hno]⟩
  · rw [if_neg fun h => hdd h.1]
    unfold entry
    rw [block_link_ne (dir_ne hd' hu) hdd]

/-- The removed entry, and no other, is gone. -/
theorem entry_cut (I : Inv s) (hl : LiveSlot s d i ino) (hleaf : IsDir s ino → n (block s ino) = 0) {d' : Nat}
    (hd' : IsDir s d') (hne : d' ≠ ino) {name' : CString} (hname : name' ≠ .empty) :
    entry (cut s d i ino) d' name' =
      if d' = d ∧ name' = nameOf (block s d) i then none else entry s d' name' := by
  have I' := I.cut hl hleaf
  have hd2 : IsDir (cut s d i ino) d' := (isDir_cut d').mpr ⟨hd', hne⟩
  have hn := n_block_cut (s := s) (d := d) (i := i) hne
  refine ext fun x => ?_
  rw [entry_iff I' hd2 hname, hn]
  constructor
  · rintro ⟨j, hj, hjn, hjno⟩
    rw [nameOf_block_cut I hl hd' hne hj] at hjn
    rw [no_block_cut I hd' hne hj] at hjno
    split at hjn
    · exact absurd hjn.symm hname
    · next hji =>
      rw [if_neg hji] at hjno
      rw [if_neg, entry_iff I hd' hname]
      · exact ⟨j, hj, hjn, hjno⟩
      · rintro ⟨rfl, rfl⟩
        exact hji ⟨rfl, I.distinct d' j i hd' hj hl.2.1 hjn (hjn ▸ hname)⟩
  · intro h
    split at h
    · cases h
    · next hdn =>
      obtain ⟨j, hj, hjn, hjno⟩ := (entry_iff I hd' hname).mp h
      have hji : ¬ (d' = d ∧ j = i) := by
        rintro ⟨rfl, rfl⟩
        exact hdn ⟨rfl, hjn.symm⟩
      exact ⟨j, hj, by rw [nameOf_block_cut I hl hd' hne hj, if_neg hji, hjn],
        by rw [no_block_cut I hd' hne hj, if_neg hji, hjno]⟩

/-! ## The map -/

/-- A map from directories and names to inodes. -/
abbrev Names := Nat → CString → Option Nat

def Names.bind (m : Names) (d : Nat) (name : CString) (ino : Option Nat) : Names :=
  fun d' name' => if d' = d ∧ name' = name then ino else m d' name'

/-- What the directories of a table say. -/
def bindings (s : Table) : Names := fun d name => if IsDir s d then entry s d name else none

/-- The map behind a call: `s` is the table in front of it and `r` its return
code.  A new entry is bound to the inode the call takes, the first free one. -/
def Names.after (m : Names) (s : Table) (r : Int) : Op → Names
  | .create d name _ | .mkdir d name _ => if r < 0 then m else m.bind d name (freeDi s)
  | .unlink d name | .rmdir d name => if r < 0 then m else m.bind d name none
  | .lookup .. | .write .. => m

/-- The map says what the table does, of every name that is not empty. -/
def Agree (m : Names) (s : Table) : Prop := ∀ d name, name ≠ .empty → m d name = bindings s d name

theorem Agree.link (A : Agree m s) (I : Inv s) (hd : IsDir s d) (F : Fresh new)
    (hf : freeDi s = some ino) (he : entry s d name = none) (hfits : Fits s d name) :
    Agree (m.bind d name (some ino)) (link s d name ino new) := by
  intro d' name' hname
  have hu := (freeDi_eq_some hf).2
  have hA := A d' name' hname
  unfold bindings at hA ⊢
  unfold Names.bind
  by_cases hd' : IsDir s d'
  · rw [if_pos hd'] at hA
    rw [if_pos ((isDir_link hu F.nlinks_ne d').mpr (.inl hd')), entry_link I hd F hf he hfits hd' hname, hA]
  · rw [if_neg hd'] at hA
    rw [if_neg fun h : d' = d ∧ name' = name => hd' (h.1 ▸ hd), hA]
    split
    · next h =>
      -- a directory that was just made has no entry
      rcases (isDir_link hu F.nlinks_ne d').mp h with h | ⟨rfl, -⟩
      · exact absurd h hd'
      · exact (entry_of_empty (congrArg n F.block_link) name').symm
    · rfl

theorem Agree.cut (A : Agree m s) (I : Inv s) (hl : LiveSlot s d i ino)
    (hleaf : IsDir s ino → n (block s ino) = 0) (hs : slot (block s d) name = some i) :
    Agree (m.bind d name none) (cut s d i ino) := by
  intro d' name' hname
  have hA := A d' name' hname
  have hn : nameOf (block s d) i = name := ((slot_eq_some (I.wf d hl.1)).mp hs).2.1
  unfold bindings at hA ⊢
  unfold Names.bind
  by_cases hd' : IsDir s d'
  · rw [if_pos hd'] at hA
    by_cases hne : d' = ino
    · -- a removed directory had no entry
      subst hne
      rw [if_neg fun h => ((isDir_cut d').mp h).2 rfl, hA, entry_of_empty (hleaf hd')]
      split <;> rfl
    · rw [if_pos ((isDir_cut d').mpr ⟨hd', hne⟩), entry_cut I hl hleaf hd' hne hname, hn, hA]
  · rw [if_neg hd'] at hA
    rw [if_neg fun h => hd' ((isDir_cut d').mp h).1, hA]
    split <;> rfl

theorem Agree.fill (A : Agree m s) {b : Mem} {size : Nat} (ht : (s.di ino).mode.type = .regular) :
    Agree m (fill s ino b size) := by
  intro d' name' hname
  rw [A d' name' hname]
  unfold bindings
  by_cases hd' : IsDir s d'
  · rw [if_pos hd', if_pos ((isDir_fill d').mpr hd'), entry_fill ht hd']
  · rw [if_neg hd', if_neg fun h => hd' ((isDir_fill d').mp h)]

theorem Effect.agree (A : Agree m s) (I : Inv s) (E : Effect s op r s') :
    Agree (m.after s r op) s' := by
  cases E with
  | fails hr =>
    cases op <;> simpa [Names.after, hr] using A
  | create hd hf he hfits =>
    simp only [Names.after, Int.lt_irrefl, if_false, hf]
    exact A.link I hd (.newDi (.inl rfl)) hf he hfits
  | mkdir hd hf he hfits =>
    simp only [Names.after, Int.lt_irrefl, if_false, hf]
    exact A.link I hd (.newDi (.inr rfl)) hf he hfits
  | unlink hs hl ht =>
    refine A.cut I hl (fun hd => ?_) hs
    rw [hd.2] at ht
    cases ht
  | rmdir hs hl ht hn => exact A.cut I hl (fun _ => hn) hs
  | lookup => exact A
  | write hu ht => exact A.fill ht

/-! ## Runs with a history -/

/-- A table and the map that its history says. -/
structure Traced where
  table : Table
  names : Names

/-- A call, and what it does to the map. -/
def Op.traced (op : Op) : StateT Traced Exec Unit := fun t => do
  let (r, s) ← op.run t.table
  return ((), ⟨s, t.names.after t.table r op⟩)

/-- The runs from the table with an empty root directory, the one that
`denemefs_init` starts with, of calls with names that are not empty. -/
def tracedSystem (allowed : Table → Op → Prop) : System Traced :=
  .ofOps (fun t => ∃ b, t = ⟨rootTable b, fun _ _ => none⟩)
    (fun t op => op.enabled t.table ∧ op.named ∧ allowed t.table op) Op.traced

theorem traced_of_ok {t : Traced} (h : op.run t.table = .ok (r, s')) :
    op.traced t = .ok ((), ⟨s', t.names.after t.table r op⟩) := by
  unfold Op.traced
  rw [h]
  rfl

theorem Agree.rootTable (b : Mem) : Agree (fun _ _ => none) (rootTable b) := by
  intro d name hname
  unfold bindings
  split
  · next hd =>
    -- only the root is a directory
    have h0 : d = 0 := by
      by_contra h
      exact hd.1 (by simp [Denemefs.rootTable, h, DenemeInode.zero])
    subst h0
    have hn : n (block (Denemefs.rootTable b) 0) = 0 := Mem.read32_self _ _ (by decide)
    exact (entry_of_empty hn name).symm
  · rfl

theorem traced_invariant {t : Traced} (h : (tracedSystem Op.fits).Reachable t) :
    Inv t.table ∧ Agree t.names t.table := by
  refine System.Reachable.invariant (I := fun t => Inv t.table ∧ Agree t.names t.table) ?_ ?_ h
  · rintro t ⟨b, rfl⟩
    exact ⟨.rootTable b, .rootTable b⟩
  · rintro t t' ⟨I, A⟩ ⟨op, ⟨he, hn, hf⟩, hr⟩
    obtain ⟨r, s', hs, E⟩ := Op.effect I he hf (.inr hn)
    rw [traced_of_ok hs] at hr
    cases hr
    exact ⟨E.inv I, E.agree A I⟩

/-- What `denemefs_lookup` finds is what the map says. -/
theorem lookup_agrees (I : Inv s) (A : Agree m s) (hd : IsDir s d) (hname : name ≠ .empty) :
    ∃ r, denemefsLookup d name s = .ok (r, s) ∧
      ∀ ino, (∃ inode, r = .ok inode ∧ inode.ino = ino) ↔ m d name = some ino := by
  refine ⟨_, lookup_eq I hd name, fun ino => ?_⟩
  rw [A d name hname]
  unfold bindings
  rw [if_pos hd]
  cases entry s d name with
  | none => simp
  | some x => simp [inodeOf]

/-- The directory and the name a call is about. -/
def Op.about : Op → Option (Nat × CString)
  | .create d name _ | .mkdir d name _ | .unlink d name | .rmdir d name => some (d, name)
  | .lookup .. | .write .. => none

/-- A call about another name leaves the map as it was. -/
theorem after_other (h : op.about ≠ some (d, name)) : m.after s r op d name = m d name := by
  have hbind : ∀ {d' name' x}, some (d', name') ≠ some (d, name) → m.bind d' name' x d name = m d name := by
    intro d' name' x hne
    refine if_neg fun heq => hne ?_
    rw [heq.1, heq.2]
  cases op with
  | create | mkdir | unlink | rmdir =>
    simp only [Names.after]
    split
    · rfl
    · exact hbind h
  | lookup | write => rfl

/-- In every run whose entries fit, of every directory and every name that is not
empty: `denemefs_lookup` returns the inode the name was last bound to, if it was
not removed since, and an error else; a bound name cannot be created again, and
the attempt changes nothing; an unbound one can, while there is a free inode, and
the slot written is one of the struct; and a call about another name, or in
another directory, does not change what `denemefs_lookup` returns. -/
theorem directory_is_map {t : Traced} (h : (tracedSystem Op.fits).Reachable t) (hd : IsDir t.table d)
    (hname : name ≠ .empty) :
    (∃ r, denemefsLookup d name t.table = .ok (r, t.table) ∧
      ∀ ino, (∃ inode, r = .ok inode ∧ inode.ino = ino) ↔ t.names d name = some ino) ∧
    (t.names d name ≠ none → ∀ mode, denemefsCreate d name mode t.table = .ok (.error (-1), t.table) ∧
      denemefsMkdir d name mode t.table = .ok (-1, t.table)) ∧
    (t.names d name = none → freeDi t.table ≠ none → Fits t.table d name → ∀ mode,
      (∃ inode s', denemefsCreate d name mode t.table = .ok (.ok inode, s')) ∧
      (∃ s', denemefsMkdir d name mode t.table = .ok (0, s')) ∧ n (block t.table d) < denemeSubdentryCount) ∧
    ∀ op : Op, op.enabled t.table → op.named → op.fits t.table → op.about ≠ some (d, name) →
      ∃ r s', op.run t.table = .ok (r, s') ∧ (IsDir s' d → ∃ r', denemefsLookup d name s' = .ok (r', s') ∧
        ∀ ino, (∃ inode, r' = .ok inode ∧ inode.ino = ino) ↔ t.names d name = some ino) := by
  obtain ⟨I, A⟩ := traced_invariant h
  have hA := A d name hname
  unfold bindings at hA
  rw [if_pos hd] at hA
  refine ⟨lookup_agrees I A hd hname, fun hb mode => ?_, fun hb hf hfits mode => ?_, fun op he hn hf ho => ?_⟩
  · rw [hA] at hb
    exact ⟨create_bound I hd hb, enter_bound I hd hb⟩
  · rw [hA] at hb
    obtain ⟨ino, hf⟩ := ne_none_iff_exists'.mp hf
    exact ⟨⟨_, _, create_unbound I hd hf hb hfits⟩, ⟨_, enter_unbound I hd hf hb⟩, hfits.1⟩
  · obtain ⟨r, s', hr, E⟩ := Op.effect I he hf (.inr hn)
    refine ⟨r, s', hr, fun hd' => ?_⟩
    have hl := lookup_agrees (E.inv I) (E.agree A I) hd' hname
    rwa [after_other ho] at hl

/-- A file and a directory are made and the file is removed: its name is not
bound, that of the directory is. -/
theorem directory_is_map_two :
    ∃ t, (tracedSystem Op.fits).Reachable t ∧ t.names 0 (.ofString "b") = some 2 ∧
      denemefsMkdir 0 (.ofString "b") 3 t.table = .ok (-1, t.table) := by
  have hrun : (System.after (fun t op => op.enabled t.table ∧ op.named ∧ op.fits t.table) Op.traced
      ⟨rootTable zeroed, fun _ _ => none⟩
      [.create 0 (.ofString "a") 3, .mkdir 0 (.ofString "b") 3, .unlink 0 (.ofString "a")]).map
      (fun t => (t.names 0 (.ofString "b"), decide (IsDir t.table 0))) = some (some 2, true) := by
    decide +kernel
  obtain ⟨t, ht, hx⟩ := map_eq_some_iff.mp hrun
  simp only [Prod.mk.injEq, decide_eq_true_eq] at hx
  have hr : (tracedSystem Op.fits).Reachable t := System.Reachable.after (.init ⟨zeroed, rfl⟩) ht
  exact ⟨t, hr, hx.1, ((directory_is_map hr hx.2 (by decide)).2.1 (by simp [hx.1]) 3).2⟩

/-! ## Entries that do not fit -/

/-- A name of 40 bytes. -/
def longName : CString := ⟨List.replicate 40 65, by decide⟩

/-- A file with a name of 40 bytes is made and then one with a name of one byte.
The second name is written into the first, which is not found any more. -/
theorem long_name_lost :
    ∃ t, (tracedSystem fun _ _ => True).Reachable t ∧ IsDir t.table 0 ∧ t.names 0 longName = some 1 ∧
      ∃ e s', denemefsLookup 0 longName t.table = .ok (.error e, s') := by
  have hrun : (System.after (fun t op => op.enabled t.table ∧ op.named ∧ True) Op.traced
      ⟨rootTable zeroed, fun _ _ => none⟩ [.create 0 longName 3, .create 0 (.ofString "b") 3]).bind
      (fun t => (denemefsLookup 0 longName t.table).toOption.map fun p =>
        (t.names 0 longName, decide (IsDir t.table 0), p.1.toOption)) = some (some 1, true, none) := by
    decide +kernel
  obtain ⟨t, ht, h1⟩ := bind_eq_some_iff.mp hrun
  obtain ⟨⟨r, s'⟩, hl, hx⟩ := map_eq_some_iff.mp h1
  simp only [Prod.mk.injEq, decide_eq_true_eq] at hx
  refine ⟨t, System.Reachable.after (.init ⟨zeroed, rfl⟩) ht, hx.2.1, hx.1, ?_⟩
  cases r with
  | ok inode => cases hx.2.2
  | error e => exact ⟨e, s', of_toOption hl⟩

end MakarnaX.Denemefs
