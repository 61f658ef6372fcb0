import MakarnaX.Fs.Denemefs.Directory
import MakarnaX.Library.Rooted

/-!
# The table as a tree

A live slot is one with an inode number other than 0: a cleared slot has the
number of the root directory, which no slot is ever made for.  The live slots are
the edges of a graph on the used inodes, and the invariant says that it is a tree.

A call changes the table in three ways only.  `link` enters a new inode in a
directory, `cut` takes out an inode that is no directory with slots, and `fill`
changes the contents of a regular file.  All keep the invariant, provided that
`link` stays within the struct.
-/

namespace MakarnaX.Denemefs

open Library Subdentry Function

variable {s : Table} {d i ino x : Nat} {name : CString} {new : DenemeInode}

def Used (s : Table) (ino : Nat) : Prop := (s.di ino).nlinks ≠ 0

def IsDir (s : Table) (d : Nat) : Prop := Used s d ∧ (s.di d).mode.type = .dir

instance (s : Table) (ino : Nat) : Decidable (Used s ino) := inferInstanceAs (Decidable (_ ≠ _))

instance (s : Table) (d : Nat) : Decidable (IsDir s d) := inferInstanceAs (Decidable (_ ∧ _))

/-- The block of an inode. -/
def block (s : Table) (ino : Nat) : Mem := (s.di ino).data.getD zeroed

/-- Slot `i` of directory `d` refers to `ino`. -/
def LiveSlot (s : Table) (d i ino : Nat) : Prop :=
  IsDir s d ∧ i < n (block s d) ∧ no (block s d) i = ino ∧ ino ≠ 0

structure Inv (s : Table) : Prop where
  tree : Rooted (LiveSlot s) 0 (Used s)
  root : IsDir s 0
  bound : ∀ i, Used s i → i < diCount
  free : ∀ i, ¬ Used s i → s.di i = .zero
  typed : ∀ i, Used s i → (s.di i).mode.type = .regular ∨ (s.di i).mode.type = .dir
  hasData : ∀ i, Used s i → (s.di i).data = some (block s i)
  wf : ∀ d, IsDir s d → WF (block s d)
  /-- A slot without an inode has no name. -/
  cleared : ∀ d i, IsDir s d → i < n (block s d) → no (block s d) i = 0 → nameOf (block s d) i = .empty
  /-- No two slots of a directory have the same name, unless they have none. -/
  distinct : ∀ d i j, IsDir s d → i < n (block s d) → j < n (block s d) →
    nameOf (block s d) i = nameOf (block s d) j → nameOf (block s d) i ≠ .empty → i = j

/-- Every slot of a directory has the number of a used inode. -/
theorem Inv.used_no (I : Inv s) (hd : IsDir s d) (hi : i < n (block s d)) : Used s (no (block s d) i) := by
  by_cases h0 : no (block s d) i = 0
  · rw [h0]
    exact I.root.1
  · exact I.tree.target ⟨hd, hi, rfl, h0⟩

theorem Inv.liveSlot_of_name (I : Inv s) (hd : IsDir s d) (hi : i < n (block s d))
    (hne : nameOf (block s d) i ≠ .empty) : LiveSlot s d i (no (block s d) i) :=
  ⟨hd, hi, rfl, fun h0 => hne (I.cleared d i hd hi h0)⟩

/-! ## A new inode -/

/-- The table with inode `ino` set up and entered in directory `d`. -/
def link (s : Table) (d : Nat) (name : CString) (ino : Nat) (new : DenemeInode) : Table where
  di := update
    (update s.di d { s.di d with data := some (add (block s d) name ino) }) ino new

/-- What `link` makes of an inode it did not enter. -/
theorem link_di (h : x ≠ ino) :
    (link s d name ino new).di x =
      if x = d then { s.di d with data := some (add (block s d) name ino) } else s.di x := by
  simp [link, update_apply, h]

@[simp] theorem link_di_self : (link s d name ino new).di ino = new := update_self ..

theorem link_mode (h : x ≠ ino) : ((link s d name ino new).di x).mode = (s.di x).mode := by
  rw [link_di h]
  split
  · next h => rw [h]
  · rfl

theorem used_link (hnew : new.nlinks ≠ 0) (x : Nat) : Used (link s d name ino new) x ↔ Used s x ∨ x = ino := by
  unfold Used
  by_cases hx : x = ino
  · simp [hx, hnew]
  · rw [link_di hx]
    split
    · next h =>
      subst h
      simp [hx]
    · simp [hx]

theorem isDir_link (hf : ¬ Used s ino) (hnew : new.nlinks ≠ 0) (x : Nat) :
    IsDir (link s d name ino new) x ↔ IsDir s x ∨ x = ino ∧ new.mode.type = .dir := by
  unfold IsDir
  rw [used_link hnew]
  by_cases hx : x = ino
  · subst hx
    simp [hf]
  · simp [hx, link_mode hx]

theorem block_link_dir (h : d ≠ ino) : block (link s d name ino new) d = add (block s d) name ino := by
  simp [block, link_di h]

theorem block_link_ne (hx : x ≠ ino) (hd : x ≠ d) : block (link s d name ino new) x = block s x := by
  simp [block, link_di hx, hd]

theorem block_link_self : block (link s d name ino new) ino = new.data.getD zeroed := by
  simp [block]

/-- The new inode is in order: one link, a known type and a cleared block. -/
structure Fresh (new : DenemeInode) : Prop where
  nlinks : new.nlinks = 1
  typed : new.mode.type = .regular ∨ new.mode.type = .dir
  data : new.data = some zeroed

namespace Fresh

theorem nlinks_ne (F : Fresh new) : new.nlinks ≠ 0 := by simp [F.nlinks]

theorem block_link (F : Fresh new) : block (link s d name ino new) ino = zeroed := by
  simp [block_link_self, F.data]

end Fresh

/-- The entry stays within the struct. -/
def Fits (s : Table) (d : Nat) (name : CString) : Prop :=
  n (block s d) < denemeSubdentryCount ∧ name.length < 32

instance (s : Table) (d : Nat) (name : CString) : Decidable (Fits s d name) :=
  inferInstanceAs (Decidable (_ ∧ _))

section Link

variable (I : Inv s) (hd : IsDir s d) (hino : ino < diCount) (hf : ¬ Used s ino) (F : Fresh new)
  (hfits : Fits s d name)

include hd hf in
/-- The directory was there before. -/
theorem dir_ne : d ≠ ino := fun h => hf (h ▸ hd.1)

include I hd hino hf F hfits in
theorem live_link (v l w : Nat) :
    LiveSlot (link s d name ino new) v l w ↔ LiveSlot s v l w ∨ v = d ∧ l = n (block s d) ∧ w = ino := by
  have hne := dir_ne hd hf
  have W := I.wf d hd
  have h0 : ino ≠ 0 := fun h => hf (h ▸ I.root.1)
  unfold LiveSlot
  rw [isDir_link hf F.nlinks_ne]
  by_cases hv : v = ino
  · -- the new inode has no slots
    subst hv
    rw [F.block_link]
    constructor
    · rintro ⟨-, hl, -⟩
      cases hl
    · rintro (⟨h, -⟩ | ⟨h, -⟩)
      · exact absurd h.1 hf
      · exact absurd h.symm hne
  by_cases hvd : v = d
  · subst hvd
    rw [block_link_dir hne, n_add W]
    constructor
    · rintro ⟨-, hl, hw, hw0⟩
      rcases Nat.lt_succ_iff_lt_or_eq.mp hl with hl | rfl
      · rw [no_add_ne W hl] at hw
        exact .inl ⟨hd, hl, hw, hw0⟩
      · rw [no_add_self hfits.1 (by unfold diCount at hino; omega)] at hw
        exact .inr ⟨rfl, rfl, hw.symm⟩
    · rintro (⟨-, hl, hw, hw0⟩ | ⟨-, rfl, rfl⟩)
      · exact ⟨.inl hd, by omega, by rw [no_add_ne W hl, hw], hw0⟩
      · exact ⟨.inl hd, by omega, no_add_self hfits.1 (by unfold diCount at hino; omega), h0⟩
  · rw [block_link_ne hv hvd]
    simp [hv, hvd]

include I hd hf hfits in
/-- The name of a slot in a directory that was there. -/
theorem nameOf_link {v l : Nat} (hv : IsDir s v) (hl : l < n (block (link s d name ino new) v)) :
    v = d ∧ l = n (block s d) ∧ nameOf (block (link s d name ino new) v) l = name ∨
    l < n (block s v) ∧ nameOf (block (link s d name ino new) v) l = nameOf (block s v) l := by
  have hne := dir_ne hd hf
  have W := I.wf d hd
  by_cases hvd : v = d
  · subst hvd
    rw [block_link_dir hne] at hl ⊢
    rw [n_add W] at hl
    rcases Nat.lt_succ_iff_lt_or_eq.mp hl with hl | rfl
    · exact .inr ⟨hl, (nameOf_add_ne W hfits.1 hl).1⟩
    · exact .inl ⟨rfl, rfl, (nameOf_add_self hfits.2).1⟩
  · rw [block_link_ne (dir_ne hv hf) hvd] at hl ⊢
    exact .inr ⟨hl, rfl⟩

include I hd hf F hfits in
theorem wf_link (v : Nat) (hv : IsDir (link s d name ino new) v) : WF (block (link s d name ino new) v) := by
  have hne := dir_ne hd hf
  rcases (isDir_link hf F.nlinks_ne v).mp hv with hv | ⟨rfl, -⟩
  · by_cases hvd : v = d
    · subst hvd
      rw [block_link_dir hne]
      exact (I.wf v hd).add hfits.1 hfits.2
    · rw [block_link_ne (dir_ne hv hf) hvd]
      exact I.wf v hv
  · rw [F.block_link]
    exact .of_empty rfl

include I hd hino hf F hfits in
/-- Entering a new inode under a new name keeps the tree. -/
theorem Inv.link (hslot : slot (block s d) name = none) : Inv (link s d name ino new) := by
  have hne := dir_ne hd hf
  have h0 : ino ≠ 0 := fun h => hf (h ▸ I.root.1)
  have hnew := slot_eq_none (I.wf d hd) |>.mp hslot
  have hlive := live_link I hd hino hf F hfits
  have hname : ∀ {v l}, IsDir s v → l < n (block (Denemefs.link s d name ino new) v) → _ :=
    fun {v l} => nameOf_link I hd hf hfits
  -- the slots of a directory of the new table are those of an old one
  have hold : ∀ {v l}, IsDir (Denemefs.link s d name ino new) v →
      l < n (block (Denemefs.link s d name ino new) v) → IsDir s v := by
    intro v l hv hl
    rcases (isDir_link hf F.nlinks_ne v).mp hv with hv | ⟨rfl, -⟩
    · exact hv
    · rw [F.block_link] at hl
      cases hl
  refine ⟨I.tree.insert hd.1 hf h0 hlive (used_link F.nlinks_ne), ?_, ?_, ?_, ?_, ?_,
    wf_link I hd hf F hfits, ?_, ?_⟩
  · exact (isDir_link hf F.nlinks_ne 0).mpr (.inl I.root)
  · intro x hx
    rcases (used_link F.nlinks_ne x).mp hx with hx | rfl
    · exact I.bound x hx
    · exact hino
  · intro x hx
    rw [used_link F.nlinks_ne, not_or] at hx
    have hxd : x ≠ d := fun h => hx.1 (h ▸ hd.1)
    rw [link_di hx.2, if_neg hxd, I.free x hx.1]
  · intro x hx
    rcases (used_link F.nlinks_ne x).mp hx with hu | rfl
    · have hxi : x ≠ ino := fun h => hf (h ▸ hu)
      rw [link_mode hxi]
      exact I.typed x hu
    · simpa using F.typed
  · intro x hx
    rcases (used_link F.nlinks_ne x).mp hx with hu | rfl
    · have hxi : x ≠ ino := fun h => hf (h ▸ hu)
      by_cases hxd : x = d
      · subst hxd
        rw [block_link_dir hne, link_di hxi, if_pos rfl]
      · rw [block_link_ne hxi hxd, link_di hxi, if_neg hxd]
        exact I.hasData x hu
    · rw [F.block_link, link_di_self, F.data]
  · intro v l hv hl hz
    have hv' := hold hv hl
    rcases hname hv' hl with ⟨rfl, rfl, -⟩ | ⟨hl', he⟩
    · have := (hlive v (n (block s v)) ino).mpr (.inr ⟨rfl, rfl, rfl⟩)
      exact absurd (this.2.2.1.symm.trans hz) h0
    · rw [he]
      refine I.cleared v l hv' hl' ?_
      by_contra hno
      exact ((hlive v l _).mpr (.inl ⟨hv', hl', rfl, hno⟩)).2.2.2 (by
        have := ((hlive v l _).mpr (.inl ⟨hv', hl', rfl, hno⟩)).2.2.1
        rw [← this, hz])
  · intro v l l' hv hl hl' he hnz
    have hv' := hold hv hl
    rcases hname hv' hl with ⟨rfl, rfl, h1⟩ | ⟨h1, h1'⟩ <;> rcases hname hv' hl' with ⟨h2, rfl, h2'⟩ | ⟨h2, h2'⟩
    · rfl
    · rw [h1, h2'] at he
      exact absurd he.symm (hnew l' h2)
    · subst h2
      rw [h1', h2'] at he
      exact absurd he (hnew l h1)
    · rw [h1', h2'] at he
      rw [h1'] at hnz
      exact I.distinct v l l' hv' h1 h2 he hnz

end Link

/-! ## An inode taken out -/

/-- The table with slot `i` of directory `d` and inode `ino` cleared. -/
def cut (s : Table) (d i ino : Nat) : Table where
  di := update
    (update s.di d { s.di d with data := some (clear (block s d) i) }) ino .zero

theorem cut_di (h : x ≠ ino) :
    (cut s d i ino).di x = if x = d then { s.di d with data := some (clear (block s d) i) } else s.di x := by
  simp [cut, update_apply, h]

@[simp] theorem cut_di_self : (cut s d i ino).di ino = .zero := update_self ..

theorem cut_mode (h : x ≠ ino) : ((cut s d i ino).di x).mode = (s.di x).mode := by
  rw [cut_di h]
  split
  · next h => rw [h]
  · rfl

theorem used_cut (x : Nat) : Used (cut s d i ino) x ↔ Used s x ∧ x ≠ ino := by
  unfold Used
  by_cases hx : x = ino
  · simp [hx, DenemeInode.zero]
  · rw [cut_di hx]
    split
    · next h =>
      subst h
      simp [hx]
    · simp [hx]

theorem isDir_cut (x : Nat) : IsDir (cut s d i ino) x ↔ IsDir s x ∧ x ≠ ino := by
  unfold IsDir
  rw [used_cut]
  by_cases hx : x = ino
  · simp [hx]
  · simp [hx, cut_mode hx]

theorem block_cut_dir (h : d ≠ ino) : block (cut s d i ino) d = clear (block s d) i := by
  simp [block, cut_di h]

theorem block_cut_ne (hx : x ≠ ino) (hd : x ≠ d) : block (cut s d i ino) x = block s x := by
  simp [block, cut_di hx, hd]

section Cut

variable (I : Inv s) (hl : LiveSlot s d i ino) (hleaf : IsDir s ino → n (block s ino) = 0)

theorem n_block_cut {v : Nat} (hv : v ≠ ino) : n (block (cut s d i ino) v) = n (block s v) := by
  by_cases hvd : v = d
  · subst hvd
    rw [block_cut_dir hv, n_clear]
  · rw [block_cut_ne hv hvd]

include I in
theorem no_block_cut {v k : Nat} (hv : IsDir s v) (hvi : v ≠ ino) (hk : k < n (block s v)) :
    no (block (cut s d i ino) v) k = if v = d ∧ k = i then 0 else no (block s v) k := by
  by_cases hvd : v = d
  · subst hvd
    rw [block_cut_dir hvi]
    by_cases hki : k = i
    · rw [if_pos ⟨rfl, hki⟩, hki]
      exact no_clear_self _ i
    · rw [if_neg fun h => hki h.2]
      exact no_clear_ne (Nat.lt_of_lt_of_le hk (I.wf v hv).count) hki
  · rw [block_cut_ne hvi hvd, if_neg fun h => hvd h.1]

include I hl in
theorem nameOf_block_cut {v k : Nat} (hv : IsDir s v) (hvi : v ≠ ino) (hk : k < n (block s v)) :
    nameOf (block (cut s d i ino) v) k = if v = d ∧ k = i then .empty else nameOf (block s v) k := by
  by_cases hvd : v = d
  · subst hvd
    rw [block_cut_dir hvi]
    by_cases hki : k = i
    · rw [if_pos ⟨rfl, hki⟩, hki]
      exact (nameOf_clear_self _ i).1
    · have W := I.wf v hv
      rw [if_neg fun h => hki h.2]
      exact (nameOf_clear_ne (Nat.lt_of_lt_of_le hl.2.1 W.count) hki (W.ends k hk)).1
  · rw [block_cut_ne hvi hvd, if_neg fun h => hvd h.1]

include I hl hleaf in
theorem live_cut (v k w : Nat) : LiveSlot (cut s d i ino) v k w ↔ LiveSlot s v k w ∧ w ≠ ino := by
  constructor
  · rintro ⟨hv, hk, hw, h0⟩
    obtain ⟨hv, hvi⟩ := (isDir_cut v).mp hv
    rw [n_block_cut hvi] at hk
    rw [no_block_cut I hv hvi hk] at hw
    split at hw
    · exact absurd hw.symm h0
    · next hne =>
      refine ⟨⟨hv, hk, hw, h0⟩, fun hwi => hne ?_⟩
      exact I.tree.single ⟨hv, hk, hw, h0⟩ (hwi ▸ hl)
  · rintro ⟨⟨hv, hk, hw, h0⟩, hwi⟩
    have hvi : v ≠ ino := by
      rintro rfl
      rw [hleaf hv] at hk
      cases hk
    refine ⟨(isDir_cut v).mpr ⟨hv, hvi⟩, by rwa [n_block_cut hvi], ?_, h0⟩
    rw [no_block_cut I hv hvi hk, if_neg, hw]
    rintro ⟨rfl, rfl⟩
    exact hwi (hw.symm.trans hl.2.2.1)

include I hl hleaf in
/-- Taking out an inode without slots keeps the tree. -/
theorem Inv.cut : Inv (cut s d i ino) := by
  have h0 := hl.2.2.2
  have hleaf' : ∀ l w, ¬ LiveSlot s ino l w := by
    rintro l w ⟨h, hlt, -⟩
    rw [hleaf h] at hlt
    cases hlt
  refine ⟨I.tree.remove hleaf' (live_cut I hl hleaf) used_cut, (isDir_cut 0).mpr ⟨I.root, h0.symm⟩, ?_, ?_, ?_,
    ?_, ?_, ?_, ?_⟩
  · exact fun x hx => I.bound x ((used_cut x).mp hx).1
  · intro x hx
    by_cases hxi : x = ino
    · rw [hxi, cut_di_self]
    · have hu : ¬ Used s x := fun hu => hx ((used_cut x).mpr ⟨hu, hxi⟩)
      have hxd : x ≠ d := fun h => hu (h ▸ hl.1.1)
      rw [cut_di hxi, if_neg hxd, I.free x hu]
  · intro x hx
    obtain ⟨hu, hxi⟩ := (used_cut x).mp hx
    rw [cut_mode hxi]
    exact I.typed x hu
  · intro x hx
    obtain ⟨hu, hxi⟩ := (used_cut x).mp hx
    by_cases hxd : x = d
    · subst hxd
      rw [block_cut_dir hxi, cut_di hxi, if_pos rfl]
    · rw [block_cut_ne hxi hxd, cut_di hxi, if_neg hxd]
      exact I.hasData x hu
  · intro v hv
    obtain ⟨hvs, hvi⟩ := (isDir_cut v).mp hv
    by_cases hvd : v = d
    · subst hvd
      rw [block_cut_dir hvi]
      exact (I.wf v hvs).clear hl.2.1
    · rw [block_cut_ne hvi hvd]
      exact I.wf v hvs
  · intro v k hv hk hz
    obtain ⟨hv, hvi⟩ := (isDir_cut v).mp hv
    rw [n_block_cut hvi] at hk
    rw [no_block_cut I hv hvi hk] at hz
    rw [nameOf_block_cut I hl hv hvi hk]
    split at hz
    · next h => rw [if_pos h]
    · next h =>
      rw [if_neg h]
      exact I.cleared v k hv hk hz
  · intro v k k' hv hk hk' he hne
    obtain ⟨hv, hvi⟩ := (isDir_cut v).mp hv
    rw [n_block_cut hvi] at hk hk'
    rw [nameOf_block_cut I hl hv hvi hk] at he hne
    rw [nameOf_block_cut I hl hv hvi hk'] at he
    split at he
    · next h => exact absurd (if_pos h) hne
    · next h =>
      rw [if_neg h] at hne
      split at he
      · exact absurd he hne
      · exact I.distinct v k k' hv hk hk' he hne

end Cut

/-! ## Contents -/

/-- The table with other contents of `ino`. -/
def fill (s : Table) (ino : Nat) (b : Mem) (size : Nat) : Table where
  di := update s.di ino { s.di ino with data := some b, size := size }

section Fill

variable {b : Mem} {size : Nat}

theorem fill_di (h : x ≠ ino) : (fill s ino b size).di x = s.di x := update_of_ne h ..

theorem used_fill (x : Nat) : Used (fill s ino b size) x ↔ Used s x := by
  unfold Used
  by_cases hx : x = ino
  · simp [hx, fill]
  · rw [fill_di hx]

theorem mode_fill (x : Nat) : ((fill s ino b size).di x).mode = (s.di x).mode := by
  by_cases hx : x = ino
  · simp [hx, fill]
  · rw [fill_di hx]

theorem isDir_fill (x : Nat) : IsDir (fill s ino b size) x ↔ IsDir s x := by
  unfold IsDir
  rw [used_fill, mode_fill]

theorem block_fill_self : block (fill s ino b size) ino = b := by simp [block, fill]

variable (ht : (s.di ino).mode.type = .regular)

include ht

theorem block_fill_dir {v : Nat} (hv : IsDir s v) : block (fill s ino b size) v = block s v := by
  have hne : v ≠ ino := by
    rintro rfl
    rw [hv.2] at ht
    cases ht
  simp [block, fill_di hne]

theorem live_fill (v l w : Nat) : LiveSlot (fill s ino b size) v l w ↔ LiveSlot s v l w := by
  unfold LiveSlot
  rw [isDir_fill]
  refine and_congr_right fun hv => ?_
  rw [block_fill_dir ht hv]

theorem Inv.fill (I : Inv s) (hu : Used s ino) : Inv (fill s ino b size) := by
  have hlive : LiveSlot (Denemefs.fill s ino b size) = LiveSlot s := by
    funext v l w
    exact propext (live_fill ht v l w)
  have hused : Used (Denemefs.fill s ino b size) = Used s := by
    funext x
    exact propext (used_fill x)
  refine ⟨?_, (isDir_fill 0).mpr I.root, fun x hx => I.bound x ((used_fill x).mp hx), ?_, ?_, ?_, ?_, ?_, ?_⟩
  · rw [hlive, hused]
    exact I.tree
  · intro x hx
    rw [used_fill] at hx
    have hne : x ≠ ino := fun h => hx (h ▸ hu)
    rw [fill_di hne, I.free x hx]
  · intro x hx
    rw [mode_fill]
    exact I.typed x ((used_fill x).mp hx)
  · intro x hx
    by_cases hxi : x = ino
    · rw [hxi, block_fill_self]
      simp [Denemefs.fill]
    · rw [fill_di hxi, I.hasData x ((used_fill x).mp hx)]
      simp [block, fill_di hxi]
  · intro v hv
    have hv := (isDir_fill v).mp hv
    rw [block_fill_dir ht hv]
    exact I.wf v hv
  · intro v l hv
    have hv := (isDir_fill v).mp hv
    rw [block_fill_dir ht hv]
    exact I.cleared v l hv
  · intro v l l' hv
    have hv := (isDir_fill v).mp hv
    rw [block_fill_dir ht hv]
    exact I.distinct v l l' hv

end Fill

/-! ## The first table -/

/-- The root directory alone is a tree. -/
theorem Inv.rootTable (b : Mem) : Inv (rootTable b) := by
  have hn : n (block (Denemefs.rootTable b) 0) = 0 := Mem.read32_self _ _ (by decide)
  have hused : ∀ x, Used (Denemefs.rootTable b) x ↔ x = 0 := by
    intro x
    by_cases hx : x = 0
    · simp [hx, Used, Denemefs.rootTable]
    · simp [hx, Used, Denemefs.rootTable, DenemeInode.zero]
  have hnone : ∀ v l w, ¬ LiveSlot (Denemefs.rootTable b) v l w := by
    rintro v l w ⟨hv, hl, -⟩
    obtain rfl := (hused v).mp hv.1
    rw [hn] at hl
    cases hl
  have hlt : ∀ {v l}, IsDir (Denemefs.rootTable b) v → ¬ l < n (block (Denemefs.rootTable b) v) := by
    intro v l hv hl
    obtain rfl := (hused v).mp hv.1
    rw [hn] at hl
    cases hl
  refine ⟨⟨fun h => (hnone _ _ _ h).elim, fun h => (hnone _ _ _ h).elim, fun h => (hnone _ _ _ h).elim,
    hnone _ _ _, ?_⟩, ⟨(hused 0).mpr rfl, rfl⟩, ?_, ?_, ?_, ?_, ?_, fun v l hv hl => absurd hl (hlt hv),
    fun v l _ hv hl => absurd hl (hlt hv)⟩
  · intro w hw
    obtain rfl := (hused w).mp hw
    exact ⟨[], .nil⟩
  · intro x hx
    rw [(hused x).mp hx]
    decide
  · intro x hx
    have h0 : x ≠ 0 := fun h => hx ((hused x).mpr h)
    simp [Denemefs.rootTable, h0]
  · intro x hx
    rw [(hused x).mp hx]
    exact .inr rfl
  · intro x hx
    rw [(hused x).mp hx]
    rfl
  · intro v hv
    obtain rfl := (hused v).mp hv.1
    exact .of_empty hn

end MakarnaX.Denemefs
