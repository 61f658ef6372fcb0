import MakarnaX.Fs.Denemefs.Run

/-!
# Initialisation and the tree

`denemefs_init` makes its directories and files with the calls of the file
system, and then the files of the initial RAM disk, if there is one.  If those fit
in one directory the table it leaves is a tree, and it stays one in every run.

The root directory has slots from then on.  This matters: a cleared slot has the
number of the root directory and the empty name, so that a search for the empty
name can find the root, and what keeps `denemefs_rmdir` from freeing it is that
it has slots.
-/

namespace MakarnaX.Denemefs

open Library Subdentry

variable {s s' : Table} {d mode ino size : Nat} {b : Mem}

/-- A table in use. -/
structure Started (s : Table) : Prop extends Inv s where
  slots : n (block s 0) ≠ 0

theorem Effect.started {op : Op} {r : Int} (S : Started s) (E : Effect s op r s') : Started s' where
  toInv := E.inv S.toInv
  slots := by
    have := E.slots_mono S.toInv S.root (E.inv S.toInv).root
    have := S.slots
    omega

/-! ## The calls of `denemefs_init` -/

/-- What an entry made in directory `d` has changed. -/
structure Entered (s s' : Table) (d : Nat) (name : CString) (ino : Nat) : Prop where
  inv : Inv s'
  dirs : ∀ x, IsDir s x → IsDir s' x
  slots : n (block s' d) = n (block s d) + 1
  others : ∀ x, IsDir s x → x ≠ d → n (block s' x) = n (block s x)
  entry : entry s' d name = some ino

theorem Entered.link (I : Inv s) (hd : IsDir s d) {name : CString} {type : FileType}
    (ht : type = .regular ∨ type = .dir) (hf : freeDi s = some ino) (he : Denemefs.entry s d name = none)
    (hfits : Fits s d name) : Entered s (link s d name ino (newDi mode size type)) d name ino where
  inv := link_inv I hd ht hf he hfits
  dirs x hx := (isDir_link (freeDi_eq_some hf).2 Nat.one_ne_zero x).mpr (.inl hx)
  slots := by rw [n_block_link I hd hf, if_pos rfl]
  others x hx hne := by rw [n_block_link I hx hf, if_neg hne]
  entry := entry_link_self I hd hf he hfits

theorem entry_fill {name : CString} (ht : (s.di ino).mode.type = .regular)
    (hd : IsDir s d) : entry (fill s ino b size) d name = entry s d name := by
  unfold entry
  rw [block_fill_dir ht hd]

/-- Then its contents are filled in. -/
theorem Entered.fill {name : CString} (E : Entered s s' d name ino) (hd : IsDir s d)
    (ht : (s'.di ino).mode.type = .regular) : Entered s (fill s' ino b size) d name ino where
  inv := E.inv.fill ht (used_of_entry E.inv (E.dirs d hd) E.entry)
  dirs x hx := (isDir_fill x).mpr (E.dirs x hx)
  slots := by rw [block_fill_dir ht (E.dirs d hd), E.slots]
  others x hx hne := by rw [block_fill_dir ht (E.dirs x hx), E.others x hx hne]
  entry := by rw [entry_fill ht (E.dirs d hd), E.entry]

section Asserted

variable (I : Inv s) (hd : IsDir s d) {name : String}

include I hd

theorem mkdirAsserted_ok (hfits : Fits s d (.ofString name)) (h : mkdirAsserted d name mode s = .ok ((), s')) :
    ∃ ino, Entered s s' d (.ofString name) ino ∧ IsDir s' ino ∧ n (block s' ino) = 0 := by
  obtain ⟨r, t, hr, E⟩ := mkdir_effect I hd fun _ _ => hfits
  have hr : denemefsMkdir d (.ofString name) mode s = .ok (r, t) := hr
  unfold mkdirAsserted at h
  rw [bind_run hr] at h
  obtain ⟨h0, rfl⟩ := lift_apply_ok.mp h
  have h0 : r = 0 := of_check_ok h0
  cases E with
  | fails hneg => omega
  | mkdir hd hf he hfits =>
    have hu := (freeDi_eq_some hf).2
    have F : Fresh (newDi mode subdentrySize .dir) := .newDi (.inr rfl)
    exact ⟨_, .link I hd (.inr rfl) hf he hfits, (isDir_link hu Nat.one_ne_zero _).mpr (.inr ⟨rfl, rfl⟩),
      congrArg n F.block_link⟩

theorem lookupAsserted_ok {ino : Nat} (h : lookupAsserted d name s = .ok (ino, s')) :
    s' = s ∧ entry s d (.ofString name) = some ino := by
  have hl := lookup_eq I hd (.ofString name)
  unfold lookupAsserted at h
  cases he : entry s d (.ofString name) with
  | none =>
    rw [he] at hl
    rw [bind_run hl] at h
    cases h
  | some x =>
    rw [he] at hl
    rw [bind_run hl] at h
    cases h
    exact ⟨rfl, rfl⟩

omit name in
/-- `denemefs_create`, if it has not failed. -/
theorem create_ok {name : CString} {inode : Inode} (hfits : Fits s d name)
    (h : denemefsCreate d name mode s = .ok (.ok inode, s')) :
    Entered s s' d name inode.ino ∧ (s'.di inode.ino).mode.type = .regular ∧
      (s'.di inode.ino).data = some (block s' inode.ino) := by
  cases hf : freeDi s with
  | none =>
    rw [create_noInode hf] at h
    cases h
  | some ino =>
    by_cases he : entry s d name = none
    · rw [create_unbound I hd hf he hfits] at h
      cases h
      have E : Entered s (link s d name ino (newDi mode 1000 .regular)) d name ino :=
        .link I hd (.inl rfl) hf he hfits
      exact ⟨E, by simp [inodeOf, newDi], E.inv.hasData _ (used_of_entry E.inv (E.dirs d hd) E.entry)⟩
    · rw [create_bound I hd he] at h
      cases h

theorem createAsserted_ok {text : String} (hfits : Fits s d (.ofString name))
    (h : createAsserted d name mode text s = .ok ((), s')) : ∃ ino, Entered s s' d (.ofString name) ino := by
  unfold createAsserted at h
  obtain ⟨r, t, hr, h⟩ := bind_apply_ok.mp h
  cases r with
  | error e => cases h
  | ok inode =>
    obtain ⟨E, ht, hdata⟩ := create_ok I hd hfits hr
    simp only [bind_run (dataOf_some hdata)] at h
    cases h
    exact ⟨_, E.fill hd ht⟩

end Asserted

/-! ## The initial RAM disk -/

/-- The regular files of the disk. -/
def regularFiles (files : List TarFile) : List TarFile := files.filter fun f => f.typeflag = 48

/-- They fit in one directory. -/
def InitrdFits (files : List TarFile) : Prop :=
  (regularFiles files).length ≤ denemeSubdentryCount ∧ ∀ f ∈ regularFiles files, f.name.length < 32

theorem mountInitrd_ok {files : List TarFile} (I : Inv s) (hd : IsDir s d)
    (hn : n (block s d) + (regularFiles files).length ≤ denemeSubdentryCount)
    (hl : ∀ f ∈ regularFiles files, f.name.length < 32) (h : mountInitrd d files s = .ok ((), s')) :
    Inv s' ∧ ∀ x, IsDir s x → n (block s x) ≤ n (block s' x) := by
  induction files generalizing s with
  | nil =>
    cases h
    exact ⟨I, fun _ _ => Nat.le_refl _⟩
  | cons f files ih =>
    unfold mountInitrd at h
    by_cases hf : f.typeflag = 48
    · have hreg : regularFiles (f :: files) = f :: regularFiles files := by simp [regularFiles, hf]
      rw [hreg] at hn hl
      simp only [List.length_cons] at hn
      have hfits : Fits s d f.name := ⟨by omega, hl f List.mem_cons_self⟩
      simp only [hf, if_true] at h
      obtain ⟨r, t, hr, h⟩ := bind_apply_ok.mp h
      cases r with
      | error e => cases h
      | ok inode =>
        obtain ⟨E, ht, -⟩ := create_ok I hd hfits hr
        simp only [setDi, modify_run] at h
        have E' : Entered s (fill _ _ f.data f.size) d _ _ := E.fill hd ht
        obtain ⟨I', hmono⟩ := ih E'.inv (E'.dirs d hd) (by rw [E'.slots]; omega)
          (fun g hg => hl g (List.mem_cons_of_mem f hg)) h
        refine ⟨I', fun x hx => Nat.le_trans ?_ (hmono x (E'.dirs x hx))⟩
        by_cases hxd : x = d
        · rw [hxd, E'.slots]
          omega
        · exact Nat.le_of_eq (E'.others x hx hxd).symm
    · have hreg : regularFiles (f :: files) = regularFiles files := by simp [regularFiles, hf]
      rw [hreg] at hn hl
      simp only [hf, if_false] at h
      exact ih I hd hn hl h

/-- `denemefs_init` leaves a tree whose root directory has slots. -/
theorem denemefsInit_started {initrd : Option (List TarFile)} {s0 : Table}
    (hfits : ∀ files ∈ initrd, InitrdFits files) (h : denemefsInit b initrd s0 = .ok ((), s)) : Started s := by
  unfold denemefsInit at h
  rw [set_run] at h
  have I0 := Inv.rootTable b
  have hn0 : n (block (rootTable b) 0) = 0 := Mem.read32_self _ _ (by decide)
  -- /home
  rw [bind_apply_ok] at h
  obtain ⟨_, s1, h1, h⟩ := h
  obtain ⟨_, E1, -⟩ := mkdirAsserted_ok I0 I0.root ⟨by rw [hn0]; decide, by decide⟩ h1
  rw [bind_apply_ok] at h
  obtain ⟨_, s1', h1', h⟩ := h
  obtain ⟨rfl, -⟩ := lookupAsserted_ok E1.inv E1.inv.root h1'
  have hn1 := E1.slots.trans (congrArg (· + 1) hn0)
  -- /dosya1, /dosya2
  rw [bind_apply_ok] at h
  obtain ⟨_, s2, h2, h⟩ := h
  obtain ⟨_, E2⟩ := createAsserted_ok E1.inv E1.inv.root ⟨by rw [hn1]; decide, by decide⟩ h2
  have hn2 := E2.slots.trans (congrArg (· + 1) hn1)
  rw [bind_apply_ok] at h
  obtain ⟨_, s3, h3, h⟩ := h
  obtain ⟨_, E3⟩ := createAsserted_ok E2.inv E2.inv.root ⟨by rw [hn2]; decide, by decide⟩ h3
  have hn3 := E3.slots.trans (congrArg (· + 1) hn2)
  -- /dir1
  rw [bind_apply_ok] at h
  obtain ⟨_, s4, h4, h⟩ := h
  obtain ⟨dir1, E4, hdir1, hslots⟩ := mkdirAsserted_ok E3.inv E3.inv.root ⟨by rw [hn3]; decide, by decide⟩ h4
  have hn4 := E4.slots.trans (congrArg (· + 1) hn3)
  rw [bind_apply_ok] at h
  obtain ⟨x, s4', h4', h⟩ := h
  obtain ⟨rfl, hx⟩ := lookupAsserted_ok E4.inv E4.inv.root h4'
  obtain rfl : dir1 = x := Option.some.inj (E4.entry.symm.trans hx)
  -- /dir1/dir11
  rw [bind_apply_ok] at h
  obtain ⟨_, s5, h5, h⟩ := h
  obtain ⟨_, E5, -⟩ := mkdirAsserted_ok E4.inv hdir1 ⟨by rw [hslots]; decide, by decide⟩ h5
  have hne : (0 : Nat) ≠ dir1 := by
    rintro rfl
    rw [hn4] at hslots
    cases hslots
  have hn5 := (E5.others 0 E4.inv.root hne).trans hn4
  cases initrd with
  | none =>
    cases h
    exact ⟨E5.inv, by rw [hn5]; decide⟩
  | some files =>
    -- /initrd
    obtain ⟨hcount, hnames⟩ := hfits files rfl
    rw [bind_apply_ok] at h
    obtain ⟨_, s6, h6, h⟩ := h
    obtain ⟨dir, E6, hdir, hslots⟩ := mkdirAsserted_ok E5.inv E5.inv.root ⟨by rw [hn5]; decide, by decide⟩ h6
    have hn6 := E6.slots.trans (congrArg (· + 1) hn5)
    rw [bind_apply_ok] at h
    obtain ⟨x, s6', h6', h⟩ := h
    obtain ⟨rfl, hx⟩ := lookupAsserted_ok E6.inv E6.inv.root h6'
    obtain rfl : dir = x := Option.some.inj (E6.entry.symm.trans hx)
    obtain ⟨I7, hmono⟩ := mountInitrd_ok E6.inv hdir (by rw [hslots]; omega) hnames h
    refine ⟨I7, fun h0 => ?_⟩
    have := hmono 0 E6.inv.root
    omega

/-! ## Runs -/

/-- The tables `denemefs_init` leaves. -/
def Initial (s : Table) : Prop :=
  ∃ b initrd s0, (∀ files ∈ initrd, InitrdFits files) ∧ denemefsInit b initrd s0 = .ok ((), s)

def system : System Table :=
  .ofOps Initial (fun s (op : Op) => op.enabled s ∧ op.fits s) fun op => discard op.run

theorem started (h : system.Reachable s) : Started s := by
  refine System.Reachable.invariant ?_ ?_ h
  · rintro s ⟨b, initrd, s0, hfits, h⟩
    exact denemefsInit_started hfits h
  · rintro s s' S ⟨op, ⟨he, hf⟩, hr⟩
    obtain ⟨r, t, ht, E⟩ := Op.effect S.toInv he hf (.inl S.slots)
    have hr : discard op.run s = .ok ((), s') := hr
    rw [discard_run ht] at hr
    cases hr
    exact E.started S

/-- In every state reached from `denemefs_init`: a used inode other than the root
is in exactly one live slot; a live slot refers to a used inode; there is exactly
one way from the root to a used inode; and every call on a live directory returns
and, if it fails, leaves the table as it was. -/
theorem inode_table_tree (h : system.Reachable s) :
    (∀ ino, Used s ino → ino ≠ 0 → ∃! p : Nat × Nat, LiveSlot s p.1 p.2 ino) ∧
    (∀ d i ino, LiveSlot s d i ino → Used s ino) ∧
    (∀ ino, Used s ino → ∃! path, Walk (LiveSlot s) 0 path ino) ∧
    ∀ op : Op, op.enabled s → op.fits s → ∃ r s', op.run s = .ok (r, s') ∧ (r < 0 → s' = s) := by
  have S := started h
  refine ⟨fun ino hu h0 => ?_, fun d i ino hl => S.tree.target hl, fun ino hu => ?_, fun op he hf => ?_⟩
  · obtain ⟨d, i, hl⟩ := S.tree.edge_of_used hu h0
    refine ⟨(d, i), hl, fun p hp => ?_⟩
    obtain ⟨h1, h2⟩ := S.tree.single hp hl
    exact Prod.ext h1 h2
  · obtain ⟨p, hp⟩ := S.tree.reach hu
    exact ⟨p, hp, fun q hq => S.tree.walk_unique hq hp⟩
  · obtain ⟨r, s', hr, E⟩ := Op.effect S.toInv he hf (.inl S.slots)
    refine ⟨r, s', hr, fun hneg => ?_⟩
    cases E with
    | fails | lookup => rfl
    | _ => omega

/-- A file made in `/home`, a directory next to it and the file removed again:
the directory is in one slot. -/
theorem inode_table_tree_home :
    ∃ s, system.Reachable s ∧ Used s 7 ∧ ∃! p : Nat × Nat, LiveSlot s p.1 p.2 7 := by
  have hrun : ((denemefsInit zeroed none ⟨fun _ => .zero⟩).toOption.bind fun p =>
      (System.after (fun s (op : Op) => op.enabled s ∧ op.fits s) (fun op => discard op.run) p.2
        [.create 1 (.ofString "a") 3, .mkdir 1 (.ofString "b") 3, .unlink 1 (.ofString "a")]).map
        fun s => decide (Used s 7)) = some true := by
    decide +kernel
  obtain ⟨⟨u, s0⟩, h0, h1⟩ := Option.bind_eq_some_iff.mp hrun
  obtain ⟨s, hs, hx⟩ := Option.map_eq_some_iff.mp h1
  have hi : Initial s0 := ⟨zeroed, none, _, (fun _ h => nomatch h), of_toOption h0⟩
  have hr : system.Reachable s := System.Reachable.after (.init hi) hs
  have hu : Used s 7 := of_decide_eq_true hx
  exact ⟨s, hr, hu, (inode_table_tree hr).1 7 hu (by decide)⟩

end MakarnaX.Denemefs
