import MakarnaX.Fs.Vfs.Lookup

/-!
# The cache and the disk

What a path means is said on the inode table alone: `.` is the directory itself,
`..` the directory whose slot refers to it (the root for the root), and any other
name the inode of the slot with that name.

The cache is coherent with the table if every dirent with an inode, the root
apart, is a child of a dirent with an inode, and the table has an entry with its
name and number in that directory.  Then no two dirents have the same number, and
a step along the cache is a step on disk.
-/

namespace MakarnaX.Vfs

open Library Denemefs Subdentry List Option Function

variable {s s' : State} {t : Table} {d i y : Nat} {name : CString}

/-! ## Names on disk -/

/-- One component of a path, on the inode table. -/
inductive DiskStep (t : Table) (x : Nat) (name : CString) : Nat → Prop
  | dot : name = Vfs.dot → DiskStep t x name x
  | root : name = dotdot → x = 0 → DiskStep t x name x
  | up {y k : Nat} : name = dotdot → LiveSlot t y k x → DiskStep t x name y
  | down {y : Nat} : name ≠ Vfs.dot → name ≠ dotdot → IsDir t x → entry t x name = some y → DiskStep t x name y

/-- A path, component by component. -/
inductive Resolves (t : Table) : Nat → List CString → Nat → Prop
  | nil {x : Nat} : Resolves t x [] x
  | cons {x y z : Nat} {name : CString} {names : List CString} :
      DiskStep t x name y → Resolves t y names z → Resolves t x (name :: names) z

theorem DiskStep.unique (I : Inv t) {x y z : Nat} (h : DiskStep t x name y) (h' : DiskStep t x name z) : y = z := by
  have hne := dot_ne_dotdot
  cases h with
  | dot hn =>
    cases h' with
    | dot => rfl
    | root hn' | up hn' => exact absurd (hn.symm.trans hn') hne
    | down h1 => exact absurd hn h1
  | root hn hx =>
    cases h' with
    | dot hn' => exact absurd (hn'.symm.trans hn) hne
    | root => rfl
    | up _ hl => exact absurd (hx ▸ hl) I.tree.top
    | down _ h2 => exact absurd hn h2
  | up hn hl =>
    cases h' with
    | dot hn' => exact absurd (hn'.symm.trans hn) hne
    | root _ hx => exact absurd (hx ▸ hl) I.tree.top
    | up _ hl' => exact (I.tree.single hl hl').1
    | down _ h2 => exact absurd hn h2
  | down h1 h2 _ he =>
    cases h' with
    | dot hn' => exact absurd hn' h1
    | root hn' | up hn' => exact absurd hn' h2
    | down _ _ _ he' => exact some.inj (he.symm.trans he')

/-- The entry of a name in a directory is a live slot. -/
theorem liveSlot_of_entry (I : Inv t) {x y : Nat} (hd : IsDir t x) (hn : name ≠ .empty) (he : entry t x name = some y) :
    ∃ k, LiveSlot t x k y ∧ nameOf (block t x) k = name := by
  obtain ⟨k, hk, hkn, rfl⟩ := (entry_iff I hd hn).mp he
  exact ⟨k, I.liveSlot_of_name hd hk (hkn ▸ hn), hkn⟩

/-! ## Coherence -/

/-- The inode number a dirent stands for. -/
def number (s : State) (d : Nat) : Option Nat := (s.dirents d).inode.map fun i => (s.inodes i).ino

/-- The operations of an inode of the table. -/
def opOf (t : Table) (ino : Nat) : InodeOperations := if (t.di ino).mode.type = .dir then .denemefsDir else .denemefsFile

/-- A name that a component of a path can be. -/
def Plain (name : CString) : Prop := name ≠ .empty ∧ slash ∉ name.bytes

/-- A name that stands for an entry: it can be a component, and is neither `.` nor `..`. -/
def Proper (name : CString) : Prop := Plain name ∧ name ≠ dot ∧ name ≠ dotdot

/-- Dirent `c` is a child of dirent `p`, and so it is on disk. -/
structure Child (s : State) (p c : Nat) : Prop where
  lt : c < s.nDirents
  ne : c ≠ 0
  parent : (s.dirents c).parent = some p
  proper : Proper (s.dirents c).name
  entry : ∃ a b, number s p = some a ∧ number s c = some b ∧ IsDir s.disk a ∧
    entry s.disk a (s.dirents c).name = some b

/-- The inode of a dirent is in order. -/
structure Known (s : State) (i : Nat) : Prop where
  lt : i < s.nInodes
  used : Used s.disk (s.inodes i).ino
  op : (s.inodes i).op = some (opOf s.disk (s.inodes i).ino)

structure Coherent (s : State) : Prop where
  disk : Started s.disk
  unlocked : Unlocked s
  free : InodesFree s
  pos : 0 < s.nDirents
  root : number s 0 = some 0
  known : ∀ {d i}, d < s.nDirents → (s.dirents d).inode = some i → Known s i
  child : ∀ {p c}, p < s.nDirents → c ∈ (s.dirents p).childs → Child s p c
  up : ∀ {c}, c < s.nDirents → c ≠ 0 → (s.dirents c).inode ≠ none →
    ∃ p, p < s.nDirents ∧ (s.dirents c).parent = some p ∧ c ∈ (s.dirents p).childs
  inj : ∀ {a b x}, a < s.nDirents → b < s.nDirents → number s a = some x → number s b = some x → a = b
  nodup : ∀ {p}, p < s.nDirents → (s.dirents p).childs.Nodup
  counts : ∀ d, 0 ≤ (s.dirents d).refCount

/-- The directories of the tasks are dirents, and their root is the root. -/
def TasksOk (s : State) : Prop := ∀ t fs, s.tasks t = some fs → fs.root = 0 ∧ fs.pwd < s.nDirents

/-! ## Nothing but counts has changed -/

/-- The same dirents, up to their counts, and the same inodes in them. -/
structure Similar (s s' : State) : Prop where
  disk : s'.disk = s.disk
  nDirents : s'.nDirents = s.nDirents
  inode : ∀ d, (s'.dirents d).inode = (s.dirents d).inode
  name : ∀ d, (s'.dirents d).name = (s.dirents d).name
  parent : ∀ d, (s'.dirents d).parent = (s.dirents d).parent
  childs : ∀ d, (s'.dirents d).childs = (s.dirents d).childs
  nInodes : s.nInodes ≤ s'.nInodes
  ino : ∀ i, i < s.nInodes → (s'.inodes i).ino = (s.inodes i).ino
  op : ∀ i, i < s.nInodes → (s'.inodes i).op = (s.inodes i).op
  tasks : s'.tasks = s.tasks

namespace Similar

theorem dup (s : State) (d : Nat) : Similar s (s.dup d) := by
  constructor
  case inode | name | parent | childs =>
    intro x
    by_cases h : x = d
    · subst h
      simp [State.dup]
    · simp [State.dup, h]
  case nInodes => exact Nat.le_refl _
  all_goals intros
  all_goals rfl

theorem drop (s : State) (d : Nat) : Similar s (s.drop d) := by
  constructor
  case inode | name | parent | childs =>
    intro x
    by_cases h : x = d
    · subst h
      simp [State.drop]
    · simp [State.drop, h]
  case nInodes => exact Nat.le_refl _
  all_goals intros
  all_goals rfl

theorem refer (s : State) (i : Nat) (k : Int) : Similar s (s.refer i k) := by
  constructor
  case ino | op =>
    intro x _
    by_cases h : x = i
    · subst h
      simp [State.refer]
    · simp [State.refer, h]
  case nInodes => exact Nat.le_refl _
  all_goals intros
  all_goals rfl

theorem spare (s : State) : Similar s s.spare := by
  constructor
  case ino | op =>
    intro x hx
    have hne : x ≠ s.nInodes := Nat.ne_of_lt hx
    simp [State.spare, hne]
  case nInodes => exact Nat.le_succ _
  all_goals intros
  all_goals rfl

variable (S : Similar s s') (C : Coherent s)

include S C

theorem number (hd : d < s.nDirents) : Vfs.number s' d = Vfs.number s d := by
  unfold Vfs.number
  rw [S.inode d]
  cases hi : (s.dirents d).inode with
  | none => rfl
  | some i => rw [map_some, map_some, S.ino i (C.known hd hi).lt]

end Similar

theorem cached_similar (S : Similar s s') (dir : Nat) (name : CString) : cached s' dir name = cached s dir name := by
  unfold cached
  rw [S.childs dir]
  simp only [S.name]

/-- Coherence is about what has not changed. -/
theorem Coherent.similar (C : Coherent s) (S : Similar s s') (hU : Unlocked s') (hF : InodesFree s')
    (hc : ∀ d, 0 ≤ (s'.dirents d).refCount) : Coherent s' := by
  have hnum : ∀ {d}, d < s.nDirents → number s' d = number s d := fun h => S.number C h
  refine ⟨by rw [S.disk]; exact C.disk, hU, hF, by rw [S.nDirents]; exact C.pos, ?_, ?_, ?_, ?_, ?_, ?_, hc⟩
  · rw [hnum C.pos]
    exact C.root
  · intro d i hd hi
    rw [S.nDirents] at hd
    rw [S.inode] at hi
    have K := C.known hd hi
    refine ⟨Nat.lt_of_lt_of_le K.lt S.nInodes, ?_, ?_⟩
    · rw [S.disk, S.ino i K.lt]
      exact K.used
    · rw [S.disk, S.ino i K.lt, S.op i K.lt]
      exact K.op
  · intro p c hp hm
    rw [S.nDirents] at hp
    rw [S.childs] at hm
    have H := C.child hp hm
    refine ⟨by rw [S.nDirents]; exact H.lt, H.ne, by rw [S.parent]; exact H.parent, by rw [S.name]; exact H.proper, ?_⟩
    rw [hnum hp, hnum H.lt, S.disk, S.name]
    exact H.entry
  · intro c hc0 hne hi
    rw [S.nDirents] at hc0
    rw [S.inode] at hi
    obtain ⟨p, hp, hpar, hm⟩ := C.up hc0 hne hi
    exact ⟨p, by rw [S.nDirents]; exact hp, by rw [S.parent]; exact hpar, by rw [S.childs]; exact hm⟩
  · intro a b x ha hb hxa hxb
    rw [S.nDirents] at ha hb
    rw [hnum ha] at hxa
    rw [hnum hb] at hxb
    exact C.inj ha hb hxa hxb
  · intro p hp
    rw [S.nDirents] at hp
    rw [S.childs]
    exact C.nodup hp

theorem Coherent.dup (C : Coherent s) (d : Nat) : Coherent (s.dup d) := by
  refine C.similar (.dup s d) (fun x => ?_) C.free fun x => ?_
  · by_cases h : x = d
    · subst h
      simpa [State.dup] using C.unlocked x
    · simpa [State.dup, h] using C.unlocked x
  · have := C.counts x
    by_cases h : x = d
    · subst h
      simp only [State.dup, update_self]
      omega
    · simpa [State.dup, h] using this

theorem Coherent.drop (C : Coherent s) (h0 : 0 < (s.dirents d).refCount) : Coherent (s.drop d) := by
  refine C.similar (.drop s d) (fun x => ?_) C.free fun x => ?_
  · by_cases h : x = d
    · subst h
      simpa [State.drop] using C.unlocked x
    · simpa [State.drop, h] using C.unlocked x
  · have := C.counts x
    by_cases h : x = d
    · subst h
      simp only [State.drop, update_self]
      omega
    · simpa [State.drop, h] using this

theorem Coherent.refer (C : Coherent s) (i : Nat) (k : Int) : Coherent (s.refer i k) := by
  refine C.similar (.refer s i k) C.unlocked (fun x => ?_) C.counts
  by_cases h : x = i
  · subst h
    simpa [State.refer] using C.free x
  · simpa [State.refer, h] using C.free x

theorem Coherent.spare (C : Coherent s) : Coherent s.spare := by
  refine C.similar (.spare s) C.unlocked (fun x => ?_) C.counts
  by_cases h : x = s.nInodes
  · subst h
    simp [State.spare]
  · simpa [State.spare, h] using C.free x

/-! ## A new dirent -/

/-- What the file system on disk says of a name in a used inode. -/
theorem lookup_used (I : Inv t) {x : Nat} (hu : Used t x) (name : CString) :
    ∃ r, denemefsLookup x name t = .ok (r, t) ∧
      (∀ y, r = .ok y → IsDir t x ∧ entry t x name = some y.ino ∧ y = inodeOf t y.ino) ∧
      (∀ e, r = .error e → IsDir t x → entry t x name = none) := by
  by_cases hd : IsDir t x
  · refine ⟨_, lookup_eq I hd name, ?_, ?_⟩
    · intro y hy
      cases he : entry t x name with
      | none =>
        rw [he] at hy
        cases hy
      | some z =>
        rw [he] at hy
        cases hy
        exact ⟨hd, rfl, rfl⟩
    · intro e he _
      cases hx : entry t x name with
      | none => rfl
      | some z =>
        rw [hx] at he
        cases he
  · have ht : (t.di x).mode.type ≠ .dir := fun h => hd ⟨hu, h⟩
    refine ⟨_, lookup_notDir ht name, ?_, ?_⟩
    · intro y hy
      cases hy
    · intro e _ h
      exact absurd h hd

section Add

variable {dir : Nat} {x : Denemefs.Inode}

theorem add_dirent_new (hd : dir < s.nDirents) :
    (s.add dir name x).dirents s.nDirents = ⟨false, 1, some s.nInodes, name, some dir, []⟩ := by
  have hne : s.nDirents ≠ dir := Nat.ne_of_gt hd
  simp [State.add, State.attach, hne]

theorem add_dirent_dir : (s.add dir name x).dirents dir =
    { s.dirents dir with childs := (s.dirents dir).childs ++ [s.nDirents] } := by
  simp [State.add, State.attach]

theorem add_dirent_ne (h1 : y ≠ s.nDirents) (h2 : y ≠ dir) :
    (s.add dir name x).dirents y = s.dirents y := by
  simp [State.add, State.attach, h1, h2]

/-- An old dirent has at most one child more. -/
theorem add_dirent_old (dir : Nat) (name : CString) (x : Denemefs.Inode) (h : y < s.nDirents) :
    ((s.add dir name x).dirents y).inode = (s.dirents y).inode ∧
    ((s.add dir name x).dirents y).name = (s.dirents y).name ∧
    ((s.add dir name x).dirents y).parent = (s.dirents y).parent ∧
    ((s.add dir name x).dirents y).locked = (s.dirents y).locked ∧
    ((s.add dir name x).dirents y).refCount = (s.dirents y).refCount ∧
    ((s.add dir name x).dirents y).childs =
      (s.dirents y).childs ++ if y = dir then [s.nDirents] else [] := by
  by_cases h2 : y = dir
  · subst h2
    simp [add_dirent_dir]
  · simp [add_dirent_ne (Nat.ne_of_lt h) h2, h2]

theorem add_inode_old {j : Nat} (h : j < s.nInodes) : (s.add dir name x).inodes j = s.inodes j := by
  have hne : j ≠ s.nInodes := Nat.ne_of_lt h
  simp [State.add, State.attach, hne]

theorem add_inode_new : (s.add dir name x).inodes s.nInodes = ⟨x.ino, 1, some x.op, x.mode, x.size, 1⟩ := by
  simp [State.add, State.attach]

theorem number_add_old (C : Coherent s) (h : y < s.nDirents) :
    number (s.add dir name x) y = number s y := by
  unfold number
  rw [(add_dirent_old _ _ _ h).1]
  cases hi : (s.dirents y).inode with
  | none => rfl
  | some i => rw [map_some, map_some, add_inode_old (C.known h hi).lt]

theorem number_add_new (hd : dir < s.nDirents) : number (s.add dir name x) s.nDirents = some x.ino := by
  unfold number
  rw [add_dirent_new hd, map_some, add_inode_new]

/-- A name was found on disk that is not in the cache. -/
structure Finds (s : State) (dir : Nat) (name : CString) (x : Denemefs.Inode) : Prop where
  lt : dir < s.nDirents
  proper : Proper name
  fresh : cached s dir name = none
  entry : ∃ a, number s dir = some a ∧ IsDir s.disk a ∧ Denemefs.entry s.disk a name = some x.ino
  inode : x = inodeOf s.disk x.ino

/-- No dirent stands for the inode that was found: it would be a child of the
same directory with the same name. -/
theorem Finds.number_ne (F : Finds s dir name x) (C : Coherent s) (hy : y < s.nDirents) :
    number s y ≠ some x.ino := by
  intro hn
  obtain ⟨a, ha, hda, he⟩ := F.entry
  obtain ⟨k, hl, hk⟩ := liveSlot_of_entry C.disk.toInv hda F.proper.1.1 he
  have hy0 : y ≠ 0 := by
    rintro rfl
    rw [C.root] at hn
    exact hl.2.2.2 (some.inj hn).symm
  have hlive : (s.dirents y).inode ≠ none := by
    intro h0
    unfold number at hn
    rw [h0] at hn
    cases hn
  obtain ⟨p, hp, -, hm⟩ := C.up hy hy0 hlive
  obtain ⟨a', b, ha', hb, hda', he'⟩ := (C.child hp hm).entry
  obtain rfl : x.ino = b := some.inj (hn.symm.trans hb)
  obtain ⟨k', hl', hk'⟩ := liveSlot_of_entry C.disk.toInv hda' (C.child hp hm).proper.1.1 he'
  obtain ⟨rfl, rfl⟩ := C.disk.tree.single hl hl'
  obtain rfl : p = dir := C.inj hp F.lt ha' ha
  have hfind := find?_eq_none.mp F.fresh y hm
  exact hfind (by simpa using hk'.symm.trans hk)

/-- The cache stays coherent. -/
theorem Coherent.add (C : Coherent s) (F : Finds s dir name x) : Coherent (s.add dir name x) := by
  have hnew : (s.add dir name x).dirents s.nDirents = _ := add_dirent_new F.lt
  have hnumNew : number (s.add dir name x) s.nDirents = _ := number_add_new F.lt
  have hnum : ∀ {y}, y < s.nDirents → number (s.add dir name x) y = number s y := fun h => number_add_old C h
  have hlt : ∀ {y}, y < (s.add dir name x).nDirents → y < s.nDirents ∨ y = s.nDirents := fun h => Nat.lt_succ_iff_lt_or_eq.mp h
  obtain ⟨a, ha, hda, he⟩ := F.entry
  refine ⟨C.disk, ?_, ?_, Nat.succ_pos _, (hnum C.pos).trans C.root, ?_, ?_, ?_, ?_, ?_, ?_⟩
  · intro y
    by_cases h1 : y = s.nDirents
    · rw [h1, hnew]
    · by_cases h2 : y = dir
      · rw [h2, add_dirent_dir]
        exact C.unlocked dir
      · rw [add_dirent_ne h1 h2]
        exact C.unlocked y
  · intro j
    by_cases h : j = s.nInodes
    · rw [h, add_inode_new]
    · have : (s.add dir name x).inodes j = s.inodes j := by simp [State.add, State.attach, h]
      rw [this]
      exact C.free j
  · intro y j hy hj
    rcases hlt hy with hy | rfl
    · rw [(add_dirent_old _ _ _ hy).1] at hj
      have K := C.known hy hj
      refine ⟨Nat.lt_succ_of_lt K.lt, ?_, ?_⟩ <;> rw [add_inode_old K.lt]
      · exact K.used
      · exact K.op
    · rw [hnew] at hj
      cases hj
      refine ⟨Nat.lt_succ_self _, ?_, ?_⟩ <;> rw [add_inode_new]
      · exact used_of_entry C.disk.toInv hda he
      · rw [F.inode]
        rfl
  · intro p c hp hc
    rcases hlt hp with hp | rfl
    · rw [(add_dirent_old _ _ _ hp).2.2.2.2.2] at hc
      rcases mem_append.mp hc with hc | hc
      · have H := C.child hp hc
        have hold := add_dirent_old dir name x H.lt
        refine ⟨Nat.lt_succ_of_lt H.lt, H.ne, hold.2.2.1.trans H.parent, by rw [hold.2.1]; exact H.proper, ?_⟩
        rw [hnum hp, hnum H.lt, hold.2.1]
        exact H.entry
      · by_cases hpd : p = dir
        · rw [if_pos hpd] at hc
          obtain rfl := mem_singleton.mp hc
          subst hpd
          refine ⟨Nat.lt_succ_self _, Nat.ne_of_gt C.pos, by rw [hnew], by rw [hnew]; exact F.proper, ?_⟩
          rw [hnum F.lt, hnumNew, hnew]
          exact ⟨a, x.ino, ha, rfl, hda, he⟩
        · rw [if_neg hpd] at hc
          cases hc
    · rw [hnew] at hc
      cases hc
  · intro c hc hne hi
    rcases hlt hc with hc | rfl
    · have hold := add_dirent_old dir name x hc
      rw [hold.1] at hi
      obtain ⟨p, hp, hpar, hm⟩ := C.up hc hne hi
      refine ⟨p, Nat.lt_succ_of_lt hp, hold.2.2.1.trans hpar, ?_⟩
      rw [(add_dirent_old _ _ _ hp).2.2.2.2.2]
      exact mem_append_left _ hm
    · refine ⟨dir, Nat.lt_succ_of_lt F.lt, by rw [hnew], ?_⟩
      rw [add_dirent_dir]
      exact mem_append_right _ mem_cons_self
  · intro b c z hb hc hzb hzc
    rcases hlt hb with hb | rfl <;> rcases hlt hc with hc | rfl
    · rw [hnum hb] at hzb
      rw [hnum hc] at hzc
      exact C.inj hb hc hzb hzc
    · rw [hnum hb] at hzb
      rw [hnumNew] at hzc
      exact absurd (hzb.trans hzc.symm) (F.number_ne C hb)
    · rw [hnum hc] at hzc
      rw [hnumNew] at hzb
      exact absurd (hzc.trans hzb.symm) (F.number_ne C hc)
    · rfl
  · intro p hp
    rcases hlt hp with hp | rfl
    · rw [(add_dirent_old _ _ _ hp).2.2.2.2.2]
      split
      · refine nodup_append.mpr ⟨C.nodup hp, by simp, fun z hz z' hz' => ?_⟩
        rw [mem_singleton.mp hz']
        exact Nat.ne_of_lt (C.child hp hz).lt
      · rw [append_nil]
        exact C.nodup hp
    · rw [hnew]
      exact nodup_nil
  · intro y
    by_cases h1 : y = s.nDirents
    · rw [h1, hnew]
      exact Int.one_nonneg
    · by_cases h2 : y = dir
      · rw [h2, add_dirent_dir]
        exact C.counts dir
      · rw [add_dirent_ne h1 h2]
        exact C.counts y

end Add

end MakarnaX.Vfs
