import MakarnaX.Fs.Vfs.Along

/-!
# Changes on disk

The disk changes under the cache: a new entry is not in the cache yet, contents
do not matter to it, and an entry that is removed takes its dirent with it.
-/

namespace MakarnaX.Vfs

open Library Denemefs Subdentry Option State Function

variable {s : State} {t : Table} {d a b k c : Nat} {name : CString}

/-- A dirent with a number has an inode. -/
theorem inode_of_number {x : Nat} (h : number s d = some x) : ∃ i, (s.dirents d).inode = some i ∧ (s.inodes i).ino = x :=
  map_eq_some_iff.mp h

/-- A dirent with an inode has a number. -/
theorem number_of_inode {i : Nat} (h : (s.dirents d).inode = some i) : number s d = some (s.inodes i).ino := by
  rw [number, h, map_some]

/-- Another table in which the inodes and the entries of the dirents are as before. -/
theorem Coherent.onDisk (C : Coherent s) (S : Started t)
    (hused : ∀ {d x}, d < s.nDirents → number s d = some x → Used t x ∧ (t.di x).mode = (s.disk.di x).mode)
    (hentry : ∀ {p c a b}, p < s.nDirents → c ∈ (s.dirents p).childs → number s p = some a → number s c = some b →
      IsDir s.disk a → entry s.disk a (s.dirents c).name = some b →
      IsDir t a ∧ entry t a (s.dirents c).name = some b) : Coherent { s with disk := t } := by
  refine ⟨S, C.unlocked, C.free, C.pos, C.root, ?_, ?_, C.up, C.inj, C.nodup, C.counts⟩
  · intro d i hd hi
    have K := C.known hd hi
    obtain ⟨hu, hm⟩ := hused hd (number_of_inode hi)
    refine ⟨K.lt, hu, ?_⟩
    show (s.inodes i).op = some (opOf t (s.inodes i).ino)
    unfold opOf
    rw [hm]
    exact K.op
  · intro p c hp hc
    have H := C.child hp hc
    obtain ⟨a, b, ha, hb, hda, he⟩ := H.entry
    obtain ⟨hda', he'⟩ := hentry hp hc ha hb hda he
    exact ⟨H.lt, H.ne, H.parent, H.proper, a, b, ha, hb, hda', he'⟩

/-- A new entry. -/
theorem Coherent.link (C : Coherent s) (hd : IsDir s.disk a) {ino : Nat} {new : DenemeInode} (F : Fresh new)
    (hf : freeDi s.disk = some ino) (he : entry s.disk a name = none) (hfits : Fits s.disk a name)
    (S : Started (Denemefs.link s.disk a name ino new)) :
    Coherent { s with disk := Denemefs.link s.disk a name ino new } := by
  have hu := (freeDi_eq_some hf).2
  refine C.onDisk S ?_ ?_
  · intro d x hlt hx
    obtain ⟨i, hi, rfl⟩ := inode_of_number hx
    have hux := (C.known hlt hi).used
    exact ⟨(used_link F.nlinks_ne _).mpr (.inl hux), link_mode fun h => hu (h ▸ hux)⟩
  · intro p c a' b' hp hc _ _ hda he'
    have H := C.child hp hc
    refine ⟨(isDir_link hu F.nlinks_ne a').mpr (.inl hda), ?_⟩
    rw [entry_link C.disk.toInv hd F hf he hfits hda H.proper.1.1, if_neg, he']
    rintro ⟨rfl, rfl⟩
    rw [he] at he'
    cases he'

/-- Other contents of a regular file. -/
theorem Coherent.fill (C : Coherent s) {ino size : Nat} {m : Mem} (hu : Used s.disk ino)
    (ht : (s.disk.di ino).mode.type = .regular) : Coherent { s with disk := Denemefs.fill s.disk ino m size } := by
  have S : Started (Denemefs.fill s.disk ino m size) :=
    ⟨C.disk.toInv.fill ht hu, by rw [block_fill_dir ht C.disk.root]; exact C.disk.slots⟩
  refine C.onDisk S ?_ ?_
  · intro d x hlt hx
    obtain ⟨i, hi, rfl⟩ := inode_of_number hx
    exact ⟨(used_fill _).mpr (C.known hlt hi).used, mode_fill _⟩
  · intro p c a' b' hp hc _ _ hda he'
    exact ⟨(isDir_fill a').mpr hda, by rw [entry_fill ht hda, he']⟩

/-! ## An entry is removed -/

/-- Dirent `c` is taken out of the children of `y` and has no inode any more. -/
def State.detach (s : State) (y c : Nat) : State :=
  let dirents := update s.dirents y { s.dirents y with childs := (s.dirents y).childs.erase c }
  let dead := { s.dirents c with inode := none, parent := none, refCount := (s.dirents c).refCount - 1 }
  { s with dirents := update dirents c dead }

/-- Slot `k` of the directory of dirent `y` has this name, and its inode `b` can be
removed. -/
structure Cut (s : State) (y : Nat) (name : CString) (a k b : Nat) : Prop where
  lt : y < s.nDirents
  number : number s y = some a
  live : LiveSlot s.disk a k b
  name : nameOf (block s.disk a) k = name
  leaf : IsDir s.disk b → n (block s.disk b) = 0
  started : Started (cut s.disk a k b)

section Remove

variable (C : Coherent s) {y : Nat} (X : Cut s y name a k b)

include C X

/-- The child of that name is the only dirent with that number. -/
theorem cached_of_number (hc : c < s.nDirents) (hb : number s c = some b) : cached s y name = some c := by
  have hc0 : c ≠ 0 := by
    rintro rfl
    rw [C.root] at hb
    exact X.live.2.2.2 (some.inj hb).symm
  obtain ⟨i, hi, -⟩ := inode_of_number hb
  obtain ⟨p, hp, -, hm⟩ := C.up hc hc0 (by simp [hi])
  have H := C.child hp hm
  obtain ⟨a', b', ha', hb', hda', he'⟩ := H.entry
  obtain rfl : b = b' := some.inj (hb.symm.trans hb')
  obtain ⟨k', hl', hk'⟩ := liveSlot_of_entry C.disk.toInv hda' H.proper.1.1 he'
  obtain ⟨rfl, rfl⟩ := C.disk.tree.single X.live hl'
  obtain rfl : p = y := C.inj hp X.lt ha' X.number
  have hname : (s.dirents c).name = name := hk'.symm.trans X.name
  -- the first child with this name has the same number, so it is this one
  have hsome : ∃ c', cached s p name = some c' := by
    rw [← isSome_iff_exists]
    unfold cached
    rw [List.find?_isSome]
    exact ⟨c, hm, by simpa using hname⟩
  obtain ⟨c', hc'⟩ := hsome
  obtain ⟨hm', hname'⟩ := cached_mem hc'
  have H' := C.child hp hm'
  obtain ⟨a'', b'', ha'', hb'', -, he''⟩ := H'.entry
  obtain rfl : a = a'' := some.inj (X.number.symm.trans ha'')
  rw [hname', ← hname, he'] at he''
  obtain rfl : b = b'' := some.inj he''
  rw [hc', C.inj H'.lt hc hb'' hb]

theorem number_of_cached (hc : cached s y name = some c) : number s c = some b := by
  obtain ⟨hm, hname⟩ := cached_mem hc
  have H := C.child X.lt hm
  obtain ⟨a', b', ha', hb', hda', he'⟩ := H.entry
  obtain rfl : a = a' := some.inj (X.number.symm.trans ha')
  have he : entry s.disk a name = some b := by
    refine (entry_iff C.disk.toInv X.live.1 (hname ▸ H.proper.1.1)).mpr ⟨k, X.live.2.1, X.name, X.live.2.2.1⟩
  rw [hname, he] at he'
  rw [hb', some.inj he']

/-- What has the number that is removed has no children. -/
theorem no_childs {p : Nat} (hp : p < s.nDirents) (hb : number s p = some b) : (s.dirents p).childs = [] := by
  refine List.eq_nil_iff_forall_not_mem.mpr fun c hc => ?_
  obtain ⟨a', b', ha', -, hda', he'⟩ := (C.child hp hc).entry
  obtain rfl : b = a' := some.inj (hb.symm.trans ha')
  rw [entry_of_empty (X.leaf hda')] at he'
  cases he'

theorem cached_ne (hc : cached s y name = some c) : c ≠ y := by
  rintro rfl
  have hm := (cached_mem hc).1
  rw [no_childs C X X.lt (number_of_cached C X hc)] at hm
  cases hm

/-- No dirent stands for the removed entry: nothing has to be done. -/
theorem Coherent.cut_uncached (hc : cached s y name = none) : Coherent { s with disk := cut s.disk a k b } := by
  have hnum : ∀ {d}, d < s.nDirents → number s d ≠ some b := by
    intro d hd hb
    rw [cached_of_number C X hd hb] at hc
    cases hc
  refine C.onDisk X.started ?_ ?_
  · intro d x hd hx
    have hne : x ≠ b := fun h => hnum hd (h ▸ hx)
    obtain ⟨i, hi, rfl⟩ := inode_of_number hx
    exact ⟨(used_cut _).mpr ⟨(C.known hd hi).used, hne⟩, cut_mode hne⟩
  · intro p c a' b' hp hc' ha' hb' hda he'
    have H := C.child hp hc'
    have hne : a' ≠ b := fun h => hnum hp (h ▸ ha')
    refine ⟨(isDir_cut a').mpr ⟨hda, hne⟩, ?_⟩
    rw [entry_cut C.disk.toInv X.live X.leaf hda hne H.proper.1.1, if_neg, he']
    rintro ⟨rfl, hname⟩
    have : number s c = some b := by
      rw [hb', ← he', hname]
      exact (entry_iff C.disk.toInv X.live.1 (hname ▸ H.proper.1.1)).mpr ⟨k, X.live.2.1, rfl, X.live.2.2.1⟩
    exact hnum H.lt this

omit C X in
theorem detach_childs {c p : Nat} (hcy : c ≠ y) (hcc : (s.dirents c).childs = []) :
    ((s.detach y c).dirents p).childs = if p = y then (s.dirents p).childs.erase c else (s.dirents p).childs := by
  by_cases hpc : p = c
  · subst hpc
    simp [detach, hcc]
  · by_cases hpy : p = y
    · subst hpy
      simp [detach, hpc]
    · simp [detach, hpc, hpy]

/-- The dirent of the removed entry goes with it. -/
theorem Coherent.cut_cached (hc : cached s y name = some c) (h0 : 0 < (s.dirents c).refCount) :
    Coherent { s.detach y c with disk := cut s.disk a k b } := by
  obtain ⟨hm, hcn⟩ := cached_mem hc
  have Hc := C.child X.lt hm
  have hb := number_of_cached C X hc
  have hcc := no_childs C X Hc.lt hb
  have hcy := cached_ne C X hc
  have hold : ∀ {d}, d ≠ c → ((s.detach y c).dirents d).inode = (s.dirents d).inode ∧
      ((s.detach y c).dirents d).name = (s.dirents d).name ∧
      ((s.detach y c).dirents d).parent = (s.dirents d).parent := by
    intro d hd
    by_cases hdy : d = y
    · subst hdy
      simp [detach, hd]
    · simp [detach, hd, hdy]
  have hchilds := fun p => detach_childs (s := s) (p := p) hcy hcc
  have hdead : ((s.detach y c).dirents c).inode = none := by simp [detach]
  have hnum : ∀ {d}, d ≠ c → number (s.detach y c) d = number s d := by
    intro d hd
    unfold number
    rw [(hold hd).1]
    rfl
  have hnumc : number (s.detach y c) c = none := by rw [number, hdead]; rfl
  -- other dirents have other numbers
  have hother : ∀ {d x}, d < s.nDirents → d ≠ c → number s d = some x → x ≠ b := by
    rintro d x hd hdc hx rfl
    exact hdc (C.inj hd Hc.lt hx hb)
  have hmem : ∀ {p c'}, c' ∈ ((s.detach y c).dirents p).childs → p < s.nDirents → c' ∈ (s.dirents p).childs ∧ c' ≠ c := by
    intro p c' hc' hp
    rw [hchilds] at hc'
    split at hc'
    · next hpy =>
      subst hpy
      rw [(C.nodup hp).mem_erase_iff] at hc'
      exact ⟨hc'.2, hc'.1⟩
    · next hpy =>
      refine ⟨hc', ?_⟩
      rintro rfl
      exact hpy (some.inj ((C.child hp hc').parent.symm.trans Hc.parent))
  refine ⟨X.started, ?_, C.free, C.pos, ?_, ?_, ?_, ?_, ?_, ?_, ?_⟩
  · intro d
    show ((s.detach y c).dirents d).locked = false
    by_cases hdc : d = c
    · subst hdc
      simpa [detach] using C.unlocked d
    · by_cases hdy : d = y
      · subst hdy
        simpa [detach, hdc] using C.unlocked d
      · simpa [detach, hdc, hdy] using C.unlocked d
  · exact (hnum Hc.ne.symm).trans C.root
  · intro d i hd hi
    have hdc : d ≠ c := by
      rintro rfl
      rw [show (({ s.detach y d with disk := cut s.disk a k b } : State).dirents d).inode = none from hdead] at hi
      cases hi
    have hi : (s.dirents d).inode = some i := (hold hdc).1 ▸ hi
    have K := C.known hd hi
    have hne := hother hd hdc (number_of_inode hi)
    refine ⟨K.lt, (used_cut _).mpr ⟨K.used, hne⟩, ?_⟩
    show (s.inodes i).op = some (opOf (cut s.disk a k b) (s.inodes i).ino)
    unfold opOf
    rw [cut_mode hne]
    exact K.op
  · intro p c' hp hm'
    obtain ⟨hc', hne⟩ := hmem hm' hp
    have H := C.child hp hc'
    obtain ⟨a', b', ha', hb', hda', he'⟩ := H.entry
    have hpc : p ≠ c := by
      rintro rfl
      rw [hcc] at hc'
      cases hc'
    have hane := hother hp hpc ha'
    refine ⟨H.lt, H.ne, (hold hne).2.2.trans H.parent, ?_, a', b', (hnum hpc).trans ha', (hnum hne).trans hb',
      (isDir_cut a').mpr ⟨hda', hane⟩, ?_⟩
    · show Proper ((s.detach y c).dirents c').name
      rw [(hold hne).2.1]
      exact H.proper
    · show entry (cut s.disk a k b) a' ((s.detach y c).dirents c').name = some b'
      rw [(hold hne).2.1, entry_cut C.disk.toInv X.live X.leaf hda' hane H.proper.1.1, if_neg, he']
      rintro ⟨rfl, hname⟩
      have he : entry s.disk a' (s.dirents c').name = some b := by
        rw [hname]
        exact (entry_iff C.disk.toInv X.live.1 (hname ▸ H.proper.1.1)).mpr ⟨k, X.live.2.1, rfl, X.live.2.2.1⟩
      rw [he] at he'
      exact hother H.lt hne hb' (some.inj he').symm
  · intro c' hc' hne0 hi
    have hcc' : c' ≠ c := by
      rintro rfl
      exact hi hdead
    obtain ⟨p, hp, hpar, hmp⟩ := C.up hc' hne0 ((hold hcc').1 ▸ hi)
    refine ⟨p, hp, (hold hcc').2.2.trans hpar, ?_⟩
    show c' ∈ ((s.detach y c).dirents p).childs
    rw [hchilds]
    split
    · exact ((C.nodup hp).mem_erase_iff).mpr ⟨hcc', hmp⟩
    · exact hmp
  · intro d e x hd he hx hx'
    have hdc : d ≠ c := by
      rintro rfl
      rw [show number ({ s.detach y d with disk := cut s.disk a k b } : State) d = none from hnumc] at hx
      cases hx
    have hec : e ≠ c := by
      rintro rfl
      rw [show number ({ s.detach y e with disk := cut s.disk a k b } : State) e = none from hnumc] at hx'
      cases hx'
    exact C.inj hd he ((hnum hdc).symm.trans hx) ((hnum hec).symm.trans hx')
  · intro p hp
    show ((s.detach y c).dirents p).childs.Nodup
    rw [hchilds]
    split
    · exact (C.nodup hp).erase c
    · exact C.nodup hp
  · intro d
    show 0 ≤ ((s.detach y c).dirents d).refCount
    have := C.counts d
    by_cases hdc : d = c
    · subst hdc
      simp only [detach, update_self]
      omega
    · by_cases hdy : d = y
      · subst hdy
        simpa [detach, hdc] using this
      · simpa [detach, hdc, hdy] using this

end Remove

end MakarnaX.Vfs
