import MakarnaX.Fs.Denemefs.Calls
import MakarnaX.Library.System

/-!
# Runs of the file system

The calls on live directories, in any order and with any names.  `Op.effect` says
once what a call can do to the table; that the table stays a tree is read off it.

The struct of a directory has room for 56 slots and 31 bytes of a name, and the
source does not check that it stays within it.  So a call that stores an entry is
taken only if the entry fits.
-/

namespace MakarnaX.Denemefs

open Library Subdentry

inductive Op
  | create (d : Nat) (name : CString) (mode : Nat)
  | mkdir (d : Nat) (name : CString) (mode : Nat)
  | unlink (d : Nat) (name : CString)
  | rmdir (d : Nat) (name : CString)
  | lookup (d : Nat) (name : CString)
  | write (ino fpos : Nat) (buf : List UInt8)

/-- The call and its return code. -/
def Op.run : Op → TableM Int
  | .create d name mode => do
    match ← denemefsCreate d name mode with
    | .ok _ => return 0
    | .error r => return r
  | .mkdir d name mode => denemefsMkdir d name mode
  | .unlink d name => denemefsUnlink d name
  | .rmdir d name => denemefsRmdir d name
  | .lookup d name => do
    match ← denemefsLookup d name with
    | .ok _ => return 0
    | .error r => return r
  | .write ino fpos buf => do
    match ← denemefsWrite ino fpos buf with
    | some count => return count
    | none => return -1

/-- The call is on a live directory, or a live file. -/
def Op.enabled (s : Table) : Op → Prop
  | .create d _ _ | .mkdir d _ _ | .unlink d _ | .rmdir d _ | .lookup d _ => IsDir s d
  | .write ino _ _ => Used s ino

/-- If the call stores an entry, that fits. -/
def Op.fits (s : Table) : Op → Prop
  | .create d name _ | .mkdir d name _ => freeDi s ≠ none → entry s d name = none → Fits s d name
  | _ => True

/-- No call is with the empty name. -/
def Op.named : Op → Prop
  | .create _ name _ | .mkdir _ name _ | .unlink _ name | .rmdir _ name | .lookup _ name => name ≠ .empty
  | .write .. => True

instance (s : Table) : (op : Op) → Decidable (op.enabled s)
  | .create d _ _ | .mkdir d _ _ | .unlink d _ | .rmdir d _ | .lookup d _ => inferInstanceAs (Decidable (IsDir s d))
  | .write ino _ _ => inferInstanceAs (Decidable (Used s ino))

instance (s : Table) : (op : Op) → Decidable (op.fits s)
  | .create .. | .mkdir .. => inferInstanceAs (Decidable (_ → _ → _))
  | .unlink .. | .rmdir .. | .lookup .. | .write .. => inferInstanceAs (Decidable True)

instance : (op : Op) → Decidable op.named
  | .create .. | .mkdir .. | .unlink .. | .rmdir .. | .lookup .. => inferInstanceAs (Decidable (_ ≠ _))
  | .write .. => inferInstanceAs (Decidable True)

/-! ## What a call does -/

variable {s s' : Table} {op : Op}

/-- The return code of a call and the table behind it. -/
inductive Effect (s : Table) : Op → Int → Table → Prop
  | fails {op : Op} {r : Int} : r < 0 → Effect s op r s
  | create {d ino mode : Nat} {name : CString} : IsDir s d → freeDi s = some ino → entry s d name = none →
      Fits s d name → Effect s (.create d name mode) 0 (link s d name ino (newDi mode 1000 .regular))
  | mkdir {d ino mode : Nat} {name : CString} : IsDir s d → freeDi s = some ino → entry s d name = none →
      Fits s d name → Effect s (.mkdir d name mode) 0 (link s d name ino (newDi mode subdentrySize .dir))
  | unlink {d i ino : Nat} {name : CString} : slot (block s d) name = some i → LiveSlot s d i ino →
      (s.di ino).mode.type = .regular → Effect s (.unlink d name) 0 (cut s d i ino)
  | rmdir {d i ino : Nat} {name : CString} : slot (block s d) name = some i → LiveSlot s d i ino →
      (s.di ino).mode.type = .dir → n (block s ino) = 0 → Effect s (.rmdir d name) 0 (cut s d i ino)
  | lookup {d : Nat} {name : CString} : entry s d name ≠ none → Effect s (.lookup d name) 0 s
  | write {ino fpos : Nat} {buf : List UInt8} : Used s ino → (s.di ino).mode.type = .regular →
      Effect s (.write ino fpos buf) (writeLoop fpos (s.di ino).size (block s ino) 0 buf).1
        (fill s ino (writeLoop fpos (s.di ino).size (block s ino) 0 buf).2 (s.di ino).size)

theorem write_regular (I : Inv s) {ino : Nat} (hu : Used s ino) (ht : (s.di ino).mode.type = .regular) (fpos : Nat)
    (buf : List UInt8) : denemefsWrite ino fpos buf s =
      .ok (some (writeLoop fpos (s.di ino).size (block s ino) 0 buf).1,
        fill s ino (writeLoop fpos (s.di ino).size (block s ino) 0 buf).2 (s.di ino).size) := by
  unfold denemefsWrite
  simp only [get_run, ht, ne_eq, not_true_eq_false, if_false]
  rw [bind_run (dataOf_some (I.hasData ino hu))]
  rfl

theorem write_notRegular {ino : Nat} (ht : (s.di ino).mode.type ≠ .regular) (fpos : Nat) (buf : List UInt8) :
    denemefsWrite ino fpos buf s = .ok (none, s) := by
  simp [denemefsWrite, ht]

section Effects

variable (I : Inv s) {d mode : Nat} {name : CString}

include I

section

variable (hd : IsDir s d)

include hd

theorem create_effect (hfits : (Op.create d name mode).fits s) :
    ∃ r s', (Op.create d name mode).run s = .ok (r, s') ∧ Effect s (.create d name mode) r s' := by
  cases hf : freeDi s with
  | none =>
    refine ⟨-1, s, ?_, .fails (by decide)⟩
    exact bind_run (create_noInode hf)
  | some ino =>
    by_cases he : entry s d name = none
    · have hfits := hfits (by simp [hf]) he
      refine ⟨0, _, ?_, .create hd hf he hfits⟩
      exact bind_run (create_unbound I hd hf he hfits)
    · refine ⟨-1, s, ?_, .fails (by decide)⟩
      exact bind_run (create_bound I hd he)

theorem mkdir_effect (hfits : (Op.mkdir d name mode).fits s) :
    ∃ r s', (Op.mkdir d name mode).run s = .ok (r, s') ∧ Effect s (.mkdir d name mode) r s' := by
  cases hf : freeDi s with
  | none => exact ⟨-1, s, enter_noInode hf, .fails (by decide)⟩
  | some ino =>
    by_cases he : entry s d name = none
    · exact ⟨0, _, enter_unbound I hd hf he, .mkdir hd hf he (hfits (by simp [hf]) he)⟩
    · exact ⟨-1, s, enter_bound I hd he, .fails (by decide)⟩

theorem unlink_effect :
    ∃ r s', (Op.unlink d name).run s = .ok (r, s') ∧ Effect s (.unlink d name) r s' := by
  cases he : entry s d name with
  | none => exact ⟨-1, s, unlink_unbound I hd he, .fails (by decide)⟩
  | some ino =>
    by_cases ht : (s.di ino).mode.type = .regular
    · obtain ⟨i, hs, hl, hr⟩ := unlink_regular I hd he ht
      exact ⟨0, _, hr, .unlink hs hl ht⟩
    · exact ⟨-1, s, unlink_notRegular I hd he ht, .fails (by decide)⟩

/-- A slot with a name has an inode that is not the root's. -/
theorem entry_ne_root (hname : name ≠ .empty) : entry s d name ≠ some 0 := by
  intro h
  obtain ⟨i, hs, hi, h0⟩ := (entry_eq_some I hd).mp h
  have hn := ((slot_eq_some (I.wf d hd)).mp hs).2.1
  exact hname (hn.symm.trans (I.cleared d i hd hi h0))

theorem rmdir_effect (hroot : n (block s 0) ≠ 0 ∨ name ≠ .empty) :
    ∃ r s', (Op.rmdir d name).run s = .ok (r, s') ∧ Effect s (.rmdir d name) r s' := by
  cases he : entry s d name with
  | none => exact ⟨-1, s, rmdir_unbound I hd he, .fails (by decide)⟩
  | some ino =>
    by_cases ht : (s.di ino).mode.type = .dir
    · by_cases hn : n (block s ino) = 0
      · have h0 : ino ≠ 0 := by
          rintro rfl
          rcases hroot with hroot | hname
          · exact hroot hn
          · exact entry_ne_root I hd hname he
        obtain ⟨i, hs, hl, hr⟩ := rmdir_empty I hd he ht hn h0
        exact ⟨0, _, hr, .rmdir hs hl ht hn⟩
      · exact ⟨-3, s, rmdir_notEmpty I hd he ht hn, .fails (by decide)⟩
    · exact ⟨-2, s, rmdir_notDir I hd he ht, .fails (by decide)⟩

theorem lookup_effect :
    ∃ r s', (Op.lookup d name).run s = .ok (r, s') ∧ Effect s (.lookup d name) r s' := by
  have hl := lookup_eq I hd name
  cases he : entry s d name with
  | none =>
    rw [he] at hl
    exact ⟨-1, s, bind_run hl, .fails (by decide)⟩
  | some ino =>
    rw [he] at hl
    exact ⟨0, s, bind_run hl, .lookup (by simp [he])⟩

end

theorem write_effect {ino fpos : Nat} {buf : List UInt8} (hu : Used s ino) :
    ∃ r s', (Op.write ino fpos buf).run s = .ok (r, s') ∧ Effect s (.write ino fpos buf) r s' := by
  by_cases ht : (s.di ino).mode.type = .regular
  · exact ⟨_, _, bind_run (write_regular I hu ht fpos buf), .write hu ht⟩
  · exact ⟨-1, s, bind_run (write_notRegular ht fpos buf), .fails (by decide)⟩

/-- Every call on a live directory returns. -/
theorem Op.effect (he : op.enabled s) (hf : op.fits s) (hroot : n (block s 0) ≠ 0 ∨ op.named) :
    ∃ r s', op.run s = .ok (r, s') ∧ Effect s op r s' := by
  cases op with
  | create d name mode => exact create_effect I he hf
  | mkdir d name mode => exact mkdir_effect I he hf
  | unlink d name => exact unlink_effect I he
  | rmdir d name => exact rmdir_effect I he hroot
  | lookup d name => exact lookup_effect I he
  | write ino fpos buf => exact write_effect I he

end Effects

/-- What a call does keeps the tree. -/
theorem Effect.inv {r : Int} (I : Inv s) (E : Effect s op r s') : Inv s' := by
  cases E with
  | fails => exact I
  | create hd hf he hfits => exact link_inv I hd (.inl rfl) hf he hfits
  | mkdir hd hf he hfits => exact link_inv I hd (.inr rfl) hf he hfits
  | unlink hs hl ht =>
    refine I.cut hl fun hd => ?_
    rw [hd.2] at ht
    cases ht
  | rmdir hs hl ht hn => exact I.cut hl fun _ => hn
  | lookup => exact I
  | write hu ht => exact I.fill ht hu

theorem n_block_link (I : Inv s) {d d' ino : Nat} {name : CString} {new : DenemeInode} (hd : IsDir s d)
    (hf : freeDi s = some ino) :
    n (block (link s d' name ino new) d) = if d = d' then n (block s d) + 1 else n (block s d) := by
  have hu := (freeDi_eq_some hf).2
  by_cases h : d = d'
  · subst h
    rw [if_pos rfl, block_link_dir (dir_ne hd hu), n_add (I.wf d hd)]
  · rw [if_neg h, block_link_ne (dir_ne hd hu) h]

/-- A directory never has fewer slots than before. -/
theorem Effect.slots_mono {r : Int} (I : Inv s) (E : Effect s op r s') {d : Nat} (hd : IsDir s d)
    (hd' : IsDir s' d) : n (block s d) ≤ n (block s' d) := by
  cases E with
  | fails | lookup => exact Nat.le_refl _
  | create _ hf | mkdir _ hf =>
    rw [n_block_link I hd hf]
    split <;> omega
  | unlink | rmdir => exact Nat.le_of_eq (n_block_cut ((isDir_cut d).mp hd').2).symm
  | write hu ht => exact Nat.le_of_eq (congrArg n (block_fill_dir ht hd).symm)

end MakarnaX.Denemefs
