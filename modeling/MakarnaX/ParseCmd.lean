import MakarnaX.Library.CString

/-!
# Splitting a command line

`parse_cmd` writes a zero over every blank and an element of `argv` for every
word.  Whether a blank ends a word it sees from the byte before it: for the first
character that byte is not part of the string.  And `argc` can count one word
after the test `argc < 10`, so that `argv` needs more elements than the callers
have.
-/

namespace MakarnaX

open Library Function List

/-- `' '`, `'\t'` and `'\n'`. -/
def isBlank (c : UInt8) : Bool := c = 0x20 || c = 0x09 || c = 0x0a

/-- The state of `parse_cmd`.  Pointers are offsets in the string, and the ghost fields have
the offsets that were read or written and the elements of `argv` that were written. -/
structure Parse where
  /-- The bytes in front of `cmd`, the last first. -/
  done : List UInt8
  argc : Nat
  argv : Nat → Option Nat
  touched : List Int
  slots : List Nat

namespace Parse

/-- The string with its final zero. -/
def text (s : Parse) : List UInt8 := s.done.reverse ++ [0]

/-- The string at `p`. -/
def string (s : Parse) (p : Nat) : List UInt8 := (s.text.drop p).takeWhile (· ≠ 0)

/-- `argv[i] = p`. -/
def store (s : Parse) (i : Nat) (p : Option Nat) : Parse :=
  { s with argc := i, argv := update s.argv i p, slots := i :: s.slots }

/-- A turn of the loop with `*cmd = c`; `before` is the byte in front of the string. -/
def turn (before : UInt8) (s : Parse) (c : UInt8) : Parse :=
  let here := s.done.length
  if isBlank c then
    { s.store (if s.done.headD before ≠ 0 ∧ s.argc < 10 then s.argc + 1 else s.argc) (some (here + 1)) with
      done := 0 :: s.done, touched := (here - 1 : Int) :: here :: s.touched }
  else { s with done := c :: s.done, touched := here :: s.touched }

/-- What follows the loop; `argv[argc]` has been written. -/
def finish (s : Parse) : Parse :=
  let p := (s.argv s.argc).getD 0
  { s.store (if s.text.getD p 0 ≠ 0 then s.argc + 1 else s.argc) none with
    touched := p :: s.done.length :: s.touched }

end Parse

def parseCmd (before : UInt8) (cmd : CString) : Parse :=
  (cmd.bytes.foldl (Parse.turn before) (Parse.store ⟨[], 0, fun _ => none, [], []⟩ 0 (some 0))).finish

/-- The maximal runs of characters that are not blank. -/
def words (l : List UInt8) : List (List UInt8) := (l.splitOnP isBlank).filter (· ≠ [])

/-- What `parse_cmd` is for; `runcmd` has the array `argv[10]`. -/
structure Splits (s : Parse) (cmd : CString) : Prop where
  touched : ∀ r ∈ s.touched, 0 ≤ r ∧ r ≤ cmd.length
  slots : ∀ i ∈ s.slots, i ≤ 10
  argc : s.argc = min (words cmd.bytes).length 10
  argv : (range s.argc).map (fun i => (s.argv i).map s.string) = ((words cmd.bytes).take s.argc).map some
  null : s.argv s.argc = none
  runcmd : ∀ i ∈ s.slots, i < 10

/-! ## Words -/

variable {s : Parse} {m cur w : List UInt8} {ws : List (List UInt8)} {c before : UInt8} {p : Nat}

theorem words_word (h : ∀ c ∈ cur, isBlank c = false) : words cur = if cur = [] then [] else [cur] := by
  rw [words, splitOnP_eq_singleton h]
  split <;> simp [*]

theorem words_blank (hc : isBlank c) (l l' : List UInt8) : words (l ++ c :: l') = words l ++ words l' := by
  rw [words, splitOnP_append_cons l l' hc, filter_append]
  rfl

/-- The word `w` with a zero behind it. -/
def StringAt (m : List UInt8) (p : Nat) (w : List UInt8) : Prop := 0 ∉ w ∧ ∃ a b, m = a ++ (w ++ 0 :: b) ∧ a.length = p

theorem StringAt.append (h : StringAt m p w) (l : List UInt8) : StringAt (m ++ l) p w := by
  obtain ⟨hw, a, b, rfl, hp⟩ := h
  exact ⟨hw, a, b ++ l, by simp, hp⟩

theorem StringAt.string (h : StringAt s.text p w) : s.string p = w := by
  obtain ⟨hw, a, b, hm, rfl⟩ := h
  have hall : ∀ c ∈ w, decide (c ≠ 0) = true := fun c hc => decide_eq_true fun h => hw (h ▸ hc)
  rw [Parse.string, hm, drop_left, takeWhile_append_of_pos hall]
  simp

/-! ## The loop -/

/-- `ws` are the words before `m`, and `cur` is what there is of the next one. -/
structure Parsing (s : Parse) (m cur : List UInt8) (ws : List (List UInt8)) : Prop where
  done : s.done.reverse = m ++ cur
  last : ∀ before, s.done.headD before = 0 ↔ cur = []
  cur : 0 ∉ cur ∧ ∀ c ∈ cur, isBlank c = false
  argc : s.argc = ws.length
  next : s.argv s.argc = some m.length
  argv : ∀ i w, ws[i]? = some w → ∃ p, s.argv i = some p ∧ StringAt m p w
  touched : ∀ r ∈ s.touched, 0 ≤ r ∧ r ≤ s.done.length
  slots : ∀ i ∈ s.slots, i ≤ s.argc

namespace Parsing

variable (P : Parsing s m cur ws)

include P

theorem length : s.done.length = m.length + cur.length := by
  rw [← length_append, ← P.done, length_reverse]

theorem touched_here : ∀ r ∈ ((s.done.length : Int) :: s.touched), 0 ≤ r ∧ r ≤ s.done.length := by
  intro r hr
  rcases mem_cons.mp hr with rfl | hr
  · omega
  · exact P.touched r hr

theorem char (hc : c ≠ 0) (hb : isBlank c = false) : Parsing (s.turn before c) m (cur ++ [c]) ws := by
  have hs : s.turn before c = { s with done := c :: s.done, touched := s.done.length :: s.touched } := by
    simp [Parse.turn, hb]
  rw [hs]
  refine ⟨by simp [P.done], by simp [hc], ?_, P.argc, P.next, P.argv, fun r hr => ?_, P.slots⟩
  · simp only [mem_append, mem_singleton, not_or]
    exact ⟨⟨P.cur.1, hc.symm⟩, fun x hx => hx.elim (P.cur.2 x) fun h => h ▸ hb⟩
  · have := P.touched_here r hr
    simp only [length_cons]
    omega

/-- The byte before a blank is zero if no word ends there. -/
theorem count (hws : ws.length < 10) :
    (if s.done.headD before ≠ 0 ∧ s.argc < 10 then s.argc + 1 else s.argc) = (ws ++ words cur).length := by
  simp only [ne_eq, P.last, P.argc, words_word P.cur.2]
  by_cases hcur : cur = []
  · simp [hcur]
  · simp [hcur, hws]

/-- The word that ends here, if one does. -/
theorem ends {i : Nat} (hi : (ws ++ words cur)[i]? = some w) :
    ∃ p, s.argv i = some p ∧ StringAt (m ++ (cur ++ [0])) p w := by
  rw [getElem?_append] at hi
  split at hi
  · obtain ⟨p, hp, hw⟩ := P.argv i w hi
    exact ⟨p, hp, hw.append _⟩
  next hlt =>
  rw [words_word P.cur.2] at hi
  split at hi
  · cases hi
  · obtain ⟨h0, rfl⟩ : i - ws.length = 0 ∧ cur = w := by simpa [getElem?_singleton] using hi
    obtain rfl : i = s.argc := by
      rw [P.argc]
      omega
    exact ⟨_, P.next, P.cur.1, m, [], rfl, rfl⟩

theorem blank (hb : isBlank c) (hws : ws.length < 10) :
    Parsing (s.turn before c) (m ++ (cur ++ [0])) [] (ws ++ words cur) := by
  have hs : s.turn before c = { s.store (ws ++ words cur).length (some (s.done.length + 1)) with
      done := 0 :: s.done, touched := (s.done.length - 1 : Int) :: s.done.length :: s.touched } := by
    rw [Parse.turn, P.count hws]
    simp [hb]
  rw [hs]
  refine ⟨by simp [P.done], by simp, by simp, rfl, ?_, fun i w hi => ?_, fun r hr => ?_, fun i hi => ?_⟩
  · simp [Parse.store, P.length, Nat.add_assoc]
  · obtain ⟨hlt, -⟩ := List.getElem?_eq_some_iff.mp hi
    show ∃ p, update s.argv _ _ i = some p ∧ _
    rw [update_of_ne (Nat.ne_of_lt hlt)]
    exact P.ends hi
  · have hpos : 0 < s.done.length := by
      refine length_pos_iff.mpr fun h => ?_
      have h1 := (P.last 1).trans (P.last 0).symm
      simp [h] at h1
    simp only [length_cons]
    rcases mem_cons.mp hr with rfl | hr
    · omega
    · have := P.touched_here r hr
      omega
  · rcases mem_cons.mp hi with rfl | hi
    · exact Nat.le_refl _
    · have := P.slots i hi
      rw [P.argc] at this
      simp only [Parse.store, length_append]
      omega

theorem run (before : UInt8) (l : List UInt8) (hl : 0 ∉ l) (hws : (ws ++ words (cur ++ l)).length < 10) :
    ∃ m' cur' ws', Parsing (l.foldl (Parse.turn before) s) m' cur' ws' ∧ ws' ++ words cur' = ws ++ words (cur ++ l) ∧
      m'.length + cur'.length = s.done.length + l.length := by
  induction l generalizing s m cur ws with
  | nil => exact ⟨m, cur, ws, P, by rw [append_nil], P.length.symm⟩
  | cons c l ih =>
    obtain ⟨hc, hl⟩ := not_or.mp (mem_cons.not.mp hl)
    have hd : (s.turn before c).done.length + l.length = s.done.length + (c :: l).length := by
      rw [Parse.turn, length_cons]
      split <;> simp <;> omega
    rw [foldl_cons, ← hd]
    cases hb : isBlank c with
    | false =>
      have hw : words (cur ++ c :: l) = words (cur ++ [c] ++ l) := by rw [append_assoc, singleton_append]
      rw [hw] at hws ⊢
      exact ih (P.char (Ne.symm hc) hb) hl hws
    | true =>
      rw [words_blank hb, ← append_assoc] at hws ⊢
      exact ih (P.blank hb (by simp at hws; omega)) hl hws

theorem splits {cmd : CString} (hw : words cmd.bytes = ws ++ words cur) (hlen : m.length + cur.length = cmd.length)
    (h9 : (words cmd.bytes).length ≤ 9) : Splits s.finish cmd := by
  have htext : s.text = m ++ (cur ++ [0]) := by rw [Parse.text, P.done, append_assoc]
  have hcount : (if s.text.getD m.length 0 ≠ 0 then s.argc + 1 else s.argc) = (words cmd.bytes).length := by
    rw [htext, hw, P.argc, words_word P.cur.2]
    cases hcur : cur with
    | nil => simp
    | cons c l =>
      have h0 : c ≠ 0 := fun h => P.cur.1 (hcur ▸ h ▸ mem_cons_self)
      simp [h0]
  have hs : s.finish = { s.store (words cmd.bytes).length none with
      touched := (m.length : Int) :: s.done.length :: s.touched } := by
    rw [Parse.finish, P.next, Option.getD_some, hcount]
  have hargc : s.finish.argc = (words cmd.bytes).length := by rw [hs]; rfl
  have hslots : ∀ i ∈ s.finish.slots, i < 10 := by
    rw [hs]
    intro i hi
    rcases mem_cons.mp hi with rfl | hi
    · omega
    · have := P.slots i hi
      rw [hw, length_append, ← P.argc] at h9
      omega
  refine ⟨?_, fun i hi => Nat.le_of_lt (hslots i hi), ?_, ?_, ?_, hslots⟩
  · rw [hs, ← hlen, ← P.length]
    intro r hr
    rcases mem_cons.mp hr with rfl | hr
    · have := P.length
      omega
    · exact P.touched_here r hr
  · exact hargc.trans (Nat.min_eq_left (Nat.le_succ_of_le h9)).symm
  · rw [hargc, take_length]
    refine ext_getElem (by simp) fun i h1 h2 => ?_
    rw [length_map] at h2
    obtain ⟨p, hp, hp'⟩ := P.ends ((congrArg (·[i]?) hw).symm.trans (List.getElem?_eq_getElem h2))
    have hi : s.finish.argv i = some p := by
      rw [hs]
      exact (update_of_ne (Nat.ne_of_lt h2) ..).trans hp
    have hstr : s.finish.string p = s.string p := by rw [hs]; rfl
    simp only [getElem_map, getElem_range, hi, Option.map_some, hstr, StringAt.string (htext ▸ hp')]
  · rw [hs]
    exact update_self ..

end Parsing

theorem touched_foldl {r : Int} (l : List UInt8) (h : r ∈ s.touched) :
    r ∈ (l.foldl (Parse.turn before) s).touched := by
  induction l generalizing s with
  | nil => exact h
  | cons c l ih =>
    refine ih ?_
    unfold Parse.turn
    split <;> simp [h]

/-- `parse_cmd` splits the line exactly if it starts with no blank and has at most nine words. -/
theorem parse_cmd_splits_iff (before : UInt8) (cmd : CString) : Splits (parseCmd before cmd) cmd ↔
    (∀ c ∈ cmd.bytes.head?, isBlank c = false) ∧ (words cmd.bytes).length ≤ 9 := by
  constructor
  · refine fun h => ⟨fun c hc => ?_, ?_⟩
    · refine Bool.eq_false_iff.mpr fun hb => ?_
      obtain ⟨l, hl⟩ := head?_eq_some_iff.mp hc
      have hr : (-1 : Int) ∈ (parseCmd before cmd).touched := by
        rw [parseCmd, hl, foldl_cons]
        refine mem_cons_of_mem _ (mem_cons_of_mem _ (touched_foldl l ?_))
        simp [Parse.turn, hb, Parse.store]
      exact absurd (h.touched _ hr).1 (by decide)
    · have hlast : (parseCmd before cmd).argc < 10 := h.runcmd _ mem_cons_self
      have := h.argc
      omega
  · rintro ⟨hc, h9⟩
    obtain ⟨l, h0⟩ := cmd
    cases l with
    | nil => constructor <;> simp [parseCmd, Parse.finish, Parse.store, words, Parse.text]
    | cons c l =>
      have hb : isBlank c = false := hc c rfl
      obtain ⟨hc0, hl⟩ := not_or.mp (mem_cons.not.mp h0)
      have P : Parsing ((Parse.store ⟨[], 0, fun _ => none, [], []⟩ 0 (some 0)).turn before c) [] [c] [] := by
        constructor <;> simp [Parse.turn, hb, Parse.store, hc0, Ne.symm hc0]
      obtain ⟨m, cur, ws, P', hw, hlen⟩ := P.run before l hl (by simpa using Nat.lt_succ_of_le h9)
      refine P'.splits hw.symm (hlen.trans ?_) h9
      simp [Parse.turn, hb, Parse.store, CString.length, Nat.add_comm]

/-- A blank in front makes a word of the byte before the string, and ten words are
one too many for `runcmd`. -/
theorem parse_cmd_overruns :
    ¬ Splits (parseCmd 0x78 (.ofString " ls")) (.ofString " ls") ∧ (parseCmd 0x78 (.ofString " ls")).argc = 2 ∧
      ¬ Splits (parseCmd 0 (.ofString "a b c d e f g h i j")) (.ofString "a b c d e f g h i j") := by
  refine ⟨fun h => absurd h.argc (by decide), by decide, fun h => absurd (h.runcmd 10 (by decide)) (by decide)⟩

end MakarnaX
