import MakarnaX.Fs.Vfs.Resolve

/-!
# Splitting a path

`parse_path_i` takes an index into the path and returns the one at which it goes
on, or 0 at the end of the path.  Here it is with its index and its array; that
`dirent_find` can be modelled with what is left of the path instead is a theorem.

The components of a path are what is between its slashes, if that is not empty.
Nothing but the components, and whether the first byte is a slash, matters to
`dirent_find`.
-/

namespace MakarnaX.Vfs

open Library Denemefs List

/-! ## With an index -/

/-- A store to index `j` of the array of `parse_path_i`. -/
def storeBuf (j : Nat) : Exec Unit := check (j < maxDirentryNameSize) .overflow

/-- `parse_path_i(path, len, i, buf)`, with the bytes that are in `buf`: the string in
`buf` and the index returned. -/
def parsePathIFrom (path : List UInt8) (len i : Nat) (buf : List UInt8) : Exec (List UInt8 × Nat) :=
  if h : i < len ∧ i < path.length then
    if buf ≠ [] ∧ path.get ⟨i, h.2⟩ = slash then do
      storeBuf buf.length
      return (buf, i + 1)
    else if path.get ⟨i, h.2⟩ ≠ slash then do
      storeBuf buf.length
      parsePathIFrom path len (i + 1) (buf ++ [path.get ⟨i, h.2⟩])
    else
      parsePathIFrom path len (i + 1) buf
  else do
    storeBuf buf.length
    return (buf, 0)
termination_by path.length - i

/-- The strings `parse_path_i` leaves in its array, from index `i` until it returns 0,
with a bound on its calls. -/
def parseResults (path : List UInt8) (len : Nat) : Nat → Nat → Exec (List (List UInt8))
  | 0, _ => throw .loop
  | turns + 1, i => do
    let (buf, i) ← parsePathIFrom path len i []
    if i > 0 then
      return buf :: (← parseResults path len turns i)
    else
      return [buf]

/-- The loop of `dirent_find` with the index, and with a bound on its turns. -/
def direntFindLoopFrom (path : List UInt8) (len : Nat) : Nat → Nat → Nat → VfsM (Except Int Nat)
  | 0, _, _ => throw .loop
  | turns + 1, curr, i => do
    let (buf, i) ← parsePathIFrom path len i []
    let next ← if buf = [] then pure (.ok curr) else do
      let r ← direntLookup curr (cstring buf)
      direntFree curr
      pure r
    match next with
    | .error e => return .error e
    | .ok next => if i > 0 then direntFindLoopFrom path len turns next i else return .ok next

/-- What `parse_path_i` returns for what is left of a path of this length. -/
def indexOf (length : Nat) : Option (List UInt8) → Nat
  | none => 0
  | some rest => length - rest.length

theorem storeBuf_bind {α : Type} (j : Nat) (x : Exec α) :
    (storeBuf j >>= fun _ => x) = if j < maxDirentryNameSize then x else .error .overflow := by
  unfold storeBuf check
  split <;> rfl

variable {rest : Option (List UInt8)} {path b : List UInt8}

theorem length_parsePathI {path buf b : List UInt8} (h : parsePathI buf path = (b, rest)) : buf.length ≤ b.length := by
  induction path generalizing buf with
  | nil =>
    cases h
    exact Nat.le_refl _
  | cons c path ih =>
    rw [parsePathI_cons] at h
    split at h
    · split at h
      · cases h
        exact Nat.le_refl _
      · exact ih h
    · have := ih h
      rw [length_append] at this
      omega

variable {path : List UInt8}

theorem lt_length_take {len i : Nat} : i < (path.take len).length ↔ i < len ∧ i < path.length := by
  rw [length_take]
  exact Nat.lt_min

/-- The index and what is left of the path say the same. -/
theorem parsePathIFrom_eq (path : List UInt8) (len i : Nat) (buf : List UInt8) :
    parsePathIFrom path len i buf =
      if (parsePathI buf ((path.take len).drop i)).1.length < maxDirentryNameSize then
        .ok ((parsePathI buf ((path.take len).drop i)).1,
          indexOf (path.take len).length (parsePathI buf ((path.take len).drop i)).2)
      else .error .overflow := by
  fun_induction parsePathIFrom path len i buf with
  | case1 i buf h hc =>
    have hlt := lt_length_take.mpr h
    rw [drop_eq_getElem_cons hlt, parsePathI_cons, storeBuf_bind]
    have hg : (path.take len)[i] = slash := by simpa using hc.2
    simp only [hg, if_true, hc.1, ne_eq, not_false_eq_true]
    have : (path.take len).length - ((path.take len).drop (i + 1)).length = i + 1 := by
      rw [length_drop]
      omega
    simp only [indexOf, this]
    rfl
  | case2 i buf h hc hs ih =>
    have hlt := lt_length_take.mpr h
    rw [drop_eq_getElem_cons hlt, parsePathI_cons, storeBuf_bind, ih]
    have hg : (path.take len)[i] = path.get ⟨i, h.2⟩ := by simp
    rw [hg, if_neg hs]
    split
    · rfl
    · next hj =>
      rw [if_neg]
      have := length_parsePathI (Eq.refl (parsePathI (buf ++ [path.get ⟨i, h.2⟩]) ((path.take len).drop (i + 1))))
      rw [length_append] at this
      omega
  | case3 i buf h hc hs ih =>
    have hlt := lt_length_take.mpr h
    have hs := not_not.mp hs
    have hg : (path.take len)[i] = slash := by simpa using hs
    have hb : ¬ buf ≠ [] := fun hb => hc ⟨hb, hs⟩
    rw [drop_eq_getElem_cons hlt, parsePathI_cons, ih, if_pos hg, if_neg hb]
  | case4 i buf h =>
    have hle : (path.take len).length ≤ i := by
      rw [length_take]
      omega
    rw [drop_eq_nil_of_le hle, storeBuf_bind]
    rfl

theorem parsePathI_suffix {path buf b rest : List UInt8} (h : parsePathI buf path = (b, some rest)) : rest <:+ path := by
  induction path generalizing buf with
  | nil => cases h
  | cons c path ih =>
    rw [parsePathI_cons] at h
    split at h
    · split at h
      · cases h
        exact suffix_cons c _
      · exact (ih h).trans (suffix_cons c path)
    · exact (ih h).trans (suffix_cons c path)

/-- Where `parse_path_i` goes on is what is left. -/
theorem drop_indexOf {path buf b rest : List UInt8} {i : Nat} (h : parsePathI buf (path.drop i) = (b, some rest)) :
    0 < indexOf path.length (some rest) ∧ path.drop (indexOf path.length (some rest)) = rest := by
  have hsuf : rest <:+ path := (parsePathI_suffix h).trans (drop_suffix i path)
  have hlen := (parsePathI_some h).2.2.1
  rw [length_drop] at hlen
  refine ⟨?_, (suffix_iff_eq_drop.mp hsuf).symm⟩
  show 0 < path.length - rest.length
  omega

/-- One turn of the loop of `dirent_find` is the same with the index and without, if
the turns behind it are. -/
theorem findTurn_eq (curr : Nat) (b : List UInt8) {k k' : Except Int Nat → VfsM (Except Int Nat)}
    (h : ∀ next, k next = k' next) :
    (if b = [] then pure (.ok curr) >>= k else do
      let r ← direntLookup curr (cstring b)
      direntFree curr
      let next ← pure r
      k next) =
    (if b = [] then pure (.ok curr) >>= k' else do
      let r ← direntLookup curr (cstring b)
      direntFree curr
      let next ← pure r
      k' next) := by
  rw [funext h]

/-- The loop of `dirent_find`, with the index and without. -/
theorem direntFindLoop_eq (path : List UInt8) (len turns curr i : Nat) :
    direntFindLoop turns curr ((path.take len).drop i) = direntFindLoopFrom path len turns curr i := by
  induction turns generalizing curr i with
  | zero => rfl
  | succ turns ih =>
    unfold direntFindLoop direntFindLoopFrom
    rw [parsePathIFrom_eq]
    cases h : parsePathI [] ((path.take len).drop i) with
    | mk b rest =>
      by_cases hb : b.length < maxDirentryNameSize
      · simp only [hb, if_true, ge_iff_le, Nat.not_le.mpr hb, if_false]
        refine findTurn_eq curr b fun next => ?_
        cases next with
        | error e => rfl
        | ok next =>
          cases rest with
          | none => rfl
          | some rest =>
            obtain ⟨hpos, hdrop⟩ := drop_indexOf h
            simp only [gt_iff_lt, hpos, if_true]
            rw [← ih, hdrop]
      · simp only [hb, if_false, ge_iff_le, Nat.not_lt.mp hb, if_true]
        rfl

/-! ## Components -/

/-- What is between the slashes, if it is not empty. -/
def slashComponents (path : List UInt8) : List (List UInt8) := (path.splitOn slash).filter (· ≠ [])

theorem filter_modifyHead_nil (l : List (List UInt8)) : l.modifyHead ([] ++ ·) = l := by
  cases l <;> rfl

theorem components_eq_filter (buf path : List UInt8) :
    components buf path = ((path.splitOn slash).modifyHead (buf ++ ·)).filter (· ≠ []) := by
  unfold splitOn
  induction path generalizing buf with
  | nil => by_cases hb : buf = [] <;> simp [components, hb]
  | cons c path ih =>
    rw [components_cons, splitOnP_cons_eq_if_modifyHead]
    by_cases hc : c = slash
    · have ih := ih []
      rw [filter_modifyHead_nil] at ih
      by_cases hb : buf = [] <;> simp [hc, hb, ih]
    · rw [if_neg hc, ih, if_neg (by simpa using hc), modifyHead_modifyHead]
      simp [Function.comp_def]

theorem components_eq (path : List UInt8) : components [] path = slashComponents path := by
  rw [components_eq_filter, filter_modifyHead_nil]
  rfl

theorem slashComponents_append (front back : List UInt8) :
    slashComponents (front ++ slash :: back) = slashComponents front ++ slashComponents back := by
  unfold slashComponents splitOn
  rw [splitOnP_append_cons _ _ (by simp), filter_append]

theorem slashComponents_plain (h : slash ∉ path) :
    slashComponents path = if path = [] then [] else [path] := by
  unfold slashComponents
  rw [splitOn_eq_singleton h]
  by_cases hp : path = [] <;> simp [hp]

/-- What is in the array is the start of the first component. -/
theorem length_components {buf : List UInt8} (hb : buf ≠ []) (path : List UInt8) :
    ∃ b ∈ components buf path, buf.length ≤ b.length := by
  induction path generalizing buf with
  | nil => exact ⟨buf, by simp [components, hb], Nat.le_refl _⟩
  | cons c path ih =>
    rw [components_cons]
    split
    · exact ⟨buf, mem_cons_self, Nat.le_refl _⟩
    · obtain ⟨b, hmem, hle⟩ := ih (show buf ++ [c] ≠ [] by simp)
      rw [length_append] at hle
      exact ⟨b, hmem, by omega⟩

/-- The components of a path that is cut off are not longer than those of the path. -/
theorem components_take (buf : List UInt8) {len : Nat} (h : b ∈ components buf (path.take len)) :
    ∃ b' ∈ components buf path, b.length ≤ b'.length := by
  induction path generalizing buf len with
  | nil => exact ⟨b, by simpa using h, Nat.le_refl _⟩
  | cons c path ih =>
    cases len with
    | zero =>
      by_cases hb : buf = []
      · simp [components, hb] at h
      · obtain rfl : b = buf := by simpa [components, hb] using h
        exact length_components hb _
    | succ len =>
      rw [take_succ_cons, components_cons] at h
      rw [components_cons]
      split at h
      · next hc =>
        rw [if_pos hc]
        split at h
        · next hb =>
          rw [if_pos hb]
          exact ih [] h
        · next hb =>
          rw [if_neg hb]
          rcases mem_cons.mp h with rfl | h
          · exact ⟨b, mem_cons_self, Nat.le_refl _⟩
          · obtain ⟨b', hmem, hle⟩ := ih [] h
            exact ⟨b', mem_cons_of_mem _ hmem, hle⟩
      · next hc =>
        rw [if_neg hc]
        exact ih _ h

theorem Short.take (h : Short path) (len : Nat) : Short (path.take len) := by
  intro b hb
  obtain ⟨b', hb', hle⟩ := components_take [] hb
  exact Nat.lt_of_le_of_lt hle (h b' hb')

theorem Short.parsed (h : Short path)
    (hp : parsePathI [] path = (b, rest)) : b.length < maxDirentryNameSize ∧ ∀ path', rest = some path' → Short path' := by
  cases rest with
  | none =>
    have hc := parsePathI_none hp
    refine ⟨?_, nofun⟩
    by_cases hb : b = []
    · rw [hb]
      decide
    · exact h b (by simp [hc, hb])
  | some path' =>
    obtain ⟨-, hc, -⟩ := parsePathI_some hp
    refine ⟨h b (by simp [hc]), fun x hx => ?_⟩
    cases hx
    intro c hmem
    exact h c (by simp [hc, hmem])

/-- What `parse_path_i` yields from index `i` on. -/
theorem parseResults_ok (path : List UInt8) (len k i : Nat) (hk : ((path.take len).drop i).length ≤ k)
    (hshort : Short ((path.take len).drop i)) :
    ∃ results, (∀ turns, k < turns → parseResults path len turns i = .ok results) ∧
      results.filter (· ≠ []) = components [] ((path.take len).drop i) := by
  induction k using Nat.strong_induction_on generalizing i with
  | _ k ih =>
    have hfrom := parsePathIFrom_eq path len i []
    cases h : parsePathI [] ((path.take len).drop i) with
    | mk b rest =>
      obtain ⟨hb, hrest⟩ := hshort.parsed h
      rw [h, if_pos hb] at hfrom
      cases rest with
      | none =>
        refine ⟨[b], fun turns ht => ?_, ?_⟩
        · obtain ⟨t, rfl⟩ := Nat.exists_eq_succ_of_ne_zero (Nat.ne_of_gt (Nat.zero_lt_of_lt ht))
          unfold parseResults
          rw [hfrom]
          rfl
        · rw [parsePathI_none h]
          by_cases hb : b = [] <;> simp [hb]
      | some rest =>
        obtain ⟨hne, hc, hlt, -⟩ := parsePathI_some h
        obtain ⟨hpos, hdrop⟩ := drop_indexOf h
        obtain ⟨results, hres, hfil⟩ := ih (k - 1) (by omega) (indexOf (path.take len).length (some rest))
          (by rw [hdrop]; omega) (by rw [hdrop]; exact hrest rest rfl)
        refine ⟨b :: results, fun turns ht => ?_, ?_⟩
        · obtain ⟨t, rfl⟩ := Nat.exists_eq_succ_of_ne_zero (Nat.ne_of_gt (Nat.zero_lt_of_lt ht))
          unfold parseResults
          rw [hfrom]
          simp only [ok_bind, gt_iff_lt, hpos, if_true, hres t (by omega)]
          rfl
        · rw [hc, ← hdrop, ← hfil]
          simp [hne]

/-! ## Looking up the components -/

/-- The names are looked up from the root directory or from the working directory. -/
def findAlong (absolute : Bool) (bs : List (List UInt8)) : VfsM (Except Int Nat) := do
  let fs ← currFs
  let start := if absolute then fs.root else fs.pwd
  direntDup start
  lookupAlong start bs

theorem direntFind_eq_findAlong (path : List UInt8) (len : Nat) :
    direntFind path len = findAlong (path.head? = some slash) (slashComponents (path.take len)) := by
  have hloop : ∀ d, direntFindLoop (path.length + 1) d (path.take len) =
      lookupAlong d (slashComponents (path.take len)) := by
    intro d
    rw [← components_eq]
    refine findLoop_eq_lookupAlong ?_
    rw [length_take]
    omega
  unfold direntFind findAlong
  simp only [hloop, decide_eq_true_eq]

/-! ## The last slash -/

theorem strrchr_eq_none : strrchr path = none ↔ slash ∉ path := by
  induction path with
  | nil => simp [strrchr]
  | cons c path ih =>
    rw [strrchr_cons, mem_cons, not_or, ← ih]
    cases strrchr path with
    | some p => simp
    | none => by_cases hc : c = slash <;> simp [hc, eq_comm]

theorem strrchr_back {path front back : List UInt8} (h : strrchr path = some (front, back)) : slash ∉ back := by
  induction path generalizing front with
  | nil => cases h
  | cons c path ih =>
    rw [strrchr_cons] at h
    split at h
    · next f b hp =>
      cases h
      exact ih hp
    · next hp =>
      split at h
      · cases h
        exact strrchr_eq_none.mp hp
      · cases h

theorem strrchr_append {front back : List UInt8} (h : slash ∉ back) :
    strrchr (front ++ slash :: back) = some (front, back) := by
  induction front with
  | nil => simp [strrchr_cons, strrchr_eq_none.mpr h]
  | cons c front ih => rw [cons_append, strrchr_cons, ih]

/-- Only the first byte and the components matter. -/
theorem direntFind_congr {path path' : List UInt8} {len len' : Nat}
    (hhead : path'.head? = some slash ↔ path.head? = some slash)
    (hc : slashComponents (path'.take len') = slashComponents (path.take len)) :
    direntFind path' len' = direntFind path len := by
  rw [direntFind_eq_findAlong, direntFind_eq_findAlong, hc, decide_eq_decide.mpr hhead]

/-- For every path whose components are short and every limit of its length: the
calls of `parse_path_i` that `dirent_find` makes come to an end, and leave the
components of the path up to the limit, and empty strings.  So `dirent_find` looks
up the components, whatever slashes are between them, and `dirent_find2` those in
front of the last slash. -/
theorem path_splitting (path : CString) (hshort : ∀ b ∈ slashComponents path.bytes, b.length < 256) (len : Nat) :
    (∃ results, (∀ turns, path.length < turns → parseResults path.bytes len turns 0 = .ok results) ∧
      results.filter (· ≠ []) = slashComponents (path.bytes.take len)) ∧
    (direntFind path.bytes len =
        findAlong (path.bytes.head? = some slash) (slashComponents (path.bytes.take len)) ∧
      (∀ turns curr, direntFindLoop turns curr (path.bytes.take len) =
        direntFindLoopFrom path.bytes len turns curr 0) ∧
      ∀ (path' : CString) (len' : Nat), (path'.bytes.head? = some slash ↔ path.bytes.head? = some slash) →
        slashComponents (path'.bytes.take len') = slashComponents (path.bytes.take len) →
        direntFind path'.bytes len' = direntFind path.bytes len) ∧
    (slash ∉ path.bytes → direntFind2 path = do return .ok ((← currFs).pwd, path)) ∧
    ∀ front back, slash ∉ back → path.bytes = front ++ slash :: back →
      (cstring back).bytes = back ∧
      slashComponents path.bytes = slashComponents front ++ slashComponents back ∧
      direntFind2 path = do
        match ← findAlong (path.bytes.head? = some slash) (slashComponents front) with
        | .error _ => return .error (-1)
        | .ok d => return .ok (d, cstring back) := by
  have hshort : Short path.bytes := fun b hb => hshort b (components_eq path.bytes ▸ hb)
  refine ⟨?_, ⟨direntFind_eq_findAlong .., fun turns curr => ?_, fun path' len' => direntFind_congr⟩, fun hno => ?_, fun front back hno hp => ?_⟩
  · obtain ⟨results, hres, hfil⟩ := parseResults_ok path.bytes len path.length 0
      (by rw [drop_zero, length_take]; exact Nat.min_le_right ..) (hshort.take len)
    exact ⟨results, hres, hfil.trans (components_eq _)⟩
  · exact direntFindLoop_eq path.bytes len turns curr 0
  · unfold direntFind2
    rw [strrchr_eq_none.mpr hno]
  · have h0 : 0 ∉ back := fun h => path.nonzero (by simp [hp, h])
    have htake : path.bytes.take front.length = front := by
      rw [hp]
      exact take_left
    refine ⟨cstring_bytes h0, by rw [hp, slashComponents_append], ?_⟩
    unfold direntFind2
    rw [hp, strrchr_append hno, ← hp]
    have hfind := direntFind_eq_findAlong path.bytes front.length
    rw [htake] at hfind
    exact congrArg (· >>= _) hfind

/-- A path with slashes everywhere, up to its ninth byte. -/
theorem path_splitting_slashes :
    (∃ results, (∀ turns, (CString.ofString "//home///a/").length < turns →
        parseResults (CString.ofString "//home///a/").bytes 9 turns 0 = .ok results) ∧
      results.filter (· ≠ []) = slashComponents ((CString.ofString "//home///a/").bytes.take 9)) ∧
    slashComponents ((CString.ofString "//home///a/").bytes.take 9) = [(CString.ofString "home").bytes] :=
  ⟨(path_splitting (.ofString "//home///a/") (by decide) 9).1, by decide⟩

end MakarnaX.Vfs
