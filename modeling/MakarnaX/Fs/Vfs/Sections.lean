import MakarnaX.Fs.Vfs.Calls
import MakarnaX.Library.Sections

/-!
# `pushcli`, `popcli` and the locks of dirents

Every function of the file system returns with the `n_cli` it was called with, and
holds no lock of a dirent that was not held before, whether it finds what it looks
for or not.  `dirent_lookup` is the one that does not nest: it takes the lock of
the directory inside a section it has entered before, leaves that section, and
gives the lock back later.
-/

namespace MakarnaX.Vfs

open Library Denemefs

def levels : Levels State Nat where
  level s := s.nCli
  held s d := (s.dirents d).locked = true

/-- The function returns with the `n_cli` it was called with and keeps no lock. -/
abbrev VfsM.Balanced {α : Type} (x : VfsM α) : Prop := Leaves (Leaving levels 0 []) x

variable {α : Type} {d i flags : Nat} {s : State} {name path : CString} {f : TaskFs → TaskFs}

/-! ## What does not touch a lock -/

theorem modify_balanced {g : State → State} (hn : ∀ s, (g s).nCli = s.nCli)
    (hd : ∀ s d, ((g s).dirents d).locked = true → (s.dirents d).locked = true) : VfsM.Balanced (modify g) :=
  .modify fun s => .of_eq (congrArg Int.ofNat (hn s)) (hd s)

theorem setDirent_balanced {f : Dirent → Dirent} (h : ∀ x, (f x).locked = true → x.locked = true) :
    VfsM.Balanced (setDirent d f) := by
  refine modify_balanced (fun _ => rfl) fun s e hl => ?_
  by_cases he : e = d
  · subst he
    exact h _ (by simpa using hl)
  · simpa [he] using hl

theorem setInode_balanced {f : Inode → Inode} : VfsM.Balanced (setInode i f) :=
  modify_balanced (fun _ => rfl) fun _ _ h => h

theorem setTask_balanced : VfsM.Balanced (setTask i f) :=
  modify_balanced (fun _ => rfl) fun _ _ h => h

theorem setCurrFs_balanced : VfsM.Balanced (setCurrFs f) := .read fun _ => setTask_balanced

theorem currFs_balanced : VfsM.Balanced currFs := by
  refine .read fun s => ?_
  split
  · exact .pure _
  · exact .throw _

theorem onDisk_balanced {x : TableM α} : VfsM.Balanced (onDisk x) := by
  intro s a s' h
  unfold onDisk at h
  split at h
  · cases h
    exact .of_eq rfl fun _ h => h
  · cases h

/-! ## Sections and locks -/

theorem pushcli_entering : Leaves (Entering levels none) pushcli :=
  .modify fun _ => ⟨rfl, fun _ h => .inr h⟩

theorem popcli_leaving : Leaves (Leaving levels 1 []) popcli := by
  intro s a s' h
  simp only [popcli, get_run] at h
  split at h
  · cases h
  · next hn =>
    cases h
    refine ⟨?_, fun d hd => ⟨List.not_mem_nil, hd⟩⟩
    simp only [levels]
    omega

theorem spinlockAcquire_entering : Leaves (Entering levels (some d)) (spinlockAcquire d) := by
  intro s a s' h
  cases h
  refine ⟨rfl, fun e he => ?_⟩
  by_cases hd : d = e
  · exact .inl (congrArg some hd)
  · exact .inr (by simpa [levels, Ne.symm hd] using he)

theorem spinlockRelease_leaving : Leaves (Leaving levels 1 [d]) (spinlockRelease d) := by
  -- the lock is free first, and then the section is left
  refine .comp (R := fun s s' => s'.nCli = s.nCli ∧ ∀ e, levels.held s' e → e ≠ d ∧ levels.held s e)
    (.modify fun s => ⟨rfl, fun e he => ?_⟩) (fun _ => popcli_leaving) fun s s1 s' h h' => ⟨?_, fun e he => ?_⟩
  · by_cases hd : e = d
    · subst hd
      simp [levels] at he
    · exact ⟨hd, by simpa [levels, hd] using he⟩
  · have := h'.level
    simp only [levels, h.1] at this ⊢
    exact this
  · obtain ⟨h1, h2⟩ := h.2 e (h'.held e he).2
    exact ⟨by simpa using h1, h2⟩

theorem inodeLock_balanced : VfsM.Balanced (inodeLock i) := by
  refine .enter pushcli_entering fun _ => .keep .get fun s => ?_
  dsimp only
  split
  · exact .keep setInode_balanced fun _ => .keep .get fun _ => .keep (.lift _) fun _ => popcli_leaving
  · exact .keep (.throw _) fun _ => .keep .get fun _ => .keep (.lift _) fun _ => popcli_leaving

theorem inodeUnlock_balanced : VfsM.Balanced (inodeUnlock i) :=
  .enter pushcli_entering fun _ => .keep .get fun _ => .keep (.lift _) fun _ => .keep setInode_balanced fun _ => popcli_leaving

/-! ## Inodes -/

theorem inodeAlloc_balanced : VfsM.Balanced inodeAlloc :=
  .read fun _ => .seq (modify_balanced (fun _ => rfl) fun _ _ h => h) <| .seq setInode_balanced <| .pure _

theorem inodeDup_balanced {o : Option Nat} : VfsM.Balanced (inodeDup o) := by
  cases o with
  | none => exact .pure _
  | some i =>
    exact .seq inodeLock_balanced <| .seq setInode_balanced <| .seq inodeUnlock_balanced <| .pure _

theorem inodeFree_balanced : VfsM.Balanced (inodeFree i) := by
  refine .seq inodeLock_balanced <| .seq setInode_balanced <| .read fun s => ?_
  split
  · exact .read fun _ => .lift _
  · exact inodeUnlock_balanced

theorem inodePermission_balanced : VfsM.Balanced (inodePermission i flags) := by
  refine .read fun s => ?_
  split
  · exact .throw _
  · exact .pure _

theorem opLookup_balanced : VfsM.Balanced (opLookup i name) := by
  refine .read fun s => ?_
  split
  · exact .throw _
  · exact onDisk_balanced

theorem opDir_balanced {f : Nat → TableM α} : VfsM.Balanced (opDir i f) := by
  refine .read fun s => ?_
  split
  · exact onDisk_balanced
  · exact .throw _

/-! ## Dirents -/

theorem direntDup_balanced : VfsM.Balanced (direntDup d) :=
  .acquire spinlockAcquire_entering fun _ => .keep (setDirent_balanced fun _ h => h) fun _ => spinlockRelease_leaving

theorem direntFree_balanced : VfsM.Balanced (direntFree d) := by
  refine .enter pushcli_entering fun _ => .keep (setDirent_balanced fun _ h => h) fun _ => .keep .get fun s => ?_
  dsimp only
  split
  · exact .keep (.read fun _ => .guard <| .read fun _ => .lift _) fun _ => popcli_leaving
  · exact popcli_leaving

theorem forM_balanced {xs : List Nat} {f : Nat → VfsM Unit} (h : ∀ x, VfsM.Balanced (f x)) : VfsM.Balanced (xs.forM f) := by
  induction xs with
  | nil => exact .pure _
  | cons x xs ih => exact .seq (h x) <| ih

theorem direntDelete_balanced {depth : Nat} : VfsM.Balanced (direntDelete depth d) := by
  induction depth generalizing d with
  | zero => exact .throw _
  | succ depth ih =>
    have rest : VfsM.Balanced (do
        spinlockAcquire d
        ((← get).dirents d).childs.forM fun e => do
          setDirent d fun x => { x with childs := x.childs.tail }
          direntDelete depth e
        setDirent d fun x => { x with inode := none, parent := none }
        spinlockRelease d
        direntFree d) :=
      .acquire spinlockAcquire_entering fun _ => .keep .get fun _ =>
        .keep (forM_balanced fun _ => .seq (setDirent_balanced fun _ h => h) <| ih) fun _ =>
          .keep (setDirent_balanced fun _ h => h) fun _ => .release spinlockRelease_leaving fun _ => direntFree_balanced
    refine .read fun s => ?_
    dsimp only
    split
    · exact .seq (.throw _) <| rest
    · exact .read fun _ => .guard <| rest

theorem direntAlloc_balanced : VfsM.Balanced direntAlloc :=
  .read fun _ => .seq (modify_balanced (fun _ => rfl) fun _ _ h => h) <|
    .seq (setDirent_balanced nofun) <| .pure _

theorem direntCacheAdd_balanced : VfsM.Balanced (direntCacheAdd d name i) := by
  have rest : VfsM.Balanced (do
      let c ← direntAlloc
      setDirent c fun x => { x with name := name, inode := some i }
      setDirent d fun x => { x with childs := x.childs ++ [c] }
      setDirent c fun x => { x with parent := some d }
      return c) :=
    .bind direntAlloc_balanced fun _ => .seq (setDirent_balanced fun _ h => h) <|
      .seq (setDirent_balanced fun _ h => h) <| .seq (setDirent_balanced fun _ h => h) <| .pure _
  refine .read fun s => ?_
  dsimp only
  split
  · exact .seq (.throw _) <| rest
  · exact .read fun _ => .guard <| rest

theorem lookupEnd_leaving {j : Nat} {r : Except Int Denemefs.Inode} :
    Leaves (Leaving levels 1 [d]) (lookupEnd d i name j r) := by
  cases r with
  | error e =>
    exact .keep inodeFree_balanced fun _ => .keep inodeUnlock_balanced fun _ =>
      .release spinlockRelease_leaving fun _ => .pure _
  | ok x =>
    exact .keep setInode_balanced fun _ => .keep direntCacheAdd_balanced fun _ => .keep direntDup_balanced fun _ =>
      .keep inodeUnlock_balanced fun _ => .release spinlockRelease_leaving fun _ => .pure _

/-- It is called inside a section, which it leaves. -/
theorem lookupOnDisk_leaving : Leaves (Leaving levels 1 []) (lookupOnDisk d i name) :=
  .acquire spinlockAcquire_entering fun _ => .keep inodeLock_balanced fun _ => .leave popcli_leaving fun _ =>
    .keep inodeAlloc_balanced fun _ => .keep opLookup_balanced fun _ => lookupEnd_leaving

theorem direntLookup_balanced : VfsM.Balanced (direntLookup d name) := by
  refine .read fun s => ?_
  split
  · exact .pure _
  · refine .enter pushcli_entering fun _ => ?_
    dsimp only
    split
    · exact .keep direntDup_balanced fun _ => .leave popcli_leaving fun _ => .pure _
    · split
      · refine .keep currFs_balanced fun fs => ?_
        split
        · exact .keep direntDup_balanced fun _ => .leave popcli_leaving fun _ => .pure _
        · refine .keep .get fun s => ?_
          split
          · exact .throw _
          · exact .keep direntDup_balanced fun _ => .leave popcli_leaving fun _ => .pure _
      · refine .keep .get fun s => ?_
        split
        · exact .keep direntDup_balanced fun _ => .leave popcli_leaving fun _ => .pure _
        · exact lookupOnDisk_leaving

/-! ## Paths -/

theorem findNext_balanced {f : Nat → List UInt8 → VfsM (Except Int Nat)} (hf : ∀ d path, VfsM.Balanced (f d path))
    (r : Except Int Nat) (rest : Option (List UInt8)) : VfsM.Balanced (match r, rest with
      | .error e, _ => (return .error e : VfsM (Except Int Nat))
      | .ok next, none => return .ok next
      | .ok next, some path => f next path) := by
  split
  · exact .pure _
  · exact .pure _
  · exact hf _ _

theorem direntFindLoop_balanced {turns : Nat} {path : List UInt8} : VfsM.Balanced (direntFindLoop turns d path) := by
  induction turns generalizing d path with
  | zero => exact .throw _
  | succ turns ih =>
    have next := findNext_balanced fun d path => @ih d path
    unfold direntFindLoop
    dsimp only
    split
    · intro s a s' h
      cases h
    · split
      · exact .bind (.pure _) fun _ => next _ _
      · exact .bind direntLookup_balanced fun _ => .seq direntFree_balanced <| .bind (.pure _) fun _ => next _ _

theorem direntFind_balanced {path : List UInt8} {len : Nat} : VfsM.Balanced (direntFind path len) :=
  .bind currFs_balanced fun _ => .bind direntDup_balanced fun _ => direntFindLoop_balanced

theorem direntFind2_balanced : VfsM.Balanced (direntFind2 path) := by
  unfold direntFind2
  split
  · exact .bind currFs_balanced fun _ => .pure _
  · refine .bind direntFind_balanced fun r => ?_
    split
    · exact .pure _
    · exact .pure _

theorem inodeFind_balanced : VfsM.Balanced (inodeFind path) := by
  refine .bind direntFind_balanced fun r => ?_
  split
  · exact .pure _
  · refine .read fun _ => .bind inodeDup_balanced fun _ => .seq direntFree_balanced <| ?_
    split
    · exact .pure _
    · exact .pure _

theorem inodeFind2_balanced : VfsM.Balanced (inodeFind2 path) := by
  refine .bind direntFind2_balanced fun r => ?_
  split
  · exact .pure _
  · refine .read fun _ => .bind inodeDup_balanced fun _ => .seq direntFree_balanced <| ?_
    split
    · exact .pure _
    · exact .pure _

theorem direntCacheRemove_balanced : VfsM.Balanced (direntCacheRemove path) := by
  refine .bind direntFind2_balanced fun r => ?_
  split
  · exact .pure _
  · refine .acquire spinlockAcquire_entering fun _ => .keep .get fun s => ?_
    dsimp only
    split
    · exact .release spinlockRelease_leaving fun _ => direntFree_balanced
    · exact .keep (setDirent_balanced fun _ h => h) fun _ => .keep .get fun _ => .keep direntDelete_balanced fun _ =>
        .release spinlockRelease_leaving fun _ => direntFree_balanced

theorem dirStack_balanced {room : Nat} : VfsM.Balanced (dirStack room d) := by
  induction room generalizing d with
  | zero =>
    refine .read fun s => ?_
    split
    · exact .pure _
    · exact .throw _
  | succ room ih =>
    refine .read fun s => ?_
    split
    · exact .pure _
    · exact .bind ih fun _ => .pure _

theorem direntTopath_balanced {buf : Nat → UInt8} {size : Nat} : VfsM.Balanced (direntTopath d buf size) :=
  .enter pushcli_entering fun _ => .keep dirStack_balanced fun _ => .keep .get fun _ => .leave popcli_leaving fun _ =>
    .pure _

/-! ## Files -/

variable {f fd : Nat} {path : CString}

theorem fileOpen_balanced : VfsM.Balanced (fileOpen path flags) := by
  refine .bind inodeFind_balanced fun r => ?_
  split
  · exact .pure _
  · refine .bind inodePermission_balanced fun ok => ?_
    dsimp only
    split
    · exact .pure _
    · exact .read fun _ => .seq (modify_balanced (fun _ => rfl) fun _ _ h => h) <|
        .seq (.discard inodeDup_balanced) <| .seq (modify_balanced (fun _ => rfl) fun _ _ h => h) <| .pure _

theorem fileClose_balanced : VfsM.Balanced (fileClose f) :=
  .read fun _ => .read fun _ => .guard <| inodeFree_balanced

theorem fileOperations_balanced : VfsM.Balanced (fileOperations f) := by
  refine .read fun s => ?_
  split
  · exact .pure _
  · exact .throw _

theorem fileRead_balanced {size : Nat} : VfsM.Balanced (fileRead f size) := by
  refine .read fun s => ?_
  dsimp only
  split
  · exact .pure _
  · refine .seq fileOperations_balanced <| .read fun _ => .bind onDisk_balanced fun r => ?_
    split
    · exact .pure _
    · exact .seq (modify_balanced (fun _ => rfl) fun _ _ h => h) <| .pure _

theorem fileWrite_balanced {buf : List UInt8} : VfsM.Balanced (fileWrite f buf) := by
  refine .read fun s => ?_
  dsimp only
  split
  · exact .pure _
  · refine .seq fileOperations_balanced <| .read fun _ => .bind onDisk_balanced fun r => ?_
    split
    · exact .pure _
    · exact .seq (modify_balanced (fun _ => rfl) fun _ _ h => h) <| .pure _

theorem fileDup_balanced : VfsM.Balanced (fileDup f) :=
  .read fun _ => .read fun _ => .seq (modify_balanced (fun _ => rfl) fun _ _ h => h) <|
    .seq setInode_balanced <| .pure _

theorem unlink_balanced {type : FileType} : VfsM.Balanced (unlink path type) := by
  refine .bind inodeFind2_balanced fun r => ?_
  split
  · exact .pure _
  · refine .seq inodeLock_balanced <| .bind inodePermission_balanced fun ok => ?_
    have rest (r : Int) (dir : Nat) : VfsM.Balanced (if r < 0 then do
        inodeUnlock dir
        return r
      else do
        direntCacheRemove path
        inodeUnlock dir
        return 0) := by
      split
      · exact .seq inodeUnlock_balanced <| .pure _
      · exact .seq direntCacheRemove_balanced <| .seq inodeUnlock_balanced <| .pure _
    dsimp only
    split
    · exact .seq inodeUnlock_balanced <| .pure _
    · split
      · exact .bind opDir_balanced fun r => rest r _
      · exact .bind opDir_balanced fun r => rest r _

theorem create_balanced {fmode : FileMode} : VfsM.Balanced (create path fmode) := by
  refine .bind inodeFind2_balanced fun r => ?_
  split
  · exact .pure _
  · refine .bind inodePermission_balanced fun ok => ?_
    split
    · exact .pure _
    · split
      · refine .bind opDir_balanced fun r => ?_
        split
        · exact .pure _
        · exact .pure _
      · exact .bind opDir_balanced fun _ => .pure _
      · exact .pure _

/-! ## System calls -/

theorem currFile_balanced : VfsM.Balanced (currFile fd) := by
  unfold currFile
  split
  · exact .bind currFs_balanced fun _ => .pure _
  · exact .throw _

theorem openFile_balanced : VfsM.Balanced (openFile fd) := by
  refine .bind currFile_balanced fun r => ?_
  split
  · exact .pure _
  · exact .throw _

theorem sysOpen_balanced : VfsM.Balanced (sysOpen path flags) := by
  refine .enter pushcli_entering fun _ => .keep fileOpen_balanced fun r => ?_
  split
  · exact .leave popcli_leaving fun _ => .pure _
  · refine .keep currFs_balanced fun fs => ?_
    split
    · exact .keep setCurrFs_balanced fun _ => .keep .get fun _ => .keep setInode_balanced fun _ =>
        .leave popcli_leaving fun _ => .pure _
    · exact .leave popcli_leaving fun _ => .pure _

theorem sysClose_balanced : VfsM.Balanced (sysClose fd) := by
  refine .enter pushcli_entering fun _ => .keep currFile_balanced fun r => ?_
  split
  · exact .leave popcli_leaving fun _ => .pure _
  · exact .keep fileClose_balanced fun _ => .keep setCurrFs_balanced fun _ => .leave popcli_leaving fun _ => .pure _

theorem fileLseek_balanced {offset whence : Nat} : VfsM.Balanced (fileLseek fd offset whence) := by
  refine .guard <| .bind openFile_balanced fun _ => .read fun _ => .read fun _ => ?_
  dsimp only
  split
  · exact .seq (modify_balanced (fun _ => rfl) fun _ _ h => h) <| .pure _
  · exact .seq (modify_balanced (fun _ => rfl) fun _ _ h => h) <| .pure _
  · exact .seq (modify_balanced (fun _ => rfl) fun _ _ h => h) <| .pure _
  · exact .pure _

theorem sysStat_balanced : VfsM.Balanced (sysStat path) := by
  refine .bind inodeFind_balanced fun r => ?_
  split
  · exact .pure _
  · exact .read fun _ => .bind .get fun _ => .pure _

theorem sysChdir_balanced : VfsM.Balanced (sysChdir path) := by
  refine .bind direntFind_balanced fun r => ?_
  split
  · exact .pure _
  · exact .seq setCurrFs_balanced <| .pure _

theorem forkFiles_balanced {fs : TaskFs} {c : Nat} {fds : List Nat} : VfsM.Balanced (forkFiles fs c fds) := by
  induction fds with
  | nil => exact .pure _
  | cons i fds ih =>
    unfold forkFiles
    dsimp only
    split
    · exact ih
    · exact .bind fileDup_balanced fun _ => .bind setTask_balanced fun _ => ih

theorem fsFork_balanced : VfsM.Balanced fsFork :=
  .bind currFs_balanced fun _ => .bind direntDup_balanced fun _ => .bind direntDup_balanced fun _ => .bind .get fun _ =>
    .bind (modify_balanced (fun _ => rfl) fun _ _ h => h) fun _ => .bind forkFiles_balanced fun _ => .pure _

theorem freeFiles_balanced {fds : List Nat} : VfsM.Balanced (freeFiles fds) := by
  induction fds with
  | nil => exact .pure _
  | cons i fds ih =>
    refine .bind currFs_balanced fun fs => ?_
    dsimp only
    split
    · exact ih
    · exact .seq fileClose_balanced <| .seq setCurrFs_balanced <| ih

theorem doExecve_balanced {loaded : Bool} : VfsM.Balanced (doExecve path loaded) := by
  refine .bind fileOpen_balanced fun r => ?_
  split
  · exact .pure _
  · refine .bind fileRead_balanced fun r => ?_
    split
    · exact .pure _
    · refine .seq freeFiles_balanced <| ?_
      split
      · exact .pure _
      · exact .bind fileClose_balanced fun _ => .pure _

/-- Every call of the file system is balanced. -/
theorem run_balanced (c : Call) : VfsM.Balanced c.run := by
  cases c with
  | sysOpen => exact .discard sysOpen_balanced
  | sysClose => exact .discard sysClose_balanced
  | sysRead => exact .discard (.bind openFile_balanced fun _ => fileRead_balanced)
  | sysWrite => exact .discard (.bind openFile_balanced fun _ => fileWrite_balanced)
  | fileLseek => exact .discard fileLseek_balanced
  | sysCreat => exact .discard create_balanced
  | sysMkdir => exact .discard create_balanced
  | sysUnlink => exact .discard unlink_balanced
  | sysRmdir => exact .discard unlink_balanced
  | sysStat => exact .discard sysStat_balanced
  | sysChdir => exact .discard sysChdir_balanced
  | fork => exact .discard fsFork_balanced
  | exec => exact .discard doExecve_balanced
  | exit => exact .seq freeFiles_balanced <| modify_balanced (fun _ => rfl) fun _ _ h => h
  | switch t =>
    refine .read fun s => ?_
    split
    · exact modify_balanced (fun _ => rfl) fun _ _ h => h
    · exact .throw _

end MakarnaX.Vfs
