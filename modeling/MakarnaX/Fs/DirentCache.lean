import MakarnaX.Fs.InodeLock
import MakarnaX.Library.CString

/-!
# Lookups and removals in one directory

The tasks that look up names in a directory and remove entries of it, in any
order.  `dirent_lookup` searches the cache, which is the list `childs`, and goes to
the disk if the name is not in it.  It does this with interrupts off, so that it is
one step, unless `inode_lock` finds the inode of the directory locked.  Then it
sleeps, and when it is woken it goes on with the disk: it does not search the cache
again.  A lock is held over several steps by `unlink`, which has interrupts on, and
by `inode_dup`.

`unlink` takes the entry from the disk and then calls `dirent_cache_remove`, which
resolves the path once more.  Whether this leads to the directory again depends on
other directories, and is an argument of the step here, as is whether the task may
remove the entry.  The directory itself stays.
-/

namespace MakarnaX.DirentCache

open Library Function List

/-! ## The directory -/

/-- A dirent of the list `childs`. -/
structure Child where
  name : CString
  ino : Nat
deriving DecidableEq

/-- Where a task is. -/
inductive Place
  | idle
  /-- In `inode_lock`, called by `dirent_lookup`. -/
  | lookup (name : CString)
  /-- In `inode_lock`, called by `inode_dup`. -/
  | dup
  | dupLocked
  /-- In `inode_lock`, called by `unlink`. -/
  | unlink (name : CString)
  | locked (name : CString)
  /-- The entry is off the disk. -/
  | removed (entry : Child)
  /-- Before `inode_unlock` of `unlink`, which has removed an entry or has not. -/
  | done (entry : Option Child)
deriving DecidableEq

/-- The task sleeps or was woken. -/
def Place.waits : Place → Bool
  | .lookup _ | .dup | .unlink _ => true
  | _ => false

/-- The task has the lock. -/
def Place.holds : Place → Bool
  | .dupLocked | .locked _ | .removed _ | .done _ => true
  | _ => false

/-- The inode of the directory, among the locks. -/
abbrev dir : Nat := 0

structure State where
  locks : Inode.Locks
  disk : CString → Option Nat
  childs : List Child
  place : Nat → Place

abbrev DirM := StateT State Exec

/-- A call on the lock of the directory. -/
def onLock (x : Inode.LockM Unit) : DirM Unit := fun s =>
  match x s.locks with
  | .ok (_, l) => .ok ((), { s with locks := l })
  | .error e => .error e

def goto (t : Nat) (p : Place) : DirM Unit := modify fun s => { s with place := update s.place t p }

/-- The first dirent with this name. -/
def cached (s : State) (name : CString) : Option Child := s.childs.find? fun c => c.name = name

/-! ## The calls -/

def direntCacheAdd (name : CString) (ino : Nat) : DirM Unit := do
  ASSERT ((← get).locks.val dir = 0) "d_parent->inode->lock.val == 0"
  modify fun s => { s with childs := s.childs ++ [⟨name, ino⟩] }

/-- The part of `dirent_lookup` behind `inode_lock`. -/
def direntLookupTail (t : Nat) (name : CString) : DirM Unit := do
  match (← get).disk name with
  | none => pure ()
  | some ino => direntCacheAdd name ino
  onLock (Inode.inodeUnlock dir t)
  goto t .idle

def direntLookup (t : Nat) (name : CString) : DirM Unit := do
  match cached (← get) name with
  | some _ => return
  | none =>
    onLock (Inode.inodeLock dir t)
    if (← get).locks.wait.place t ≠ none then
      goto t (.lookup name)
    else
      direntLookupTail t name

/-- `inode_lock`, called where the task is at `held` if it gets the lock. -/
def inodeLock (t : Nat) (asleep held : Place) : DirM Unit := do
  onLock (Inode.inodeLock dir t)
  if (← get).locks.wait.place t ≠ none then
    goto t asleep
  else
    goto t held

/-- A task goes on that was woken in `inode_lock`. -/
def resume (t : Nat) : DirM Unit := do
  onLock (Inode.inodeLockTail dir t)
  match (← get).place t with
  | .lookup name => direntLookupTail t name
  | .dup => goto t .dupLocked
  | .unlink name => goto t (.locked name)
  | _ => return

/-- `op->unlink` or `op->rmdir`. -/
def remove (t : Nat) (permitted : Bool) : DirM Unit := do
  match (← get).place t with
  | .locked name =>
    match (← get).disk name with
    | some ino =>
      if permitted then
        modify fun s => { s with disk := update s.disk name none }
        goto t (.removed ⟨name, ino⟩)
      else
        goto t (.done none)
    | none => goto t (.done none)
  | _ => return

/-- `dirent_cache_remove`; `reached` says whether the path leads to the directory. -/
def direntCacheRemove (t : Nat) (reached : Bool) : DirM Unit := do
  match (← get).place t with
  | .removed entry =>
    if reached then
      modify fun s => { s with childs := s.childs.eraseP fun c => c.name = entry.name }
    goto t (.done (some entry))
  | _ => return

def inodeUnlock (t : Nat) : DirM Unit := do
  onLock (Inode.inodeUnlock dir t)
  goto t .idle

/-! ## Runs -/

inductive Op
  | lookup (t : Nat) (name : CString)
  | dup (t : Nat)
  | unlink (t : Nat) (name : CString)
  | resume (t : Nat)
  | remove (t : Nat) (permitted : Bool)
  | cacheRemove (t : Nat) (reached : Bool)
  | unlock (t : Nat)

def Op.run : Op → DirM Unit
  | .lookup t name => direntLookup t name
  | .dup t => inodeLock t .dup .dupLocked
  | .unlink t name => inodeLock t (.unlink name) (.locked name)
  | .resume t => DirentCache.resume t
  | .remove t permitted => DirentCache.remove t permitted
  | .cacheRemove t reached => direntCacheRemove t reached
  | .unlock t => inodeUnlock t

/-- The task is where the step begins. -/
def Op.enabled (s : State) : Op → Bool
  | .lookup t _ | .dup t | .unlink t _ => s.place t = .idle
  | .resume t => s.locks.wait.place t = some (.woken dir)
  | .remove t _ =>
    match s.place t with
    | .locked _ => true
    | _ => false
  | .cacheRemove t _ =>
    match s.place t with
    | .removed _ => true
    | _ => false
  | .unlock t =>
    match s.place t with
    | .dupLocked | .done _ => true
    | _ => false

/-- A lookup that was woken finds nothing on disk, or a name that is not in the cache
still; and a path leads to the directory once more, or there is nothing to remove
from the cache. -/
def Op.clean (s : State) : Op → Bool
  | .resume t =>
    match s.place t with
    | .lookup name => s.disk name = none ∨ cached s name = none
    | _ => true
  | .cacheRemove t reached =>
    match s.place t with
    | .removed entry => reached = true ∨ cached s entry.name = none
    | _ => true
  | _ => true

/-- An empty cache, and any entries on disk. -/
def Initial (s : State) : Prop := s.locks = Inode.initial ∧ s.childs = [] ∧ ∀ t, s.place t = .idle

/-- Runs of such steps. -/
def system (allowed : State → Op → Bool) : System State :=
  .ofOps Initial (fun s op => op.enabled s = true ∧ allowed s op = true) Op.run

/-! ## The lock -/

variable {s s' : State} {t ino u : Nat} {name : CString} {l : Inode.Locks} {p : Place} {op : Op}
  {allowed : State → Op → Bool}

/-- What a step does to the lock: `h` and `w` say whether task `t` has it then and
whether the task waits for it. -/
structure Takes (l l' : Inode.Locks) (t : Nat) (h w : Bool) : Prop where
  inv : Inode.Inv l'
  holds : t ∈ l'.holders dir ↔ h = true
  waits : l'.wait.place t = none ↔ w = false
  otherHolds : ∀ u, u ≠ t → (u ∈ l'.holders dir ↔ u ∈ l.holders dir)
  otherWaits : ∀ u, u ≠ t → (l'.wait.place u = none ↔ l.wait.place u = none)

section Lock

variable {l : Inode.Locks} (I : Inode.Inv l)

include I

/-- A call that returns keeps the lock in order. -/
theorem inv_of_run (op : Inode.Op) {l' : Inode.Locks} (he : op.enabled l) (h : op.run l = .ok ((), l')) :
    Inode.Inv l' := by
  obtain ⟨l1, h1, I1⟩ := Inode.Op.returns I he
  rw [h] at h1
  cases h1
  exact I1

theorem lock_takes (hp : l.wait.place t = none) (hh : t ∉ l.holders dir) :
    ∃ l', Inode.inodeLock dir t l = .ok ((), l') ∧
      (Takes l l' t true false ∧ l'.wait.place t = none ∨ Takes l l' t false true ∧ l'.wait.place t ≠ none) := by
  rcases I.val_cases dir with hv | hv
  · have hrun := Inode.inodeLock_taken (t := t) hv
    refine ⟨_, hrun, .inr ⟨⟨inv_of_run I (.lock dir t) hp hrun, ?_, ?_, fun _ _ => Iff.rfl, fun u hu => ?_⟩, ?_⟩⟩
    · simp [hh]
    · simp
    · simp [hu]
    · simp
  · have hrun := Inode.inodeLock_free (t := t) hv
    refine ⟨_, hrun, .inl ⟨⟨inv_of_run I (.lock dir t) hp hrun, ?_, ?_, fun u hu => ?_, fun _ _ => Iff.rfl⟩, hp⟩⟩
    · simp
    · simp [hp]
    · simp [hu]

theorem tail_takes (hp : l.wait.place t = some (.woken dir)) :
    ∃ l', Inode.inodeLockTail dir t l = .ok ((), l') ∧ Takes l l' t true false := by
  obtain ⟨hv, -, -⟩ := I.of_woken hp
  have hrun := Inode.inodeLockTail_eq (t := t) hv
  refine ⟨_, hrun, inv_of_run I (.resume dir t) hp hrun, ?_, ?_, fun u hu => ?_, fun u hu => ?_⟩
  · simp
  · simp
  · simp [hu]
  · simp [hu]

theorem unlock_takes (hp : l.wait.place t = none) (hh : t ∈ l.holders dir) :
    ∃ l', Inode.inodeUnlock dir t l = .ok ((), l') ∧ Takes l l' t false false := by
  obtain ⟨hv, hone, -⟩ := I.of_holder hh
  have herase : ∀ u, u ≠ t → (u ∈ (l.holders dir).erase t ↔ u ∈ l.holders dir) := fun u hu =>
    mem_erase_of_ne hu
  have hself : t ∉ (l.holders dir).erase t := by simp [hone]
  cases hq : l.wait.queue dir with
  | nil =>
    have hrun := Inode.inodeUnlock_nobody (t := t) hv hq
    refine ⟨_, hrun, inv_of_run I (.unlock dir t) ⟨hp, hh⟩ hrun, ?_, ?_, fun u hu => ?_, fun _ _ => Iff.rfl⟩
    · simp [hself]
    · simp [hp]
    · simpa using herase u hu
  | cons v vs =>
    have hrun := Inode.inodeUnlock_next (t := t) hv hq
    have hv' := I.sound.place_head hq
    have hvt : t ≠ v := by
      rintro rfl
      rw [hp] at hv'
      cases hv'
    refine ⟨_, hrun, inv_of_run I (.unlock dir t) ⟨hp, hh⟩ hrun, ?_, ?_, fun u hu => ?_, fun u hu => ?_⟩
    · simp [hself]
    · simp [hvt, hp]
    · simpa using herase u hu
    · by_cases huv : u = v
      · subst huv
        simp [hv']
      · simp [huv]

end Lock

/-! ## The tasks and the lock -/

/-- The lock is in order, and held and waited for by the tasks that are there. -/
structure Inv (s : State) : Prop where
  locks : Inode.Inv s.locks
  holds : ∀ t, t ∈ s.locks.holders dir ↔ (s.place t).holds = true
  waits : ∀ t, s.locks.wait.place t = none ↔ (s.place t).waits = false

theorem Inv.initial (h : Initial s) : Inv s := by
  obtain ⟨h1, -, h3⟩ := h
  refine ⟨h1 ▸ .initial, fun t => ?_, fun t => ?_⟩
  · rw [h1, h3 t]
    simp [Inode.initial, Place.holds]
  · rw [h1, h3 t]
    simp [Inode.initial, Place.waits, WaitLists.empty]

/-- The tasks but `t` are where they were. -/
structure Goes (s : State) (t : Nat) (p : Place) (s' : State) : Prop where
  inv : Inv s'
  disk : s'.disk = s.disk
  childs : s'.childs = s.childs
  place : s'.place = update s.place t p

theorem Inv.takes (I : Inv s) (T : Takes s.locks l t p.holds p.waits) :
    Inv { s with locks := l, place := update s.place t p } where
  locks := T.inv
  holds u := by
    by_cases hu : u = t
    · subst hu
      simpa using T.holds
    · simpa [hu] using (T.otherHolds u hu).trans (I.holds u)
  waits u := by
    by_cases hu : u = t
    · subst hu
      simpa using T.waits
    · simpa [hu] using (T.otherWaits u hu).trans (I.waits u)

theorem Inv.goes (I : Inv s) (T : Takes s.locks l t p.holds p.waits) :
    Goes s t p { s with locks := l, place := update s.place t p } :=
  ⟨I.takes T, rfl, rfl, rfl⟩

/-- At most one task holds the lock. -/
theorem Inv.holder_unique (I : Inv s) (ht : (s.place t).holds = true) (hu : (s.place u).holds = true) :
    t = u := by
  obtain ⟨-, hone, -⟩ := I.locks.of_holder ((I.holds t).mpr ht)
  have hm := (I.holds u).mpr hu
  rw [hone] at hm
  exact (mem_singleton.mp hm).symm

/-- A task that neither has the lock nor waits for it. -/
theorem Inv.idle (I : Inv s) (h : s.place t = .idle) : s.locks.wait.place t = none ∧ t ∉ s.locks.holders dir := by
  refine ⟨(I.waits t).mpr (by rw [h]; rfl), fun hm => ?_⟩
  have := (I.holds t).mp hm
  rw [h] at this
  cases this

/-- A task that has the lock. -/
theorem Inv.held (I : Inv s) (h : (s.place t).holds = true) :
    s.locks.wait.place t = none ∧ t ∈ s.locks.holders dir := by
  refine ⟨(I.waits t).mpr ?_, (I.holds t).mpr h⟩
  cases hp : s.place t <;> simp_all [Place.holds, Place.waits]

theorem onLock_eq {x : Inode.LockM Unit} (h : x s.locks = .ok ((), l)) :
    onLock x s = .ok ((), { s with locks := l }) := by
  unfold onLock
  rw [h]

theorem Takes.trans {l l₁ l₂ : Inode.Locks} {h w h' w' : Bool} (T : Takes l l₁ t h w) (T' : Takes l₁ l₂ t h' w') :
    Takes l l₂ t h' w' where
  inv := T'.inv
  holds := T'.holds
  waits := T'.waits
  otherHolds u hu := (T'.otherHolds u hu).trans (T.otherHolds u hu)
  otherWaits u hu := (T'.otherWaits u hu).trans (T.otherWaits u hu)

/-- A task that stays with the lock as it is. -/
theorem Takes.same (I : Inode.Inv l) (hp : l.wait.place t = none) (hh : t ∈ l.holders dir) :
    Takes l l t true false where
  inv := I
  holds := by simp [hh]
  waits := by simp [hp]
  otherHolds _ _ := Iff.rfl
  otherWaits _ _ := Iff.rfl

/-- If a task gets the lock, no other has it. -/
theorem Inv.no_holder (I : Inv s) (T : Takes s.locks l t true false)
    (ht : (s.place t).holds = false) (u : Nat) : (s.place u).holds = false := by
  by_cases hu : u = t
  · rw [hu, ht]
  · rw [← Bool.not_eq_true, ← I.holds u, ← T.otherHolds u hu]
    obtain ⟨-, hone, -⟩ := T.inv.of_holder (T.holds.mpr rfl)
    rw [hone]
    exact fun hm => hu (mem_singleton.mp hm)

/-! ## What the steps do -/

/-- The entry the task has removed from the disk. -/
def Place.entry : Place → Option Child
  | .removed entry => some entry
  | .done entry => entry
  | _ => none

/-- The state behind a step. -/
inductive Effect (s : State) : Op → State → Prop
  /-- The name is in the cache. -/
  | found {t : Nat} {name : CString} : Effect s (.lookup t name) s
  /-- The task goes on. -/
  | goes {op : Op} {t : Nat} {p : Place} {s' : State} : op.clean s = true → p.entry = none →
      (∀ c, s.place t ≠ .removed c) → Goes s t p s' → Effect s op s'
  /-- A dirent is made. -/
  | adds {op : Op} {t ino : Nat} {name : CString} {s' : State} : (op.clean s = true ↔ cached s name = none) →
      s.disk name = some ino → (∀ u, (s.place u).holds = false) →
      Goes { s with childs := s.childs ++ [⟨name, ino⟩] } t .idle s' → Effect s op s'
  | removes {t ino : Nat} {name : CString} {permitted : Bool} {s' : State} : s.place t = .locked name →
      s.disk name = some ino →
      Goes { s with disk := update s.disk name none } t (.removed ⟨name, ino⟩) s' →
      Effect s (.remove t permitted) s'
  | erases {t : Nat} {entry : Child} {s' : State} : s.place t = .removed entry →
      Goes { s with childs := s.childs.eraseP fun c => c.name = entry.name } t (.done (some entry)) s' →
      Effect s (.cacheRemove t true) s'
  /-- The path does not lead to the directory any more. -/
  | misses {t : Nat} {entry : Child} {s' : State} : s.place t = .removed entry →
      Goes s t (.done (some entry)) s' → Effect s (.cacheRemove t false) s'

section Effects

variable (I : Inv s)

include I

/-- The end of a lookup, for a task that has the lock now. -/
theorem lookupTail_effect (op : Op) (name : CString) (T : Takes s.locks l t true false)
    (ht : (s.place t).holds = false) (hnone : s.disk name = none → op.clean s = true)
    (hsome : s.disk name ≠ none → (op.clean s = true ↔ cached s name = none)) :
    ∃ s', direntLookupTail t name { s with locks := l } = .ok ((), s') ∧ Effect s op s' := by
  have hh := T.holds.mpr rfl
  obtain ⟨l', hrun, T'⟩ := unlock_takes T.inv (T.waits.mpr rfl) hh
  have TT := T.trans T'
  cases hd : s.disk name with
  | none =>
    refine ⟨_, ?_, .goes (t := t) (p := .idle) (hnone hd) rfl ?_ (I.goes TT)⟩
    · simp [direntLookupTail, hd, bind_run (onLock_eq (s := { s with locks := l }) hrun), goto]
    · intro c hc
      rw [hc] at ht
      cases ht
  | some ino =>
    have hv := (T.inv.of_holder hh).1
    have I' : Inv { s with childs := s.childs ++ [⟨name, ino⟩] } := ⟨I.locks, I.holds, I.waits⟩
    refine ⟨_, ?_, .adds (t := t) (hsome (by simp [hd])) hd (I.no_holder T ht) (I'.goes TT)⟩
    simp [direntLookupTail, hd, direntCacheAdd, ASSERT, check_run, hv,
      bind_run (onLock_eq (s := { s with locks := l, childs := s.childs ++ [⟨name, ino⟩] }) hrun), goto]

/-- `inode_lock`, called by `inode_dup` and `unlink`. -/
theorem inodeLock_effect (hop : op.clean s = true) {asleep held : Place} (hi : s.place t = .idle)
    (ha : asleep.entry = none ∧ asleep.waits = true ∧ asleep.holds = false)
    (hl : held.entry = none ∧ held.waits = false ∧ held.holds = true) :
    ∃ s', inodeLock t asleep held s = .ok ((), s') ∧ Effect s op s' := by
  obtain ⟨hp, hh⟩ := I.idle hi
  have hne : ∀ c, s.place t ≠ .removed c := by simp [hi]
  obtain ⟨l, hrun, ⟨T, hw⟩ | ⟨T, hw⟩⟩ := lock_takes I.locks hp hh
  · rw [← hl.2.1, ← hl.2.2] at T
    refine ⟨_, ?_, .goes hop hl.1 hne (I.goes T)⟩
    simp [inodeLock, bind_run (onLock_eq hrun), hw, goto]
  · rw [← ha.2.1, ← ha.2.2] at T
    refine ⟨_, ?_, .goes hop ha.1 hne (I.goes T)⟩
    simp [inodeLock, bind_run (onLock_eq hrun), hw, goto]

theorem lookup_effect (hi : s.place t = .idle) :
    ∃ s', direntLookup t name s = .ok ((), s') ∧ Effect s (.lookup t name) s' := by
  obtain ⟨hp, hh⟩ := I.idle hi
  cases hc : cached s name with
  | some c => exact ⟨s, by simp [direntLookup, hc], .found⟩
  | none =>
    obtain ⟨l, hrun, ⟨T, hw⟩ | ⟨T, hw⟩⟩ := lock_takes I.locks hp hh
    · obtain ⟨s', hs', E⟩ := lookupTail_effect I (.lookup t name) name T (by rw [hi]; rfl) (fun _ => rfl)
        fun _ => ⟨fun _ => hc, fun _ => rfl⟩
      refine ⟨s', ?_, E⟩
      simp [direntLookup, hc, bind_run (onLock_eq hrun), hw, hs']
    · refine ⟨_, ?_, .goes (t := t) (p := .lookup name) rfl rfl (by simp [hi]) (I.goes T)⟩
      simp [direntLookup, hc, bind_run (onLock_eq hrun), hw, goto]

theorem resume_effect (hp : s.locks.wait.place t = some (.woken dir)) :
    ∃ s', resume t s = .ok ((), s') ∧ Effect s (.resume t) s' := by
  obtain ⟨l, hrun, T⟩ := tail_takes I.locks hp
  have hw : (s.place t).waits = true := by
    rw [← Bool.not_eq_false, ← I.waits t, hp]
    exact nofun
  cases hpl : s.place t with
  | lookup name =>
    obtain ⟨s', hs', E⟩ := lookupTail_effect I (.resume t) name T (by rw [hpl]; rfl)
      (fun hd => by simp [Op.clean, hpl, hd]) fun hd => by simp [Op.clean, hpl, hd]
    refine ⟨s', ?_, E⟩
    simp [resume, bind_run (onLock_eq hrun), hpl, hs']
  | dup =>
    refine ⟨_, ?_, .goes (t := t) (p := .dupLocked) (by simp [Op.clean, hpl]) rfl (by simp [hpl]) (I.goes T)⟩
    simp [resume, bind_run (onLock_eq hrun), hpl, goto]
  | unlink name =>
    refine ⟨_, ?_, .goes (t := t) (p := .locked name) (by simp [Op.clean, hpl]) rfl (by simp [hpl]) (I.goes T)⟩
    simp [resume, bind_run (onLock_eq hrun), hpl, goto]
  | idle | dupLocked | locked | removed | done => simp [hpl, Place.waits] at hw

/-- A step of a task that has the lock and keeps it. -/
theorem Inv.stays (h : (s.place t).holds = true) (hp : p.holds = true ∧ p.waits = false) :
    Goes s t p { s with place := update s.place t p } := by
  obtain ⟨h1, h2⟩ := I.held h
  have T := Takes.same I.locks h1 h2
  rw [← hp.1, ← hp.2] at T
  exact I.goes T

theorem remove_effect {permitted : Bool} (hl : s.place t = .locked name) :
    ∃ s', remove t permitted s = .ok ((), s') ∧ Effect s (.remove t permitted) s' := by
  have hh : (s.place t).holds = true := by rw [hl]; rfl
  have hfail : Effect s (.remove t permitted) { s with place := update s.place t (.done none) } :=
    .goes (t := t) (p := .done none) rfl rfl (by simp [hl]) (I.stays hh ⟨rfl, rfl⟩)
  cases hd : s.disk name with
  | none => exact ⟨_, by simp [remove, hl, hd, goto], hfail⟩
  | some ino =>
    cases permitted with
    | false => exact ⟨_, by simp [remove, hl, hd, goto], hfail⟩
    | true =>
      have I' : Inv { s with disk := update s.disk name none } := ⟨I.locks, I.holds, I.waits⟩
      refine ⟨_, ?_, .removes hl hd (I'.stays (t := t) (p := .removed ⟨name, ino⟩) hh ⟨rfl, rfl⟩)⟩
      simp [remove, hl, hd, goto]

theorem cacheRemove_effect {reached : Bool} {entry : Child} (hr : s.place t = .removed entry) :
    ∃ s', direntCacheRemove t reached s = .ok ((), s') ∧ Effect s (.cacheRemove t reached) s' := by
  have hh : (s.place t).holds = true := by rw [hr]; rfl
  cases reached with
  | false =>
    refine ⟨_, ?_, .misses hr (I.stays (t := t) (p := .done (some entry)) hh ⟨rfl, rfl⟩)⟩
    simp [direntCacheRemove, hr, goto]
  | true =>
    have I' : Inv { s with childs := s.childs.eraseP fun c => c.name = entry.name } := ⟨I.locks, I.holds, I.waits⟩
    refine ⟨_, ?_, .erases hr (I'.stays (t := t) (p := .done (some entry)) hh ⟨rfl, rfl⟩)⟩
    simp [direntCacheRemove, hr, goto]

theorem unlock_effect (hh : (s.place t).holds = true) (hne : ∀ c, s.place t ≠ .removed c) :
    ∃ s', inodeUnlock t s = .ok ((), s') ∧ Effect s (.unlock t) s' := by
  obtain ⟨h1, h2⟩ := I.held hh
  obtain ⟨l, hrun, T⟩ := unlock_takes I.locks h1 h2
  refine ⟨_, ?_, .goes (t := t) (p := .idle) rfl rfl hne (I.goes T)⟩
  simp [inodeUnlock, bind_run (onLock_eq hrun), goto]

/-- Every step that can be taken returns. -/
theorem Op.effect (he : op.enabled s = true) : ∃ s', op.run s = .ok ((), s') ∧ Effect s op s' := by
  cases op with
  | lookup t name => exact lookup_effect I (of_decide_eq_true he)
  | dup t | unlink t name => exact inodeLock_effect I rfl (of_decide_eq_true he) ⟨rfl, rfl, rfl⟩ ⟨rfl, rfl, rfl⟩
  | resume t => exact resume_effect I (of_decide_eq_true he)
  | remove t permitted =>
    dsimp only [Op.enabled] at he
    split at he
    · next h => exact remove_effect I h
    · cases he
  | cacheRemove t reached =>
    dsimp only [Op.enabled] at he
    split at he
    · next h => exact cacheRemove_effect I h
    · cases he
  | unlock t =>
    dsimp only [Op.enabled] at he
    split at he
    · next h => exact unlock_effect I (by rw [h]; rfl) (by simp [h])
    · next h => exact unlock_effect I (by rw [h]; rfl) (by simp [h])
    · cases he

end Effects

/-! ## The cache -/

/-- No name is in the cache twice, and no entry that was removed is in it. -/
def Good (s : State) : Prop :=
  (s.childs.map Child.name).Nodup ∧ ∀ t entry, s.place t = .done (some entry) → entry ∉ s.childs

/-- Every dirent stands for an entry on disk, or for one that is just removed. -/
structure Clean (s : State) : Prop where
  good : Good s
  entry : ∀ c ∈ s.childs, s.disk c.name = some c.ino ∨ ∃ t, s.place t = .removed c
  removed : ∀ t c, s.place t = .removed c → s.disk c.name = none

theorem Clean.initial (h : Initial s) : Clean s := by
  obtain ⟨-, h2, h3⟩ := h
  refine ⟨⟨by simp [h2], fun t entry ht => ?_⟩, fun c hc => ?_, fun t c ht => ?_⟩
  · rw [h3 t] at ht
    cases ht
  · rw [h2] at hc
    cases hc
  · rw [h3 t] at ht
    cases ht

/-- Where a task is then. -/
theorem Goes.cases {p q : Place} (G : Goes s t p s') (h : s'.place u = q) :
    u = t ∧ p = q ∨ u ≠ t ∧ s.place u = q := by
  rw [G.place] at h
  by_cases hu : u = t
  · subst hu
    rw [update_self] at h
    exact .inl ⟨rfl, h⟩
  · rw [update_of_ne hu] at h
    exact .inr ⟨hu, h⟩

theorem Goes.other (G : Goes s t p s') (h : u ≠ t) : s'.place u = s.place u := by
  rw [G.place, update_of_ne h]

theorem Goes.self (G : Goes s t p s') : s'.place t = p := by
  rw [G.place, update_self]

/-- A task goes on that has not removed anything just now. -/
theorem Clean.goes (C : Clean s) (hp : p.entry = none) (ht : ∀ c, s.place t ≠ .removed c)
    (G : Goes s t p s') : Clean s' where
  good := by
    refine ⟨by rw [G.childs]; exact C.good.1, fun u entry hu => ?_⟩
    rcases G.cases hu with ⟨-, rfl⟩ | ⟨-, hu⟩
    · cases hp
    · rw [G.childs]
      exact C.good.2 u entry hu
  entry c hc := by
    rw [G.childs] at hc
    rw [G.disk]
    refine (C.entry c hc).imp id fun ⟨u, hu⟩ => ⟨u, ?_⟩
    rw [G.other, hu]
    rintro rfl
    exact ht c hu
  removed u c hu := by
    rcases G.cases hu with ⟨-, rfl⟩ | ⟨-, hu⟩
    · cases hp
    · rw [G.disk]
      exact C.removed u c hu

theorem cached_eq_none : cached s name = none ↔ name ∉ s.childs.map Child.name := by
  simp only [cached, find?_eq_none, decide_eq_true_eq, mem_map, not_exists, not_and]

/-- Nobody has removed anything just now. -/
theorem not_removed (h : (s.place t).holds = false) : (∀ c, s.place t ≠ .removed c) ∧ ∀ c, s.place t ≠ .done c := by
  refine ⟨fun c hc => ?_, fun c hc => ?_⟩ <;>
  · rw [hc] at h
    cases h

theorem nodup_add (hnd : (s.childs.map Child.name).Nodup) :
    ((s.childs ++ [(⟨name, ino⟩ : Child)]).map Child.name).Nodup ↔ cached s name = none := by
  rw [map_append, nodup_append, cached_eq_none]
  simp [hnd]

theorem Clean.adds (C : Clean s) (hd : s.disk name = some ino) (hh : ∀ u, (s.place u).holds = false)
    (hc : cached s name = none) (G : Goes { s with childs := s.childs ++ [⟨name, ino⟩] } t .idle s') : Clean s' where
  good := by
    refine ⟨by rw [G.childs]; exact (nodup_add C.good.1).mpr hc, fun u entry hu => ?_⟩
    rcases G.cases hu with ⟨-, h⟩ | ⟨-, hu⟩
    · cases h
    · exact absurd hu ((not_removed (hh u)).2 _)
  entry c hmem := by
    rw [G.childs] at hmem
    rw [G.disk]
    rcases mem_append.mp hmem with hm | hm
    · rcases C.entry c hm with h | ⟨u, hu⟩
      · exact .inl h
      · exact absurd hu ((not_removed (hh u)).1 c)
    · obtain rfl := mem_singleton.mp hm
      exact .inl hd
  removed u c hu := by
    rcases G.cases hu with ⟨-, h⟩ | ⟨-, hu⟩
    · cases h
    · exact absurd hu ((not_removed (hh u)).1 c)

theorem Clean.removes (C : Clean s) (I : Inv s) (hl : s.place t = .locked name) (hd : s.disk name = some ino)
    (G : Goes { s with disk := update s.disk name none } t (.removed ⟨name, ino⟩) s') : Clean s' := by
  have alone : ∀ u, u ≠ t → (s.place u).holds = false := by
    intro u hu
    rw [← Bool.not_eq_true]
    exact fun h => hu (I.holder_unique h (by rw [hl]; rfl))
  refine ⟨⟨by rw [G.childs]; exact C.good.1, fun u entry hu => ?_⟩, fun c hc => ?_, fun u c hu => ?_⟩
  · rcases G.cases hu with ⟨-, h⟩ | ⟨hne, hu⟩
    · cases h
    · exact absurd hu ((not_removed (alone u hne)).2 _)
  · rw [G.childs] at hc
    rw [G.disk]
    rcases C.entry c hc with h | ⟨u, hu⟩
    · by_cases hn : c.name = name
      · -- the dirent of the entry that is removed
        refine .inr ⟨t, G.self.trans ?_⟩
        obtain ⟨cname, cino⟩ := c
        obtain rfl : cname = name := hn
        rw [Option.some.inj (hd.symm.trans h)]
      · refine .inl ?_
        rw [← h]
        exact update_of_ne hn ..
    · have hne : u ≠ t := by
        rintro rfl
        rw [hl] at hu
        cases hu
      exact absurd hu ((not_removed (alone u hne)).1 c)
  · rcases G.cases hu with ⟨-, h⟩ | ⟨hne, hu⟩
    · cases h
      rw [G.disk]
      exact update_self ..
    · exact absurd hu ((not_removed (alone u hne)).1 c)

theorem nodup_erase {l : List Child} (h : (l.map Child.name).Nodup) {c : Child}
    (hc : c ∈ l.eraseP fun c => c.name = name) : c ∈ l ∧ c.name ≠ name := by
  induction l with
  | nil => cases hc
  | cons x l ih =>
    rw [map_cons, nodup_cons] at h
    by_cases hx : x.name = name
    · rw [eraseP_cons_of_pos (by simpa using hx)] at hc
      refine ⟨mem_cons_of_mem x hc, ?_⟩
      rintro rfl
      exact h.1 (hx ▸ mem_map_of_mem hc)
    · rw [eraseP_cons_of_neg (by simpa using hx)] at hc
      rcases mem_cons.mp hc with rfl | hc
      · exact ⟨mem_cons_self, hx⟩
      · exact ⟨mem_cons_of_mem x (ih h.2 hc).1, (ih h.2 hc).2⟩

/-- The end of `dirent_cache_remove`, with the dirents that are left. -/
theorem Clean.erases (C : Clean s) (I : Inv s) {entry : Child} (hr : s.place t = .removed entry) {l : List Child}
    (hsub : l.Sublist s.childs) (hne : ∀ c ∈ l, c.name ≠ entry.name)
    (G : Goes { s with childs := l } t (.done (some entry)) s') : Clean s' := by
  have alone : ∀ u, u ≠ t → (s.place u).holds = false := by
    intro u hu
    rw [← Bool.not_eq_true]
    exact fun h => hu (I.holder_unique h (by rw [hr]; rfl))
  refine ⟨⟨?_, fun u e hu => ?_⟩, fun c hc => ?_, fun u c hu => ?_⟩
  · rw [G.childs]
    exact C.good.1.sublist (hsub.map _)
  · rw [G.childs]
    rcases G.cases hu with ⟨-, h⟩ | ⟨hn, hu⟩
    · cases h
      exact fun hm => hne _ hm rfl
    · exact absurd hu ((not_removed (alone u hn)).2 _)
  · rw [G.childs] at hc
    rw [G.disk]
    rcases C.entry c (hsub.subset hc) with h | ⟨u, hu⟩
    · exact .inl h
    · by_cases hut : u = t
      · subst hut
        obtain rfl : entry = c := Place.removed.inj (hr.symm.trans hu)
        exact absurd rfl (hne _ hc)
      · exact absurd hu ((not_removed (alone u hut)).1 c)
  · rcases G.cases hu with ⟨-, h⟩ | ⟨hn, hu⟩
    · cases h
    · exact absurd hu ((not_removed (alone u hn)).1 c)

/-- The step leaves the cache good if and only if it is clean. -/
theorem Effect.good (C : Clean s) (I : Inv s) (E : Effect s op s') :
    (op.clean s = true → Clean s') ∧ (Good s' → op.clean s = true) := by
  cases E with
  | found => exact ⟨fun _ => C, fun _ => rfl⟩
  | goes hop hp ht G => exact ⟨fun _ => C.goes hp ht G, fun _ => hop⟩
  | @adds _ _ ino name _ hop hd hh G =>
    refine ⟨fun h => C.adds hd hh (hop.mp h) G, fun h => hop.mpr ?_⟩
    have hnd := h.1
    rw [G.childs] at hnd
    exact (nodup_add C.good.1).mp hnd
  | removes hl hd G => exact ⟨fun _ => C.removes I hl hd G, fun _ => rfl⟩
  | @erases t entry _ hr G =>
    have hop : Op.clean s (.cacheRemove t true) = true := by simp [Op.clean, hr]
    exact ⟨fun _ => C.erases I hr eraseP_sublist (fun c hc => (nodup_erase C.good.1 hc).2) G, fun _ => hop⟩
  | @misses t entry _ hr G =>
    have hop : Op.clean s (.cacheRemove t false) = true ↔ cached s entry.name = none := by simp [Op.clean, hr]
    rw [hop]
    refine ⟨fun h => C.erases I hr (List.Sublist.refl _) (fun c hc hn => ?_) G, fun h => ?_⟩
    · exact cached_eq_none.mp h (hn ▸ mem_map_of_mem hc)
    · refine cached_eq_none.mpr fun hm => ?_
      obtain ⟨c, hc, hn⟩ := mem_map.mp hm
      -- the dirent of this name is the one of the entry
      have hgone := C.removed t entry hr
      rcases C.entry c hc with hdisk | ⟨u, hu⟩
      · rw [hn, hgone] at hdisk
        cases hdisk
      · obtain rfl := I.holder_unique (t := t) (u := u) (by rw [hr]; rfl) (by rw [hu]; rfl)
        obtain rfl : entry = c := Place.removed.inj (hr.symm.trans hu)
        refine h.2 t entry G.self ?_
        rw [G.childs]
        exact hc

theorem Effect.inv (I : Inv s) (E : Effect s op s') : Inv s' := by
  cases E with
  | found => exact I
  | goes _ _ _ G | adds _ _ _ G | removes _ _ G | erases _ G | misses _ G => exact G.inv

theorem invariant (h : (system allowed).Reachable s) : Inv s := by
  refine System.Reachable.invariant (fun s => .initial) ?_ h
  rintro s s' I ⟨op, ⟨he, -⟩, hr⟩
  obtain ⟨s1, hr1, E⟩ := Op.effect I he
  rw [hr] at hr1
  cases hr1
  exact E.inv I

theorem clean (h : (system Op.clean).Reachable s) : Clean s := by
  have inv : Inv s ∧ Clean s := by
    refine System.Reachable.invariant (I := fun s => Inv s ∧ Clean s) (fun s h => ⟨.initial h, .initial h⟩) ?_ h
    rintro s s' ⟨I, C⟩ ⟨op, ⟨he, hop⟩, hr⟩
    obtain ⟨s1, hr1, E⟩ := Op.effect I he
    rw [hr] at hr1
    cases hr1
    exact ⟨E.inv I, (E.good C I).1 hop⟩
  exact inv.2

/-- In every state of every run of clean steps, no name is in the cache twice, and what
`unlink` or `rmdir` has removed is not in it; every step returns; and a step that is
not clean, and no other, leaves a name twice in the cache or what was removed in it. -/
theorem no_name_twice (h : (system Op.clean).Reachable s) :
    ((s.childs.map Child.name).Nodup ∧ ∀ t entry, s.place t = .done (some entry) → entry ∉ s.childs) ∧
    ∀ op : Op, op.enabled s = true → ∃ s', op.run s = .ok ((), s') ∧ (Good s' ↔ op.clean s = true) := by
  have I := invariant h
  have C := clean h
  refine ⟨C.good, fun op he => ?_⟩
  obtain ⟨s', hr, E⟩ := Op.effect I he
  obtain ⟨h1, h2⟩ := E.good C I
  exact ⟨s', hr, h2, fun hop => (h1 hop).good⟩

/-- A directory with the entries `a` and `b`. -/
def twoEntries : State where
  locks := Inode.initial
  disk name := if name = .ofString "a" then some 5 else if name = .ofString "b" then some 6 else none
  childs := []
  place _ := .idle

/-- The state behind some steps in this directory. -/
def runFrom (allowed : State → Op → Bool) (ops : List Op) : Option State :=
  System.after (fun s op => Op.enabled s op = true ∧ allowed s op = true) Op.run twoEntries ops

theorem runFrom_reachable {ops : List Op} (h : runFrom allowed ops = some s) :
    (system allowed).Reachable s := System.Reachable.after (.init ⟨rfl, rfl, fun _ => rfl⟩) h

/-- Task 1 removes `b`, and task 2 waits meanwhile to look up `a`. -/
theorem no_name_twice_waiting : ∃ s, (system Op.clean).Reachable s ∧ s.childs ≠ [] ∧
    (s.childs.map Child.name).Nodup := by
  obtain ⟨s, hs, hx⟩ : ∃ s, runFrom Op.clean [.unlink 1 (.ofString "b"), .lookup 2 (.ofString "a"), .remove 1 true,
      .cacheRemove 1 true, .unlock 1, .resume 2] = some s ∧ s.childs = [⟨.ofString "a", 5⟩] :=
      observed (by decide +kernel)
  have hr := runFrom_reachable hs
  exact ⟨s, hr, by simp [hx], (no_name_twice hr).1.1⟩

/-- Task 1 removes `b`, and tasks 2 and 3 wait meanwhile to look up `a`: both add it.
When task 1 removes `a` then, one of the two dirents stays. -/
theorem two_waiters_add_twice : ∃ s s', (system fun _ _ => true).Reachable s ∧ (system fun _ _ => true).Reachable s' ∧
    ¬ (s.childs.map Child.name).Nodup ∧
    s'.place 1 = .done (some ⟨.ofString "a", 5⟩) ∧ ⟨.ofString "a", 5⟩ ∈ s'.childs := by
  have hrun : (runFrom (fun _ _ => true) [.unlink 1 (.ofString "b"), .lookup 2 (.ofString "a"),
      .lookup 3 (.ofString "a"), .remove 1 true, .cacheRemove 1 true, .unlock 1, .resume 2, .resume 3]).map
        (fun s => decide (s.childs.map Child.name).Nodup) = some false := by
    decide +kernel
  have hrun' : (runFrom (fun _ _ => true) [.unlink 1 (.ofString "b"), .lookup 2 (.ofString "a"),
      .lookup 3 (.ofString "a"), .remove 1 true, .cacheRemove 1 true, .unlock 1, .resume 2, .resume 3,
      .unlink 1 (.ofString "a"), .remove 1 true, .cacheRemove 1 true]).map
        (fun s => decide (s.place 1 = .done (some ⟨.ofString "a", 5⟩) ∧ ⟨.ofString "a", 5⟩ ∈ s.childs)) =
      some true := by
    decide +kernel
  obtain ⟨s, hs, hx⟩ := Option.map_eq_some_iff.mp hrun
  obtain ⟨s', hs', hx'⟩ := Option.map_eq_some_iff.mp hrun'
  exact ⟨s, s', runFrom_reachable hs, runFrom_reachable hs', of_decide_eq_false hx, of_decide_eq_true hx'⟩

end MakarnaX.DirentCache
