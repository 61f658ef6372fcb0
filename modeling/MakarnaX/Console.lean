import MakarnaX.Kernel.Basic
import MakarnaX.Library.System
import MakarnaX.Library.WaitLists

/-!
# Console input

A device interrupt puts characters into a ring of 512 bytes and, for each of
them, wakes one task of `console_input_list`.  `sys_cgetc` sleeps on that list
first and looks at the ring when it is woken.

So a character that arrives while nobody sleeps wakes nobody, and the next task
that calls `sys_cgetc` sleeps beside it.  `Careful` leaves out the calls that do
that.

The ring is full and empty at the same two indices: the character that arrives
while 511 are unread makes it look empty.
-/

namespace MakarnaX.Console

open Library Function List

/-- The ring, and the tasks in `sys_cgetc`. -/
structure State where
  buff : Nat → Nat
  rpos : Nat
  wpos : Nat
  wait : WaitLists Unit Nat

abbrev ConsoleM := StateT State Exec

/-- `init_console`. -/
def initial : State where
  buff _ := 0
  rpos := 0
  wpos := 0
  wait := .empty

/-- `wakeup_interruptible(&console_input_list)`. -/
def wakeupInterruptible : ConsoleM Unit :=
  modify fun s =>
    match s.wait.queue () with
    | [] => s
    | t :: ts => { s with wait := s.wait.wake () t ts }

/-- One more place of the ring. -/
def advance (pos : Nat) : Nat := if pos + 1 = 512 then 0 else pos + 1

/-- `console_interrupt`, for a device that returns `cs` before it returns -1. -/
def consoleInterrupt : List Int → ConsoleM Unit
  | [] => return ()
  | c :: cs => do
    if c = -1 then return ()
    else if c = 0 then consoleInterrupt cs
    else
      modify fun s =>
        { s with buff := update s.buff s.wpos (c % 256).toNat, wpos := advance s.wpos }
      wakeupInterruptible
      consoleInterrupt cs

/-- `console_getc`, which looks at the keyboard and the serial port first. -/
def consoleGetc (keyboard com1 : List Int) : ConsoleM Nat := do
  consoleInterrupt keyboard
  consoleInterrupt com1
  let s ← get
  if s.rpos ≠ s.wpos then
    set { s with rpos := advance s.rpos }
    return s.buff s.rpos
  else
    return 0

/-- `sys_cgetc` up to `schedule()` in `sleep_interruptible`. -/
def sysCgetc (t : Nat) : ConsoleM Unit := modify fun s => { s with wait := s.wait.sleep () t }

/-- The rest of `sys_cgetc`. -/
def cgetcTail (t : Nat) (keyboard com1 : List Int) : ConsoleM Nat := do
  let c ← consoleGetc keyboard com1
  modify fun s => { s with wait := s.wait.back () t }
  return c

/-! ## Runs -/

inductive Op
  | interrupt (cs : List Int)
  | cgetc (t : Nat)
  | resume (t : Nat) (keyboard com1 : List Int)
deriving DecidableEq, Repr

def Op.run : Op → ConsoleM Unit
  | .interrupt cs => consoleInterrupt cs
  | .cgetc t => sysCgetc t
  | .resume t keyboard com1 => discard (cgetcTail t keyboard com1)

def Op.enabled (s : State) : Op → Prop
  | .interrupt _ => True
  | .cgetc t => s.wait.place t = none
  | .resume t _ _ => s.wait.place t = some (.woken ())

instance (s : State) : (op : Op) → Decidable (op.enabled s)
  | .interrupt _ => inferInstanceAs (Decidable True)
  | .cgetc _ => inferInstanceAs (Decidable (_ = _))
  | .resume _ _ _ => inferInstanceAs (Decidable (_ = _))

/-- How many characters have not been read. -/
def State.unread (s : State) : Nat := (s.wpos + 512 - s.rpos) % 512

/-- `sys_cgetc` is called when each character that was not read has a task on its way. -/
def Careful (s : State) : Op → Prop
  | .cgetc _ => s.unread ≤ (s.wait.woken ()).length
  | _ => True

instance (s : State) : (op : Op) → Decidable (Careful s op)
  | .interrupt _ => inferInstanceAs (Decidable True)
  | .cgetc _ => inferInstanceAs (Decidable (_ ≤ _))
  | .resume _ _ _ => inferInstanceAs (Decidable True)

def system (allowed : State → Op → Prop) : System State :=
  .ofOps (· = initial) (fun s op => op.enabled s ∧ allowed s op) Op.run

/-! ## The invariant -/

variable {s s' : State} {t : Nat}

/-- Where tasks sleep, each character that was not read has a task on its way. -/
structure Inv (s : State) : Prop where
  sound : s.wait.Sound
  rpos : s.rpos < 512
  wpos : s.wpos < 512
  served : s.wait.queue () ≠ [] → s.unread ≤ (s.wait.woken ()).length

theorem Inv.initial : Inv initial where
  sound := .empty
  rpos := by decide
  wpos := by decide
  served h := absurd rfl h

theorem advance_lt {pos : Nat} (h : pos < 512) : advance pos < 512 := by
  unfold advance
  split <;> omega

/-- One more character, or an overrun that loses all. -/
theorem unread_write {r w : Nat} (hr : r < 512) (hw : w < 512) :
    (advance w + 512 - r) % 512 ≤ (w + 512 - r) % 512 + 1 := by
  unfold advance
  split <;> omega

theorem unread_read {r w : Nat} (hr : r < 512) (hw : w < 512) (h : r ≠ w) :
    (w + 512 - advance r) % 512 = (w + 512 - r) % 512 - 1 := by
  unfold advance
  split <;> omega

theorem wakeupInterruptible_nil (hq : s.wait.queue () = []) : wakeupInterruptible s = .ok ((), s) := by
  simp [wakeupInterruptible, hq]

theorem wakeupInterruptible_cons {ts : List Nat} (hq : s.wait.queue () = t :: ts) :
    wakeupInterruptible s = .ok ((), { s with wait := s.wait.wake () t ts }) := by
  simp [wakeupInterruptible, hq]

/-- A character arrives. -/
theorem Inv.write {c : Nat} (I : Inv s) : ∃ s', wakeupInterruptible
    { s with buff := update s.buff s.wpos c, wpos := advance s.wpos } = .ok ((), s') ∧ Inv s' ∧
      ∀ u, s.wait.place u = some (.woken ()) → s'.wait.place u = some (.woken ()) := by
  have hle := unread_write I.rpos I.wpos
  cases hq : s.wait.queue () with
  | nil =>
    refine ⟨_, wakeupInterruptible_nil hq, ⟨I.sound, I.rpos, advance_lt I.wpos, ?_⟩, fun u hu => hu⟩
    exact fun h => absurd hq h
  | cons u us =>
    refine ⟨_, wakeupInterruptible_cons hq, ⟨I.sound.wake hq, I.rpos, advance_lt I.wpos, fun _ => ?_⟩, ?_⟩
    · have hs := I.served (by simp [hq])
      simp only [State.unread, WaitLists.wake_woken_self, length_cons] at hs ⊢
      omega
    · intro v hv
      by_cases h : v = u
      · subst h
        simp
      · simpa [h] using hv

/-- An interrupt keeps the invariant and leaves the woken tasks on their way. -/
theorem Inv.interrupt (I : Inv s) (cs : List Int) : ∃ s', consoleInterrupt cs s = .ok ((), s') ∧ Inv s' ∧
    ∀ u, s.wait.place u = some (.woken ()) → s'.wait.place u = some (.woken ()) := by
  induction cs generalizing s with
  | nil => exact ⟨s, rfl, I, fun _ h => h⟩
  | cons c cs ih =>
    by_cases h1 : c = -1
    · exact ⟨s, by simp [consoleInterrupt, h1], I, fun _ h => h⟩
    · by_cases h0 : c = 0
      · obtain ⟨s', hs', I', hw⟩ := ih I
        exact ⟨s', by simpa [consoleInterrupt, h0] using hs', I', hw⟩
      · obtain ⟨s1, h1', I1, hw1⟩ := I.write (c := (c % 256).toNat)
        obtain ⟨s', hs', I', hw'⟩ := ih I1
        refine ⟨s', ?_, I', fun u hu => hw' u (hw1 u hu)⟩
        simp only [consoleInterrupt, h1, h0, if_false, modify_run]
        rw [bind_run h1', hs']

theorem Inv.back (I : Inv s) (ht : s.wait.place t = some (.woken ())) :
    Inv { s with rpos := if s.rpos ≠ s.wpos then advance s.rpos else s.rpos, wait := s.wait.back () t } := by
  have hm := I.sound.mem_woken.mpr ht
  refine ⟨I.sound.back ht, ?_, I.wpos, fun hq => ?_⟩
  · show (if _ then _ else _) < 512
    split
    · exact advance_lt I.rpos
    · exact I.rpos
  · have hs := I.served hq
    have hr := I.rpos
    have hw := I.wpos
    have hr' := fun h => unread_read hr hw h
    simp only [State.unread, WaitLists.back_woken_self, length_erase_of_mem hm] at hs ⊢
    split
    · next h =>
      rw [hr' h]
      omega
    · next h =>
      rw [not_not.mp h]
      omega

theorem cgetcTail_eq (I : Inv s) (keyboard com1 : List Int) (ht : s.wait.place t = some (.woken ())) :
    ∃ c s', cgetcTail t keyboard com1 s = .ok (c, s') ∧ Inv s' := by
  obtain ⟨s1, h1, I1, hw1⟩ := I.interrupt keyboard
  obtain ⟨s2, h2, I2, hw2⟩ := I1.interrupt com1
  have hb := I2.back (hw2 t (hw1 t ht))
  simp only [cgetcTail, consoleGetc, bind_assoc]
  rw [bind_run h1, bind_run h2, get_run]
  by_cases h : s2.rpos = s2.wpos
  · rw [if_neg (not_not.mpr h)] at hb ⊢
    exact ⟨_, _, rfl, hb⟩
  · rw [if_pos h] at hb ⊢
    exact ⟨_, _, rfl, hb⟩

theorem Inv.step {op : Op} (I : Inv s) (he : op.enabled s) (ha : Careful s op) :
    ∃ s', op.run s = .ok ((), s') ∧ Inv s' := by
  cases op with
  | interrupt cs =>
    obtain ⟨s', hs', I', -⟩ := I.interrupt cs
    exact ⟨s', hs', I'⟩
  | cgetc t => exact ⟨_, rfl, I.sound.sleep he, I.rpos, I.wpos, fun _ => ha⟩
  | resume t keyboard com1 =>
    obtain ⟨c, s', hs', I'⟩ := cgetcTail_eq I keyboard com1 he
    exact ⟨s', discard_run hs', I'⟩

theorem invariant (h : (system Careful).Reachable s) : Inv s := by
  refine System.Reachable.invariant ?_ ?_ h
  · rintro s rfl
    exact .initial
  · rintro s s' I ⟨op, ⟨he, ha⟩, hr⟩
    obtain ⟨s1, hr1, I1⟩ := I.step he ha
    rw [hr] at hr1
    cases hr1
    exact I1

/-- In runs of careful calls no task sleeps beside a character unless a task is
on its way for it, and for each other one that was not read. -/
theorem keyboard_wakeup_not_lost (h : (system Careful).Reachable s) :
    (s.wait.queue () ≠ [] → s.unread ≤ (s.wait.woken ()).length) ∧
      ¬ (s.rpos ≠ s.wpos ∧ s.wait.queue () ≠ [] ∧ s.wait.woken () = []) := by
  have I := invariant h
  refine ⟨I.served, ?_⟩
  rintro ⟨hne, hq, hw⟩
  have hs := I.served hq
  have hr := I.rpos
  have hwp := I.wpos
  rw [hw, State.unread] at hs
  simp only [length_nil] at hs
  omega

/-- Two tasks sleep, two characters arrive, and one of the tasks has read. -/
theorem keyboard_wakeup_not_lost_two :
    ∃ s, (system Careful).Reachable s ∧ s.wait.queue () = [3] ∧ s.unread = 1 ∧ s.wait.woken () ≠ [] := by
  obtain ⟨s, hs, hx⟩ : ∃ s, System.after (fun s op => op.enabled s ∧ Careful s op) Op.run initial [.cgetc 1, .cgetc 2,
      .cgetc 3, .interrupt [0x61, 0, 0x62], .resume 1 [] []] = some s ∧ s.wait.queue () = [3] ∧ s.unread = 1 :=
      observed (by decide +kernel)
  have hr : (system Careful).Reachable s := System.Reachable.after (.init rfl) hs
  refine ⟨s, hr, hx.1, hx.2, fun hw => ?_⟩
  have := (keyboard_wakeup_not_lost hr).1 (by simp [hx.1])
  rw [hx.2, hw] at this
  cases this

/-- A character arrives, then a task calls `sys_cgetc`. -/
theorem keyboard_wakeup_lost :
    ∃ s, (system fun _ _ => True).Reachable s ∧ s.rpos ≠ s.wpos ∧ s.wait.queue () = [1] ∧ s.wait.woken () = [] := by
  obtain ⟨s, hs, hx⟩ : ∃ s, System.after (fun s op => op.enabled s ∧ True) Op.run initial [.interrupt [0x61],
      .cgetc 1] = some s ∧ s.rpos ≠ s.wpos ∧ s.wait.queue () = [1] ∧ s.wait.woken () = [] :=
      observed (by decide +kernel)
  exact ⟨s, System.Reachable.after (.init rfl) hs, hx⟩

/-! ## What is read is what was written -/

/-- What the devices have delivered and `console_getc` has returned, without zeros,
and how many characters arrived while 511 were not read.  No function reads it. -/
structure Log where
  delivered : List Nat
  returned : List Nat
  crowded : Nat

/-- What a device returns before -1. -/
def burst (cs : List UInt8) : List Int := cs.map fun c => (c.toNat : Int)

/-- A character arrives when the ring is from `r` to `w`. -/
def Log.arrive (r : Nat) (x : Nat × Log) (c : UInt8) : Nat × Log :=
  if c = 0 then x
  else (advance x.1, { x.2 with
    delivered := x.2.delivered ++ [c.toNat]
    crowded := x.2.crowded + if 511 ≤ (x.1 + 512 - r) % 512 then 1 else 0 })

/-- The log behind a burst. -/
def Log.arrives (l : Log) (s : State) (cs : List UInt8) : Log := (cs.foldl (arrive s.rpos) (s.wpos, l)).2

/-- `console_getc` returns `c`. -/
def Log.returns (l : Log) (c : Nat) : Log := if c = 0 then l else { l with returned := l.returned ++ [c] }

inductive Logged : State × Log → State × Log → Prop
  | interrupt {s s' : State} {l : Log} (cs : List UInt8) (h : consoleInterrupt (burst cs) s = .ok ((), s')) :
      Logged (s, l) (s', l.arrives s cs)
  | getc {s s' : State} {l : Log} {c : Nat} (keyboard com1 : List UInt8)
      (h : consoleGetc (burst keyboard) (burst com1) s = .ok (c, s')) :
      Logged (s, l) (s', (l.arrives s (keyboard ++ com1)).returns c)

def loggedSystem : System (State × Log) where
  init x := x = (initial, ⟨[], [], 0⟩)
  step := Logged

/-- The characters that were not read, in the order in which they came. -/
def State.pending (s : State) : List Nat := (range s.unread).map fun i => s.buff ((s.rpos + i) % 512)

/-- Characters are lost only 512 at a time, and what is left is in order. -/
structure Tracks (s : State) (l : Log) : Prop where
  rpos : s.rpos < 512
  wpos : s.wpos < 512
  nonzero : ∀ c ∈ s.pending, c ≠ 0
  split : ∃ old, l.delivered = old ++ s.pending ∧ l.returned.Sublist old ∧
    old.length = l.returned.length + 512 * l.crowded

variable {l : Log} {c : Nat}

theorem pending_length : s.pending.length = s.unread := by simp [State.pending]

theorem Tracks.write (T : Tracks s l) (hc : c ≠ 0) (hb : s'.buff = update s.buff s.wpos c)
    (hr : s'.rpos = s.rpos) (hw : s'.wpos = advance s.wpos) :
    Tracks s' { l with
      delivered := l.delivered ++ [c]
      crowded := l.crowded + if 511 ≤ (s.wpos + 512 - s.rpos) % 512 then 1 else 0 } := by
  have hr' := T.rpos
  have hw' := T.wpos
  obtain ⟨old, hd, hs, hl⟩ := T.split
  by_cases hfull : 511 ≤ (s.wpos + 512 - s.rpos) % 512
  · -- the new position is that of the reader
    have hu : s'.unread = 0 := by
      unfold State.unread advance at *
      split at hw <;> omega
    have hp : s'.pending = [] := by simp [State.pending, hu]
    have hlen : s.pending.length = 511 := by
      rw [pending_length, State.unread]
      omega
    refine ⟨hr ▸ hr', hw ▸ advance_lt hw', by simp [hp], old ++ s.pending ++ [c], by simp [hp, hd],
      hs.trans (by simp), ?_⟩
    simp only [length_append, hlen, hl, length_singleton, if_pos hfull]
    omega
  · have hu : s'.unread = s.unread + 1 := by
      unfold State.unread advance at *
      split at hw <;> omega
    have hp : s'.pending = s.pending ++ [c] := by
      simp only [State.pending, hu, range_succ, map_append, map_singleton, hr, hb]
      have hlast : (s.rpos + s.unread) % 512 = s.wpos := by
        unfold State.unread
        omega
      rw [hlast, update_self]
      refine congrArg (· ++ [c]) (map_congr_left fun i hi => update_of_ne ?_ _ _)
      have hi := mem_range.mp hi
      unfold State.unread at *
      omega
    refine ⟨hr ▸ hr', hw ▸ advance_lt hw', ?_, old, by simp [hp, hd], hs, by simp [hl, hfull]⟩
    simpa [hp, or_imp, forall_and, hc] using T.nonzero

theorem Tracks.interrupt (T : Tracks s l) (cs : List UInt8) : ∃ s', consoleInterrupt (burst cs) s = .ok ((), s') ∧
    s'.rpos = s.rpos ∧ s'.wpos = (cs.foldl (Log.arrive s.rpos) (s.wpos, l)).1 ∧ Tracks s' (l.arrives s cs) := by
  induction cs generalizing s l with
  | nil => exact ⟨s, rfl, rfl, rfl, T⟩
  | cons c cs ih =>
    by_cases h0 : c = 0
    · obtain ⟨s', h', hr, hw, T'⟩ := ih T
      refine ⟨s', ?_, hr, ?_, ?_⟩
      · simpa [burst, consoleInterrupt, h0] using h'
      · simpa [Log.arrive, h0] using hw
      · simpa [Log.arrives, Log.arrive, h0] using T'
    · have h0' : c.toNat ≠ 0 := fun h => h0 (UInt8.toNat_inj.mp h)
      obtain ⟨s1, h1, hb, hr, hw⟩ : ∃ s1, wakeupInterruptible { s with
          buff := update s.buff s.wpos c.toNat, wpos := advance s.wpos } = .ok ((), s1) ∧
          s1.buff = update s.buff s.wpos c.toNat ∧ s1.rpos = s.rpos ∧ s1.wpos = advance s.wpos := by
        unfold wakeupInterruptible
        refine ⟨_, modify_apply _, ?_⟩
        split <;> exact ⟨rfl, rfl, rfl⟩
      obtain ⟨s', h', hr', hw', T'⟩ := ih (T.write h0' hb hr hw)
      rw [hr, hw] at hw'
      refine ⟨s', ?_, hr'.trans hr, ?_, ?_⟩
      · have hlt := c.toNat_lt
        have hmod : ((c.toNat : Int) % 256).toNat = c.toNat := by omega
        rw [burst, map_cons, consoleInterrupt, if_neg (by omega), if_neg (by omega), modify_run, hmod, bind_run h1]
        exact h'
      · simpa [Log.arrive, h0] using hw'
      · simpa [Log.arrives, Log.arrive, h0, hr, hw] using T'

/-- `console_getc` behind the devices. -/
theorem Tracks.read (T : Tracks s l) : ∃ c s', consoleGetc [] [] s = .ok (c, s') ∧ Tracks s' (l.returns c) := by
  by_cases h : s.rpos = s.wpos
  · exact ⟨0, s, by simp [consoleGetc, consoleInterrupt, h], T⟩
  · have hu := unread_read T.rpos T.wpos h
    have hr := T.rpos
    have hw := T.wpos
    have hp : s.pending = s.buff s.rpos :: { s with rpos := advance s.rpos }.pending := by
      obtain ⟨n, hn⟩ : ∃ n, s.unread = n + 1 := ⟨s.unread - 1, by unfold State.unread; omega⟩
      have hn' : { s with rpos := advance s.rpos }.unread = n := by
        have hu' : { s with rpos := advance s.rpos }.unread = s.unread - 1 := hu
        omega
      simp only [State.pending, hn, hn', range_succ_eq_map, map_cons, map_map, Nat.add_zero,
        Nat.mod_eq_of_lt hr]
      refine congrArg _ (map_congr_left fun i _ => congrArg s.buff ?_)
      simp only [advance]
      split <;> omega
    obtain ⟨old, hd, hs, hl⟩ := T.split
    have h0 : s.buff s.rpos ≠ 0 := T.nonzero _ (by simp [hp])
    refine ⟨s.buff s.rpos, { s with rpos := advance s.rpos }, by simp [consoleGetc, consoleInterrupt, h],
      advance_lt hr, hw,
      fun c hc => T.nonzero c (by simp [hp, hc]), old ++ [s.buff s.rpos], ?_⟩
    rw [Log.returns, if_neg h0]
    exact ⟨by simp [hd, hp], hs.append (.refl _), by simp [hl]; omega⟩

theorem Tracks.getc (T : Tracks s l) (keyboard com1 : List UInt8) :
    ∃ c s', consoleGetc (burst keyboard) (burst com1) s = .ok (c, s') ∧
      Tracks s' ((l.arrives s (keyboard ++ com1)).returns c) := by
  obtain ⟨s1, h1, hr1, hw1, T1⟩ := T.interrupt keyboard
  obtain ⟨s2, h2, -, -, T2⟩ := T1.interrupt com1
  obtain ⟨c, s3, h3, T3⟩ := T2.read
  refine ⟨c, s3, ?_, ?_⟩
  · unfold consoleGetc
    rw [bind_run h1, bind_run h2]
    exact h3
  · rw [Log.arrives, hr1, hw1] at T3
    rw [Log.arrives, foldl_append]
    exact T3

theorem Tracks.step {x y : State × Log} (T : Tracks x.1 x.2) (h : Logged x y) : Tracks y.1 y.2 := by
  cases h with
  | interrupt cs h =>
    obtain ⟨s', h', -, -, T'⟩ := T.interrupt cs
    rw [h] at h'
    cases h'
    exact T'
  | getc keyboard com1 h =>
    obtain ⟨c, s', h', T'⟩ := T.getc keyboard com1
    rw [h] at h'
    cases h'
    exact T'

theorem tracks (s : State) (l : Log) (h : loggedSystem.Reachable (s, l)) : Tracks s l := by
  refine System.Reachable.invariant (I := fun x => Tracks x.1 x.2) ?_ (fun _ _ => Tracks.step) h
  rintro _ rfl
  exact ⟨by decide, by decide, nofun, [], rfl, .refl _, rfl⟩

/-- How many characters were delivered that were not returned and are not in the ring. -/
def lost (s : State) (l : Log) : Nat := l.delivered.length - (l.returned.length + s.unread)

/-- What is returned was delivered, in that order, and no more is lost than came
too early, if nothing came too early; one character that does loses 512. -/
theorem console_fifo_iff (s : State) (l : Log) (h : loggedSystem.Reachable (s, l)) :
    (l.returned.Sublist l.delivered ∧ lost s l ≤ l.crowded) ↔ l.crowded = 0 := by
  obtain ⟨old, hd, hs, hl⟩ := (tracks s l h).split
  have hlost : lost s l = 512 * l.crowded := by
    rw [lost, hd, length_append, pending_length, hl]
    omega
  rw [hlost, hd]
  refine ⟨fun h => by omega, fun h => ⟨hs.trans (sublist_append_left ..), by omega⟩⟩

/-- The ring after one burst. -/
theorem reachable_burst (cs : List UInt8) : ∃ s, loggedSystem.Reachable (s, Log.arrives ⟨[], [], 0⟩ initial cs) ∧
    s.rpos = 0 ∧ s.wpos = (cs.foldl (Log.arrive 0) (0, ⟨[], [], 0⟩)).1 := by
  have T : Tracks initial ⟨[], [], 0⟩ := tracks _ _ (.init rfl)
  obtain ⟨s, hs, hr, hw, -⟩ := T.interrupt cs
  exact ⟨s, .step (.init rfl) (.interrupt cs hs), hr, hw⟩

theorem console_fifo_iff_two : ∃ s l, loggedSystem.Reachable (s, l) ∧ l.delivered = [0x61, 0x62] ∧ lost s l ≤ 0 := by
  obtain ⟨s, h, -⟩ := reachable_burst [0x61, 0, 0x62]
  exact ⟨s, _, h, rfl, ((console_fifo_iff s _ h).mpr rfl).2⟩

/-- The 512th character that nobody reads is the end of all the others. -/
theorem console_loses_all : ∃ s l, loggedSystem.Reachable (s, l) ∧ l.crowded = 1 ∧ lost s l = 512 := by
  obtain ⟨s, h, hr, hw⟩ := reachable_burst (replicate 512 0x61)
  refine ⟨s, _, h, by decide +kernel, ?_⟩
  have hu : s.unread = 0 := by
    rw [State.unread, hr, hw]
    decide +kernel
  rw [lost, hu]
  decide +kernel

end MakarnaX.Console
