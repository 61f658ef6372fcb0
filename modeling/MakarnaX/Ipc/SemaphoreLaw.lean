import MakarnaX.Ipc.Semaphore

/-!
# The law of counting semaphores

Units are conserved: the value of a semaphore is its initial value and the posts,
less the waits that returned and the tasks that were woken and are not back yet.
Tasks wait only where the value is 0, or where it is 1 for the moment because the
running task owes them a hand-over.

The assertions of the three functions ask for more than that: for values of 0 and
1 only, and for one hand-over at a time.  `SemSafe` says what a call has to keep
to for them to hold.
-/

namespace MakarnaX.Semaphore

open Library State Function WaitLists

variable {conf : Conf} {s s' : State} {k j t u next sem : Nat} {ts : List Nat} {b : Bool} {o : Option Nat}
  {op : Op}

/-! ## The invariant -/

namespace State

/-- The semaphore whose hand-over the running task owes. -/
def owed (s : State) : Option Nat := s.currTask.runBeforeSwitch

/-- The units that were given out: to waits that returned, and to woken tasks. -/
def given (s : State) (k : Nat) : Nat := s.waits k + (s.wait.woken k).length

end State

/-- What holds of one semaphore. -/
structure SemOk (s : State) (k : Nat) : Prop where
  waiting : s.wait.queue k ≠ [] → s.value k = 0 ∨ s.value k = 1 ∧ s.owed = some k
  owed : s.owed = some k → s.wait.queue k ≠ [] ∧ (s.value k = 0 ∨ s.value k = 1)
  tested : ∀ t, s.wait.place t = some (.woken k) → (s.tasks t).tested = true → s.value k = 0 ∨ s.owed = some k
  given : s.given k ≤ s.initial k + s.posts k
  value : s.value k = int32 (s.initial k + s.posts k - s.given k)

/-- Nothing has happened to a semaphore. -/
structure Fresh (s : State) (k : Nat) : Prop where
  value : s.value k = 0
  queue : s.wait.queue k = []
  woken : s.wait.woken k = []
  initial : s.initial k = 0
  posts : s.posts k = 0
  waits : s.waits k = 0
  holders : s.holders k = []

/-- What holds in the middle of a step, too. -/
structure Core (conf : Conf) (s : State) : Prop where
  sound : s.wait.Sound
  callback : ∀ t, (s.tasks t).runBeforeSwitch ≠ none → t = s.curr
  sems : ∀ k, SemOk s k
  fresh : ∀ k, s.semsNr ≤ k → Fresh s k
  plain : conf.singleCpu = false → s.owed = none

structure Inv (conf : Conf) (s : State) : Prop extends Core conf s where
  user : s.owed ≠ none → s.wait.place s.curr = none
  runs : s.Runs

/-- A change leaves semaphore `k` alone. -/
structure Same (s s' : State) (k : Nat) : Prop where
  owed : s'.owed = some k ↔ s.owed = some k
  value : s'.value k = s.value k
  queue : s'.wait.queue k = s.wait.queue k
  woken : s'.wait.woken k = s.wait.woken k
  initial : s'.initial k = s.initial k
  posts : s'.posts k = s.posts k
  waits : s'.waits k = s.waits k
  holders : s'.holders k = s.holders k
  tested : ∀ t, s'.wait.place t = some (.woken k) → s.wait.place t = some (.woken k) ∧
    (s'.tasks t).tested = (s.tasks t).tested

theorem Same.given (S : Same s s' k) : s'.given k = s.given k := by
  rw [State.given, S.waits, S.woken, State.given]

theorem SemOk.congr (h : SemOk s k) (S : Same s s' k) : SemOk s' k where
  waiting := by
    rw [S.queue, S.value, S.owed]
    exact h.waiting
  owed := by
    rw [S.queue, S.value, S.owed]
    exact h.owed
  tested t hp ht := by
    obtain ⟨h1, h2⟩ := S.tested t hp
    rw [S.value, S.owed]
    exact h.tested t h1 (h2 ▸ ht)
  given := by
    rw [S.given, S.initial, S.posts]
    exact h.given
  value := by
    rw [S.value, S.given, S.initial, S.posts]
    exact h.value

theorem Fresh.congr (h : Fresh s k) (S : Same s s' k) : Fresh s' k where
  value := S.value.trans h.value
  queue := S.queue.trans h.queue
  woken := S.woken.trans h.woken
  initial := S.initial.trans h.initial
  posts := S.posts.trans h.posts
  waits := S.waits.trans h.waits
  holders := S.holders.trans h.holders

/-- The semaphores that have changed are in order. -/
theorem Core.change (C : Core conf s) (hs : s'.wait.Sound)
    (hcb : ∀ t, (s'.tasks t).runBeforeSwitch ≠ none → t = s'.curr) (hn : s.semsNr ≤ s'.semsNr)
    (hpl : conf.singleCpu = false → s'.owed = none) (h : ∀ j, Same s s' j ∨ j < s'.semsNr ∧ SemOk s' j) :
    Core conf s' where
  sound := hs
  callback := hcb
  sems j := (h j).elim (C.sems j).congr And.right
  fresh j hj := (h j).elim (C.fresh j (Nat.le_trans hn hj)).congr fun h => absurd h.1 (Nat.not_lt.mpr hj)
  plain := hpl

/-- Only semaphore `k` has changed. -/
theorem Core.update (C : Core conf s) (hk : k < s.semsNr) (hs : s'.wait.Sound)
    (hcb : ∀ t, (s'.tasks t).runBeforeSwitch ≠ none → t = s'.curr) (hn : s'.semsNr = s.semsNr)
    (hpl : conf.singleCpu = false → s'.owed = none) (hok : SemOk s' k) (hsame : ∀ j, j ≠ k → Same s s' j) :
    Core conf s' := by
  refine C.change hs hcb (Nat.le_of_eq hn.symm) hpl fun j => ?_
  by_cases h : j = k
  · subst h
    exact .inr ⟨hn ▸ hk, hok⟩
  · exact .inl (hsame j h)

theorem int32_sub_one (x : Int) : int32 (int32 x - 1) = int32 (x - 1) := by
  simp [int32]

theorem int32_add_one (x : Int) : int32 (int32 x + 1) = int32 (x + 1) := by
  simp [int32]

/-- The value when one more unit is given out. -/
theorem SemOk.value_sub (h : SemOk s k) :
    int32 (s.value k - 1) = int32 (s.initial k + s.posts k - (s.given k + 1 : Nat)) := by
  rw [h.value, int32_sub_one]
  congr 1
  omega

/-- The value when one more unit is posted. -/
theorem SemOk.value_add (h : SemOk s k) :
    int32 (s.value k + 1) = int32 (s.initial k + (s.posts k + 1 : Nat) - s.given k) := by
  rw [h.value, int32_add_one]
  congr 1
  omega

/-- A unit that the value shows is there. -/
theorem SemOk.given_lt (h : SemOk s k) (hv : s.value k ≠ 0) : s.given k < s.initial k + s.posts k := by
  rcases Nat.lt_or_eq_of_le h.given with hlt | heq
  · exact hlt
  · refine absurd ?_ hv
    rw [h.value, heq]
    simp [int32]

/-! ## What the changes leave -/

namespace State

theorem owes_owed : (s.owes o).owed = o :=
  congrArg SemTask.runBeforeSwitch (setCurr_tasks_self (s := s))

theorem owes_tested (t : Nat) : ((s.owes o).tasks t).tested = (s.tasks t).tested :=
  setCurr_part (f := fun x => { x with runBeforeSwitch := o }) SemTask.tested (fun _ => rfl) t

/-- Only the running task owes a hand-over. -/
theorem owes_callback (h : ∀ t, (s.tasks t).runBeforeSwitch ≠ none → t = s.curr) (t : Nat)
    (ht : ((s.owes o).tasks t).runBeforeSwitch ≠ none) : t = s.curr := by
  by_contra hne
  rw [owes, setCurr_tasks_ne hne] at ht
  exact hne (h t ht)

theorem sleeps_callback (t : Nat) :
    ((s.sleeps k b).tasks t).runBeforeSwitch = (s.tasks t).runBeforeSwitch :=
  setCurr_part (f := fun x => { x with tested := b }) SemTask.runBeforeSwitch (fun _ => rfl) t

theorem sleeps_owed : (s.sleeps k b).owed = s.owed := sleeps_callback s.curr

theorem sleeps_tested (h : t ≠ s.curr) : ((s.sleeps k b).tasks t).tested = (s.tasks t).tested := by
  rw [← setCurr_tasks_ne (f := fun x => { x with tested := b }) h]
  rfl

end State

/-! ## Task switches -/

/-- The hand-over that the running task owes can be made. -/
def Settles (s : State) : Prop := ∀ k, s.owed = some k → s.value k = 1

namespace State

/-- The running task owes nothing more. -/
def settled (s : State) : State :=
  match s.owed with
  | none => s
  | some k =>
    match s.wait.queue k with
    | [] => s
    | t :: ts => ((s.setValue k 0).wakeFirst k t ts).owes none

theorem settled_none (h : s.owed = none) : s.settled = s := by simp [settled, h]

theorem settled_some (h : s.owed = some k) (hq : s.wait.queue k = t :: ts) :
    s.settled = ((s.setValue k 0).wakeFirst k t ts).owes none := by
  simp [settled, h, hq]

end State

theorem wakeupUninterruptible_eq (hq : s.wait.queue k = t :: ts) :
    wakeupUninterruptible k s = .ok ((), s.wakeFirst k t ts) := by
  simp only [wakeupUninterruptible, get_run, hq, modify_apply]

theorem doSempost_eq (hv : s.value k = 1) (hq : s.wait.queue k = t :: ts) :
    doSempost k s = .ok ((), (s.setValue k 0).wakeFirst k t ts) := by
  have h0 : int32 (s.value k - 1) = 0 := by
    rw [hv]
    rfl
  have hq' : (s.setValue k 0).wait.queue k = t :: ts := hq
  simp only [doSempost, modify_run, get_run, h0, ASSERT, check_run,
    setValue_value_self, if_true]
  exact wakeupUninterruptible_eq hq'

theorem schedule_none (ho : s.owed = none) : schedule conf next s = .ok ((), s.switch conf next) := by
  have ho' : s.currTask.runBeforeSwitch = none := ho
  simp only [schedule, get_run, ho']
  rfl

theorem schedule_eq (C : Core conf s) (h : Settles s) :
    schedule conf next s = .ok ((), s.settled.switch conf next) := by
  cases ho : s.owed with
  | none =>
    rw [settled_none ho]
    exact schedule_none ho
  | some k =>
    have ho' : s.currTask.runBeforeSwitch = some k := ho
    cases hq : s.wait.queue k with
    | nil => exact absurd hq ((C.sems k).owed ho).1
    | cons t ts =>
      rw [settled_some ho hq]
      simp only [schedule, get_run, ho']
      rw [bind_run (doSempost_eq (h k ho) hq)]
      rfl

theorem Core.lt_of_owed (C : Core conf s) (h : s.owed = some k) : k < s.semsNr := by
  by_contra hn
  exact ((C.sems k).owed h).1 (C.fresh k (Nat.le_of_not_lt hn)).queue

theorem Core.lt_of_woken (C : Core conf s) (h : t ∈ s.wait.woken k) : k < s.semsNr := by
  by_contra hn
  rw [(C.fresh k (Nat.le_of_not_lt hn)).woken] at h
  cases h

/-- The first task that waits on `k` is woken, with a unit that was posted just
now or that the value showed. -/
theorem SemOk.wakeFirst (h : SemOk s k) (hv : s'.value k = 0) (hw : s'.wait = s.wait.wake k t ts)
    (ho : s'.owed = none) (hws : s'.waits k = s.waits k) (hi : s'.initial k = s.initial k)
    (hp : s'.posts k = s.posts k ∧ s.value k = 1 ∨ s'.posts k = s.posts k + 1 ∧ s.value k = 0) : SemOk s' k := by
  have hgiven : s'.given k = s.given k + 1 := by
    simp only [State.given, hws, hw, wake_woken_self, List.length_cons]
    omega
  refine ⟨fun _ => .inl hv, fun h => ?_, fun _ _ _ => .inl hv, ?_, ?_⟩
  · rw [ho] at h
    cases h
  · rw [hgiven, hi]
    rcases hp with ⟨hp, h1⟩ | ⟨hp, -⟩
    · have := h.given_lt (by rw [h1]; decide)
      omega
    · have := h.given
      omega
  · rw [hv, hi, hgiven]
    rcases hp with ⟨hp, h1⟩ | ⟨hp, h0⟩
    · rw [hp, ← h.value_sub, h1]
      rfl
    · rw [hp, ← h0, h.value]
      congr 1
      omega

/-- What a woken task of semaphore `k` changes for the others. -/
theorem wake_tested {w : WaitLists Nat Nat} (hne : j ≠ k) (hu : (w.wake k t ts).place u = some (.woken j)) :
    w.place u = some (.woken j) := by
  by_cases h : u = t
  · subst h
    rw [wake_place_self] at hu
    cases hu
    exact absurd rfl hne
  · rwa [wake_place_ne h] at hu

theorem Core.settled (C : Core conf s) (h : Settles s) :
    Core conf s.settled ∧ ∀ t, (s.settled.tasks t).runBeforeSwitch = none := by
  cases ho : s.owed with
  | none =>
    rw [settled_none ho]
    refine ⟨C, fun t => ?_⟩
    by_contra ht
    rw [C.callback t ht] at ht
    exact ht ho
  | some k =>
    cases hq : s.wait.queue k with
    | nil => exact absurd hq ((C.sems k).owed ho).1
    | cons t ts =>
      have hv := h k ho
      rw [settled_some ho hq]
      have hcb := owes_callback (s := (s.setValue k 0).wakeFirst k t ts) (o := none) C.callback
      have howed := owes_owed (s := (s.setValue k 0).wakeFirst k t ts) (o := none)
      refine ⟨C.update (C.lt_of_owed ho) (C.sound.wake hq) hcb rfl (fun _ => howed) ?_ fun j hj => ?_, fun u => ?_⟩
      · exact (C.sems k).wakeFirst setValue_value_self rfl howed rfl rfl (.inl ⟨rfl, hv⟩)
      · refine ⟨?_, setValue_value_ne hj, wake_queue_ne hj, wake_woken_ne hj, rfl, rfl, rfl,
          rfl, fun u hu => ⟨wake_tested hj hu, owes_tested u⟩⟩
        rw [howed, ho]
        simp [Ne.symm hj]
      · by_contra hc
        rw [hcb u hc] at hc
        exact hc howed

theorem Core.switch (C : Core conf s) (h : ∀ t, (s.tasks t).runBeforeSwitch = none) :
    Core conf (s.switch conf next) ∧ (s.switch conf next).owed = none := by
  have hpart : ∀ t, ((s.switch conf next).tasks t).runBeforeSwitch = (s.tasks t).runBeforeSwitch ∧
      ((s.switch conf next).tasks t).tested = (s.tasks t).tested := by
    intro t
    by_cases ht : t = next
    · subst ht
      simp [State.switch]
    · simp [State.switch, ht]
  have howed : (s.switch conf next).owed = none := (hpart next).1.trans (h next)
  have hold : s.owed = none := h s.curr
  refine ⟨C.change C.sound (fun t ht => ?_) (Nat.le_refl _) (fun _ => howed) fun j => .inl ?_, howed⟩
  · rw [(hpart t).1, h t] at ht
    exact absurd rfl ht
  · exact ⟨by rw [howed, hold], rfl, rfl, rfl, rfl, rfl, rfl, rfl, fun t ht => ⟨ht, (hpart t).2⟩⟩

/-- A task switch keeps what holds in the middle of a step. -/
theorem Core.schedule (C : Core conf s) (h : Settles s) :
    Core conf (s.settled.switch conf next) ∧ (s.settled.switch conf next).owed = none := by
  obtain ⟨C1, hnone⟩ := C.settled h
  exact C1.switch hnone

/-! ## Going to sleep and coming back -/

/-- The current task goes to sleep where there is no unit for it. -/
theorem Core.sleeps (C : Core conf s) (hk : k < s.semsNr) (hp : s.wait.place s.curr = none)
    (hv : s.value k = 0 ∨ s.value k = 1 ∧ s.owed = some k) : Core conf (s.sleeps k b) := by
  have htested : ∀ j t, (s.sleeps k b).wait.place t = some (.woken j) →
      s.wait.place t = some (.woken j) ∧ ((s.sleeps k b).tasks t).tested = (s.tasks t).tested := by
    intro j t ht
    by_cases hc : t = s.curr
    · subst hc
      rw [show (s.sleeps k b).wait.place s.curr = some (.asleep k) from sleep_place_self] at ht
      cases ht
    · rw [show (s.sleeps k b).wait.place t = s.wait.place t from sleep_place_ne hc] at ht
      exact ⟨ht, State.sleeps_tested hc⟩
  have hok := C.sems k
  refine C.update hk (C.sound.sleep hp) (fun t ht => C.callback t (State.sleeps_callback t ▸ ht)) rfl
    (fun h => State.sleeps_owed.trans (C.plain h)) ?_ fun j hj => ?_
  · refine ⟨fun _ => ?_, fun h => ⟨?_, ?_⟩, fun t ht hte => ?_, hok.given, hok.value⟩
    · rw [State.sleeps_owed]
      exact hv
    · simp [State.sleeps]
    · exact (hok.owed (State.sleeps_owed.symm.trans h)).2
    · obtain ⟨h1, h2⟩ := htested k t ht
      rw [State.sleeps_owed]
      exact hok.tested t h1 (h2 ▸ hte)
  · exact ⟨by rw [State.sleeps_owed], rfl, sleep_queue_ne hj, rfl, rfl, rfl, rfl, rfl, htested j⟩

/-- The running task takes the unit that the value shows. -/
theorem Core.taken (C : Core conf s) (hk : k < s.semsNr) (hv : s.value k = 1) :
    Core conf ((s.setValue k 0).entered k) := by
  have hok := C.sems k
  have hlt := hok.given_lt (by rw [hv]; decide)
  have hgiven : ((s.setValue k 0).entered k).given k = s.given k + 1 := by
    simp only [given, entered, setValue, update_self]
    omega
  have hval : ((s.setValue k 0).entered k).value k = 0 := setValue_value_self
  refine C.update hk C.sound C.callback rfl C.plain ?_ fun j hj => ?_
  · refine ⟨fun _ => .inl hval, fun h => ⟨(hok.owed h).1, .inl hval⟩, fun _ _ _ => .inl hval, ?_, ?_⟩
    · rw [hgiven]
      exact hlt
    · rw [hval, hgiven]
      have hlaw := hok.value_sub
      rw [hv] at hlaw
      exact hlaw
  · refine ⟨.rfl, setValue_value_ne hj, rfl, rfl, rfl, rfl, ?_, ?_, fun t ht => ⟨ht, rfl⟩⟩ <;>
      simp [entered, setValue, hj]

/-- A woken task comes back. -/
theorem Core.resumed (C : Core conf s) (hp : s.wait.place s.curr = some (.woken k)) :
    Core conf ({ s with wait := s.wait.back k s.curr }.entered k) := by
  have hm := C.sound.mem_woken.mpr hp
  have hlt := C.lt_of_woken hm
  have hok := C.sems k
  have hpos : 0 < (s.wait.woken k).length := List.length_pos_of_mem hm
  have hgiven : ({ s with wait := s.wait.back k s.curr }.entered k).given k = s.given k := by
    simp only [given, entered, update_self, back_woken_self,
      List.length_erase_of_mem hm]
    omega
  have hplace : ∀ j t, (s.wait.back k s.curr).place t = some (.woken j) → s.wait.place t = some (.woken j) := by
    intro j t ht
    by_cases hc : t = s.curr
    · subst hc
      rw [back_place_self] at ht
      cases ht
    · rwa [back_place_ne hc] at ht
  refine C.update hlt (C.sound.back hp) C.callback rfl C.plain ?_ fun j hj => ?_
  · refine ⟨hok.waiting, hok.owed, fun t ht => hok.tested t (hplace k t ht), ?_, ?_⟩
    · rw [hgiven]
      exact hok.given
    · rw [hgiven]
      exact hok.value
  · refine ⟨.rfl, rfl, rfl, back_woken_ne hj, rfl, rfl, ?_, ?_, fun t ht => ⟨hplace j t ht, rfl⟩⟩ <;>
      simp [entered, hj]

/-! ## Posting -/

theorem State.owes_none (h : s.owed = none) : s.owes none = s := by
  have h' : (s.tasks s.curr).runBeforeSwitch = none := h
  have hx : ({ s.tasks s.curr with runBeforeSwitch := none } : SemTask) = s.tasks s.curr := by
    rw [← h']
  simp only [owes, setCurr, hx, update_eq_self]

/-- What a post of semaphore `k` leaves of another. -/
theorem Same.left (S : Same s s' j) (hj : j ≠ k) : Same s (s'.left k) j where
  owed := S.owed
  value := S.value
  queue := S.queue
  woken := S.woken
  initial := S.initial
  posts := by
    rw [← S.posts]
    simp [State.left, hj]
  waits := S.waits
  holders := by
    rw [← S.holders]
    simp [State.left, hj]
  tested := S.tested

/-- The running task owes the tasks that wait a hand-over. -/
theorem Core.deferred (C : Core conf s) (hk : k < s.semsNr) (hc : conf.singleCpu = true)
    (hq : s.wait.queue k ≠ []) (hv : s.value k = 0) (ho : ∀ j, s.owed = some j → j = k) :
    Core conf (((s.setValue k 1).owes (some k)).left k) := by
  have hok := C.sems k
  have howed : (((s.setValue k 1).owes (some k)).left k).owed = some k := owes_owed (s := s.setValue k 1)
  have hval : (((s.setValue k 1).owes (some k)).left k).value k = 1 := setValue_value_self
  have hposts : (((s.setValue k 1).owes (some k)).left k).posts k = s.posts k + 1 := by
    simp [left, owes, setCurr, setValue]
  refine C.update hk C.sound (owes_callback (s := s.setValue k 1) C.callback) rfl (fun h => ?_) ?_ fun j hj => ?_
  · rw [hc] at h
    cases h
  · refine ⟨fun _ => .inr ⟨hval, howed⟩, fun _ => ⟨hq, .inr hval⟩, fun _ _ _ => .inr howed, ?_, ?_⟩
    · rw [hposts]
      exact Nat.le_succ_of_le hok.given
    · rw [hval, hposts]
      have hlaw := hok.value_add
      rw [hv] at hlaw
      exact hlaw
  · refine Same.left ?_ hj
    refine ⟨?_, setValue_value_ne hj, rfl, rfl, rfl, rfl, rfl, rfl, fun t ht => ⟨ht, ?_⟩⟩
    · rw [owes_owed]
      constructor
      · intro h
        cases h
        exact absurd rfl hj
      · intro h
        exact absurd (ho j h) hj
    · exact owes_tested (s := s.setValue k 1) t

/-- The first task that waits is woken by the post. -/
theorem Core.handed (C : Core conf s) (hk : k < s.semsNr) (hq : s.wait.queue k = t :: ts) (hv : s.value k = 0)
    (ho : ∀ j, s.owed = some j → j = k) : Core conf (((s.owes none).wakeFirst k t ts).left k) := by
  have howed : (((s.owes none).wakeFirst k t ts).left k).owed = none := owes_owed (s := s)
  have hposts : (((s.owes none).wakeFirst k t ts).left k).posts k = s.posts k + 1 := by
    simp [left, wakeFirst, owes, setCurr]
  refine C.update hk (C.sound.wake hq) (owes_callback C.callback) rfl (fun _ => howed) ?_ fun j hj => ?_
  · exact (C.sems k).wakeFirst hv rfl howed rfl rfl (.inr ⟨hposts, hv⟩)
  · refine Same.left ?_ hj
    refine ⟨?_, rfl, wake_queue_ne hj, wake_woken_ne hj, rfl, rfl, rfl, rfl,
      fun u hu => ⟨wake_tested hj hu, owes_tested u⟩⟩
    rw [show ((s.owes none).wakeFirst k t ts).owed = none from owes_owed]
    constructor
    · intro h
      cases h
    · intro h
      exact absurd (ho j h) hj

/-- Nobody waits, and no task that is on its way back from the branch
`value > 0` will look at the value. -/
theorem Core.posted (C : Core conf s) (hk : k < s.semsNr) (hq : s.wait.queue k = [])
    (ht : ∀ t, s.wait.place t = some (.woken k) → (s.tasks t).tested = false) :
    Core conf ((s.setValue k (int32 (s.value k + 1))).left k) := by
  have hok := C.sems k
  have hval : ((s.setValue k (int32 (s.value k + 1))).left k).value k = int32 (s.value k + 1) :=
    setValue_value_self
  have hposts : ((s.setValue k (int32 (s.value k + 1))).left k).posts k = s.posts k + 1 := by
    simp [left, setValue]
  refine C.update hk C.sound C.callback rfl C.plain ?_ fun j hj => ?_
  · refine ⟨fun h => absurd hq h, fun h => absurd hq (hok.owed h).1, fun t hp hte => ?_, ?_, ?_⟩
    · rw [show (((s.setValue k (int32 (s.value k + 1))).left k).tasks t).tested = (s.tasks t).tested from rfl,
        ht t hp] at hte
      cases hte
    · rw [hposts]
      exact Nat.le_succ_of_le hok.given
    · rw [hval, hposts]
      exact hok.value_add
  · refine Same.left ?_ hj
    exact ⟨.rfl, setValue_value_ne hj, rfl, rfl, rfl, rfl, rfl, rfl, fun t ht => ⟨ht, rfl⟩⟩

/-! ## A new semaphore, and time -/

theorem Same.allocated {n : BitVec 32} (hj : j ≠ s.semsNr) : Same s (s.allocated n sem) j where
  owed := .rfl
  value := by simp [State.value, State.allocated, hj]
  queue := rfl
  woken := rfl
  initial := by simp [State.allocated, hj]
  posts := rfl
  waits := rfl
  holders := rfl
  tested _ ht := ⟨ht, rfl⟩

theorem Core.allocated {n : BitVec 32} (C : Core conf s) : Core conf (s.allocated n sem) := by
  have hF := C.fresh s.semsNr (Nat.le_refl _)
  refine C.change C.sound C.callback (Nat.le_succ _) C.plain fun j => ?_
  by_cases h : j = s.semsNr
  · subst h
    have hgiven : s.given s.semsNr = 0 := by
      rw [given, hF.waits, hF.woken]
      rfl
    refine .inr ⟨Nat.lt_succ_self _, fun h => absurd hF.queue h, fun h => absurd hF.queue ((C.sems _).owed h).1,
      fun t ht => ?_, ?_, ?_⟩
    · have hm := C.sound.mem_woken.mpr ht
      rw [hF.woken] at hm
      cases hm
    · show s.given s.semsNr ≤ _
      rw [hgiven]
      exact Nat.zero_le _
    · show ((Function.update s.sems s.semsNr (⟨n.toInt, sem⟩ : SemInfo)) s.semsNr).value =
        int32 ((Function.update s.initial s.semsNr n.toNat s.semsNr : Nat) + (s.posts s.semsNr : Nat) -
          (s.given s.semsNr : Nat))
      rw [Function.update_self, Function.update_self, hgiven, hF.posts]
      simp [int32, BitVec.toInt_eq_toNat_bmod]
  · exact .inl (.allocated h)

theorem State.tick_callback (t : Nat) : (s.tick.tasks t).runBeforeSwitch = (s.tasks t).runBeforeSwitch :=
  setCurr_part (f := fun x => { x with counter := x.counter - 1 }) SemTask.runBeforeSwitch (fun _ => rfl) t

theorem State.tick_owed : s.tick.owed = s.owed := tick_callback s.curr

theorem Settles.tick (h : Settles s) : Settles s.tick := fun j hj => h j (State.tick_owed.symm.trans hj)

theorem State.tick_counter : s.tick.currTask.counter = s.currTask.counter - 1 :=
  congrArg SemTask.counter (setCurr_tasks_self (f := fun x => { x with counter := x.counter - 1 }))

theorem Core.tick (C : Core conf s) : Core conf s.tick := by
  refine C.change C.sound (fun t ht => C.callback t (tick_callback t ▸ ht)) (Nat.le_refl _)
    (fun h => tick_owed.trans (C.plain h)) fun j => .inl ?_
  refine ⟨by rw [tick_owed], rfl, rfl, rfl, rfl, rfl, rfl, rfl, fun t ht => ⟨ht, ?_⟩⟩
  exact setCurr_part (f := fun x => { x with counter := x.counter - 1 }) SemTask.tested (fun _ => rfl) t

/-! ## Steps -/

/-- What a step does that keeps to the rules. -/
inductive Moved (conf : Conf) (s : State) : Op → State → Prop
  | semget (n : BitVec 32) (sem : Nat) : Moved conf s (.semget n sem) (s.allocated n sem)
  | taken {k sem next : Nat} (hv : s.value k = 1) :
      Moved conf s (.semwait k sem next) ((s.setValue k 0).entered k)
  | blocked {k sem next : Nat} {b : Bool}
      (hv : s.value k = 0 ∧ s.owed = none ∨ s.value k = 1 ∧ s.owed = some k) :
      Moved conf s (.semwait k sem next) ((s.sleeps k b).settled.switch conf next)
  | resumed {k : Nat} (hp : s.wait.place s.curr = some (.woken k)) :
      Moved conf s (.resume k) ({ s with wait := s.wait.back k s.curr }.entered k)
  | deferred {k sem : Nat} (hc : conf.singleCpu = true) (hq : s.wait.queue k ≠ []) (hv : s.value k = 0)
      (ho : ∀ j, s.owed = some j → j = k) :
      Moved conf s (.sempost k sem) (((s.setValue k 1).owes (some k)).left k)
  | handed {k sem t : Nat} {ts : List Nat} (hq : s.wait.queue k = t :: ts) (hv : s.value k = 0)
      (ho : ∀ j, s.owed = some j → j = k) :
      Moved conf s (.sempost k sem) (((s.owes none).wakeFirst k t ts).left k)
  | posted {k sem : Nat} (hq : s.wait.queue k = []) :
      Moved conf s (.sempost k sem) ((s.setValue k (int32 (s.value k + 1))).left k)
  | tick {next : Nat} : Moved conf s (.timer next) s.tick
  | timer {next : Nat} (h : Settles s) : Moved conf s (.timer next) (s.tick.settled.switch conf next)
  | yield {next : Nat} (h : Settles s) : Moved conf s (.yield next) (s.settled.switch conf next)

/-- What a call has to keep to: the `sem_t` is the one of `sem_init`; a wait finds
the value 0 or 1, and if the caller owes a hand-over it finds a unit, and has time
left or waits for the semaphore it owes; a post for which tasks wait is not made
on top of another hand-over, and one for which nobody waits not while a task that
will look at the value is on its way; and a task does not leave the processor
with the semaphore whose hand-over it owes. -/
def SemSafe (s : State) : Op → Prop
  | .semwait k sem _ =>
    (s.sems k).sem = sem ∧ (s.value k = 0 ∨ s.value k = 1) ∧
      ∀ j, s.owed = some j → s.value k = 1 ∧ (k = j ∨ s.currTask.counter ≠ 0)
  | .sempost k sem =>
    (s.sems k).sem = sem ∧
      (s.wait.queue k = [] → ∀ t ∈ s.wait.woken k, (s.tasks t).tested = false) ∧
      (s.wait.queue k ≠ [] → ∀ j, s.owed = some j → j = k ∧ s.value k = 0)
  | .timer _ => s.currTask.counter ≤ 0 → Settles s
  | .yield _ => Settles s
  | _ => True

instance (s : State) : Decidable (Settles s) := inferInstanceAs (Decidable (∀ k ∈ s.owed, s.value k = 1))

instance (s : State) : (op : Op) → Decidable (SemSafe s op)
  | .semget _ _ => inferInstanceAs (Decidable True)
  | .semwait k _ _ => inferInstanceAs (Decidable (_ ∧ _ ∧ ∀ j ∈ s.owed, s.value k = 1 ∧ (k = j ∨ s.currTask.counter ≠ 0)))
  | .resume _ => inferInstanceAs (Decidable True)
  | .sempost k _ => inferInstanceAs (Decidable (_ ∧ (_ → ∀ t ∈ s.wait.woken k, (s.tasks t).tested = false) ∧
      (_ → ∀ j ∈ s.owed, j = k ∧ s.value k = 0)))
  | .timer _ => inferInstanceAs (Decidable (_ → _))
  | .yield _ => inferInstanceAs (Decidable (Settles s))

theorem Settles.of_sleeps (C : Core conf s) (hk : k < s.semsNr) (hp : s.wait.place s.curr = none)
    (hv : s.value k = 0 ∧ s.owed = none ∨ s.value k = 1 ∧ s.owed = some k) :
    Core conf (s.sleeps k b) ∧ Settles (s.sleeps k b) := by
  have hv' : s.value k = 0 ∨ s.value k = 1 ∧ s.owed = some k := hv.imp And.left id
  refine ⟨C.sleeps hk hp hv', fun j hj => ?_⟩
  rw [sleeps_owed] at hj
  rcases hv with ⟨-, h⟩ | ⟨h1, h⟩ <;> rw [h] at hj <;> cases hj
  exact h1

section Calls

variable (hsem : (s.sems k).sem = sem)

include hsem

theorem sysSemwait_taken (hv : s.value k = 1)
    (hb : ¬ (conf.singleCpu ∧ s.currTask.runBeforeSwitch ≠ none ∧ s.currTask.counter = 0)) :
    sysSemwait conf k sem next s = .ok ((), (s.setValue k 0).entered k) := by
  have h0 : int32 (1 - 1) = 0 := rfl
  simp only [sysSemwait, get_run, ASSERT, check_run, hsem, if_true, hv, gt_iff_lt, Int.one_pos, hb,
    if_false, modify_run, h0, setValue_value_self]
  rfl

theorem sysSemwait_tested (hv : s.value k = 1)
    (hb : conf.singleCpu ∧ s.currTask.runBeforeSwitch ≠ none ∧ s.currTask.counter = 0) :
    sysSemwait conf k sem next s = schedule conf next (s.sleeps k true) := by
  simp only [sysSemwait, get_run, ASSERT, check_run, hsem, if_true, hv, gt_iff_lt, Int.one_pos, hb,
    ne_eq, not_false_eq_true, and_self, sleepUninterruptible, modify_run]

theorem sysSemwait_blocked (hv : s.value k = 0) (ho : s.owed = none) :
    sysSemwait conf k sem next s = schedule conf next (s.sleeps k false) := by
  have ho' : s.currTask.runBeforeSwitch = none := ho
  simp only [sysSemwait, get_run, ASSERT, check_run, hsem, if_true, hv, gt_iff_lt, Int.lt_irrefl,
    if_false, ho', sleepUninterruptible, modify_run]

theorem sysSempost_deferred (hq : s.wait.queue k ≠ []) (hv : s.value k = 0) (hc : conf.singleCpu = true)
    (ht : s.currTask.counter > 0) :
    sysSempost conf k sem s = .ok ((), ((s.setValue k 1).owes (some k)).left k) := by
  have h1 : int32 (0 + 1) = 1 := rfl
  have hl : (s.wait.queue k).length > 0 := List.length_pos_of_ne_nil hq
  simp only [sysSempost, get_run, ASSERT, check_run, hsem, if_true, hl, hv, hc, ht, modify_run,
    h1]
  rfl

theorem sysSempost_handed (hq : s.wait.queue k = t :: ts) (hv : s.value k = 0) (hc : conf.singleCpu = true)
    (ht : ¬ s.currTask.counter > 0) :
    sysSempost conf k sem s = .ok ((), ((s.owes none).wakeFirst k t ts).left k) := by
  have hl : (s.wait.queue k).length > 0 := by simp [hq]
  have hq' : (s.owes none).wait.queue k = t :: ts := hq
  simp only [sysSempost, get_run, ASSERT, check_run, hsem, if_true, hl, hv, hc, ht, if_false,
    modify_run]
  rw [bind_run (wakeupUninterruptible_eq hq')]
  rfl

theorem sysSempost_plain (hq : s.wait.queue k = t :: ts) (hv : s.value k = 0) (hc : conf.singleCpu = false) :
    sysSempost conf k sem s = .ok ((), (s.wakeFirst k t ts).left k) := by
  have hl : (s.wait.queue k).length > 0 := by simp [hq]
  simp only [sysSempost, get_run, ASSERT, check_run, hsem, if_true, hl, hv, hc, Bool.false_eq_true,
    if_false]
  rw [bind_run (wakeupUninterruptible_eq hq)]
  rfl

theorem sysSempost_posted (hq : s.wait.queue k = []) :
    sysSempost conf k sem s = .ok ((), (s.setValue k (int32 (s.value k + 1))).left k) := by
  have hl : ¬ (s.wait.queue k).length > 0 := by simp [hq]
  simp only [sysSempost, get_run, ASSERT, check_run, hsem, if_true, hl, if_false, modify_run]
  rfl

end Calls

theorem sysSemwait_moved (I : Inv conf s) (hp : s.wait.place s.curr = none) (hk : k < s.semsNr)
    (h : SemSafe s (.semwait k sem next)) :
    ∃ s', sysSemwait conf k sem next s = .ok ((), s') ∧ Moved conf s (.semwait k sem next) s' := by
  obtain ⟨hsem, hv | hv, how⟩ := h
  · have ho : s.owed = none := by
      cases ho : s.owed with
      | none => rfl
      | some j =>
        have := (how j ho).1
        omega
    obtain ⟨C1, hS⟩ := Settles.of_sleeps (b := false) I.toCore hk hp (.inl ⟨hv, ho⟩)
    exact ⟨_, (sysSemwait_blocked hsem hv ho).trans (schedule_eq C1 hS), .blocked (.inl ⟨hv, ho⟩)⟩
  · by_cases hb : conf.singleCpu ∧ s.currTask.runBeforeSwitch ≠ none ∧ s.currTask.counter = 0
    · cases ho : s.owed with
      | none => exact absurd ho hb.2.1
      | some j =>
        have hkj : k = j := (how j ho).2.resolve_right fun h => h hb.2.2
        subst hkj
        obtain ⟨C1, hS⟩ := Settles.of_sleeps (b := true) I.toCore hk hp (.inr ⟨hv, ho⟩)
        exact ⟨_, (sysSemwait_tested hsem hv hb).trans (schedule_eq C1 hS), .blocked (.inr ⟨hv, ho⟩)⟩
    · exact ⟨_, sysSemwait_taken hsem hv hb, .taken hv⟩

theorem sysSempost_moved (I : Inv conf s) (h : SemSafe s (.sempost k sem)) :
    ∃ s', sysSempost conf k sem s = .ok ((), s') ∧ Moved conf s (.sempost k sem) s' := by
  obtain ⟨hsem, -, how⟩ := h
  cases hq : s.wait.queue k with
  | nil => exact ⟨_, sysSempost_posted hsem hq, .posted hq⟩
  | cons t ts =>
    have hne : s.wait.queue k ≠ [] := by simp [hq]
    have ho : ∀ j, s.owed = some j → j = k := fun j hj => (how hne j hj).1
    have hv : s.value k = 0 := by
      rcases (I.sems k).waiting hne with h | ⟨-, h⟩
      · exact h
      · exact (how hne k h).2
    cases hc : conf.singleCpu with
    | false =>
      refine ⟨_, sysSempost_plain hsem hq hv hc, ?_⟩
      have hm : Moved conf s (.sempost k sem) _ := .handed hq hv ho
      rwa [owes_none (I.plain hc)] at hm
    | true =>
      by_cases ht : s.currTask.counter > 0
      · exact ⟨_, sysSempost_deferred hsem hne hv hc ht, .deferred hc hne hv ho⟩
      · exact ⟨_, sysSempost_handed hsem hq hv hc ht, .handed hq hv ho⟩

theorem semwaitTail_moved (I : Inv conf s) (hp : s.wait.place s.curr = some (.woken k)) :
    semwaitTail k s = .ok ((), { s with wait := s.wait.back k s.curr }.entered k) := by
  have ho : s.owed = none := by
    by_contra h
    rw [I.user h] at hp
    cases hp
  cases ht : s.currTask.tested with
  | false =>
    simp only [semwaitTail, get_run, ht, Bool.false_eq_true, if_false]
    rfl
  | true =>
    have hv : s.value k = 0 := by
      rcases (I.sems k).tested s.curr hp ht with h | h
      · exact h
      · rw [ho] at h
        cases h
    simp only [semwaitTail, get_run, ht, if_true, ASSERT, check_run, hv]
    rfl

theorem doTimer_moved (C : Core conf s) (h : s.currTask.counter ≤ 0 → Settles s) :
    ∃ s', doTimer conf next s = .ok ((), s') ∧ Moved conf s (.timer next) s' := by
  simp only [doTimer, modify_run, get_run, tick_counter]
  by_cases hc : s.currTask.counter - 1 < 0
  · rw [if_pos hc]
    have hS : Settles s := h (by omega)
    exact ⟨_, schedule_eq C.tick hS.tick, .timer hS⟩
  · rw [if_neg hc]
    exact ⟨_, rfl, .tick⟩

/-- A step that keeps to the rules returns. -/
theorem Op.moved (I : Inv conf s) (he : op.possible s) (h : SemSafe s op) :
    ∃ s', op.run conf s = .ok ((), s') ∧ Moved conf s op s' := by
  cases op with
  | semget n sem => exact ⟨_, rfl, .semget n sem⟩
  | semwait k sem next => exact sysSemwait_moved I he.1 he.2 h
  | resume k => exact ⟨_, semwaitTail_moved I he, .resumed he⟩
  | sempost k sem => exact sysSempost_moved I h
  | timer next => exact doTimer_moved I.toCore h
  | yield next => exact ⟨_, schedule_eq I.toCore h, .yield h⟩

/-- A step that keeps to the rules keeps the invariant. -/
theorem Inv.moved (I : Inv conf s) (he : op.possible s) (hsafe : SemSafe s op) (h : Moved conf s op s')
    (hr : s'.Runs) : Inv conf s' := by
  have hswitch : ∀ {s1 : State} {next : Nat}, Core conf s1 → Settles s1 → s' = s1.settled.switch conf next →
      Inv conf s' := by
    rintro s1 next C1 hS rfl
    obtain ⟨C2, ho⟩ := C1.schedule hS
    exact ⟨C2, fun h => absurd ho h, hr⟩
  cases h with
  | semget n sem => exact ⟨I.toCore.allocated, I.user, I.runs⟩
  | taken hv => exact ⟨I.toCore.taken he.2 hv, I.user, I.runs⟩
  | blocked hv =>
    obtain ⟨C1, hS⟩ := Settles.of_sleeps I.toCore he.2 he.1 hv
    exact hswitch C1 hS rfl
  | @resumed k hp =>
    refine ⟨I.toCore.resumed hp, fun h => ?_, hr⟩
    have := I.user h
    rw [hp] at this
    cases this
  | deferred hc hq hv ho => exact ⟨I.toCore.deferred he.2 hc hq hv ho, fun _ => he.1, hr⟩
  | handed hq hv ho =>
    exact ⟨I.toCore.handed he.2 hq hv ho, fun h => absurd (owes_owed (s := s)) h, hr⟩
  | posted hq =>
    refine ⟨I.toCore.posted he.2 hq fun t ht => ?_, I.user, hr⟩
    exact hsafe.2.1 hq t (I.sound.mem_woken.mpr ht)
  | tick => exact ⟨I.toCore.tick, fun h => I.user (tick_owed (s := s) ▸ h), hr⟩
  | timer hS => exact hswitch I.toCore.tick hS.tick rfl
  | yield hS => exact hswitch I.toCore hS rfl

theorem State.Initial.inv (h : s.Initial) : Inv conf s := by
  have howed : s.owed = none := h.runBeforeSwitch s.curr
  have hF : ∀ k, Fresh s k := by
    intro k
    refine ⟨?_, ?_, ?_, ?_, ?_, ?_, ?_⟩
    · rw [value, h.sems]
    · rw [h.wait]
      rfl
    · rw [h.wait]
      rfl
    · rw [h.initial]
    · rw [h.posts]
    · rw [h.waits]
    · rw [h.holders]
  refine ⟨⟨h.wait ▸ .empty, fun t ht => absurd (h.runBeforeSwitch t) ht, fun k => ?_, fun k _ => hF k,
    fun _ => howed⟩, fun ho => absurd howed ho, fun k hk => ?_⟩
  · refine ⟨fun hq => absurd (hF k).queue hq, fun ho => ?_, fun t ht => ?_, ?_, ?_⟩
    · rw [howed] at ho
      cases ho
    · rw [h.wait] at ht
      cases ht
    · simp [given, (hF k).waits, (hF k).woken]
    · rw [(hF k).value, (hF k).initial, (hF k).posts, given, (hF k).waits, (hF k).woken]
      rfl
  · rw [h.wait] at hk
    cases hk

theorem inv_run (h : (system conf SemSafe).Reachable s) : Inv conf s := by
  refine System.Reachable.invariant ?_ ?_ h
  · intro s h0
    exact h0.inv
  · rintro s s' I ⟨op, ⟨⟨hp, hrun⟩, hsafe⟩, hr⟩
    obtain ⟨s1, hr1, hm⟩ := Op.moved I hp hsafe
    rw [hr] at hr1
    cases hr1
    exact I.moved hp hsafe hm (hrun _ hr)

/-! ## Who is woken, and who blocks -/

/-- Exactly the first task that waited on `k` was woken, and nothing is owed for it. -/
structure HandsOver (s s' : State) (k t : Nat) : Prop where
  served : s'.wait.served k = s.wait.served k ++ [t]
  place : s'.wait.place t = some (.woken k)
  settled : (s'.tasks s.curr).runBeforeSwitch = none

/-- Nobody was woken yet, and the running task still owes the hand-over. -/
structure StillOwes (s s' : State) (k : Nat) : Prop where
  served : s'.wait.served k = s.wait.served k
  owed : s'.owed = some k
  curr : s'.curr = s.curr

theorem HandsOver.of_settled {s1 : State} (C : Core conf s1) (hS : Settles s1) (ho : s1.owed = some k)
    (hq : s1.wait.queue k = t :: ts) (hserved : s1.wait.served k = s.wait.served k) :
    HandsOver s (s1.settled.switch conf next) k t := by
  obtain ⟨-, hnone⟩ := C.settled hS
  have hwait : (s1.settled.switch conf next).wait = s1.wait.wake k t ts := by
    rw [settled_some ho hq]
    rfl
  refine ⟨?_, ?_, ?_⟩
  · rw [hwait, ← hserved]
    exact update_self ..
  · rw [hwait]
    exact wake_place_self
  · by_cases hc : s.curr = next
    · simp [switch, hc, hnone]
    · simp [switch, hc, hnone]

theorem HandsOver.of_post : HandsOver s (((s.owes none).wakeFirst k t ts).left k) k t where
  served := update_self ..
  place := wake_place_self
  settled := by
    show (s.owes none).owed = none
    exact owes_owed

/-- The task that is owed a hand-over stays where it is, or gets it. -/
theorem Moved.hands (I : Inv conf s) (he : op.possible s) (h : Moved conf s op s') (ho : s.owed = some k)
    (hq : s.wait.queue k = t :: ts) : HandsOver s s' k t ∨ StillOwes s s' k := by
  cases h with
  | semget n sem => exact .inr ⟨rfl, ho, rfl⟩
  | taken hv => exact .inr ⟨rfl, ho, rfl⟩
  | @blocked k' _ next b hv =>
    obtain ⟨C1, hS⟩ := Settles.of_sleeps (b := b) I.toCore he.2 he.1 hv
    rcases hv with ⟨-, hn⟩ | ⟨-, hk⟩
    · rw [ho] at hn
      cases hn
    · obtain rfl : k' = k := Option.some.inj (hk.symm.trans ho)
      have hq1 : (s.sleeps k' b).wait.queue k' = t :: (ts ++ [s.curr]) := by simp [sleeps, hq]
      exact .inl (.of_settled C1 hS (sleeps_owed.trans ho) hq1 rfl)
  | resumed hp =>
    have := I.user (by rw [ho]; simp)
    rw [hp] at this
    cases this
  | deferred hc hq' hv hk =>
    cases hk k ho
    exact .inr ⟨rfl, owes_owed (s := s.setValue k 1), rfl⟩
  | @handed k' _ t' ts' hq' hv hk =>
    cases hk k ho
    rw [hq] at hq'
    cases hq'
    exact .inl .of_post
  | posted hq' => exact .inr ⟨rfl, ho, rfl⟩
  | tick => exact .inr ⟨rfl, tick_owed.trans ho, rfl⟩
  | timer hS => exact .inl (.of_settled I.toCore.tick hS.tick (tick_owed.trans ho) hq rfl)
  | yield hS => exact .inl (.of_settled I.toCore hS ho hq rfl)

theorem Moved.post_hands (h : Moved conf s (.sempost k sem) s') (hq : s.wait.queue k = t :: ts) :
    HandsOver s s' k t ∨ StillOwes s s' k := by
  cases h with
  | deferred hc hq' hv hk => exact .inr ⟨rfl, owes_owed (s := s.setValue k 1), rfl⟩
  | handed hq' hv hk =>
    rw [hq] at hq'
    cases hq'
    exact .inl .of_post
  | posted hq' =>
    rw [hq] at hq'
    cases hq'

/-- A task that falls asleep on `k` finds no unit, or the one that the tasks
before it are owed. -/
structure NoUnit (s s' : State) (t k : Nat) : Prop where
  curr : t = s.curr
  before : s.value k = 0 ∨ s.owed = some k
  after : s'.value k = 0

theorem State.settled_place {p : Sleeper Nat} (h : s.settled.wait.place t = some p)
    (hp : ∀ j, p ≠ .woken j) : s.wait.place t = some p := by
  cases ho : s.owed with
  | none => rwa [settled_none ho] at h
  | some k =>
    cases hq : s.wait.queue k with
    | nil => simpa [settled, ho, hq] using h
    | cons u us =>
      rw [settled_some ho hq] at h
      have h' : (s.wait.wake k u us).place t = some p := h
      by_cases htu : t = u
      · subst htu
        rw [wake_place_self] at h'
        cases h'
        exact absurd rfl (hp k)
      · rwa [wake_place_ne htu] at h'

theorem State.settled_value (h : s.value k = 0 ∧ s.owed = none ∨ s.owed = some k ∧ s.wait.queue k ≠ []) :
    s.settled.value k = 0 := by
  rcases h with ⟨hv, ho⟩ | ⟨ho, hq⟩
  · rw [settled_none ho]
    exact hv
  · cases hq' : s.wait.queue k with
    | nil => exact absurd hq' hq
    | cons t ts =>
      rw [settled_some ho hq']
      exact setValue_value_self

theorem Moved.noUnit (h : Moved conf s op s') (h0 : s.wait.place t ≠ some (.asleep k))
    (h1 : s'.wait.place t = some (.asleep k)) : NoUnit s s' t k := by
  cases h with
  | semget n sem => exact absurd h1 h0
  | taken hv => exact absurd h1 h0
  | @blocked k' _ next b hv =>
    have h2 : (s.sleeps k' b).wait.place t = some (.asleep k) := settled_place h1 fun _ h => by cases h
    have hc : t = s.curr := by
      by_contra hc
      rw [show (s.sleeps k' b).wait.place t = s.wait.place t from sleep_place_ne hc] at h2
      exact h0 h2
    subst hc
    rw [show (s.sleeps k' b).wait.place s.curr = some (.asleep k') from sleep_place_self] at h2
    cases h2
    refine ⟨rfl, hv.imp And.left And.right, ?_⟩
    refine settled_value (s := s.sleeps k b) ?_
    rw [sleeps_owed]
    rcases hv with hv | hv
    · exact .inl hv
    · exact .inr ⟨hv.2, by simp [sleeps]⟩
  | @resumed k' hp =>
    refine absurd h1 fun h1 => ?_
    by_cases hc : t = s.curr
    · subst hc
      have hb : (s.wait.back k' s.curr).place s.curr = none := back_place_self
      cases hb.symm.trans h1
    · exact h0 ((back_place_ne hc).symm.trans h1)
  | deferred hc hq hv ho => exact absurd h1 h0
  | @handed k' _ u us hq hv ho =>
    refine absurd h1 fun h1 => ?_
    by_cases hc : t = u
    · subst hc
      rw [show (((s.owes none).wakeFirst k' t us).left k').wait.place t = some (.woken k') from
        wake_place_self] at h1
      cases h1
    · exact h0 ((wake_place_ne hc).symm.trans h1)
  | posted hq => exact absurd h1 h0
  | tick => exact absurd h1 h0
  | timer hS => exact absurd (settled_place (s := s.tick) h1 fun _ h => by cases h) h0
  | yield hS => exact absurd (settled_place h1 fun _ h => by cases h) h0

/-- The version with the optimisation, and time slices of three ticks. -/
def optimised : Conf := ⟨true, fun _ => 3⟩

/-- Task 1 has the semaphore, task 2 waits, and task 1 posts. -/
def owing : List Op := [.semget 1 0x100, .semwait 0 0x100 0, .yield 2, .semwait 0 0x100 1, .sempost 0 0x100]

end MakarnaX.Semaphore
