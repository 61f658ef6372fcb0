import MakarnaX.Task.Reach

/-!
# Waiting for children

`sys_wait` marks the task, `waiting_child`, and lets it sleep.  A child that ends
sends `SIGCHLD`, which wakes the task, and if the task is marked puts itself in
front of the chain that starts at the task's `wait_notify_next`; the same field
of the child is the next link.  When the task runs again it takes one child off
the chain.

The chain is all that `sys_wait` looks at, and only when it runs again.  So it
must not be called when a child has ended already, nothing else may wake the
task, and no handler may come between: `WaitSafe`.  In runs of such steps each
child is reported at most once, with its exit code, the chain is never empty when
it is read, and no task sleeps in `sys_wait` while a child of it has ended that
was not reported.
-/

namespace MakarnaX

open Library List Sched

variable {s s' : Sched} {op : Op} {t u p c sig code : Nat} {f : Fault} {e : Label} {x y : Task} {r : Int}

/-! ## The chain -/

/-- The tasks from a link on. -/
inductive Chain (s : Sched) : Option Nat → List Nat → Prop
  | nil : Chain s none []
  | cons {t : Nat} {ts : List Nat} (h : Chain s (s.tasks t).waitNotifyNext ts) : Chain s (some t) (t :: ts)

theorem Chain.congr {o : Option Nat} {ts : List Nat} (h : Chain s o ts)
    (ht : ∀ t ∈ ts, (s'.tasks t).waitNotifyNext = (s.tasks t).waitNotifyNext) : Chain s' o ts := by
  induction h with
  | nil => exact .nil
  | @cons t ts _ ih =>
    refine .cons ?_
    rw [ht t mem_cons_self]
    exact ih fun u hu => ht u (mem_cons_of_mem t hu)

/-- `c` is a child of `p` that has ended. -/
structure Exited (s : Sched) (p c : Nat) : Prop where
  lt : c < s.tasksNr
  parent : (s.tasks c).parent = some p
  state : (s.tasks c).state = .zombie

/-- Whether a task has ended changes for no task. -/
theorem exited_congr (hn : s'.tasksNr = s.tasksNr) (hp : (s'.tasks c).parent = (s.tasks c).parent)
    (hz : (s'.tasks c).state = .zombie ↔ (s.tasks c).state = .zombie) : Exited s' p c ↔ Exited s p c := by
  constructor
  · intro h
    exact ⟨hn ▸ h.lt, hp ▸ h.parent, hz.mp h.state⟩
  · intro h
    exact ⟨hn ▸ h.lt, hp.trans h.parent, hz.mpr h.state⟩

/-- The children that `sys_wait` has returned. -/
def Sched.told (s : Sched) : List Nat := s.reported.map Report.child

/-- The task sleeps in `sys_wait`. -/
def Task.Blocked (x : Task) : Prop := x.waitingChild = true ∧ x.state = .interruptible

instance (x : Task) : Decidable x.Blocked := inferInstanceAs (Decidable (_ ∧ _))

/-- What holds of the mark, the frames and the state of one task. -/
structure Task.WaitMarks (x : Task) : Prop where
  tails : x.kstack.count .waitTail = if x.waitingChild then 1 else 0
  saved : ∀ st ∈ x.sigstack, .waitTail ∉ st.frames
  active : x.waitingChild = true → x.state = .running ∨ x.state = .interruptible ∧ x.listNode = none
  clear : x.waitingChild = true → x.signal.pending &&& signalBit SIGCHLD = 0#32
  awake : x.waitingChild = true → x.state = .running → x.waitNotifyNext ≠ none

/-- Chains lead through ended children that were not reported, and the other
ended children of a task that sleeps in `sys_wait` were reported. -/
structure WaitInv (s : Sched) : Prop where
  marks : ∀ p, (s.tasks p).WaitMarks
  chain : ∀ p, (s.tasks p).state ≠ .zombie →
    ∃ ts, Chain s (s.tasks p).waitNotifyNext ts ∧ ts.Nodup ∧ ∀ c ∈ ts, Exited s p c ∧ c ∉ s.told
  blocked : ∀ p c, (s.tasks p).Blocked → Exited s p c → c ∈ s.told
  reports : ∀ r ∈ s.reported, Exited s r.parent r.child ∧ (s.tasks r.child).exitCode = r.exitCode
  once : s.told.Nodup

namespace Task.WaitMarks

theorem not_waiting (h : x.WaitMarks) (hk : x.kstack = []) : x.waitingChild = false := by
  have ht := h.tails
  rw [hk, count_nil] at ht
  cases hw : x.waitingChild with
  | false => rfl
  | true => simp [hw] at ht

theorem waiting_of_head (h : x.WaitMarks) (hk : x.kstack.head? = some .waitTail) : x.waitingChild = true := by
  have ht := h.tails
  have hm : Frame.waitTail ∈ x.kstack := mem_of_head? hk
  cases hw : x.waitingChild with
  | true => rfl
  | false =>
    rw [hw] at ht
    exact absurd hm (count_eq_zero.mp ht)

theorem not_zombie (h : x.WaitMarks) (hw : x.waitingChild = true) : x.state ≠ .zombie := by
  rcases h.active hw with hs | hs
  · simp [hs]
  · simp [hs.1]

/-- A task that is in a list and does not run is not in `sys_wait`. -/
theorem not_waiting_of_listNode {l : ListId} (h : x.WaitMarks) (hl : x.listNode = some l)
    (hr : x.state ≠ .running) : x.waitingChild = false := by
  cases hw : x.waitingChild with
  | false => rfl
  | true =>
    rcases h.active hw with hs | hs
    · exact absurd hs hr
    · rw [hs.2] at hl
      cases hl

/-- A task that is not in `sys_wait`. -/
theorem of_not_waiting (hw : y.waitingChild = false)
    (hk : y.kstack.count .waitTail = 0) (hs : ∀ st ∈ y.sigstack, .waitTail ∉ st.frames) : y.WaitMarks where
  tails := by
    rw [hw, hk]
    rfl
  saved := hs
  active h := by simp [hw] at h
  clear h := by simp [hw] at h
  awake h := by simp [hw] at h

end Task.WaitMarks

/-! ## Changes that leave chains alone -/

/-- What becomes of a task that neither ends nor goes to `sys_wait` or comes back from it. -/
structure Task.WaitKept (x y : Task) : Prop where
  parent : y.parent = x.parent
  exitCode : y.exitCode = x.exitCode
  next : y.waitNotifyNext = x.waitNotifyNext
  zombie : y.state = .zombie ↔ x.state = .zombie
  blocked : y.Blocked → x.Blocked
  marks : x.WaitMarks → y.WaitMarks

/-- What `WaitInv` reads of a task. -/
def Task.waitPart (x : Task) :
    Option Nat × Nat × Option Nat × TaskState × Option ListId × Bool × List SignalState × BitVec 32 × Nat :=
  (x.parent, x.exitCode, x.waitNotifyNext, x.state, x.listNode, x.waitingChild, x.sigstack, x.signal.pending,
    x.kstack.count .waitTail)

namespace Task.WaitKept

theorem refl (x : Task) : x.WaitKept x := ⟨rfl, rfl, rfl, .rfl, id, id⟩

theorem of_part (h : y.waitPart = x.waitPart) : x.WaitKept y := by
  simp only [Task.waitPart, Prod.mk.injEq] at h
  obtain ⟨hp, hc, hn, hs, hl, hw, hst, hpd, hk⟩ := h
  refine ⟨hp, hc, hn, by rw [hs], ?_, fun m => ⟨?_, ?_, ?_, ?_, ?_⟩⟩
  · rintro ⟨h1, h2⟩
    exact ⟨hw ▸ h1, hs ▸ h2⟩
  · rw [hk, hw]
    exact m.tails
  · rw [hst]
    exact m.saved
  · rw [hw, hs, hl]
    exact m.active
  · rw [hw, hpd]
    exact m.clear
  · rw [hw, hs, hn]
    exact m.awake

/-- A task that is not in `sys_wait` changes its state, its list, its frames or its saved stacks. -/
theorem of_not_waiting (hp : y.parent = x.parent) (hc : y.exitCode = x.exitCode)
    (hn : y.waitNotifyNext = x.waitNotifyNext) (hz : y.state = .zombie ↔ x.state = .zombie)
    (hw : y.waitingChild = false) (hk : y.kstack.count .waitTail = 0)
    (hs : ∀ st ∈ y.sigstack, .waitTail ∉ st.frames) : x.WaitKept y where
  parent := hp
  exitCode := hc
  next := hn
  zombie := hz
  blocked h := by
    have h1 := h.1
    rw [hw] at h1
    cases h1
  marks _ := .of_not_waiting hw hk hs

end Task.WaitKept

section

variable (W : WaitInv s) (hn : s'.tasksNr = s.tasksNr) (hr : s'.reported = s.reported)

include W hn hr

/-- The same tasks have ended, with the same codes, and the links are the same. -/
theorem WaitInv.linked (hk : ∀ u, (s'.tasks u).parent = (s.tasks u).parent ∧
      (s'.tasks u).exitCode = (s.tasks u).exitCode ∧ (s'.tasks u).waitNotifyNext = (s.tasks u).waitNotifyNext ∧
      ((s'.tasks u).state = .zombie ↔ (s.tasks u).state = .zombie))
    (hm : ∀ u, (s'.tasks u).WaitMarks)
    (hb : ∀ u, (s'.tasks u).Blocked → ∀ c, Exited s u c → c ∈ s.told) : WaitInv s' := by
  have hex : ∀ p c, Exited s' p c ↔ Exited s p c := fun p c => exited_congr hn (hk c).1 (hk c).2.2.2
  have htold : s'.told = s.told := by rw [told, hr, told]
  refine ⟨hm, ?_, ?_, ?_, htold ▸ W.once⟩
  · intro p hz
    obtain ⟨ts, hc, hd, hall⟩ := W.chain p fun h => hz ((hk p).2.2.2.mpr h)
    refine ⟨ts, ?_, hd, fun c hc => ⟨(hex p c).mpr (hall c hc).1, htold ▸ (hall c hc).2⟩⟩
    rw [(hk p).2.2.1]
    exact hc.congr fun u _ => (hk u).2.2.1
  · intro p c hp hx
    rw [htold]
    exact hb p hp c ((hex p c).mp hx)
  · intro r hr'
    rw [hr] at hr'
    obtain ⟨hx, hcode⟩ := W.reports r hr'
    exact ⟨(hex _ _).mpr hx, (hk _).2.1.trans hcode⟩

theorem WaitInv.kept (hk : ∀ u, (s.tasks u).WaitKept (s'.tasks u)) : WaitInv s' :=
  W.linked hn hr (fun u => ⟨(hk u).parent, (hk u).exitCode, (hk u).next, (hk u).zombie⟩)
    (fun u => (hk u).marks (W.marks u)) fun u hb c => W.blocked u c ((hk u).blocked hb)

/-- The only task that changes is `t`. -/
theorem WaitInv.keptAt
    (ho : ∀ u, u ≠ t → s'.tasks u = s.tasks u) (ht : (s.tasks t).WaitKept (s'.tasks t)) : WaitInv s' := by
  refine W.kept hn hr fun u => ?_
  by_cases hu : u = t
  · rw [hu]
    exact ht
  · rw [ho u hu]
    exact .refl _

theorem WaitInv.part (hk : ∀ u, (s'.tasks u).waitPart = (s.tasks u).waitPart) : WaitInv s' :=
  W.kept hn hr fun u => .of_part (hk u)

end

theorem Sched.wake_reported : (s.wake t).reported = s.reported := by
  unfold wake leave
  split <;> rfl

/-- A task that sleeps, not in `sys_wait`, is woken. -/
theorem WaitInv.wake (W : WaitInv s) (hw : (s.tasks t).waitingChild = false)
    (hz : (s.tasks t).state ≠ .zombie) : WaitInv (s.wake t) := by
  refine W.keptAt (t := t) wake_tasksNr wake_reported (fun u hu => wake_ne hu) ?_
  have m := W.marks t
  refine .of_not_waiting ?_ ?_ ?_ ?_ ?_ ?_ ?_ <;> rw [wake_self]
  · simpa using hz
  · exact hw
  · have := m.tails
    rwa [hw] at this
  · exact m.saved

theorem WaitInv.accept (W : WaitInv s) : WaitInv (s.accept sig t) := by
  refine W.part rfl rfl fun u => ?_
  by_cases hu : u = t
  · rw [hu, accept_self]
    rfl
  · rw [accept_ne hu]

/-- A signal that does not wake a task from `sys_wait`. -/
theorem WaitInv.sent (W : WaitInv s) (h : Sent s sig t r s')
    (hb : (s.tasks t).Blocked → 32 < sig ∨ (s.tasks t).signal.pending &&& signalBit sig ≠ 0#32) : WaitInv s' := by
  cases h with
  | invalid => exact W
  | refused => exact W
  | noted => exact W.accept
  | woken hv hp hs =>
    refine W.accept.wake ?_ ?_
    · rw [accept_self]
      cases hw : (s.tasks t).waitingChild with
      | false => rfl
      | true =>
        rcases hb ⟨hw, hs⟩ with h | h
        · omega
        · exact absurd hp h
    · rw [accept_self]
      simp [hs]

/-! ## Going to `sys_wait` and coming back -/

/-- A task with every ended child reported goes to `sys_wait`. -/
theorem WaitInv.parkWait (W : WaitInv s) (hk : s.currTask.kstack = [])
    (hp : s.currTask.signal.pending &&& signalBit SIGCHLD = 0#32) (hr : s.currTask.state = .running)
    (hall : ∀ c, Exited s s.curr c → c ∈ s.told) : WaitInv (s.park .wait) := by
  have hk' : (s.tasks s.curr).kstack = [] := hk
  have hp' : (s.tasks s.curr).signal.pending &&& signalBit SIGCHLD = 0#32 := hp
  have hr' : (s.tasks s.curr).state = .running := hr
  refine W.linked rfl rfl (fun u => ?_) (fun u => ?_) fun u hb c hx => ?_
  · by_cases hu : u = s.curr
    · subst hu
      rw [park_self]
      simp [hr']
    · rw [park_ne _ hu]
      simp
  · by_cases hu : u = s.curr
    · subst hu
      rw [park_self]
      refine ⟨?_, (W.marks s.curr).saved, fun _ => .inr ⟨rfl, rfl⟩, fun _ => hp', fun _ h => by cases h⟩
      simp [hk']
    · rw [park_ne _ hu]
      exact W.marks u
  · by_cases hu : u = s.curr
    · exact hall c (hu ▸ hx)
    · rw [park_ne _ hu] at hb
      exact W.blocked u c hb hx

/-- What is at the head of the chain when a task comes back from `sys_wait`. -/
theorem WaitInv.head (W : WaitInv s) (hr : s.currTask.state = .running)
    (hn : s.currTask.waitNotifyNext = some t) : Exited s s.curr t ∧ t ∉ s.told := by
  have hz : (s.tasks s.curr).state ≠ .zombie := by
    rw [show (s.tasks s.curr).state = .running from hr]
    simp
  obtain ⟨ts, hc, -, hts⟩ := W.chain s.curr hz
  rw [show (s.tasks s.curr).waitNotifyNext = some t from hn] at hc
  cases hc with
  | cons _ => exact hts t mem_cons_self

theorem WaitInv.report (W : WaitInv s) (hk : s.currTask.kstack.head? = some .waitTail)
    (hr : s.currTask.state = .running) (hn : s.currTask.waitNotifyNext = some t) :
    WaitInv (s.popFrame.report t) := by
  obtain ⟨hxt, htold⟩ := W.head hr hn
  have hr' : (s.tasks s.curr).state = .running := hr
  have hz : (s.tasks s.curr).state ≠ .zombie := by simp [hr']
  have htc : t ≠ s.curr := by
    rintro rfl
    exact hz hxt.state
  have hw := (W.marks s.curr).waiting_of_head hk
  have ho : ∀ u, u ≠ s.curr → (s.popFrame.report t).tasks u = s.tasks u := by
    intro u hu
    simp [Sched.report, Sched.popFrame, hu]
  have hself : (s.popFrame.report t).tasks s.curr =
      { s.tasks s.curr with
        kstack := (s.tasks s.curr).kstack.tail
        waitingChild := false
        waitNotifyNext := (s.tasks t).waitNotifyNext } := by
    simp [Sched.report, Sched.popFrame, htc]
  have hreported : (s.popFrame.report t).reported = ⟨s.curr, t, (s.tasks t).exitCode⟩ :: s.reported := by
    simp [Sched.report, Sched.popFrame, htc]
  have htold' : (s.popFrame.report t).told = t :: s.told := by
    rw [Sched.told, hreported, map_cons, Sched.told]
  have hpart : ∀ u, ((s.popFrame.report t).tasks u).parent = (s.tasks u).parent ∧
      ((s.popFrame.report t).tasks u).state = (s.tasks u).state ∧
      ((s.popFrame.report t).tasks u).exitCode = (s.tasks u).exitCode := by
    intro u
    by_cases hu : u = s.curr
    · subst hu
      rw [hself]
      simp
    · rw [ho u hu]
      simp
  have hex : ∀ p c, Exited (s.popFrame.report t) p c ↔ Exited s p c :=
    fun p c => exited_congr rfl (hpart c).1 (by rw [(hpart c).2.1])
  -- the current task has not ended, so no chain goes through it
  have hlink : ∀ {q : Nat} {ts : List Nat} {o : Option Nat}, (∀ c ∈ ts, Exited s q c ∧ c ∉ s.told) →
      Chain s o ts → Chain (s.popFrame.report t) o ts := by
    intro q ts o hts hc
    refine hc.congr fun u hu => ?_
    rw [ho u]
    rintro rfl
    exact hz (hts _ hu).1.state
  refine ⟨?_, ?_, ?_, ?_, ?_⟩
  · intro p
    by_cases hu : p = s.curr
    · subst hu
      rw [hself]
      refine .of_not_waiting rfl ?_ (W.marks s.curr).saved
      have ht := (W.marks s.curr).tails
      rw [hw] at ht
      have hk' : (s.tasks s.curr).kstack.head? = some .waitTail := hk
      cases hks : (s.tasks s.curr).kstack with
      | nil =>
        rw [hks] at hk'
        cases hk'
      | cons g fs =>
        rw [hks] at hk' ht
        cases hk'
        simpa using ht
    · rw [ho p hu]
      exact W.marks p
  · intro p hpz
    rw [(hpart p).2.1] at hpz
    obtain ⟨ts, hc, hd, hts⟩ := W.chain p hpz
    by_cases hu : p = s.curr
    · subst hu
      rw [show (s.tasks s.curr).waitNotifyNext = some t from hn] at hc
      cases hc with
      | @cons _ ts hc =>
        have hts' : ∀ c ∈ ts, Exited s s.curr c ∧ c ∉ s.told := fun c hc => hts c (mem_cons_of_mem t hc)
        refine ⟨ts, ?_, (nodup_cons.mp hd).2, fun c hm => ⟨(hex _ c).mpr (hts' c hm).1, ?_⟩⟩
        · rw [hself]
          exact hlink hts' hc
        · rw [htold', mem_cons, not_or]
          refine ⟨?_, (hts' c hm).2⟩
          rintro rfl
          exact (nodup_cons.mp hd).1 hm
    · refine ⟨ts, ?_, hd, fun c hc => ⟨(hex p c).mpr (hts c hc).1, ?_⟩⟩
      · rw [ho p hu]
        exact hlink hts hc
      · rw [htold', mem_cons, not_or]
        refine ⟨?_, (hts c hc).2⟩
        rintro rfl
        have := (hts c hc).1.parent
        rw [hxt.parent] at this
        exact hu (Option.some.inj this).symm
  · intro p c hb hx
    rw [htold']
    refine mem_cons_of_mem t ?_
    by_cases hu : p = s.curr
    · subst hu
      rw [hself] at hb
      cases hb.1
    · rw [ho p hu] at hb
      exact W.blocked p c hb ((hex p c).mp hx)
  · intro r hr
    rw [hreported, mem_cons] at hr
    rcases hr with rfl | hr
    · exact ⟨(hex _ _).mpr hxt, (hpart t).2.2⟩
    · obtain ⟨hx, hcode⟩ := W.reports r hr
      exact ⟨(hex _ _).mpr hx, (hpart _).2.2.trans hcode⟩
  · rw [htold']
    exact nodup_cons.mpr ⟨htold, W.once⟩

/-! ## Ending -/

/-- A child of `p` has ended: what is left of it, and what `p` has got. -/
structure Ended (s s' : Sched) (p code : Nat) : Prop where
  tasksNr : s'.tasksNr = s.tasksNr
  reported : s'.reported = s.reported
  other : ∀ u, u ≠ s.curr → u ≠ p → s'.tasks u = s.tasks u
  self : ∃ k, s'.tasks s.curr =
    { s.tasks s.curr with
      state := .zombie
      listNode := some .zombie
      exitCode := code
      exitSignal := k
      waitNotifyNext :=
        if (s.tasks p).waitingChild then (s.tasks p).waitNotifyNext else (s.tasks s.curr).waitNotifyNext
      kstack := .schedule :: .dead :: (s.tasks s.curr).kstack }
  parent : ∃ b st l, s'.tasks p =
    { s.tasks p with
      signal := { (s.tasks p).signal with sig := b }
      state := st
      listNode := l
      waitNotifyNext := if (s.tasks p).waitingChild then some s.curr else (s.tasks p).waitNotifyNext } ∧
    (st = .zombie ↔ (s.tasks p).state = .zombie) ∧ ((s.tasks p).waitingChild = true → st = .running)

/-- A task in `sys_wait` is running when a child of it has sent its signal. -/
theorem Sent.wakes (h : Sent s SIGCHLD p r s') (m : (s.tasks p).WaitMarks)
    (hw : (s.tasks p).waitingChild = true) : (s'.tasks p).state = .running := by
  cases h with
  | invalid hv => exact absurd hv (by decide)
  | refused _ hp => exact absurd (m.clear hw) hp
  | noted _ _ hs =>
    rw [accept_self]
    rcases hs with hs | hs | hs
    · exact hs
    · exact absurd hs (m.not_zombie hw)
    · rw [hw] at hs
      cases hs.2
  | woken => rw [wake_self]

theorem Sent.zombie (h : Sent s sig p r s') :
    (s'.tasks p).state = .zombie ↔ (s.tasks p).state = .zombie := by
  cases h with
  | invalid => rfl
  | refused => rfl
  | noted => rw [accept_self]
  | woken _ _ hs =>
    rw [wake_self, hs]
    simp

theorem Sent.reported (h : Sent s sig p r s') : s'.reported = s.reported := by
  cases h with
  | invalid => rfl
  | refused => rfl
  | noted => rfl
  | woken => exact wake_reported

/-- `notify_parent`, as far as chains are concerned. -/
theorem Sched.chain_apply (hne : p ≠ t) : (s.chain t p).tasks u =
    if (s.tasks p).waitingChild then
      if u = t then { s.tasks t with waitNotifyNext := (s.tasks p).waitNotifyNext }
      else if u = p then { s.tasks p with waitNotifyNext := some t } else s.tasks u
    else s.tasks u := by
  unfold chain
  split
  · by_cases ht : u = t
    · simp [ht, hne.symm]
    · by_cases hp : u = p
      · simp [hp, hne]
      · simp [ht, hp]
  · rfl

theorem Ended.of_exit {s1 : Sched} (m : (s.tasks p).WaitMarks) (hx : (s.tasks s.curr).exitSignal = 0 ∨
    (s.tasks s.curr).exitSignal = SIGCHLD) (hne : p ≠ s.curr)
    (hs : Sent (s.die code) ((s.die code).tasks s.curr).exitSignal p 0 s1) :
    Ended s ((s1.chain s.curr p).pushFrames [.schedule, .dead]) p code := by
  have hsig : ((s.die code).tasks s.curr).exitSignal = SIGCHLD := by
    rw [Sched.die_self]
    rcases hx with h | h <;> simp [h, SIGCHLD]
  rw [hsig] at hs
  have hdp : (s.die code).tasks p = s.tasks p := Sched.die_ne hne
  have h1p : ∃ b st l, s1.tasks p =
      { s.tasks p with signal := { (s.tasks p).signal with sig := b }, state := st, listNode := l } := by
    have h := hs.task p
    rwa [hdp] at h
  obtain ⟨b, st, l, h1p⟩ := h1p
  have h1w : (s1.tasks p).waitingChild = (s.tasks p).waitingChild := by rw [h1p]
  have h1n : (s1.tasks p).waitNotifyNext = (s.tasks p).waitNotifyNext := by rw [h1p]
  have hst : (s1.tasks p).state = st := by rw [h1p]
  have hc : (s1.chain s.curr p).curr = s.curr := by
    rw [Sched.chain_curr, hs.curr]
    rfl
  have ho : ∀ u, u ≠ s.curr → ((s1.chain s.curr p).pushFrames [.schedule, .dead]).tasks u =
      (s1.chain s.curr p).tasks u := by
    intro u hu
    rw [Sched.pushFrames, hc, Sched.setTask_ne _ hu]
  have hself : ((s1.chain s.curr p).pushFrames [.schedule, .dead]).tasks s.curr =
      { (s1.chain s.curr p).tasks s.curr with
        kstack := .schedule :: .dead :: ((s1.chain s.curr p).tasks s.curr).kstack } := by
    rw [Sched.pushFrames, hc, Sched.setTask_self]
    rfl
  refine ⟨?_, ?_, ?_, ?_, ?_⟩
  · show (s1.chain s.curr p).tasksNr = _
    have : (s1.chain s.curr p).tasksNr = s1.tasksNr := by
      unfold Sched.chain
      split <;> rfl
    rw [this, hs.tasksNr]
    rfl
  · show (s1.chain s.curr p).reported = _
    have : (s1.chain s.curr p).reported = s1.reported := by
      unfold Sched.chain
      split <;> rfl
    rw [this, hs.reported]
    rfl
  · intro u hu hup
    rw [ho u hu, Sched.chain_apply hne, hs.tasks_ne hup, Sched.die_ne hu]
    simp [hu, hup]
  · refine ⟨if (s.tasks s.curr).exitSignal = 0 then SIGCHLD else (s.tasks s.curr).exitSignal, ?_⟩
    rw [hself, Sched.chain_apply hne, h1w, h1n, hs.tasks_ne (Ne.symm hne), Sched.die_self]
    cases (s.tasks p).waitingChild <;> simp
  · refine ⟨b, st, l, ?_, ?_, ?_⟩
    · rw [ho p hne, Sched.chain_apply hne, h1w, h1p]
      split <;> simp
    · rw [← hst, hs.zombie, hdp]
    · intro hw
      rw [← hst]
      exact hs.wakes (by rw [hdp]; exact m) (by rw [hdp]; exact hw)

theorem WaitInv.ended (W : WaitInv s) (hw : (s.tasks s.curr).waitingChild = false)
    (hr : (s.tasks s.curr).state = .running) (hlt : s.curr < s.tasksNr) (hp : (s.tasks s.curr).parent = some p)
    (hne : p ≠ s.curr) (h : Ended s s' p code) : WaitInv s' := by
  obtain ⟨k, hself⟩ := h.self
  obtain ⟨b, st, l, hpar, hz, hrun⟩ := h.parent
  have htold : s'.told = s.told := by rw [told, h.reported, told]
  have hnz : (s.tasks s.curr).state ≠ .zombie := by simp [hr]
  have hex : ∀ q c, c ≠ s.curr → (Exited s' q c ↔ Exited s q c) := by
    intro q c hc
    by_cases hcp : c = p
    · subst hcp
      exact exited_congr h.tasksNr (by rw [hpar]) (by rw [hpar]; exact hz)
    · exact exited_congr h.tasksNr (by rw [h.other c hc hcp]) (by rw [h.other c hc hcp])
  have hold : ∀ {q c : Nat}, Exited s q c → c ≠ s.curr := by
    rintro q c hx rfl
    exact hnz hx.state
  have hnew : Exited s' p s.curr := by
    refine ⟨h.tasksNr ▸ hlt, ?_, ?_⟩ <;> rw [hself]
    exact hp
  -- an ended task keeps its link: it is not the current one, nor a parent that waits
  have hlink : ∀ {q : Nat} {ts : List Nat} {o : Option Nat}, (∀ c ∈ ts, Exited s q c ∧ c ∉ s.told) →
      Chain s o ts → Chain s' o ts := by
    intro q ts o hts hc
    refine hc.congr fun u hu => ?_
    have hx := (hts u hu).1
    by_cases hup : u = p
    · subst hup
      have : (s.tasks u).waitingChild = false := by
        cases hwp : (s.tasks u).waitingChild with
        | false => rfl
        | true => exact absurd hx.state ((W.marks u).not_zombie hwp)
      rw [hpar]
      simp [this]
    · rw [h.other u (hold hx) hup]
  refine ⟨?_, ?_, ?_, ?_, htold ▸ W.once⟩
  · intro q
    by_cases hq : q = s.curr
    · subst hq
      rw [hself]
      refine .of_not_waiting hw ?_ (W.marks s.curr).saved
      have ht := (W.marks s.curr).tails
      rw [hw] at ht
      simpa using ht
    · by_cases hqp : q = p
      · subst hqp
        rw [hpar]
        have m := W.marks q
        refine ⟨m.tails, m.saved, fun h => .inl (hrun h), m.clear, fun h _ => ?_⟩
        have h : (s.tasks q).waitingChild = true := h
        simp [h]
      · rw [h.other q hq hqp]
        exact W.marks q
  · intro q hqz
    have hq : q ≠ s.curr := by
      rintro rfl
      rw [hself] at hqz
      exact hqz rfl
    by_cases hqp : q = p
    · subst hqp
      rw [hpar] at hqz
      obtain ⟨ts, hc, hd, hts⟩ := W.chain q fun h => hqz (hz.mpr h)
      have hts' : ∀ c ∈ ts, Exited s' q c ∧ c ∉ s'.told :=
        fun c hc => ⟨(hex q c (hold (hts c hc).1)).mpr (hts c hc).1, htold ▸ (hts c hc).2⟩
      cases hwq : (s.tasks q).waitingChild with
      | false =>
        refine ⟨ts, ?_, hd, hts'⟩
        rw [hpar]
        simpa [hwq] using hlink hts hc
      | true =>
        refine ⟨s.curr :: ts, ?_, nodup_cons.mpr ⟨fun hm => hold (hts _ hm).1 rfl, hd⟩, ?_⟩
        · rw [hpar]
          simp only [hwq, if_true]
          refine .cons ?_
          rw [hself]
          simpa [hwq] using hlink hts hc
        · intro c hc
          rcases mem_cons.mp hc with rfl | hc
          · refine ⟨hnew, htold ▸ fun hm => ?_⟩
            obtain ⟨r, hr, hrc⟩ := mem_map.mp hm
            exact hold (W.reports r hr).1 hrc
          · exact hts' c hc
    · rw [h.other q hq hqp] at hqz ⊢
      obtain ⟨ts, hc, hd, hts⟩ := W.chain q hqz
      exact ⟨ts, hlink hts hc, hd, fun c hc => ⟨(hex q c (hold (hts c hc).1)).mpr (hts c hc).1, htold ▸ (hts c hc).2⟩⟩
  · intro q c hb hx
    rw [htold]
    have hq : q ≠ s.curr := by
      rintro rfl
      rw [hself] at hb
      cases hb.2
    have hqp : q ≠ p := by
      rintro rfl
      rw [hpar] at hb
      have hst : st = .interruptible := hb.2
      rw [hrun hb.1] at hst
      cases hst
    have hc : c ≠ s.curr := by
      rintro rfl
      have := hx.parent
      rw [hnew.parent] at this
      exact hqp (Option.some.inj this).symm
    rw [h.other q hq hqp] at hb
    exact W.blocked q c hb ((hex q c hc).mp hx)
  · intro r hr
    rw [h.reported] at hr
    obtain ⟨hx, hcode⟩ := W.reports r hr
    refine ⟨(hex _ _ (hold hx)).mpr hx, hcode ▸ ?_⟩
    by_cases hrp : r.child = p
    · rw [hrp, hpar]
    · rw [h.other _ (hold hx) hrp]

/-! ## Forking -/

theorem WaitInv.fork {pa : Nat} (W : WaitInv s) : WaitInv (s.fork pa) := by
  have hnew : ((s.fork pa).tasks s.tasksNr).WaitMarks := by
    rw [fork_new]
    exact .of_not_waiting rfl rfl (fun st h => by cases h)
  have hold : ∀ {q c : Nat}, Exited s q c → Exited (s.fork pa) q c := by
    intro q c hx
    have hc : c ≠ s.tasksNr := Nat.ne_of_lt hx.lt
    exact ⟨Nat.lt_succ_of_lt hx.lt, by rw [fork_ne hc]; exact hx.parent,
      by rw [fork_ne hc]; exact hx.state⟩
  have hback : ∀ {q c : Nat}, Exited (s.fork pa) q c → Exited s q c := by
    intro q c hx
    have hc : c ≠ s.tasksNr := by
      rintro rfl
      have := hx.state
      rw [fork_new] at this
      cases this
    have hlt : c < s.tasksNr + 1 := hx.lt
    exact ⟨by omega, by rw [← fork_ne hc]; exact hx.parent, by rw [← fork_ne hc]; exact hx.state⟩
  refine ⟨?_, ?_, ?_, ?_, W.once⟩
  · intro q
    by_cases hq : q = s.tasksNr
    · rw [hq]
      exact hnew
    · rw [fork_ne hq]
      exact W.marks q
  · intro q hz
    by_cases hq : q = s.tasksNr
    · refine ⟨[], ?_, nodup_nil, fun c hc => by cases hc⟩
      rw [hq, fork_new]
      exact .nil
    · rw [fork_ne hq] at hz ⊢
      obtain ⟨ts, hc, hd, hts⟩ := W.chain q hz
      refine ⟨ts, ?_, hd, fun c hc => ⟨hold (hts c hc).1, (hts c hc).2⟩⟩
      exact hc.congr fun u hu => by rw [fork_ne (Nat.ne_of_lt (hts u hu).1.lt)]
  · intro q c hb hx
    have hq : q ≠ s.tasksNr := by
      rintro rfl
      rw [fork_new] at hb
      cases hb.1
    rw [fork_ne hq] at hb
    exact W.blocked q c hb (hback hx)
  · intro r hr
    obtain ⟨hx, hcode⟩ := W.reports r hr
    refine ⟨hold hx, ?_⟩
    rw [fork_ne (Nat.ne_of_lt hx.lt)]
    exact hcode

/-! ## Runs -/

/-- A signal that is not accepted, or not for a task that sleeps in `sys_wait`. -/
def SparesWait (x : Task) (sig : Nat) : Prop :=
  x.Blocked → 32 < sig ∨ x.signal.pending &&& signalBit sig ≠ 0#32

/-- Only signals that are ignored by default are set. -/
def OnlyIgnored (s : Sched) : Prop :=
  ∀ k < 32, 0 < k → s.currTask.signal.sig &&& signalBit k ≠ 0#32 →
    s.currTask.signal.action k = SIG_DFL ∧ (s.curr = 1 ∨ sigDI k = true ∨ sigDC k = true)

/-- `sys_wait` is called when every ended child has been reported and no handler
of `SIGCHLD` runs; nobody else sends a signal to a task that sleeps there, and
when the task wakes up no signal interferes. -/
def WaitSafe (s : Sched) : Op → Prop
  | .syscall (.wait true) =>
    (∀ c < s.tasksNr, (s.tasks c).parent = some s.curr → (s.tasks c).state = .zombie → c ∈ s.told) ∧
      s.currTask.signal.pending &&& signalBit SIGCHLD = 0#32
  | .syscall (.kill t sig) => SparesWait (s.tasks t) sig
  | .checkAlarmTurn t => SparesWait (s.tasks t) SIGALRM
  | .resume .checkSignals => s.currTask.waitingChild = true → OnlyIgnored s
  | _ => True

instance (x : Task) (sig : Nat) : Decidable (SparesWait x sig) := inferInstanceAs (Decidable (_ → _ ∨ _))

instance (s : Sched) : Decidable (OnlyIgnored s) := inferInstanceAs (Decidable (∀ _ < 32, _ → _ → _ ∧ _))

instance (s : Sched) : (op : Op) → Decidable (WaitSafe s op)
  | .syscall (.wait true) => inferInstanceAs (Decidable ((∀ _ < s.tasksNr, _ → _ → _ ∈ s.told) ∧ _))
  | .syscall (.kill t sig) => inferInstanceAs (Decidable (SparesWait (s.tasks t) sig))
  | .checkAlarmTurn t => inferInstanceAs (Decidable (SparesWait (s.tasks t) SIGALRM))
  | .resume .checkSignals => inferInstanceAs (Decidable (_ → OnlyIgnored s))
  | .syscall (.wait false) | .syscall (.fork _) | .syscall (.exit _) | .syscall (.fault _) | .syscall .pause
  | .syscall (.sleep _) | .syscall .yield | .syscall (.alarm _ _) | .syscall (.signal _ _)
  | .syscall (.sleepInterruptible _) | .syscall (.sleepUninterruptible _) | .syscall (.inodeLock _)
  | .signalReturn _ | .timer | .wakeupInterruptible _ | .wakeupUninterruptible _ | .checkSleepList
  | .switchTask | .resume .schedule | .resume .waitTail | .resume .lockTail | .resume .sleepTail
  | .resume .yieldTail | .resume .dead => inferInstanceAs (Decidable True)

theorem SparesWait.quiet (h : SparesWait x sig) (q : x.Alike y) : SparesWait y sig := by
  intro hb
  rw [q.signal]
  exact h ⟨q.waitingChild ▸ hb.1, q.state ▸ hb.2⟩

theorem WaitInv.effect {J : Sched → Prop} (I : Inv s) (hS : Steady s) (W : WaitInv s)
    (hA : Admitted WaitSafe J s e) (h : Effect s e s') : WaitInv s' := by
  have m := W.marks s.curr
  cases h with
  | quiet q =>
    refine W.part q.tasksNr q.reported fun u => ?_
    have hu := q.task u
    simp only [Task.waitPart, hu.parent, hu.exitCode, hu.waitNotifyNext, hu.state, hu.listNode, hu.waitingChild,
      hu.sigstack, hu.signal, hu.kstack]
  | push h =>
    refine W.part rfl rfl fun u => setTask_part Task.waitPart ?_
    rcases h with rfl | rfl <;> simp [Task.waitPart]
  | @pop f hf h =>
    refine W.part rfl rfl fun u => setTask_part Task.waitPart ?_
    have hf' : (s.tasks s.curr).kstack.head? = some f := hf
    cases hk : (s.tasks s.curr).kstack with
    | nil =>
      rw [hk] at hf'
      cases hf'
    | cons g fs =>
      rw [hk] at hf'
      cases hf'
      rcases h with rfl | rfl | rfl <;> simp [Task.waitPart, hk]
  | action a => exact W.part rfl rfl fun u => setTask_part Task.waitPart rfl
  | @sent sig t r s' ht h =>
    refine W.sent h ?_
    cases hA with
    | step _ _ _ ha ho =>
      obtain ⟨q, rfl | ⟨rfl, rfl⟩⟩ := ho
      · exact SparesWait.quiet ha (q.task t)
      · exact SparesWait.quiet ha (q.task t)
  | @wake t l hn hl =>
    have hr : (s.tasks t).state ≠ .running ∧ (s.tasks t).state ≠ .zombie := by
      have hlg := I.legal t (I.lt_of_listNode hn)
      unfold Task.Legal at hlg
      rw [hn] at hlg
      constructor <;>
      · intro hs
        rw [hs] at hlg
        rcases hl with rfl | ⟨w, rfl⟩ <;> simp at hlg
    exact W.wake ((W.marks t).not_waiting_of_listNode hn hr.1) hr.2
  | @park p hk hq hx =>
    have hk' : (s.tasks s.curr).kstack = [] := hk
    have hw := m.not_waiting hk'
    by_cases hp : p = .wait
    · subst hp
      cases hA with
      | @step s₀ _ _ _ _ _ ha ho =>
        obtain ⟨q, rfl⟩ := ho
        obtain ⟨hall, hclear⟩ := ha
        refine W.parkWait hk ?_ hq.state fun c hx => ?_
        · rw [currTask, (q.task _).signal, q.curr]
          exact hclear
        · rw [told, q.reported]
          refine hall c (q.tasksNr ▸ hx.lt) ?_ ?_
          · rw [← (q.task c).parent, ← q.curr]
            exact hx.parent
          · rw [← (q.task c).state]
            exact hx.state
    · refine W.keptAt (t := s.curr) (park_tasksNr p) (by cases p <;> rfl) (fun u hu => park_ne p hu) ?_
      have hr : (s.tasks s.curr).state = .running := hq.state
      refine .of_not_waiting ?_ ?_ ?_ ?_ ?_ ?_ ?_ <;> rw [park_self]
      · cases p with
        | on w b => cases b <;> simp [hr]
        | _ => simp [hr]
      · cases p with
        | wait => exact absurd rfl hp
        | _ => exact hw
      · rw [hk']
        cases p with
        | wait => exact absurd rfl hp
        | _ => rfl
      · exact m.saved
  | @exit code p s1 h1 hq hp hne hs =>
    have hw : (s.tasks s.curr).waitingChild = false := by
      cases hA with
      | @step s₀ _ _ _ hJ₀ _ ha ho =>
        rcases ho with ⟨q, hk⟩ | ⟨rfl, hc, hb, hd, hi, hdc, h0, h32⟩
        · exact m.not_waiting (q.kstack_nil hk)
        · rw [hc.curr, hc.waitingChild]
          cases hw₀ : (s₀.tasks s₀.curr).waitingChild with
          | false => rfl
          | true =>
            have hset : (s₀.tasks s₀.curr).signal.sig &&& signalBit code ≠ 0#32 := by
              refine hc.bits code ?_
              rw [← hc.curr]
              exact hb
            rcases (ha hw₀ code h32 h0 hset).2 with h | h | h
            · exact absurd (hc.curr.trans h) h1
            · simp [hi] at h
            · simp [hdc] at h
    exact W.ended hw hq.state I.curr hp hne (.of_exit (W.marks p) (hS.exitSignal _) hne hs)
  | fork pa => exact W.fork
  | @switch i t hk hn hr =>
    refine W.part rfl rfl fun u => ?_
    show (((s.rotate i t).setTask s.curr fun x => { x with kstack := .checkSignals :: x.kstack.tail }).tasks u).waitPart = _
    have hrot : ∀ u, ((s.rotate i t).tasks u).waitPart = (s.tasks u).waitPart ∧
        ((s.rotate i t).tasks u).kstack = (s.tasks u).kstack := by
      intro u
      by_cases hu : u = t
      · rw [hu, rotate_self]
        simp [Task.waitPart, hn]
      · rw [rotate_ne hu]
        exact ⟨rfl, rfl⟩
    rw [setTask_part Task.waitPart, (hrot u).1]
    have hk' : ((s.rotate i t).tasks s.curr).kstack.head? = some .schedule := by
      rw [(hrot s.curr).2]
      exact hk
    cases hks : ((s.rotate i t).tasks s.curr).kstack with
    | nil =>
      rw [hks] at hk'
      cases hk'
    | cons g fs =>
      rw [hks] at hk'
      cases hk'
      simp [Task.waitPart, hks]
  | @deliver k h0 h32 hq hb ha =>
    have hw : (s.tasks s.curr).waitingChild = false := by
      cases hA with
      | @step s₀ _ _ _ _ _ hs ho =>
        obtain ⟨rfl, hc⟩ := ho
        rw [hc.curr, hc.waitingChild]
        cases hw₀ : (s₀.tasks s₀.curr).waitingChild with
        | false => rfl
        | true =>
          refine absurd ?_ ha
          have hset : (s₀.tasks s₀.curr).signal.sig &&& signalBit k ≠ 0#32 := by
            refine hc.bits k ?_
            rw [← hc.curr]
            exact hb
          rw [currTask, hc.curr, hc.action]
          exact (hs hw₀ k h32 h0 hset).1
    have hk : (s.tasks s.curr).kstack.count .waitTail = 0 := by
      have := m.tails
      rwa [hw] at this
    refine W.keptAt (t := s.curr) rfl rfl (fun u hu => deliver_ne hu) ?_
    have hself : (s.deliver k).tasks s.curr = { s.tasks s.curr with
        signal := ((s.deliver k).tasks s.curr).signal
        sigstack := ⟨k, (s.tasks s.curr).kstack, (s.tasks s.curr).tf, (s.tasks s.curr).sleep⟩ ::
          (s.tasks s.curr).sigstack
        tf := ((s.deliver k).tasks s.curr).tf } := by
      simp [deliver, enterHandler]
    refine .of_not_waiting ?_ ?_ ?_ ?_ ?_ ?_ ?_ <;> rw [hself]
    · exact hw
    · exact hk
    · intro st hst
      rcases mem_cons.mp hst with rfl | hst
      · exact count_eq_zero.mp hk
      · exact m.saved st hst
  | @handlerReturn esp0 st rest hk hq hst hz =>
    have hw := m.not_waiting hk
    have hst' : (s.tasks s.curr).sigstack = st :: rest := hst
    have hsaved := m.saved
    rw [hst'] at hsaved
    refine W.keptAt (t := s.curr) rfl rfl (fun u hu => setTask_ne _ hu) ?_
    refine .of_not_waiting ?_ ?_ ?_ ?_ ?_ ?_ ?_ <;> rw [handlerReturn, setTask_self]
    · exact hw
    · exact count_eq_zero.mpr (hsaved st mem_cons_self)
    · exact fun st hst => hsaved st (mem_cons_of_mem _ hst)
  | report hk hn => exact W.report hk (I.running (by rw [hk]; simp)) hn
  | unlock hk hn =>
    rw [popFrame, setTask_setTask]
    refine W.part rfl rfl fun u => setTask_part Task.waitPart ?_
    have hk' : (s.tasks s.curr).kstack.head? = some .lockTail := hk
    cases hks : (s.tasks s.curr).kstack with
    | nil =>
      rw [hks] at hk'
      cases hk'
    | cons g fs =>
      rw [hks] at hk'
      cases hk'
      simp [Task.waitPart, hks]

theorem kernelTask_waitInv (pa : Nat) : WaitInv ((kernelTask pa).enqueue 0) := by
  have htask : ∀ t, (((kernelTask pa).enqueue 0).tasks t).kstack = [] ∧
      (((kernelTask pa).enqueue 0).tasks t).sigstack = [] ∧
      (((kernelTask pa).enqueue 0).tasks t).waitingChild = false ∧
      (((kernelTask pa).enqueue 0).tasks t).waitNotifyNext = none := by
    intro t
    by_cases ht : t = 0 <;> simp [kernelTask, blankTask, ht]
  refine ⟨fun t => ?_, fun t _ => ?_, fun t c hb _ => ?_, (fun r hr => by cases hr), nodup_nil⟩
  · obtain ⟨hk, hs, hw, -⟩ := htask t
    refine .of_not_waiting hw (by rw [hk]; rfl) (fun st h => ?_)
    rw [hs] at h
    cases h
  · refine ⟨[], ?_, nodup_nil, fun c hc => by cases hc⟩
    rw [(htask t).2.2.2]
    exact .nil
  · have h := hb.1
    rw [(htask t).2.2.1] at h
    cases h

theorem wait_run (h : (kernel WaitSafe).Reachable s) : Inv s ∧ WaitInv s := by
  obtain ⟨I, -, W⟩ := kernel_invariant (J := fun s => Steady s ∧ WaitInv s)
    (fun pa => ⟨kernelTask_steady pa, kernelTask_waitInv pa⟩)
    (fun a b e I hJ hA he => ⟨hJ.1.effect I (fun _ hp => Admitted.park (hp ▸ hA)) he, hJ.2.effect I hJ.1 hA he⟩) h
  exact ⟨I, W⟩

/-! ## The assertion of `sys_wait` -/

theorem ExitFails.not_waitAssertion (h : ExitFails s f) : f ≠ .assert "t" := by
  cases h <;> simp

theorem CheckFails.not_waitAssertion (h : CheckFails s f) : f ≠ .assert "t" := by
  cases h with
  | exits _ _ _ _ he => exact he.not_waitAssertion
  | _ => simp

/-- The chain is not empty when a task comes back from `sys_wait`. -/
theorem WaitInv.waitNotifyNext_ne_none (W : WaitInv s) (I : Inv s) (hk : s.currTask.kstack.head? = some .waitTail) :
    s.currTask.waitNotifyNext ≠ none :=
  (W.marks s.curr).awake ((W.marks s.curr).waiting_of_head hk) (I.running (by rw [hk]; simp))

theorem Fails.not_waitAssertion (I : Inv s) (W : WaitInv s) (he : op.enabled s) (h : Fails s op f) :
    f ≠ .assert "t" := by
  cases h with
  | exit _ h => exact h.not_waitAssertion
  | check h => exact h.not_waitAssertion
  | alarm h => rcases h with rfl | rfl | rfl <;> simp
  | handlerReturn h =>
    cases h with
    | again _ he => rcases he with rfl | rfl | rfl <;> simp
    | _ => simp
  | wait h => exact absurd h (W.waitNotifyNext_ne_none I he.2)
  | _ => simp

/-- What `sys_wait` returns when it comes back. -/
theorem waitTail_returns (hn : s.currTask.waitNotifyNext = some c) (hne : c ≠ s.curr)
    (h : (Op.resume .waitTail).run s = .ok ((), s')) :
    s'.reported = ⟨s.curr, c, (s.tasks c).exitCode⟩ :: s.reported ∧ s'.currTask.tf.eax = c := by
  have hrun : (Op.resume .waitTail).run s = waitTail s.popFrame := rfl
  rw [hrun] at h
  simp only [waitTail, modCurr, modify_run, get_run] at h
  have hw : (s.popFrame.setTask s.popFrame.curr fun x => { x with waitingChild := false }).currTask.waitNotifyNext =
      some c := by
    simpa [currTask, popFrame] using hn
  rw [hw] at h
  cases h
  simp [popFrame, currTask, setTask, hne]

end MakarnaX
