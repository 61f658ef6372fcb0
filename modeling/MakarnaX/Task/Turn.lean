import MakarnaX.Task.Effect

/-!
# What an effect makes of a task

Most of what holds of single tasks in every run follows from one list of what an effect
can do to a task: `Turn`, and `Effect.processor` for the task that has the processor.
-/

namespace MakarnaX

open Library Sched

variable {s s' : Sched} {x y z : Task} {t u sig i : Nat} {e : Label}

/-- What most effects leave alone. -/
def Task.part (x : Task) : TaskState × Nat × Nat × List SignalState × Int × Nat × Nat :=
  (x.state, x.priority, x.exitCode, x.sigstack, x.nCli, x.exitSignal, x.pgdirPa)

/-- Task 0 stays ready to run and a zombie a zombie, `do_exit` is entered on the way to
one only, and a handler by a task that runs.  No section is closed too often. -/
structure Turn (t : Nat) (x y : Task) : Prop where
  kernel : t = 0 → x.state = .running → y.state = .running ∧ y.priority = x.priority
  zombie : x.state = .zombie → y.state = .zombie ∧ y.exitCode = x.exitCode
  dead : .dead ∈ y.kstack → y.state = .zombie ∨ .dead ∈ x.kstack ∨ ∃ st ∈ x.sigstack, .dead ∈ st.frames
  saved : ∀ st ∈ y.sigstack, st ∈ x.sigstack ∨ st.frames = x.kstack ∧ x.state = .running
  sections : 0 ≤ x.nCli → 0 ≤ y.nCli
  exitSignal : y.exitSignal = x.exitSignal ∨ y.exitSignal = SIGCHLD
  pgdirPa : y.pgdirPa = x.pgdirPa

namespace Turn

theorem refl : Turn t x x :=
  ⟨fun _ h => ⟨h, rfl⟩, fun h => ⟨h, rfl⟩, fun h => .inr (.inl h), fun _ h => .inl h, id, .inl rfl, rfl⟩

theorem after (T : Turn t x y) (h : z.part = y.part) (hk : .dead ∈ z.kstack → .dead ∈ y.kstack) : Turn t x z := by
  simp only [Task.part, Prod.mk.injEq] at h
  obtain ⟨hst, hp, hc, hs, hn, hx, hg⟩ := h
  constructor
  · rw [hst, hp]
    exact T.kernel
  · rw [hst, hc]
    exact T.zombie
  · rw [hst]
    exact fun hd => T.dead (hk hd)
  · rw [hs]
    exact T.saved
  · rw [hn]
    exact T.sections
  · rw [hx]
    exact T.exitSignal
  · rw [hg]
    exact T.pgdirPa

theorem keep (h : y.part = x.part) (hk : .dead ∈ y.kstack → .dead ∈ x.kstack) : Turn t x y := refl.after h hk

/-- A task that has not ended is put on its run queue. -/
theorem awake (hz : x.state ≠ .zombie) (i : SignalInfo) (l : Option ListId) :
    Turn t x { x with signal := i, state := .running, listNode := l } where
  kernel _ _ := ⟨rfl, rfl⟩
  zombie h := absurd h hz
  dead h := .inr (.inl h)
  saved _ h := .inl h
  sections := id
  exitSignal := .inl rfl
  pgdirPa := rfl

theorem update (ht : Turn t (s.tasks t) (s'.tasks t)) (ho : ∀ u, u ≠ t → s'.tasks u = s.tasks u) (u : Nat) :
    Turn u (s.tasks u) (s'.tasks u) := by
  by_cases hu : u = t
  · rw [hu]
    exact ht
  · rw [ho u hu]
    exact refl

theorem setTask (f : Task → Task) (h : Turn t (s.tasks t) (f (s.tasks t))) :
    ∀ u, Turn u (s.tasks u) ((s.setTask t f).tasks u) :=
  update ((setTask_self f).symm ▸ h) fun _ hu => setTask_ne f hu

theorem sent {r : Int} (h : Sent s sig t r s') : ∀ u, Turn u (s.tasks u) (s'.tasks u) := by
  refine update ?_ fun _ hu => h.tasks_ne hu
  cases h with
  | invalid => exact refl
  | refused => exact refl
  | noted =>
    rw [accept_self]
    exact .keep rfl id
  | woken _ _ hs =>
    rw [wake_self, accept_self]
    exact awake (fun hz => TaskState.noConfusion (hz.symm.trans hs)) ..

theorem switch (u : Nat) : Turn u (s.tasks u) ((s.switch i t).tasks u) := by
  refine .keep (switch_part Task.part fun _ _ _ _ => rfl) fun hd => ?_
  have hr : ((s.rotate i t).tasks u).kstack = (s.tasks u).kstack := by
    by_cases hu : u = t
    · rw [hu, rotate_self]
    · rw [rotate_ne hu]
  change .dead ∈ (((s.rotate i t).setTask s.curr fun x => { x with kstack := .checkSignals :: x.kstack.tail }).tasks
    u).kstack at hd
  rw [setTask_apply] at hd
  split at hd
  · next hu =>
    rw [← hr, hu]
    exact List.mem_of_mem_tail ((List.mem_cons.mp hd).resolve_left Frame.noConfusion)
  · rwa [hr] at hd

end Turn

/-- Every effect turns a task, or the task is new.  Only a user task waits. -/
theorem Effect.turn (I : Inv s) (hp : ∀ p, e = .park p → s.curr ≠ 0) (he : Effect s e s') (u : Nat) :
    Turn u (s.tasks u) (s'.tasks u) ∨
      u = s.tasksNr ∧ ∃ pa, s'.tasks u =
        { s.currTask.copyFor s.curr pa with state := .running, listNode := some (.runnable s.currTask.priority) } := by
  cases he with
  | quiet q =>
    have a := q.task u
    exact .inl (.keep (by simp [Task.part, a.state, a.priority, a.exitCode, a.sigstack, a.nCli, a.exitSignal, a.pgdirPa])
      (a.kstack ▸ id))
  | push h =>
    refine .inl (.setTask _ (.keep rfl fun hd => ?_) u)
    rcases h with rfl | rfl <;> simpa using hd
  | pop _ _ => exact .inl (.setTask _ (.keep rfl List.mem_of_mem_tail) u)
  | action a => exact .inl (.setTask _ (.keep rfl id) u)
  | sent _ h => exact .inl (.sent h u)
  | @wake t l hn hl =>
    refine .inl (.update (t := t) ?_ (fun _ hu => wake_ne hu) u)
    rw [wake_self]
    refine .awake (fun hz => ?_) ..
    have hlegal := I.legal t (I.lt_of_listNode hn)
    rw [Task.Legal, hz] at hlegal
    rcases hl with rfl | ⟨w, rfl⟩ <;> cases hn.symm.trans hlegal
  | @park p hk hq _ =>
    refine .inl (.update (t := s.curr) ?_ (fun _ hu => park_ne p hu) u)
    rw [park_self]
    refine ⟨fun h => absurd h (hp p rfl), fun hz => TaskState.noConfusion (hz.symm.trans hq.state), fun hd => ?_,
      fun _ h => .inl h, fun h => ?_, .inl rfl, rfl⟩
    · rw [show (s.tasks s.curr).kstack = [] from hk] at hd
      cases p <;> simp at hd
    · refine Int.add_nonneg h ?_
      cases p <;> simp
  | @exit code p s1 _ hq hpar hne hs =>
    have hpart : (((s1.chain s.curr p).pushFrames [.schedule, .dead]).tasks u).part = (s1.tasks u).part := by
      rw [Sched.pushFrames, setTask_part Task.part rfl, chain_part Task.part fun _ _ => rfl]
    left
    by_cases hu : u = s.curr
    · subst hu
      rw [hs.tasks_ne hne.symm, die_self] at hpart
      simp only [Task.part, Prod.mk.injEq] at hpart
      obtain ⟨hst, -, -, hsig, hn, hx, hg⟩ := hpart
      refine ⟨fun h => absurd (I.parent _ p I.curr hpar) (h ▸ Nat.not_lt_zero p),
        fun h => TaskState.noConfusion (h.symm.trans hq.state), fun _ => .inl hst, fun st h => .inl (hsig ▸ h),
        fun h => hn ▸ h, ?_, hg⟩
      rw [hx]
      split
      · exact .inr rfl
      · exact .inl rfl
    · have T := Turn.sent hs u
      rw [die_ne hu] at T
      refine T.after hpart fun hd => ?_
      rwa [Sched.pushFrames, setTask_ne _ (by rw [chain_curr, hs.curr]; exact hu), chain_part Task.kstack fun _ _ => rfl] at hd
  | fork pa =>
    by_cases hu : u = s.tasksNr
    · exact .inr ⟨hu, pa, hu ▸ fork_new⟩
    · rw [fork_ne hu]
      exact .inl .refl
  | switch _ _ _ => exact .inl (.switch u)
  | deliver _ _ hq _ _ =>
    refine .inl (.update (t := s.curr) ?_ (fun _ hu => deliver_ne hu) u)
    simp only [Sched.deliver, Sched.enterHandler, setTask_curr, setTask_self]
    refine ⟨fun _ h => ⟨h, rfl⟩, fun h => ⟨h, rfl⟩, fun hd => .inr (.inl hd), fun st hst => ?_, id, .inl rfl, rfl⟩
    exact (List.mem_cons.mp hst).elim (fun h => .inr (h ▸ ⟨rfl, hq.state⟩)) .inl
  | @handlerReturn esp0 st rest _ _ hst _ =>
    have hst : (s.tasks s.curr).sigstack = st :: rest := hst
    refine .inl (.setTask _ ⟨fun _ h => ⟨h, rfl⟩, fun h => ⟨h, rfl⟩, fun hd => .inr (.inr ⟨st, ?_, hd⟩),
      fun _ h => .inl ?_, id, .inl rfl, rfl⟩ u)
    · rw [hst]
      exact List.mem_cons_self
    · rw [hst]
      exact List.mem_cons_of_mem _ h
  | report _ _ =>
    refine .inl (.update (t := s.curr) ?_ (fun v hv => ?_) u)
    · simp only [Sched.report, Sched.popFrame, setTask_curr, setTask_self]
      exact .keep rfl List.mem_of_mem_tail
    · simp [Sched.report, Sched.popFrame, hv]
  | unlock _ hn =>
    rw [Sched.popFrame, setTask_setTask]
    refine .inl (.setTask _ ⟨fun _ h => ⟨h, rfl⟩, fun h => ⟨h, rfl⟩, fun hd => .inr (.inl (List.mem_of_mem_tail hd)),
      fun _ h => .inl h, fun _ => ?_, .inl rfl, rfl⟩ u)
    exact Int.le_sub_one_of_lt hn

theorem Sched.wake_cr3 : (s.wake t).cr3 = s.cr3 := by
  unfold wake leave
  split <;> rfl

theorem Sent.cr3 {r : Int} (h : Sent s sig t r s') : s'.cr3 = s.cr3 := by
  cases h with
  | invalid => rfl
  | refused => rfl
  | noted => rfl
  | woken => exact wake_cr3

/-- No effect takes a task away, and the processor goes to tasks that run. -/
theorem Effect.processor (he : Effect s e s') : s.tasksNr ≤ s'.tasksNr ∧
    (s'.curr = s.curr ∧ s'.cr3 = s.cr3 ∨ (s.tasks s'.curr).state = .running ∧ s'.cr3 = s'.currTask.pgdirPa) := by
  cases he with
  | quiet q => exact ⟨Nat.le_of_eq q.tasksNr.symm, .inl ⟨q.curr, q.cr3⟩⟩
  | sent _ h => exact ⟨Nat.le_of_eq h.tasksNr.symm, .inl ⟨h.curr, h.cr3⟩⟩
  | wake _ _ => exact ⟨Nat.le_of_eq wake_tasksNr.symm, .inl ⟨wake_curr, wake_cr3⟩⟩
  | @park p _ _ _ => exact ⟨Nat.le_of_eq (park_tasksNr p).symm, .inl ⟨park_curr p, by cases p <;> rfl⟩⟩
  | @exit _ p s1 _ _ _ _ hs =>
    have hn : (s1.chain s.curr p).tasksNr = s1.tasksNr ∧ (s1.chain s.curr p).cr3 = s1.cr3 := by
      unfold chain
      split <;> exact ⟨rfl, rfl⟩
    exact ⟨Nat.le_of_eq (hn.1.trans hs.tasksNr).symm, .inl ⟨chain_curr.trans hs.curr, hn.2.trans hs.cr3⟩⟩
  | fork pa => exact ⟨Nat.le_succ _, .inl ⟨rfl, rfl⟩⟩
  | switch _ _ hr => exact ⟨Nat.le_refl _, .inr ⟨hr, rfl⟩⟩
  | _ => exact ⟨Nat.le_refl _, .inl ⟨rfl, rfl⟩⟩

end MakarnaX
