import MakarnaX.Task.RoundRobin

/-!
# Tasks that have ended

`schedule` panics when no task is ready to run, and `do_exit` when the processor comes
back to it.  Neither happens: task 0 makes no system calls, so it never waits, and a task
that has ended is on no run queue again.
-/

namespace MakarnaX

open Library Sched

variable {s s' : Sched} {x y : Task} {t code : Nat} {e : Label} {allowed : Sched → Op → Prop}

/-! ## No way back into `do_exit` -/

/-- Task 0 is ready to run.  A task that stands in `do_exit` is a zombie, and none of
its signal handlers was entered from there. -/
structure Task.Fits (t : Nat) (x : Task) : Prop where
  kernel : t = 0 → x.state = .running ∧ x.priority = 3
  dead : .dead ∈ x.kstack → x.state = .zombie
  saved : ∀ st ∈ x.sigstack, .dead ∉ st.frames

theorem Task.Fits.turn (h : x.Fits t) (T : Turn t x y) : y.Fits t where
  kernel ht := by
    obtain ⟨hst, hp⟩ := h.kernel ht
    obtain ⟨hst', hp'⟩ := T.kernel ht hst
    exact ⟨hst', hp'.trans hp⟩
  dead hd := by
    rcases T.dead hd with hz | hd | ⟨st, hst, hd⟩
    · exact hz
    · exact (T.zombie (h.dead hd)).1
    · exact absurd hd (h.saved st hst)
  saved st hst := by
    rcases T.saved st hst with hst | ⟨hk, hr⟩
    · exact h.saved st hst
    · exact fun hd => TaskState.noConfusion ((h.dead (hk ▸ hd)).symm.trans hr)

theorem fits_run (h : (kernel allowed).Reachable s) : Inv s ∧ ∀ t, (s.tasks t).Fits t := by
  refine kernel_invariant (J := fun s => ∀ t, (s.tasks t).Fits t) (fun pa t => ?_) (fun a b e I F hA he t => ?_) h
  · by_cases ht : t = 0 <;> constructor <;> simp [kernelTask, blankTask, ht]
  · rcases he.turn I (fun p hp => Admitted.park (hp ▸ hA)) t with T | ⟨ht, pa, hnew⟩
    · exact (F t).turn T
    · rw [hnew]
      exact ⟨fun h => absurd I.curr (ht ▸ h ▸ Nat.not_lt_zero _), fun h => absurd h List.not_mem_nil,
        fun _ h => absurd h List.not_mem_nil⟩

/-- Task `t` has ended with `code`, and another task runs. -/
structure Gone (t code : Nat) (s : Sched) : Prop where
  given : t < s.tasksNr
  state : (s.tasks t).state = .zombie
  exitCode : (s.tasks t).exitCode = code
  curr : s.curr ≠ t

theorem Gone.effect (I : Inv s) (hp : ∀ p, e = .park p → s.curr ≠ 0) (g : Gone t code s) (he : Effect s e s') :
    Gone t code s' := by
  obtain ⟨hn, hc⟩ := he.processor
  rcases he.turn I hp t with T | ⟨ht, -⟩
  · obtain ⟨hz, hx⟩ := T.zombie g.state
    refine ⟨Nat.lt_of_lt_of_le g.given hn, hz, hx.trans g.exitCode, fun ht => ?_⟩
    rcases hc with ⟨hc, -⟩ | ⟨hr, -⟩
    · exact g.curr (hc.symm.trans ht)
    · exact TaskState.noConfusion (g.state.symm.trans (ht ▸ hr))
  · exact absurd ht (Nat.ne_of_lt g.given)

end MakarnaX
