import Mathlib.Data.List.Rotate
import MakarnaX.Task.Reach

/-!
# Choosing the next task

`find_runnable_task` takes the first task of the highest queue that holds one and
puts it at the end of that queue.  Called as often as there are tasks in the queue,
it goes round once.
-/

namespace MakarnaX

open Library Function List Sched

variable {s : Sched} {i t : Nat} {ts : List Nat}

/-- The tasks of the queues 1 to 40 are ready to run, and in one queue once. -/
structure Sched.Queues (s : Sched) : Prop where
  node : ∀ i, 1 ≤ i → i ≤ 40 → ∀ t ∈ s.lists (.runnable i), (s.tasks t).listNode = some (.runnable i)
  running : ∀ i, 1 ≤ i → i ≤ 40 → ∀ t ∈ s.lists (.runnable i), (s.tasks t).state = .running
  nodup : ∀ i, 1 ≤ i → i ≤ 40 → (s.lists (.runnable i)).Nodup

/-- The queue `i` is the highest that holds a task. -/
structure Sched.Highest (s : Sched) (i : Nat) : Prop where
  pos : 1 ≤ i
  le : i ≤ 40
  nonempty : s.lists (.runnable i) ≠ []
  above : ∀ j, i < j → j ≤ 40 → s.lists (.runnable j) = []

theorem firstPriorityLevel_eq {lists : ListId → List Nat} {n : Nat} (h1 : 1 ≤ i) (hi : i ≤ n)
    (hne : lists (.runnable i) ≠ []) (habove : ∀ j, i < j → j ≤ n → lists (.runnable j) = []) :
    firstPriorityLevel lists n = some i := by
  induction n with
  | zero => omega
  | succ n ih =>
    rw [firstPriorityLevel]
    by_cases hin : i = n + 1
    · rw [if_pos (hin ▸ length_pos_of_ne_nil hne), hin]
    · have hempty : lists (.runnable (n + 1)) = [] := habove (n + 1) (by omega) (Nat.le_refl _)
      rw [hempty, if_neg (by simp)]
      exact ih (by omega) fun j hj hjn => habove j hj (by omega)

theorem exists_highest_upto (lists : ListId → List Nat) : ∀ n, (∃ j, 1 ≤ j ∧ j ≤ n ∧ lists (.runnable j) ≠ []) →
    ∃ i, 1 ≤ i ∧ i ≤ n ∧ lists (.runnable i) ≠ [] ∧ ∀ j, i < j → j ≤ n → lists (.runnable j) = [] := by
  intro n
  induction n with
  | zero =>
    rintro ⟨j, h1, h0, -⟩
    omega
  | succ n ih =>
    rintro ⟨j, h1, hj, hne⟩
    by_cases htop : lists (.runnable (n + 1)) = []
    · have hjn : j ≤ n := Nat.le_of_lt_succ (Nat.lt_of_le_of_ne hj fun h => hne (h ▸ htop))
      obtain ⟨i, h1, hi, hne, habove⟩ := ih ⟨j, h1, hjn, hne⟩
      refine ⟨i, h1, by omega, hne, fun k hk hkn => ?_⟩
      rcases Nat.lt_or_eq_of_le hkn with hlt | rfl
      · exact habove k hk (by omega)
      · exact htop
    · exact ⟨n + 1, by omega, Nat.le_refl _, htop, fun k hk hkn => by omega⟩

/-- One of the queues is the highest. -/
theorem Sched.exists_highest (h : ∃ j, 1 ≤ j ∧ j ≤ 40 ∧ s.lists (.runnable j) ≠ []) : ∃ i, s.Highest i := by
  obtain ⟨i, h1, hi, hne, habove⟩ := exists_highest_upto s.lists 40 h
  exact ⟨i, h1, hi, hne, habove⟩

/-! ## One call -/

theorem Sched.rotate_lists : (s.rotate i t).lists =
    update s.lists (.runnable i) ((s.lists (.runnable i)).erase t ++ [t]) := by
  simp [rotate]

theorem findRunnableTask_highest (Q : s.Queues) (H : s.Highest i) (hl : s.lists (.runnable i) = t :: ts) :
    findRunnableTask s = .ok (some t, s.rotate i t) := by
  have hf : firstPriorityLevel s.lists 40 = some i := firstPriorityLevel_eq H.pos H.le H.nonempty H.above
  have hmem : t ∈ s.lists (.runnable i) := hl ▸ mem_cons_self
  have hn := Q.node i H.pos H.le t hmem
  have hr := Q.running i H.pos H.le t hmem
  simp [findRunnableTask, hf, hl, popFront, eraseTask, hn, hr, ASSERT, check_run, check_map_apply, pushBack,
    modTask, Sched.rotate]

namespace Sched

theorem rotate_head (hl : s.lists (.runnable i) = t :: ts) :
    (s.rotate i t).lists = update s.lists (.runnable i) (ts ++ [t]) := by
  rw [rotate_lists, hl, erase_cons_head]

theorem rotate_node (hn : (s.tasks t).listNode = some (.runnable i)) (u : Nat) :
    (s.rotate i t).tasks u = { s.tasks u with counter := ((s.rotate i t).tasks u).counter } := by
  by_cases hu : u = t
  · subst hu
    rw [rotate_self, ← hn]
  · rw [rotate_ne hu]

theorem mem_rotate_head (hl : s.lists (.runnable i) = t :: ts) {j u : Nat} :
    u ∈ (s.rotate i t).lists (.runnable j) ↔ u ∈ s.lists (.runnable j) := by
  rw [rotate_head hl]
  by_cases hj : j = i
  · subst hj
    rw [update_self, hl, mem_append, mem_singleton, mem_cons, or_comm]
  · rw [update_of_ne fun h => hj (ListId.runnable.inj h)]

theorem Queues.rotate (Q : s.Queues) (H : s.Highest i) (hl : s.lists (.runnable i) = t :: ts) : (s.rotate i t).Queues := by
  have hn := Q.node i H.pos H.le t (hl ▸ mem_cons_self)
  refine ⟨fun j h1 h40 u hu => ?_, fun j h1 h40 u hu => ?_, fun j h1 h40 => ?_⟩
  · rw [rotate_node hn u]
    exact Q.node j h1 h40 u ((mem_rotate_head hl).mp hu)
  · rw [rotate_node hn u]
    exact Q.running j h1 h40 u ((mem_rotate_head hl).mp hu)
  · rw [rotate_head hl]
    by_cases hj : j = i
    · subst hj
      rw [update_self]
      have hnd := Q.nodup j h1 h40
      rw [hl] at hnd
      exact (perm_append_singleton t ts).nodup_iff.mpr hnd
    · rw [update_of_ne fun h => hj (ListId.runnable.inj h)]
      exact Q.nodup j h1 h40

theorem Highest.rotate (H : s.Highest i) (hl : s.lists (.runnable i) = t :: ts) : (s.rotate i t).Highest i where
  pos := H.pos
  le := H.le
  nonempty := ne_nil_of_mem ((mem_rotate_head hl).mpr (hl ▸ mem_cons_self))
  above j hj h40 := by
    rw [rotate_head hl, update_of_ne fun h => by have := ListId.runnable.inj h; omega]
    exact H.above j hj h40

/-- `s'` is `s` when the first `k` tasks of queue `i` have gone to its end, each
with a new time slice. -/
structure Rotated (s s' : Sched) (i k : Nat) : Prop where
  lists : s'.lists = update s.lists (.runnable i) ((s.lists (.runnable i)).rotate k)
  counter : ∀ t ∈ (s.lists (.runnable i)).take k, (s'.tasks t).counter = (s'.tasks t).priority
  same : ∀ t, s'.tasks t = { s.tasks t with counter := (s'.tasks t).counter }
  others : ∀ t ∉ (s.lists (.runnable i)).take k, s'.tasks t = s.tasks t

end Sched

/-! ## As many calls as there are tasks -/

/-- `find_runnable_task`, called `n` times. -/
def findTimes : Nat → SchedM (List (Option Nat))
  | 0 => return []
  | n + 1 => do
    let t ← findRunnableTask
    let ts ← findTimes n
    return t :: ts

theorem findTimes_rotated : ∀ (k : Nat) {s : Sched}, s.Queues → s.Highest i → k ≤ (s.lists (.runnable i)).length →
    ∃ s', findTimes k s = .ok (((s.lists (.runnable i)).take k).map some, s') ∧ s.Rotated s' i k := by
  intro k
  induction k with
  | zero =>
    intro s Q H _
    refine ⟨s, by simp [findTimes], ?_, by simp, fun _ => rfl, fun _ _ => rfl⟩
    rw [rotate_zero, update_eq_self]
  | succ k ih =>
    intro s Q H hk
    obtain ⟨t, ts, hl⟩ := exists_cons_of_ne_nil H.nonempty
    have hn := Q.node i H.pos H.le t (hl ▸ mem_cons_self)
    have hq : (s.rotate i t).lists (.runnable i) = ts ++ [t] := by rw [rotate_head hl, update_self]
    have hkts : k ≤ ts.length := by
      rw [hl, length_cons] at hk
      omega
    have htake : (ts ++ [t]).take k = ts.take k := take_append_of_le_length hkts
    obtain ⟨s', hrun, R⟩ := ih (Q.rotate H hl) (H.rotate hl) (by rw [hq, length_append]; omega)
    rw [hq, htake] at hrun
    have hts : t ∉ ts.take k := fun h => by
      have hnd := Q.nodup i H.pos H.le
      rw [hl] at hnd
      exact (nodup_cons.mp hnd).1 (mem_of_mem_take h)
    refine ⟨s', ?_, ?_, fun u hu => ?_, fun u => ?_, fun u hu => ?_⟩
    · rw [findTimes, bind_run (findRunnableTask_highest Q H hl), bind_run hrun, hl]
      rfl
    · rw [R.lists, hq, rotate_head hl, update_idem, hl, rotate_cons_succ]
    · rw [hl, take_succ_cons, mem_cons] at hu
      rcases hu with rfl | hu
      · rw [R.others u (by rw [hq, htake]; exact hts), rotate_self]
      · exact R.counter u (by rw [hq, htake]; exact hu)
    · rw [R.same u, rotate_node hn u]
    · rw [hl, take_succ_cons, mem_cons, not_or] at hu
      rw [R.others u (by rw [hq, htake]; exact hu.2), rotate_ne hu.1]

/-- `find_runnable_task` goes round the highest queue: each call takes its first
task, and as many calls as it has tasks leave every queue as it was. -/
theorem find_runnable_task_round_robin (Q : s.Queues) (hne : ∃ j, 1 ≤ j ∧ j ≤ 40 ∧ s.lists (.runnable j) ≠ []) :
    ∃ i, s.Highest i ∧
      (∃ t s', (s.lists (.runnable i)).head? = some t ∧ findRunnableTask s = .ok (some t, s')) ∧
      (∀ k ≤ (s.lists (.runnable i)).length, ∃ s',
        findTimes k s = .ok (((s.lists (.runnable i)).take k).map some, s') ∧ s.Rotated s' i k) ∧
      ∃ s', findTimes (s.lists (.runnable i)).length s = .ok ((s.lists (.runnable i)).map some, s') ∧
        s'.lists = s.lists ∧ ∀ t ∈ s.lists (.runnable i), (s'.tasks t).counter = (s'.tasks t).priority := by
  obtain ⟨i, H⟩ := exists_highest hne
  obtain ⟨t, ts, hl⟩ := exists_cons_of_ne_nil H.nonempty
  refine ⟨i, H, ⟨t, _, by rw [hl]; rfl, findRunnableTask_highest Q H hl⟩, fun k hk => findTimes_rotated k Q H hk, ?_⟩
  obtain ⟨s', hrun, R⟩ := findTimes_rotated _ Q H (Nat.le_refl _)
  rw [take_length] at hrun
  refine ⟨s', hrun, ?_, fun t ht => R.counter t (by rwa [take_length])⟩
  rw [R.lists, rotate_length, update_eq_self]

/-- In a run of the kernel the tasks of the queues are ready to run. -/
theorem Inv.queues (I : Inv s) : s.Queues := by
  have hnode : ∀ i t, t ∈ s.lists (.runnable i) → (s.tasks t).listNode = some (.runnable i) := fun i t ht =>
    (I.placed.mem t (.runnable i)).mp ht
  refine ⟨fun i _ _ t ht => hnode i t ht, fun i _ _ t ht => ?_, fun i _ _ => I.placed.nodup (.runnable i)⟩
  have hn := hnode i t ht
  have hlegal := I.legal t (I.toAgree.lt_of_listNode hn)
  unfold Task.Legal at hlegal
  cases hs : (s.tasks t).state with
  | running => rfl
  | notRunnable | stopped | zombie | uninterruptible | interruptible => simp [hs, hn] at hlegal

/-- Right after the boot. -/
theorem find_runnable_task_round_robin_boot : ∃ i s', (boot 0x1000 0x2000).Highest i ∧
    findTimes ((boot 0x1000 0x2000).lists (.runnable i)).length (boot 0x1000 0x2000) =
      .ok (((boot 0x1000 0x2000).lists (.runnable i)).map some, s') ∧
    s'.lists = (boot 0x1000 0x2000).lists := by
  have I := (steady_run (boot_reachable (fun _ _ => True) 0x1000 0x2000)).1
  have hq : (boot 0x1000 0x2000).lists (.runnable 3) = [0, 1] := by decide +kernel
  obtain ⟨i, H, -, -, s', hrun, hlists, -⟩ :=
    find_runnable_task_round_robin I.queues ⟨3, by decide, by decide, by simp [hq]⟩
  exact ⟨i, s', H, hrun, hlists⟩

end MakarnaX
