import MakarnaX.Fs.Vfs.Sections
import MakarnaX.Memory.Sections
import MakarnaX.Task.Reach

/-!
# The end of a trap

`trap_handler` ends with `ASSERT3(task_curr->n_cli, ==, 0)`: every `pushcli` on
the way has been followed by its `popif`.  The modules on the sections of the
memory code and of the file system say so of each function; here it is put
together.  The one function that may return inside of its section is `kmalloc`.

A call that has to wait stays inside of its section, while other tasks run.  The
sections of a task are then counted against its frames, and a task that is not in
the kernel has none.
-/

namespace MakarnaX

open Library

variable {s : Sched} {t : Nat}

/-- A task outside of the kernel is in no section, whatever the tasks have done. -/
theorem nCli_eq_zero {allowed : Sched → Op → Prop} (h : (kernel allowed).Reachable s) (ht : t < s.tasksNr)
    (hk : (s.tasks t).kstack = []) : (s.tasks t).nCli = 0 := by
  obtain ⟨I, S⟩ := steady_run h
  have hle := I.sections t ht
  rw [hk] at hle
  exact Int.le_antisymm hle (S.sections t)

end MakarnaX
