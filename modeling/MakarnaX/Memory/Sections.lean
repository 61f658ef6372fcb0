import MakarnaX.Library.Sections
import MakarnaX.Memory.Kmalloc.Model
import MakarnaX.Memory.Frames.Spec

/-!
# `pushcli` and `popif` in the memory code

`n_cli` counts the calls of `pushcli` that wait for their `popif`.  Every function
on frames and on address spaces returns with the `n_cli` it was called with,
whether it found memory or not.  So does `kfree`.  `kmalloc` does unless it has to
ask for a page and gets none: it returns inside of its own section then, with
`kmalloc_lock` taken.
-/

namespace MakarnaX

open Library

/-! ## Frames -/

def physLevels : Levels Phys Empty where
  level s := s.cpu.nCli
  held _ _ := False

def vmLevels : Levels Vm Empty where
  level s := s.phys.cpu.nCli
  held _ _ := False

/-- The function returns with the `n_cli` it was called with. -/
abbrev PhysM.Balanced {α : Type} (x : PhysM α) : Prop := Leaves (Leaving physLevels 0 []) x

/-- The function returns with the `n_cli` it was called with. -/
abbrev VmM.Balanced {α : Type} (x : VmM α) : Prop := Leaves (Leaving vmLevels 0 []) x

theorem popif_nCli {c c' : Cpu} (h : c.popif = .ok c') : c'.nCli + 1 = c.nCli := by
  unfold Cpu.popif at h
  split at h
  · cases h
  · cases h
    exact Int.sub_add_cancel _ _

namespace Phys

theorem modify_balanced {g : Phys → Phys} (h : ∀ s, (g s).cpu = s.cpu) : PhysM.Balanced (modify g) :=
  .modify fun s => .of_eq (congrArg Cpu.nCli (h s)) nofun

theorem pushcli_entering : Leaves (Entering physLevels none) Phys.pushcli :=
  .modify fun _ => ⟨rfl, nofun⟩

theorem popif_leaving : Leaves (Leaving physLevels 1 []) Phys.popif := by
  intro s a s' h
  obtain ⟨t, u, h1, h2⟩ := bind_apply_ok.mp h
  cases h1
  obtain ⟨c, t, h3, h4⟩ := bind_apply_ok.mp h2
  obtain ⟨hc, rfl⟩ := lift_apply_ok.mp h3
  cases h4
  exact ⟨popif_nCli hc, nofun⟩

end Phys

open Phys (modify_balanced pushcli_entering popif_leaving)

variable {p size : Nat} {src : Option TmpPage}

theorem insert_balanced : PhysM.Balanced (FreePageList.insert p) := by
  refine .guard <| .seq (modify_balanced fun _ => rfl) <| .read fun s => ?_
  dsimp only
  split
  · exact modify_balanced fun _ => rfl
  · exact .throw _
  · exact modify_balanced fun _ => rfl

theorem getFirst_balanced : PhysM.Balanced FreePageList.getFirst := by
  intro s a s' h
  obtain ⟨-, -, rfl⟩ | ⟨p, -, -, rfl⟩ := FreePageList.getFirst_ok h
  · exact .refl _
  · exact .of_eq rfl nofun

theorem pageAlloc_balanced : PhysM.Balanced pageAlloc := by
  refine .seq (.bind .get fun _ => .lift _) <| .bind getFirst_balanced fun r => ?_
  split
  · exact .pure _
  · exact .read fun _ => .guard <| .seq (modify_balanced fun _ => rfl) <| .pure _

theorem pageFree_balanced : PhysM.Balanced (pageFree p) := by
  refine .seq (.bind .get fun _ => .lift _) <| .read fun _ => .guard <|
    .guard <| .guard <| ?_
  split
  · exact .seq (modify_balanced fun _ => rfl) <| insert_balanced
  · exact .pure _

theorem refcountInc_balanced : PhysM.Balanced (refcountInc p) := by
  refine .read fun _ => .guard <| ?_
  dsimp only
  split
  · exact .seq (.throw _) <| .seq (modify_balanced fun _ => rfl) <| .pure _
  · exact .seq (modify_balanced fun _ => rfl) <| .pure _

theorem refcountDec_balanced : PhysM.Balanced (refcountDec p) := by
  refine .enter pushcli_entering fun _ => .keep .get fun _ => .keep (.lift _) fun _ => .keep (.lift _) fun _ =>
    .keep (modify_balanced fun _ => rfl) fun _ => .keep .get fun _ => .keep (.lift _) fun _ => ?_
  dsimp only
  split
  · exact .keep pageFree_balanced fun _ => .leave popif_leaving fun _ => .pure _
  · exact .leave popif_leaving fun _ => .pure _

theorem pageDecRefCount_balanced {pa : Nat} : PhysM.Balanced (pageDecRefCount pa) :=
  .seq (.bind .get fun _ => .lift _) <| .guard <| refcountDec_balanced

/-! ## Address spaces -/

theorem onPhys_leaves {α : Type} {R : Phys → Phys → Prop} {Q : Vm → Vm → Prop} {x : PhysM α} (hx : Leaves R x)
    (h : ∀ s p, R s.phys p → Q s { s with phys := p }) : Leaves Q (onPhys x) := by
  intro s a s' hr
  obtain ⟨p, hp, rfl⟩ := onPhys_ok.mp hr
  exact h s p (hx _ _ _ hp)

theorem onPhys_balanced {α : Type} {x : PhysM α} (hx : PhysM.Balanced x) : VmM.Balanced (onPhys x) :=
  onPhys_leaves hx fun _ _ h => ⟨h.level, nofun⟩

namespace Vm

theorem modify_balanced {g : Vm → Vm} (h : ∀ s, (g s).phys = s.phys) : VmM.Balanced (modify g) :=
  .modify fun s => .of_eq (congrArg (fun p : Phys => p.cpu.nCli) (h s)) nofun

theorem pushcli_entering : Leaves (Entering vmLevels none) Vm.pushcli :=
  onPhys_leaves Phys.pushcli_entering fun _ _ h => ⟨h.level, nofun⟩

theorem popif_leaving : Leaves (Leaving vmLevels 1 []) Vm.popif :=
  onPhys_leaves Phys.popif_leaving fun _ _ h => ⟨h.level, nofun⟩

theorem assertIntDisable_balanced : VmM.Balanced Vm.assertIntDisable :=
  onPhys_balanced (.read fun _ => .lift _)

end Vm

section Recursion

open Vm (modify_balanced pushcli_entering popif_leaving assertIntDisable_balanced)

variable {d p va i : Nat} {perm : Perm}

theorem count_balanced {f : Nat → Nat} : VmM.Balanced (count d va f) := by
  unfold count
  split
  · exact modify_balanced fun _ => rfl
  · split
    · exact modify_balanced fun _ => rfl
    · exact .lift _

theorem pageRemove_balanced : VmM.Balanced (pageRemove d va) := by
  refine .enter pushcli_entering fun _ => .keep .get fun s => ?_
  split
  · exact .leave popif_leaving fun _ => .pure _
  · split
    · exact .keep (onPhys_balanced pageDecRefCount_balanced) fun _ => .keep (modify_balanced fun _ => rfl) fun _ =>
        .keep count_balanced fun _ => .leave popif_leaving fun _ => .pure _
    · exact .leave popif_leaving fun _ => .pure _

theorem pageGetCWith_balanced {pdeAlloc : Nat → Nat → VmM Int} (h : ∀ d i, VmM.Balanced (pdeAlloc d i)) :
    VmM.Balanced (pageGetCWith pdeAlloc d va) := by
  refine .read fun s => ?_
  dsimp only
  split
  · refine .bind (h _ _) fun r => ?_
    split
    · exact .pure _
    · exact .read fun _ => .guard <| .pure _
  · exact .read fun _ => .guard <| .pure _

theorem pageInsertWith_balanced {pdeAlloc : Nat → Nat → VmM Int} (h : ∀ d i, VmM.Balanced (pdeAlloc d i)) :
    VmM.Balanced (pageInsertWith pdeAlloc d p va perm) := by
  refine .enter pushcli_entering fun _ => .keep (pageGetCWith_balanced h) fun r => ?_
  split
  · exact .leave popif_leaving fun _ => .pure _
  · refine .keep .get fun _ => ?_
    have rest : ∀ pte : Nat × Nat, Leaves (Leaving vmLevels 1 []) (do
        let rc ← onPhys (refcountInc p)
        modify fun s => s.setPte pte (.ofAddr (p * 0x1000) perm)
        count d va (add32 · 1)
        Vm.popif
        return rc : VmM Int) := fun _ =>
      .keep (onPhys_balanced refcountInc_balanced) fun _ => .keep (modify_balanced fun _ => rfl) fun _ =>
        .keep count_balanced fun _ => .leave popif_leaving fun _ => .pure _
    dsimp only
    split
    · exact .keep pageRemove_balanced fun _ => .keep (.lift _) fun _ => rest _
    · exact rest _

theorem tmpPageGet_balanced : VmM.Balanced tmpPageGet := by
  refine .seq assertIntDisable_balanced <| .read fun s => ?_
  split
  · exact .seq (modify_balanced fun _ => rfl) <| .pure _
  · exact .pure _

theorem tmpPagePut_balanced : VmM.Balanced (tmpPagePut va) :=
  .seq assertIntDisable_balanced <| .read fun _ => .guard <| modify_balanced fun _ => rfl

theorem tmpPageAllocMapWith_balanced {pageInsert : Nat → Nat → Nat → Perm → VmM Int}
    (h : ∀ d p va perm, VmM.Balanced (pageInsert d p va perm)) :
    VmM.Balanced (tmpPageAllocMapWith pageInsert perm) := by
  refine .seq assertIntDisable_balanced <| .bind tmpPageGet_balanced fun va => ?_
  split
  · exact .pure _
  · refine .bind (onPhys_balanced pageAlloc_balanced) fun r => ?_
    split
    · exact .seq tmpPagePut_balanced <| .pure _
    · refine .bind (h _ _ _ _) fun err => ?_
      split
      · exact .seq (onPhys_balanced pageFree_balanced) <| .seq tmpPagePut_balanced <| .pure _
      · exact .pure _

theorem pdeAllocWith_balanced {tmpPageAllocMap : Perm → VmM (Option (Nat × Nat))}
    (h : ∀ perm, VmM.Balanced (tmpPageAllocMap perm)) : VmM.Balanced (pdeAllocWith tmpPageAllocMap d i) := by
  refine .bind (h _) fun r => ?_
  split
  · exact .pure _
  · exact .seq (modify_balanced fun _ => rfl) <| .enter pushcli_entering fun _ =>
      .keep (modify_balanced fun _ => rfl) fun _ => .leave popif_leaving fun _ => .pure _

theorem pageInsertDepth_balanced (depth : Nat) : VmM.Balanced (pageInsertDepth depth d p va perm) := by
  induction depth generalizing d p va perm with
  | zero => exact .throw _
  | succ depth ih =>
    exact pageInsertWith_balanced fun _ _ => pdeAllocWith_balanced fun _ => tmpPageAllocMapWith_balanced fun _ _ _ _ => ih

theorem tmpPageAllocMap_balanced : VmM.Balanced (tmpPageAllocMap perm) :=
  tmpPageAllocMapWith_balanced fun _ _ _ _ => pageInsertDepth_balanced 2

theorem pdeAlloc_balanced : VmM.Balanced (pdeAlloc d i) := pdeAllocWith_balanced fun _ => tmpPageAllocMap_balanced

theorem pageInsert_balanced : VmM.Balanced (pageInsert d p va perm) := pageInsertWith_balanced fun _ _ => pdeAlloc_balanced

theorem pageAllocInsert_balanced : VmM.Balanced (pageAllocInsert d va perm) := by
  refine .enter pushcli_entering fun _ => .keep (onPhys_balanced pageAlloc_balanced) fun r => ?_
  split
  · exact .leave popif_leaving fun _ => .pure _
  · refine .keep pageInsert_balanced fun r => ?_
    dsimp only
    split
    · exact .keep (onPhys_balanced pageFree_balanced) fun _ => .leave popif_leaving fun _ => .pure _
    · exact .leave popif_leaving fun _ => .pure _

/-! ### Ranges of pages -/

end Recursion

/-! ## `kmalloc` and `kfree` -/

namespace Kmalloc

open FreeBlock

/-- What is between `spinlock_acquire` and `spinlock_release` touches neither. -/
structure Quiet (s s' : State) : Prop where
  cpu : s'.cpu = s.cpu
  locked : s'.locked = s.locked

variable {L : Layout} {s s' s1 : State} {b k : Nat}

theorem Quiet.refl (s : State) : Quiet s s := ⟨rfl, rfl⟩

theorem Quiet.trans (h : Quiet s s1) (h' : Quiet s1 s') : Quiet s s' :=
  ⟨h'.cpu.trans h.cpu, h'.locked.trans h.locked⟩

/-- The bytes are written. -/
theorem Quiet.mem (m : Mem) : Quiet s { s with mem := m } := ⟨rfl, rfl⟩

theorem countAdd_quiet {i : Int} : Returns (Quiet s) (countAdd s b k i) := .skip fun _ => .pure ⟨rfl, rfl⟩

theorem countUsedAdd_quiet {i : Int} : Returns (Quiet s) (countUsedAdd s b k i) := .skip fun _ => .pure ⟨rfl, rfl⟩

theorem setUsed_quiet : Returns (Quiet s) (FreeBlock.setUsed s b) :=
  .skip fun _ => countUsedAdd_quiet.mono fun _ => (Quiet.mem _).trans

theorem setFree_quiet : Returns (Quiet s) (FreeBlock.setFree s b) :=
  .skip fun _ => .bind countUsedAdd_quiet fun _ h => .pure (((Quiet.mem _).trans h).trans (Quiet.mem _))

theorem split_quiet : Returns (fun r => Quiet s r.2) (split L s b) :=
  .skip fun _ => .skip fun _ => .skip fun _ => .skip fun _ => .bind countAdd_quiet fun _ h => .bind countAdd_quiet fun _ h' =>
    .skip fun _ => .skip fun _ => .pure ⟨h'.cpu.trans h.cpu, h'.locked.trans h.locked⟩

theorem merge_quiet : Returns (fun r => Quiet s r.2) (merge s b) :=
  .skip fun _ => .skip fun _ => .skip fun _ => .skip fun _ => .skip fun _ => .skip fun _ =>
    .bind countAdd_quiet fun _ h => .bind countAdd_quiet fun _ h' =>
      .skip fun _ => .pure ⟨h'.cpu.trans h.cpu, h'.locked.trans h.locked⟩

theorem init_quiet : Returns (Quiet s) (FreeBlock.init L s b) :=
  .skip fun _ => .skip fun _ => .bind split_quiet fun _ h => .skip fun _ => .pure ⟨h.cpu, h.locked⟩

theorem splitDown_quiet {u i : Nat} : Returns (fun r => Quiet s r.2) (splitDown L u i b s) := by
  induction i generalizing b s with
  | zero => exact .pure (.refl s)
  | succ i ih =>
    unfold splitDown
    split
    · exact .skip fun _ => .bind split_quiet fun _ h => ih.mono fun _ => h.trans
    · exact .pure (.refl s)

theorem mergeUp_quiet {fuel : Nat} : Returns (fun r => Quiet s r.2) (mergeUp fuel s b) := by
  induction fuel generalizing b s with
  | zero => exact nofun
  | succ fuel ih =>
    unfold mergeUp
    split
    · exact .bind merge_quiet fun _ h => ih.mono fun _ => h.trans
    · exact .pure (.refl s)

theorem putBack_quiet : Returns (Quiet s) (putBack L s b) := by
  refine .skip fun _ => ?_
  split
  · exact .skip fun _ => .pure (Quiet.mem _)
  · exact .skip fun _ => .skip fun _ => .skip fun _ => .pure ⟨rfl, rfl⟩

theorem search_quiet {is : List Nat} {u : Option Nat} :
    Returns (fun r => Quiet s r.2) (search L size is u s) := by
  induction is generalizing u with
  | nil => exact .pure (.refl s)
  | cons i is ih =>
    unfold search
    dsimp only
    split
    · split
      · exact .skip fun _ => .skip fun _ => .pure (Quiet.mem _)
      · exact ih
    · exact ih

theorem tmpPageAllocMap_quiet (p : TmpPage) : Quiet s (tmpPageAllocMap s p) := by
  unfold tmpPageAllocMap
  exact ⟨rfl, rfl⟩

theorem newPage_quiet : Returns (fun r => Quiet s r.2 ∧ (r.1 = none ↔ src = none)) (newPage L src s) := by
  refine .skip fun _ => .skip fun _ => ?_
  cases src with
  | none => exact .pure ⟨.refl s, by simp⟩
  | some p =>
    exact .bind init_quiet fun t h => .skip fun _ => .pure ⟨(tmpPageAllocMap_quiet p).trans (h.trans (.mem _)), by simp⟩

/-- A free list has a block for a request of this size. -/
def HasBlock (L : Layout) (s : State) (size : Nat) : Prop :=
  ∃ i ∈ List.range (LAST_SIZENO + 1), size ≤ sizesSize i - 4 ∧ 0 < List2.size s.mem (L.list i)

/-- The search ends behind the last class if it has found no block. -/
theorem search_i {is : List Nat} {u : Option Nat} (his : ∀ i ∈ is, i < LAST_SIZENO + 1) :
    Returns (fun r => r.1.i = LAST_SIZENO + 1 ↔ ¬ ∃ i ∈ is, size ≤ sizesSize i - 4 ∧ 0 < List2.size s.mem (L.list i))
      (search L size is u s) := by
  induction is generalizing u with
  | nil => exact .pure (by simp)
  | cons i is ih =>
    have ih := @ih
    have hi := his i List.mem_cons_self
    have his' : ∀ j ∈ is, j < LAST_SIZENO + 1 := fun j hj => his j (List.mem_cons_of_mem i hj)
    unfold search
    dsimp only
    split
    · split
      · refine .skip fun _ => .skip fun _ => .pure ?_
        simp_all [Nat.ne_of_lt]
      · refine (ih his').mono fun r hr => ?_
        simp_all
    · refine (ih his').mono fun r hr => ?_
      simp_all

/-- `spinlock_release` after a quiet section that `spinlock_acquire` opened. -/
theorem release_balanced {t : State} {r : Cpu × Nat} (hq : Quiet { s with cpu := s.cpu.pushcli, locked := 1 } t)
    (h : spinlockRelease t.cpu t.locked = .ok r) : r.1.nCli = s.cpu.nCli ∧ r.2 = 0 := by
  obtain ⟨c, hc, h⟩ := bind_ok h
  cases h
  have := popif_nCli hc
  rw [hq.cpu] at this
  exact ⟨(Int.add_left_inj 1).mp this, rfl⟩

/-- `kmalloc` needs a page and there is none. -/
def NoPage (L : Layout) (src : Option TmpPage) (s : State) (size : Nat) : Prop :=
  size ≤ 2048 - 4 ∧ ¬ HasBlock L s size ∧ src = none

theorem finish_balanced {t : State} {u i : Nat} (hq : Quiet { s with cpu := s.cpu.pushcli, locked := 1 } t) :
    Returns (fun r => r.2.cpu.nCli = s.cpu.nCli ∧ r.2.locked = 0) (finish L u i b t) := by
  refine .skip fun _ => .skip fun _ => .bind splitDown_quiet fun r hr => .bind setUsed_quiet fun t1 h1 => ?_
  refine .bind (fun _ h => release_balanced (hq.trans (hr.trans h1)) h) fun _ h => .pure h

/-- `kmalloc` leaves its section unless it needs a page and there is none. -/
theorem kmalloc_level :
    Returns (fun r => (NoPage L src s size → r.2.cpu.nCli = s.cpu.nCli + 1 ∧ r.2.locked = 1) ∧
      (¬ NoPage L src s size → r.2.cpu.nCli = s.cpu.nCli ∧ (r.2.locked = s.locked ∨ r.2.locked = 0)))
      (kmalloc L src s size) := by
  unfold kmalloc
  split
  · next hsize => exact .pure ⟨fun h => absurd h.1 (Nat.not_le.mpr hsize), fun _ => ⟨rfl, .inl rfl⟩⟩
  · next hsize =>
    have ends {r : Nat × State} (hn : ¬ NoPage L src s size)
        (h : r.2.cpu.nCli = s.cpu.nCli ∧ r.2.locked = 0) :
        (NoPage L src s size → r.2.cpu.nCli = s.cpu.nCli + 1 ∧ r.2.locked = 1) ∧
        (¬ NoPage L src s size → r.2.cpu.nCli = s.cpu.nCli ∧ (r.2.locked = s.locked ∨ r.2.locked = 0)) :=
      ⟨fun h => absurd h hn, fun _ => ⟨h.1, .inr h.2⟩⟩
    refine .bind (search_quiet.and (search_i fun i hi => List.mem_range.mp hi)) ?_
    rintro ⟨r, t⟩ ⟨hq, hi⟩
    dsimp only at hq hi ⊢
    split
    · rintro _ ⟨⟩
    · split
      · next h7 =>
        have hnb : ¬ HasBlock L s size := hi.mp h7
        refine .bind newPage_quiet ?_
        rintro ⟨p, t'⟩ hp
        dsimp only at hp ⊢
        cases hb : p with
        | none =>
          have hno : NoPage L src s size := ⟨Nat.not_lt.mp hsize, hnb, hp.2.mp hb⟩
          refine .pure ⟨fun _ => ⟨?_, ?_⟩, fun h => absurd hno h⟩
          · rw [hp.1.cpu, hq.cpu]
            rfl
          · rw [hp.1.locked, hq.locked]
        | some b =>
          refine (finish_balanced (hq.trans hp.1)).mono fun _ => ends fun h => ?_
          exact absurd (hp.2.mpr h.2.2) (by simp [hb])
      · next h7 =>
        exact (finish_balanced hq).mono fun _ => ends fun h => h7 (hi.mpr h.2.1)

theorem kfree_balanced {v : Nat} : Returns (fun t => t.cpu.nCli = s.cpu.nCli ∧ t.locked = 0) (kfree L s v) :=
  .skip fun _ => .bind setFree_quiet fun _ h1 => .bind mergeUp_quiet fun _ h2 => .bind putBack_quiet fun _ h3 =>
    .bind (fun _ h => release_balanced (h1.trans (h2.trans h3)) h) fun _ h => .pure h

end Kmalloc

end MakarnaX
