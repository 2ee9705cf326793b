import ToastyUnix.Sched.Frame
import ToastyUnix.Sched.Table

/-!
# Every ready task gets the processor

Switches go through the task table in cyclic order. A ready task is therefore resumed before the
processor has been given up 16 times, whatever the other tasks create, call and end in between
(`ready_task_runs`).
-/

namespace ToastyUnix.Sched.Kernel

open List
open Vfs (TaskId taskMax)

variable {k : Kernel} {num : TaskId → ℕ} {count d : ℕ} {c i : TaskId}

/-- The current task gives up the processor: a tick with preemption on, or an exit. -/
def TableOp.isTurn : TableOp → Bool
  | .tick depth _ => depth = 0
  | .exit .. => true
  | .create .. | .files _ => false

theorem slotAfter_zero (i : TaskId) : slotAfter i 0 = i := Fin.ext (Nat.mod_eq_of_lt i.isLt)

theorem pos_of_slotAfter_ne (h : c ≠ slotAfter c d) : 0 < d := by
  apply Nat.pos_of_ne_zero
  intro hd
  apply h
  rw [hd, slotAfter_zero]

theorem slotAfter_slotAfter (i : TaskId) (e d : ℕ) :
    slotAfter (slotAfter i e) d = slotAfter i (e + d) :=
  Fin.ext (by simp [slotAfter, Nat.add_assoc])

theorem exists_slotAfter (c i : TaskId) : ∃ d < taskMax, i = slotAfter c d := by
  refine ⟨(i + (taskMax - c)) % taskMax, Nat.mod_lt _ (by decide), Fin.ext ?_⟩
  have hround : (c : ℕ) + (i + (taskMax - c)) = i + taskMax := by omega
  simp [slotAfter, hround, Nat.mod_eq_of_lt i.isLt]

/-- The search for the next task does not end at its start while another task is live. -/
theorem taskNext_ne (hlive : (k.tasks i).Live) (hne : c ≠ i) : k.taskNext c ≠ c := by
  obtain ⟨e, hlt, rfl⟩ := exists_slotAfter c i
  have hpos : 0 < e := pos_of_slotAfter_ne hne
  intro hself
  rcases k.taskNext_cases c with ⟨d, hd, hle, hnext, -, hfirst⟩ | ⟨-, hnone⟩
  · have hround : (c + d) % taskMax = c := congrArg Fin.val (hnext.symm.trans hself)
    have hwhole : e < d := by
      unfold taskMax at *
      omega
    exact hfirst e hpos hwhole hlive
  · exact hnone e hpos hlt.le hlive

section Step

variable (h : Table k num count) (hrun : k.halted = false) (hlive : (k.tasks i).Live)
include h hrun hlive

/-- While a task waits, the machine does not halt, and a turn leads to another task. -/
theorem tableStep_of_live (hne : k.current ≠ i) (op : TableOp) :
    (k.tableStep op).halted = false ∧ ((k.tableStep op).tasks i).Live ∧
      (op.isTurn = true → (k.tableStep op).current ≠ k.current) := by
  have hgo : ¬ k.halted = true := by simp [hrun]
  cases op with
  | create entry name cr3 argv kstack mm =>
    let k₁ := { k with mm := mm }
    have h₁ : Table k₁ num count := ⟨h.running, h.nextPid, h.pid, h.inj, h.closed⟩
    obtain ⟨result, k', hcreate⟩ : ∃ result k',
      k₁.taskCreateUser entry name cr3 argv kstack = (result, k') := ⟨_, _, rfl⟩
    have hstep : k.tableStep (.create entry name cr3 argv kstack mm) = k' :=
      (if_neg hgo).trans (congrArg Prod.snd hcreate)
    obtain ⟨-, hhalted, -⟩ := h₁.taskCreateUser entry name cr3 argv kstack hcreate
    obtain ⟨hkeeps, -⟩ := keepsTask_taskCreateUser (k := k₁) hlive hcreate
    rw [hstep]
    exact ⟨hhalted.trans hrun, hkeeps.live hlive, nofun⟩
  | tick depth frameRsp =>
    let k₁ := { k with preemptDepth := depth }
    have hstep : k.tableStep (.tick depth frameRsp) = k₁.schedTick frameRsp := if_neg hgo
    have hkeeps : KeepsTask i k₁ (k₁.saveRsp frameRsp) := keepsTask_updateTask hne _
    have hnext := taskNext_ne (hkeeps.live hlive) hne
    rw [hstep]
    refine ⟨?_, (k₁.keepsTask_schedTick frameRsp).live hlive, fun hturn ↦ ?_⟩
    · rw [schedTick_eq]
      split_ifs <;> exact hrun
    · obtain rfl : depth = 0 := of_decide_eq_true hturn
      rw [schedTick_eq, if_neg (by simp [k₁, h.current]), if_neg (Nat.lt_irrefl 0), if_neg hnext]
      exact hnext
  | exit status early late =>
    have hstep : k.tableStep (.exit status early late) = k.taskExit status :=
      (if_neg hgo).trans (taskExitTicks_eq k status early late)
    have hkeeps : KeepsTask i k (k.markZombie status) := keepsTask_updateTask hne _
    have hnext : (k.markZombie status).closeFiles.taskNext k.current ≠ k.current :=
      taskNext_ne (hkeeps.live hlive) hne
    have hexit : k.taskExit status = (k.markZombie status).closeFiles.switchTo _ := if_neg hnext
    refine ⟨?_, hstep ▸ (keepsTask_taskExit hne status).live hlive, fun _ ↦ ?_⟩
    · rw [hstep, hexit]
      exact hrun
    · rw [hstep, hexit]
      exact hnext
  | files op =>
    have hstep : k.tableStep (.files op) = { k with vfs := Vfs.System.call k.fs op } := if_neg hgo
    rw [hstep]
    exact ⟨hrun, hlive, nofun⟩

/-- A turn brings a waiting task closer, and other steps leave it where it is. -/
theorem distance_tableStep (hne : k.current ≠ i) (hi : i = slotAfter k.current d) (op : TableOp) :
    ∃ d', i = slotAfter (k.tableStep op).current d' ∧ d' + op.isTurn.toNat ≤ d := by
  obtain ⟨hrun', -, hturn⟩ := tableStep_of_live h hrun hlive hne op
  rcases (table_tableStep h op hrun').2 with hsame | ⟨e, hpos, -, hcurrent, -, hfirst⟩
  · have hquiet : op.isTurn = false := by simpa using fun hop ↦ hturn hop hsame
    exact ⟨d, hsame ▸ hi, by simp [hquiet]⟩
  · have hd : 0 < d := pos_of_slotAfter_ne (hi ▸ hne)
    have hle : e ≤ d := by
      by_contra hlt
      exact hfirst d hd (by omega) (hi ▸ h.ready_of_live hlive hne.symm)
    have hone := op.isTurn.toNat_le
    refine ⟨d - e, ?_, by omega⟩
    calc
      i = slotAfter k.current (e + (d - e)) := by rw [hi, Nat.add_sub_cancel' hle]
      _ = slotAfter (k.tableStep op).current (d - e) := by rw [hcurrent, slotAfter_slotAfter]

/-- The distance to a waiting task bounds the turns before its own. -/
theorem current_of_turns (hi : i = slotAfter k.current d) {ops : List TableOp}
    (hturns : d ≤ ops.countP TableOp.isTurn) :
    ∃ first, first <+: ops ∧ (k.tableRun first).current = i := by
  induction ops generalizing k num count d with
  | nil =>
    obtain rfl : d = 0 := by simpa using hturns
    exact ⟨[], nil_prefix, (hi.trans (slotAfter_zero _)).symm⟩
  | cons op ops ih =>
    by_cases hne : k.current = i
    · exact ⟨[], nil_prefix, hne⟩
    obtain ⟨hrun', hlive', -⟩ := tableStep_of_live h hrun hlive hne op
    obtain ⟨num', h'⟩ := (table_tableStep h op hrun').1
    obtain ⟨d', hi', hd'⟩ := distance_tableStep h hrun hlive hne hi op
    have hturns' : d' ≤ ops.countP TableOp.isTurn := by
      rw [countP_cons] at hturns
      cases hop : op.isTurn <;> simp [hop] at hturns hd' <;> omega
    obtain ⟨first, hfirst, hcurrent⟩ := ih h' hrun' hlive' hi' hturns'
    exact ⟨op :: first, cons_prefix_cons.mpr ⟨rfl, hfirst⟩, hcurrent⟩

end Step

/-- A task that is ready at any time in any run gets the processor before 16 more turns are over. -/
theorem ready_task_runs (mm : Mm.State) (vfs : Vfs.State) (kstack : ℕ) (ops later : List TableOp)
    (hrun : ((schedInit mm vfs kstack).tableRun ops).halted = false)
    (hready : (((schedInit mm vfs kstack).tableRun ops).tasks i).state = .ready)
    (hturns : taskMax ≤ later.countP TableOp.isTurn + 1) :
    ∃ first, first <+: later ∧
      (((schedInit mm vfs kstack).tableRun ops).tableRun first).current = i := by
  obtain ⟨num, h⟩ := table_tableRun (table_schedInit mm vfs kstack) ops hrun
  obtain ⟨d, hd, hi⟩ := exists_slotAfter ((schedInit mm vfs kstack).tableRun ops).current i
  exact current_of_turns h hrun (.inl hready) hi (by omega)

/-- Two new tasks next to the shell, one of which exits at once. -/
theorem ready_task_runs_second :
    ∃ first, first <+: .tick 0 0 :: .exit 0 [] [] :: replicate 13 (.tick 0 0) ∧
      (((schedInit bootMemory noFiles 0).tableRun [newTask, newTask]).tableRun first).current = 2 :=
  ready_task_runs bootMemory noFiles 0 [newTask, newTask] _ (by decide +kernel) (by decide +kernel)
    (by decide)

end ToastyUnix.Sched.Kernel
