import ToastyUnix.Sched.Kernel

/-!
# The task table

What holds of the task table after any sequence of task creations, timer ticks and exits. Slots
of finished tasks are reused, and a creation clears the slot before it is known to succeed; a task
that exits is marked as a zombie before the switch, and ticks that arrive meanwhile do nothing.
The memory a creation finds is arbitrary, so it may succeed or fail at any point, and between the
calls the running task may do anything with its descriptors.

Exactly the current task is marked as running, the tasks that can be scheduled have different
process ids as long as the counter has not come round, a creation that fails changes none of them,
and every switch goes to the first ready task in cyclic order.
-/

namespace ToastyUnix.Sched

open List Function BitVec

open Vfs (TaskId taskMax)

namespace Kernel

variable {k k' : Kernel}

/-- The slot `d` places behind slot `i` in cyclic order. -/
def slotAfter (i : TaskId) (d : ℕ) : TaskId := Fin.ofNat taskMax (i + d)

theorem slotAfter_taskMax (i : TaskId) : slotAfter i taskMax = i := by
  apply Fin.ext
  simp [slotAfter, Nat.mod_eq_of_lt i.isLt]

/-- `task_next` finds the first live task behind the given one, itself last. -/
theorem taskNext_cases (k : Kernel) (i : TaskId) :
    (∃ d, 0 < d ∧ d ≤ taskMax ∧ k.taskNext i = slotAfter i d ∧ (k.tasks (slotAfter i d)).Live ∧
      ∀ e, 0 < e → e < d → ¬(k.tasks (slotAfter i e)).Live) ∨
    (k.taskNext i = i ∧ ∀ e, 0 < e → e ≤ taskMax → ¬(k.tasks (slotAfter i e)).Live) := by
  unfold taskNext
  rw [find?_map]
  cases hfind : (List.range' 1 taskMax).find?
      ((fun i ↦ decide (k.tasks i).Live) ∘ fun d ↦ Fin.ofNat taskMax (i + d)) with
  | none =>
    refine .inr ⟨rfl, fun e hpos hle hlive ↦ ?_⟩
    have := find?_eq_none.mp hfind e (by rw [mem_range'_1]; omega)
    simp only [comp_apply, decide_eq_true_eq] at this
    exact this hlive
  | some d =>
    rw [find?_range'_eq_some] at hfind
    obtain ⟨hlive, hmem, hfirst⟩ := hfind
    rw [mem_range'_1] at hmem
    refine .inl ⟨d, by omega, by omega, rfl, of_decide_eq_true hlive, fun e hpos hlt ↦ ?_⟩
    have := hfirst e (by omega) hlt
    simp only [comp_apply, Bool.not_eq_true', decide_eq_false_iff_not] at this
    exact this

/-- The step from `k` to `k'` resumes the first ready task in cyclic order. -/
def SwitchesToNext (k k' : Kernel) : Prop :=
  ∃ d, 0 < d ∧ d < taskMax ∧ k'.current = slotAfter k.current d ∧
    (k.tasks (slotAfter k.current d)).state = .ready ∧
    ∀ e, 0 < e → e < d → (k.tasks (slotAfter k.current e)).state ≠ .ready

/-- `g_current->rsp = frame_rsp`. -/
def saveRsp (k : Kernel) (frameRsp : ℕ) : Kernel :=
  k.updateTask k.current fun t ↦ { t with rsp := frameRsp }

/-- `g_current->state = TASK_READY`. -/
def markReady (k : Kernel) : Kernel := k.updateTask k.current fun t ↦ { t with state := .ready }

theorem schedTick_eq (k : Kernel) (frameRsp : ℕ) :
    k.schedTick frameRsp =
      if (k.tasks k.current).state = .zombie then k
      else if 0 < k.preemptDepth then k
      else if (k.saveRsp frameRsp).taskNext k.current = k.current then k.saveRsp frameRsp
      else (k.saveRsp frameRsp).markReady.switchTo ((k.saveRsp frameRsp).taskNext k.current) := rfl

/-- The first part of `task_exit`. -/
def markZombie (k : Kernel) (status : ℤ) : Kernel :=
  k.updateTask k.current fun t ↦ { t with state := .zombie, exitStatus := status }

/-- `vfs_close_all` of the current task. -/
def closeFiles (k : Kernel) : Kernel := { k with vfs := Vfs.vfsCloseAll k.fs }

/-- The last part of `task_exit`. -/
def resumeNext (k : Kernel) : Kernel :=
  if k.taskNext k.current = k.current then { k with halted := true }
  else k.switchTo (k.taskNext k.current)

theorem taskExit_eq (k : Kernel) (status : ℤ) :
    k.taskExit status = (k.markZombie status).closeFiles.resumeNext := rfl

/-- `task_exit` with the ticks that arrive before and after its descriptors are closed. -/
def taskExitTicks (k : Kernel) (status : ℤ) (early late : List ℕ) : Kernel :=
  (late.foldl schedTick (early.foldl schedTick (k.markZombie status)).closeFiles).resumeNext

theorem foldl_schedTick_of_zombie (h : (k.tasks k.current).state = .zombie) (ticks : List ℕ) :
    ticks.foldl schedTick k = k := by
  induction ticks with
  | nil => rfl
  | cons tick ticks ih =>
    have htick : k.schedTick tick = k := if_pos h
    rw [foldl_cons, htick, ih]

theorem taskExitTicks_eq (k : Kernel) (status : ℤ) (early late : List ℕ) :
    k.taskExitTicks status early late = k.taskExit status := by
  have hzombie : ((k.markZombie status).tasks k.current).state = .zombie := by
    simp [markZombie, updateTask]
  have hclosed : ((k.markZombie status).closeFiles.tasks k.current).state = .zombie := hzombie
  unfold taskExitTicks
  rw [foldl_schedTick_of_zombie hzombie, foldl_schedTick_of_zombie hclosed, taskExit_eq]

/-- The calls that change the task table, and those of the running task in between. -/
inductive TableOp
  /-- `task_create_user`, in any state of the memory. -/
  | create (entry : ℕ) (name : List UInt8) (cr3 : BitVec 64) (argv : List (Option (List UInt8)))
      (kstack : Option ℕ) (mm : Mm.State)
  /-- A timer tick at some preemption depth. -/
  | tick (depth frameRsp : ℕ)
  /-- `task_exit`, with the ticks during it. -/
  | exit (status : ℤ) (early late : List ℕ)
  /-- A call on a descriptor. -/
  | files (op : Vfs.Op)

/-- One step of a machine that has not halted. -/
def tableStep (k : Kernel) (op : TableOp) : Kernel :=
  if k.halted then k
  else
    match op with
    | .create entry name cr3 argv kstack mm =>
      ({ k with mm := mm }.taskCreateUser entry name cr3 argv kstack).2
    | .tick depth frameRsp => { k with preemptDepth := depth }.schedTick frameRsp
    | .exit status early late => k.taskExitTicks status early late
    | .files op => { k with vfs := Vfs.System.call k.fs op }

/-- The steps of a list in order. -/
def tableRun (k : Kernel) (ops : List TableOp) : Kernel := ops.foldl tableStep k

/-- The number of tasks that steps create, each of which takes a process id. -/
def created : Kernel → List TableOp → ℕ
  | _, [] => 0
  | k, op :: ops =>
    (if (k.tableStep op).nextPid = k.nextPid then 0 else 1) + created (k.tableStep op) ops

/-- Only the current task is running, live tasks have the process ids of the creations that `num`
says, and zombies have no descriptors. Creation 0 is the shell's. -/
structure Table (k : Kernel) (num : TaskId → ℕ) (created : ℕ) : Prop where
  running : ∀ i, (k.tasks i).state = .running ↔ i = k.current
  nextPid : k.nextPid = BitVec.ofNat 32 (created + 2)
  pid : ∀ i, (k.tasks i).Live → num i ≤ created ∧ (k.tasks i).pid = BitVec.ofNat 32 (num i + 1)
  inj : ∀ i j, (k.tasks i).Live → (k.tasks j).Live → num i = num j → i = j
  closed : ∀ i j, (k.tasks i).state = .zombie → k.vfs.fds (i, j) = none

namespace Table

variable {num : TaskId → ℕ} {count : ℕ}

section

variable (h : Table k num count)
include h

theorem current : (k.tasks k.current).state = .running :=
  (h.running k.current).mpr rfl

variable {i : TaskId}

/-- A live task other than the current one is ready. -/
theorem ready_of_live (hlive : (k.tasks i).Live) (hne : i ≠ k.current) :
    (k.tasks i).state = .ready :=
  hlive.resolve_right fun hrunning ↦ hne ((h.running i).mp hrunning)

/-- A step that creates no task keeps the numbering. -/
theorem congr (hrunning : ∀ i, (k'.tasks i).state = .running ↔ i = k'.current)
    (hnextPid : k'.nextPid = k.nextPid)
    (hlive : ∀ i, (k'.tasks i).Live → (k.tasks i).Live ∧ (k'.tasks i).pid = (k.tasks i).pid)
    (hclosed : ∀ i j, (k'.tasks i).state = .zombie → k'.vfs.fds (i, j) = none) :
    Table k' num count where
  running := hrunning
  nextPid := hnextPid.trans h.nextPid
  pid i hi := by
    obtain ⟨hold, hpid⟩ := hlive i hi
    rw [hpid]
    exact h.pid i hold
  inj i j hi hj := h.inj i j (hlive i hi).1 (hlive j hj).1
  closed := hclosed

/-- The switch at the end of `sched_tick` and `task_exit`, once the outgoing task has another state.
-/
theorem switchTo (k₁ : Kernel) {state : TaskState} (hstate : state ≠ .running)
    (hcurrent : (k₁.tasks k.current).state = state)
    (hpid : (k₁.tasks k.current).pid = (k.tasks k.current).pid)
    (hother : ∀ i ≠ k.current, k₁.tasks i = k.tasks i) (hnextPid : k₁.nextPid = k.nextPid)
    (hclosed : ∀ i j, (k₁.tasks i).state = .zombie → k₁.vfs.fds (i, j) = none) {next : TaskId}
    (hnext : (k₁.tasks next).Live) : Table (k₁.switchTo next) num count := by
  have htasks : ∀ i ≠ next, (k₁.switchTo next).tasks i = k₁.tasks i := by
    intro i hi
    simp [Kernel.switchTo, switchSpace, updateTask, hi]
  have hself : (k₁.switchTo next).tasks next = { k₁.tasks next with state := .running } := by
    simp [Kernel.switchTo, switchSpace, updateTask]
  have hold : ∀ i, (k₁.tasks i).Live → (k.tasks i).Live ∧ (k₁.tasks i).pid = (k.tasks i).pid := by
    intro i hi
    by_cases hic : i = k.current
    · subst hic
      exact ⟨.inr h.current, hpid⟩
    · rw [hother i hic] at hi ⊢
      exact ⟨hi, rfl⟩
  refine h.congr (fun i ↦ ?_) hnextPid (fun i hi ↦ ?_) fun i j hi ↦ ?_
  · change _ ↔ i = next
    by_cases hin : i = next
    · subst hin
      simp [hself]
    · rw [htasks i hin]
      by_cases hic : i = k.current
      · subst hic
        simp [hcurrent, hstate, hin]
      · rw [hother i hic]
        simp [h.running, hic, hin]
  · by_cases hin : i = next
    · subst hin
      rw [hself]
      exact hold i hnext
    · rw [htasks i hin] at hi ⊢
      exact hold i hi
  · by_cases hin : i = next
    · subst hin
      simp [hself] at hi
    · rw [htasks i hin] at hi
      exact hclosed i j hi

/-- The search finds a live task other than the outgoing one, the first ready one in cyclic order.
-/
theorem taskNext (k₁ : Kernel) (hother : ∀ i ≠ k.current, (k₁.tasks i).state = (k.tasks i).state)
    (hne : k₁.taskNext k.current ≠ k.current) :
    (k₁.tasks (k₁.taskNext k.current)).Live ∧
      ∀ k', k'.current = k₁.taskNext k.current → SwitchesToNext k k' := by
  rcases k₁.taskNext_cases k.current with ⟨d, hpos, hle, hnext, hlive, hfirst⟩ | ⟨hsame, -⟩
  case inr => exact absurd hsame hne
  rw [hnext] at hne ⊢
  refine ⟨hlive, fun k' hk' ↦ ⟨d, hpos, ?_, hk', ?_, fun e he hed hready ↦ ?_⟩⟩
  · refine lt_of_le_of_ne hle ?_
    rintro rfl
    exact hne (slotAfter_taskMax k.current)
  · rw [Task.Live, hother _ hne] at hlive
    exact h.ready_of_live hlive hne
  · have hec : slotAfter k.current e ≠ k.current := by
      intro heq
      rw [heq, h.current] at hready
      cases hready
    exact hfirst e he hed (.inl ((hother _ hec).trans hready))

theorem saveRsp (frameRsp : ℕ) : Table (k.saveRsp frameRsp) num count := by
  have hsame : ∀ i, ((k.saveRsp frameRsp).tasks i).state = (k.tasks i).state ∧
      ((k.saveRsp frameRsp).tasks i).pid = (k.tasks i).pid := by
    intro i
    by_cases hi : i = k.current
    · subst hi
      simp [Kernel.saveRsp, updateTask]
    · simp [Kernel.saveRsp, updateTask, hi]
  refine h.congr (fun i ↦ ?_) rfl (fun i hi ↦ ⟨?_, (hsame i).2⟩) fun i j hi ↦ ?_
  · rw [(hsame i).1]
    exact h.running i
  · rwa [Task.Live, (hsame i).1] at hi
  · rw [(hsame i).1] at hi
    exact h.closed i j hi

/-- What a timer tick does to the table. -/
theorem schedTick (frameRsp : ℕ) :
    Table (k.schedTick frameRsp) num count ∧
      ((k.schedTick frameRsp).current = k.current ∨ SwitchesToNext k (k.schedTick frameRsp)) := by
  have hsave := h.saveRsp frameRsp
  rw [schedTick_eq, if_neg (by simp [h.current])]
  split_ifs with hdepth hsame
  · exact ⟨h, .inl rfl⟩
  · exact ⟨hsave, .inl rfl⟩
  · obtain ⟨hlive, hswitch⟩ := h.taskNext (k.saveRsp frameRsp)
      (fun i hi ↦ by simp [Kernel.saveRsp, updateTask, hi]) hsame
    set next := (k.saveRsp frameRsp).taskNext k.current
    refine ⟨hsave.switchTo (k.saveRsp frameRsp).markReady (by simp : TaskState.ready ≠ .running)
      ?_ ?_ (fun i hi ↦ ?_) rfl (fun i j hi ↦ ?_) ?_, .inr (hswitch _ rfl)⟩
    · simp [markReady, updateTask]
    · simp [markReady, updateTask]
    · simp [markReady, updateTask, hi]
    · by_cases hic : i = (k.saveRsp frameRsp).current
      · subst hic
        simp [markReady, updateTask] at hi
      · simp only [markReady, updateTask, update_of_ne hic] at hi
        exact hsave.closed i j hi
    · have hic : next ≠ (k.saveRsp frameRsp).current := hsame
      simpa [markReady, updateTask, hic] using hlive

theorem taskExit (status : ℤ) :
    (k.taskExit status).halted = true ∨
      Table (k.taskExit status) num count ∧ SwitchesToNext k (k.taskExit status) := by
  have hother : ∀ i ≠ k.current, (k.markZombie status).tasks i = k.tasks i := by
    intro i hi
    simp [markZombie, updateTask, hi]
  rw [taskExit_eq]
  unfold resumeNext
  split_ifs with hsame
  · exact .inl rfl
  · obtain ⟨hlive, hswitch⟩ := h.taskNext (k.markZombie status).closeFiles
      (fun i hi ↦ congrArg Task.state (hother i hi)) hsame
    refine .inr ⟨h.switchTo (k.markZombie status).closeFiles (by simp : TaskState.zombie ≠ .running)
      ?_ ?_ hother rfl (fun i j hi ↦ ?_) hlive, hswitch _ rfl⟩
    · simp [closeFiles, markZombie, updateTask]
    · simp [closeFiles, markZombie, updateTask]
    · have hcurrent : (k.markZombie status).fs.current = some k.current := rfl
      refine (Vfs.vfsCloseAll_fds hcurrent (i, j)).trans ?_
      split_ifs with hic
      · rfl
      · have hi' : ((k.markZombie status).tasks i).state = .zombie := hi
        rw [hother i hic] at hi'
        exact h.closed i j hi'

/-- A slot for a new task: only a zombie may have been cleared. -/
theorem taskFindSlot {slot : Option TaskId} (hfind : k.taskFindSlot = (slot, k')) :
    Table k' num count ∧ k'.vfs = k.vfs ∧ (∀ i, (k.tasks i).Live → k'.tasks i = k.tasks i) ∧
      k'.current = k.current ∧ k'.nextPid = k.nextPid ∧ k'.halted = k.halted ∧
      ∀ i ∈ slot, ¬(k'.tasks i).Live := by
  unfold Kernel.taskFindSlot at hfind
  split at hfind
  case h_1 z hz =>
    obtain ⟨rfl, rfl⟩ := Prod.mk.inj hfind
    have hzombie : (k.tasks z).state = .zombie := by simpa using find?_some hz
    have hzc : z ≠ k.current := by
      rintro rfl
      rw [h.current] at hzombie
      cases hzombie
    have hother : ∀ i ≠ z, update k.tasks z .zero i = k.tasks i := fun i hi ↦
      update_of_ne hi ..
    have hfds : (fun p ↦ if p.1 = z then none else k.vfs.fds p) = k.vfs.fds := by
      funext p
      split_ifs with hp
      · rw [← hp] at hzombie
        exact (h.closed p.1 p.2 hzombie).symm
      · rfl
    refine ⟨h.congr (fun i ↦ ?_) rfl (fun i hi ↦ ?_) (fun i j hi ↦ ?_), ?_, fun i hi ↦ ?_, rfl, rfl,
      rfl, fun i hi ↦ ?_⟩
    · change (update k.tasks z .zero i).state = .running ↔ i = k.current
      by_cases hiz : i = z
      · subst hiz
        simp [hzc, Task.zero]
      · rw [hother i hiz]
        exact h.running i
    · change (update k.tasks z .zero i).Live at hi
      change _ ∧ (update k.tasks z .zero i).pid = _
      by_cases hiz : i = z
      · subst hiz
        simp [Task.Live, Task.zero] at hi
      · rw [hother i hiz] at hi ⊢
        exact ⟨hi, rfl⟩
    · change (update k.tasks z .zero i).state = .zombie at hi
      by_cases hiz : i = z
      · subst hiz
        simp [Task.zero] at hi
      · rw [hother i hiz] at hi
        exact (if_neg hiz).trans (h.closed i j hi)
    · dsimp only
      rw [hfds]
    · refine hother i ?_
      rintro rfl
      simp [Task.Live, hzombie] at hi
    · obtain rfl := Option.some.inj hi
      change ¬(update k.tasks z .zero z).Live
      simp [Task.Live, Task.zero]
  case h_2 =>
    obtain ⟨rfl, rfl⟩ := Prod.mk.inj hfind
    refine ⟨h, rfl, fun _ _ ↦ rfl, rfl, rfl, rfl, fun i hi ↦ ?_⟩
    have hunused : (k.tasks i).state = .unused := by simpa using find?_some hi
    simp [Task.Live, hunused]

/-- A new task in a slot that was not in use. -/
theorem start (hdead : ¬(k.tasks i).Live) {new : Task} (hready : new.state = .ready)
    (hpid : new.pid = k.nextPid) (htasks : k'.tasks = update k.tasks i new)
    (hcurrent : k'.current = k.current) (hnextPid : k'.nextPid = k.nextPid + 1)
    (hfds : ∀ t ≠ i, ∀ j, k'.vfs.fds (t, j) = k.vfs.fds (t, j)) :
    Table k' (update num i (count + 1)) (count + 1) := by
  have hic : i ≠ k.current := by
    rintro rfl
    exact hdead (.inr h.current)
  have hself : k'.tasks i = new := by simp [htasks]
  have hother : ∀ t ≠ i, k'.tasks t = k.tasks t := fun t ht ↦ by simp [htasks, ht]
  have hold : ∀ t ≠ i, (k'.tasks t).Live → num t ≤ count := fun t ht hlive ↦
    (h.pid t (hother t ht ▸ hlive)).1
  constructor
  case running =>
    intro t
    rw [hcurrent]
    by_cases ht : t = i
    · subst ht
      simp [hself, hready, hic]
    · rw [hother t ht]
      exact h.running t
  case nextPid =>
    rw [hnextPid, h.nextPid]
    exact (ofNat_add (count + 2) 1).symm
  case pid =>
    intro t hlive
    by_cases ht : t = i
    · subst ht
      rw [hself, hpid, update_self, h.nextPid]
      exact ⟨le_rfl, rfl⟩
    · rw [hother t ht] at hlive ⊢
      rw [update_of_ne ht]
      obtain ⟨hle, hpid⟩ := h.pid t hlive
      exact ⟨by omega, hpid⟩
  case inj =>
    intro t u ht hu heq
    by_cases hti : t = i <;> by_cases hui : u = i
    · rw [hti, hui]
    · have hle := hold u hui hu
      rw [hti, update_self, update_of_ne hui] at heq
      omega
    · have hle := hold t hti ht
      rw [hui, update_self, update_of_ne hti] at heq
      omega
    · rw [update_of_ne hti, update_of_ne hui] at heq
      exact h.inj t u (hother t hti ▸ ht) (hother u hui ▸ hu) heq
  case closed =>
    intro t j hzombie
    by_cases ht : t = i
    · subst ht
      simp [hself, hready] at hzombie
    · rw [hother t ht] at hzombie
      rw [hfds t ht]
      exact h.closed t j hzombie

/-- A creation fails without a trace in live tasks and files, or makes one task with the next
process id. -/
theorem taskCreateUser (entry : ℕ) (name : List UInt8) (cr3 : BitVec 64)
    (argv : List (Option (List UInt8))) (kstack : Option ℕ) {result : ℤ}
    (hcreate : k.taskCreateUser entry name cr3 argv kstack = (result, k')) :
    k'.current = k.current ∧ k'.halted = k.halted ∧
      ((result = -1 ∧ k'.nextPid = k.nextPid ∧ k'.vfs = k.vfs ∧
          (∀ i, (k.tasks i).Live → k'.tasks i = k.tasks i) ∧ Table k' num count) ∨
        (result = k.nextPid.toInt ∧ k'.nextPid = k.nextPid + 1 ∧
          ∃ num', Table k' num' (count + 1))) := by
  obtain ⟨slot, k₁, hslot, hcases⟩ := taskCreateUser_cases hcreate
  obtain ⟨h₁, hvfs, hlive, hcurrent, hnextPid, hhalted, hdead⟩ := h.taskFindSlot hslot
  obtain ⟨rfl, mm, -, rfl⟩ | ⟨i, hi, stack, rsp, k₂, rfl, rfl, rfl⟩ := hcases
  · exact ⟨hcurrent, hhalted, .inl ⟨rfl, hnextPid, hvfs, hlive,
      ⟨h₁.running, h₁.nextPid, h₁.pid, h₁.inj, h₁.closed⟩⟩⟩
  · refine ⟨hcurrent, hhalted, .inr ⟨?_, ?_, update num i (count + 1), ?_⟩⟩
    · simp [updateTask, Task.start, hnextPid]
    · simp [updateTask, hnextPid]
    · refine h₁.start (hdead i hi) ?_ ?_ rfl rfl rfl fun t ht j ↦ ?_
      · rfl
      · rfl
      · exact Vfs.vfsFdInherit_fds_of_ne _ _ ht

theorem files (op : Vfs.Op) : Table { k with vfs := Vfs.System.call k.fs op } num count := by
  refine ⟨h.running, h.nextPid, h.pid, h.inj, fun i j hzombie ↦ ?_⟩
  have hic : i ≠ k.current := by
    rintro rfl
    rw [h.current] at hzombie
    cases hzombie
  exact (Vfs.System.call_fds_of_ne (s := k.fs) rfl op hic).trans (h.closed i j hzombie)

theorem pid_inj (hcount : count < 2 ^ 32) {j : TaskId} (hi : (k.tasks i).Live)
    (hj : (k.tasks j).Live) (heq : (k.tasks i).pid = (k.tasks j).pid) : i = j := by
  obtain ⟨hli, hpi⟩ := h.pid i hi
  obtain ⟨hlj, hpj⟩ := h.pid j hj
  rw [hpi, hpj, ← toNat_inj, toNat_ofNat, toNat_ofNat] at heq
  exact h.inj i j hi hj (by omega)

theorem pid_ne_zero (hcount : count + 1 < 2 ^ 32) (hi : (k.tasks i).Live) :
    (k.tasks i).pid ≠ 0 := by
  obtain ⟨hli, hpi⟩ := h.pid i hi
  rw [hpi, ne_eq, ← toNat_inj, toNat_ofNat]
  have hzero : (0 : BitVec 32).toNat = 0 := rfl
  omega

end

end Table

theorem table_schedInit (mm : Mm.State) (vfs : Vfs.State) (kstack : ℕ) :
    Table (schedInit mm vfs kstack) (fun _ ↦ 0) 0 := by
  have hother : ∀ i ≠ shell, (schedInit mm vfs kstack).tasks i = .zero := fun i hi ↦ by
    simp [schedInit, hi]
  have hlive : ∀ i, ((schedInit mm vfs kstack).tasks i).Live → i = shell := by
    intro i hi
    by_contra hne
    simp [hother i hne, Task.Live, Task.zero] at hi
  refine ⟨fun i ↦ ?_, rfl, fun i hi ↦ ?_, fun i j hi hj _ ↦ ?_, fun i j hi ↦ ?_⟩
  · by_cases hi : i = shell
    · subst hi
      simp [schedInit]
    · rw [hother i hi]
      simp [Task.zero, schedInit, hi]
  · obtain rfl := hlive i hi
    simp [schedInit]
  · rw [hlive i hi, hlive j hj]
  · by_cases hi' : i = shell
    · subst hi'
      simp [schedInit] at hi
    · simp [hother i hi', Task.zero] at hi

theorem nextPid_add_one_ne (pid : BitVec 32) : pid + 1 ≠ pid := by
  intro heq
  have := congrArg BitVec.toNat heq
  have hone : (1 : BitVec 32).toNat = 1 := rfl
  rw [toNat_add, hone] at this
  omega

variable {num : TaskId → ℕ} {count n : ℕ}

/-- A step keeps the invariant, counts the task it creates and switches in cyclic order. -/
theorem table_tableStep (h : Table k num count) (op : TableOp)
    (hrun : (k.tableStep op).halted = false) :
    (∃ num', Table (k.tableStep op) num'
      (count + if (k.tableStep op).nextPid = k.nextPid then 0 else 1)) ∧
    ((k.tableStep op).current = k.current ∨ SwitchesToNext k (k.tableStep op)) := by
  have hquiet : ∀ {k'}, Table k' num count → ∃ num', Table k' num'
      (count + if k'.nextPid = k.nextPid then 0 else 1) := by
    intro k' h'
    rw [if_pos (h'.nextPid.trans h.nextPid.symm)]
    exact ⟨num, h'⟩
  by_cases hhalted : k.halted = true
  · have hstep : k.tableStep op = k := if_pos hhalted
    rw [hstep]
    exact ⟨hquiet h, .inl rfl⟩
  cases op with
  | create entry name cr3 argv kstack mm =>
    have hmm : Table { k with mm := mm } num count :=
      ⟨h.running, h.nextPid, h.pid, h.inj, h.closed⟩
    obtain ⟨result, k', hcreate⟩ : ∃ result k',
      ({ k with mm := mm } : Kernel).taskCreateUser entry name cr3 argv kstack = (result, k') :=
      ⟨_, _, rfl⟩
    have hstep : k.tableStep (.create entry name cr3 argv kstack mm) = k' :=
      (if_neg hhalted).trans (congrArg Prod.snd hcreate)
    obtain ⟨hcurrent, -, ⟨-, -, -, -, h'⟩ | ⟨-, hnextPid, h'⟩⟩ :=
      hmm.taskCreateUser entry name cr3 argv kstack hcreate
    · rw [hstep]
      exact ⟨hquiet h', .inl hcurrent⟩
    · rw [hstep, hnextPid, if_neg (nextPid_add_one_ne _)]
      exact ⟨h', .inl hcurrent⟩
  | tick depth frameRsp =>
    have hstep : k.tableStep (.tick depth frameRsp) =
      { k with preemptDepth := depth }.schedTick frameRsp := if_neg hhalted
    have hdepth : Table { k with preemptDepth := depth } num count :=
      ⟨h.running, h.nextPid, h.pid, h.inj, h.closed⟩
    obtain ⟨h', hswitch⟩ := hdepth.schedTick frameRsp
    rw [hstep]
    exact ⟨hquiet h', hswitch⟩
  | exit status early late =>
    have hstep : k.tableStep (.exit status early late) = k.taskExit status :=
      (if_neg hhalted).trans (taskExitTicks_eq k status early late)
    rw [hstep] at hrun ⊢
    obtain ⟨h', hswitch⟩ := (h.taskExit status).resolve_left (by simp [hrun])
    exact ⟨hquiet h', .inr hswitch⟩
  | files op =>
    have hstep : k.tableStep (.files op) = { k with vfs := Vfs.System.call k.fs op } :=
      if_neg hhalted
    rw [hstep]
    exact ⟨hquiet (h.files op), .inl rfl⟩

theorem tableRun_of_halted (h : k.halted = true) (ops : List TableOp) : k.tableRun ops = k := by
  unfold tableRun
  induction ops with
  | nil => rfl
  | cons op ops ih =>
    have hstep : k.tableStep op = k := if_pos h
    rw [foldl_cons, hstep, ih]

theorem table_tableRun (h : Table k num count) (ops : List TableOp)
    (hrun : (k.tableRun ops).halted = false) :
    ∃ num', Table (k.tableRun ops) num' (count + created k ops) := by
  induction ops generalizing k num count with
  | nil => exact ⟨num, h⟩
  | cons op ops ih =>
    change ((k.tableStep op).tableRun ops).halted = false at hrun
    have hstep : (k.tableStep op).halted = false := by
      by_contra hhalted
      rw [Bool.not_eq_false] at hhalted
      rw [tableRun_of_halted hhalted, hhalted] at hrun
      cases hrun
    obtain ⟨num', h'⟩ := (table_tableStep h op hstep).1
    obtain ⟨num'', h''⟩ := ih h' hrun
    refine ⟨num'', ?_⟩
    rwa [created, ← Nat.add_assoc]

/-- At any time in any run of creations, ticks, exits and file calls from `sched_init` on: only the
current task is running, live tasks have different process ids below `2^32` creations and ids other
than zero below `2^32 - 1` creations, a creation that fails changes no live task and no descriptor,
and a switch goes to the first ready task in cyclic order. A result that is negative means failure
as long as the ids fit into an `int`. -/
theorem task_table_is_consistent (mm : Mm.State) (vfs : Vfs.State) (kstack : ℕ)
    (ops : List TableOp) (hrun : ((schedInit mm vfs kstack).tableRun ops).halted = false) :
    let k := (schedInit mm vfs kstack).tableRun ops
    let count := created (schedInit mm vfs kstack) ops
    (∀ i, (k.tasks i).state = .running ↔ i = k.current) ∧
    (count < 2 ^ 32 → ∀ i j, (k.tasks i).Live → (k.tasks j).Live →
      (k.tasks i).pid = (k.tasks j).pid → i = j) ∧
    (count + 1 < 2 ^ 32 → ∀ i, (k.tasks i).Live → (k.tasks i).pid ≠ 0) ∧
    (∀ entry name cr3 argv kstack mm result k',
      { k with mm := mm }.taskCreateUser entry name cr3 argv kstack = (result, k') →
      (k'.nextPid = k.nextPid → result = -1 ∧ k'.vfs = k.vfs ∧
        ∀ i, (k.tasks i).Live → k'.tasks i = k.tasks i) ∧
      (result < 0 → count + 2 < 2 ^ 31 → k'.nextPid = k.nextPid)) ∧
    ∀ op, (k.tableStep op).halted = true ∨ (k.tableStep op).current = k.current ∨
      SwitchesToNext k (k.tableStep op) := by
  intro k count
  obtain ⟨num, h⟩ := table_tableRun (table_schedInit mm vfs kstack) ops hrun
  rw [Nat.zero_add] at h
  refine ⟨h.running, fun hcount i j hi hj ↦ h.pid_inj hcount hi hj,
    fun hcount i hi ↦ h.pid_ne_zero hcount hi, fun entry name cr3 argv kstack mm result k' hcreate ↦
    ?_, fun op ↦ ?_⟩
  · have hmm : Table { k with mm := mm } num count :=
      ⟨h.running, h.nextPid, h.pid, h.inj, h.closed⟩
    obtain ⟨-, -, ⟨hresult, hnextPid, hvfs, hlive, -⟩ | ⟨hresult, hnextPid, -⟩⟩ :=
      hmm.taskCreateUser entry name cr3 argv kstack hcreate
    · exact ⟨fun _ ↦ ⟨hresult, hvfs, hlive⟩, fun _ _ ↦ hnextPid⟩
    · refine ⟨fun hsame ↦ absurd (hnextPid.symm.trans hsame) (nextPid_add_one_ne _),
        fun hneg hcount ↦ ?_⟩
      have hpid : k.nextPid.toNat = count + 2 := by
        rw [h.nextPid, toNat_ofNat]
        omega
      have hint : k.nextPid.toInt = k.nextPid.toNat := toInt_eq_toNat_of_lt (by omega)
      have hresult' : result = k.nextPid.toInt := hresult
      omega
  · cases hhalted : (k.tableStep op).halted with
    | true => exact .inl rfl
    | false => exact .inr (table_tableStep h op hhalted).2

/-- A machine without files. -/
def noFiles : Vfs.State := ⟨0, ∅, ∅, ∅, fun _ ↦ none, none⟩

/-- The creation of a task when there is enough memory. -/
def newTask : TableOp := .create 0 [] (Paging.ofFrame 1) [] (some 0) bootMemory

/-- A task is created, gets the processor and exits. -/
def round : List TableOp := [newTask, .tick 0 0, .exit 0 [] []]

theorem task_table_is_consistent_round :
    let k := (schedInit bootMemory noFiles 0).tableRun (round ++ [newTask])
    k.halted = false ∧ (k.tasks 1).Live ∧ (k.tasks 1).pid ≠ 0 := by
  intro k
  have hrun : k.halted = false := by decide +kernel
  have hlive : (k.tasks 1).Live := by decide +kernel
  have hcount : created (schedInit bootMemory noFiles 0) (round ++ [newTask]) = 2 := by
    decide +kernel
  obtain ⟨-, -, hpid, -⟩ :=
    task_table_is_consistent bootMemory noFiles 0 (round ++ [newTask]) hrun
  exact ⟨hrun, hlive, hpid (by rw [hcount]; decide) 1 hlive⟩

/-- Between two rounds the shell is running, and at most slot 1 has been used. -/
def betweenRounds (used : Bool) (i : TaskId) : TaskState :=
  if i = shell then .running else if i = 1 ∧ used then .zombie else .unused

/-- The states while the task of slot 1 and the shell share the processor. -/
def sharedStates (one zero : TaskState) (i : TaskId) : TaskState :=
  if i = 1 then one else if i = shell then zero else .unused

/-- The machine after `n` rounds. -/
structure AfterRounds (k : Kernel) (n : ℕ) : Prop where
  halted : k.halted = false
  current : k.current = shell
  states : ∃ used, ∀ i, (k.tasks i).state = betweenRounds used i
  nextPid : k.nextPid = BitVec.ofNat 32 (n + 2)

/-- `task_next` depends on the states only. -/
theorem taskNext_eq {states : TaskId → TaskState} (h : ∀ i, (k.tasks i).state = states i)
    (i : TaskId) : k.taskNext i =
      (((List.range' 1 taskMax).map fun d ↦ Fin.ofNat taskMax (i + d)).find?
        fun j ↦ states j = .ready ∨ states j = .running).getD i := by
  simp only [taskNext, Task.Live, h]

theorem newTask_of_afterRounds (h : AfterRounds k n) :
    (k.tableStep newTask).halted = false ∧ (k.tableStep newTask).current = shell ∧
      (∀ i, ((k.tableStep newTask).tasks i).state = sharedStates .ready .running i) ∧
      ((k.tableStep newTask).tasks 1).pid = BitVec.ofNat 32 (n + 2) ∧
      (k.tableStep newTask).nextPid = BitVec.ofNat 32 (n + 1 + 2) := by
  obtain ⟨used, hstates⟩ := h.states
  have hslot : ∃ k₁ : Kernel, ({ k with mm := bootMemory } : Kernel).taskFindSlot = (some 1, k₁) ∧
      k₁.mm = bootMemory ∧ k₁.halted = false ∧ k₁.current = shell ∧ k₁.nextPid = k.nextPid ∧
      ∀ i ≠ 1, (k₁.tasks i).state = betweenRounds false i := by
    unfold taskFindSlot
    simp only [hstates]
    cases used with
    | true =>
      have hfind : (List.finRange taskMax).find?
          (fun i ↦ betweenRounds true i = .zombie) = some 1 := by decide
      rw [hfind]
      refine ⟨_, rfl, rfl, h.halted, h.current, rfl, fun i hi ↦ ?_⟩
      simp only [updateTask, update_of_ne hi]
      rw [hstates, betweenRounds, betweenRounds]
      simp [hi]
    | false =>
      have hnone : (List.finRange taskMax).find?
          (fun i ↦ betweenRounds false i = .zombie) = none := by decide
      have hfind : (List.finRange taskMax).find?
          (fun i ↦ betweenRounds false i = .unused) = some 1 := by decide
      rw [hnone, hfind]
      exact ⟨_, rfl, rfl, h.halted, h.current, rfl, fun i _ ↦ hstates i⟩
  obtain ⟨k₁, hfind, hmm, hhalted, hcurrent, hnextPid, hother⟩ := hslot
  have hstack : (buildStack bootMemory (Paging.ofFrame 1) (stackArgs [] [])).1 ≠ 0 := by
    decide +kernel
  have hstep : k.tableStep newTask = (({ k with mm := bootMemory } : Kernel).taskCreateUser 0 []
      (Paging.ofFrame 1) [] (some 0)).2 := if_neg (by simp [h.halted])
  rw [hstep, taskCreateUser, hfind]
  dsimp only
  rw [hmm]
  generalize buildStack bootMemory (Paging.ofFrame 1) (stackArgs [] []) = stack at hstack ⊢
  obtain ⟨_ | rsp, mm⟩ := stack
  · exact absurd rfl hstack
  · refine ⟨hhalted, hcurrent, fun i ↦ ?_, ?_, ?_⟩
    · by_cases hi : i = 1
      · subst hi
        simp [updateTask, Task.start, sharedStates]
      · simp only [updateTask, update_of_ne hi, hother i hi, betweenRounds, sharedStates, hi,
          if_false, false_and]
    · simp [updateTask, Task.start, hnextPid, h.nextPid]
    · simp only [updateTask, hnextPid, h.nextPid]
      exact (ofNat_add (n + 2) 1).symm

theorem state_updateTask (k : Kernel) (t : TaskId) (f : Task → Task) (i : TaskId) :
    ((k.updateTask t f).tasks i).state =
      if i = t then (f (k.tasks t)).state else (k.tasks i).state := by
  by_cases hi : i = t
  · subst hi
    simp [updateTask]
  · simp [updateTask, hi]

theorem state_switchTo (k : Kernel) (next i : TaskId) :
    ((k.switchTo next).tasks i).state = if i = next then .running else (k.tasks i).state :=
  state_updateTask k next (fun t ↦ { t with state := .running }) i

/-- The tick gives the processor to the new task. -/
theorem tick_of_newTask (hhalted : k.halted = false) (hcurrent : k.current = shell)
    (hstates : ∀ i, (k.tasks i).state = sharedStates .ready .running i) :
    (k.tableStep (.tick 0 0)).halted = false ∧ (k.tableStep (.tick 0 0)).current = 1 ∧
      (∀ i, ((k.tableStep (.tick 0 0)).tasks i).state = sharedStates .running .ready i) ∧
      (k.tableStep (.tick 0 0)).nextPid = k.nextPid := by
  let k₁ : Kernel := { k with preemptDepth := 0 }
  have hcurrent₁ : k₁.current = shell := hcurrent
  have hsave : ∀ i, ((k₁.saveRsp 0).tasks i).state = sharedStates .ready .running i := by
    intro i
    rw [saveRsp, state_updateTask, ← hstates]
    split_ifs with hi
    · rw [hi]
    · rfl
  have hnext : (k₁.saveRsp 0).taskNext k₁.current = 1 := by
    rw [taskNext_eq hsave, hcurrent₁]
    decide
  have hstep : k.tableStep (.tick 0 0) = (k₁.saveRsp 0).markReady.switchTo 1 := by
    have htick : k.tableStep (.tick 0 0) = k₁.schedTick 0 := if_neg (by simp [hhalted])
    have hrunning : (k₁.tasks k₁.current).state = sharedStates .ready .running shell := by
      rw [hcurrent₁]
      exact hstates shell
    rw [htick, schedTick_eq, hrunning, if_neg (by decide), if_neg (lt_irrefl 0), hnext, hcurrent₁,
      if_neg (by decide)]
  rw [hstep]
  refine ⟨hhalted, rfl, fun i ↦ ?_, rfl⟩
  have hsaved : (k₁.saveRsp 0).current = shell := hcurrent
  rw [state_switchTo, markReady, state_updateTask, hsave, hsaved]
  unfold sharedStates
  split_ifs <;> rfl

/-- The exit of the task gives the processor back to the shell. -/
theorem exit_of_tick (hhalted : k.halted = false) (hcurrent : k.current = 1)
    (hstates : ∀ i, (k.tasks i).state = sharedStates .running .ready i) :
    (k.tableStep (.exit 0 [] [])).halted = false ∧
      (k.tableStep (.exit 0 [] [])).current = shell ∧
      (∀ i, ((k.tableStep (.exit 0 [] [])).tasks i).state = betweenRounds true i) ∧
      (k.tableStep (.exit 0 [] [])).nextPid = k.nextPid := by
  have hzombie : ∀ i, ((k.markZombie 0).closeFiles.tasks i).state =
      sharedStates .zombie .ready i := by
    intro i
    change ((k.markZombie 0).tasks i).state = _
    rw [markZombie, state_updateTask, hcurrent, hstates]
    unfold sharedStates
    split_ifs <;> rfl
  have hnext : (k.markZombie 0).closeFiles.taskNext k.current = shell := by
    rw [taskNext_eq hzombie, hcurrent]
    decide
  have hstep : k.tableStep (.exit 0 [] []) = (k.markZombie 0).closeFiles.switchTo shell := by
    have hexit : k.tableStep (.exit 0 [] []) = (k.markZombie 0).closeFiles.resumeNext :=
      if_neg (by simp [hhalted])
    have hsame : (k.markZombie 0).closeFiles.current = k.current := rfl
    rw [hexit, resumeNext, hsame, hnext, hcurrent, if_neg (by decide)]
  rw [hstep]
  refine ⟨hhalted, rfl, fun i ↦ ?_, rfl⟩
  rw [state_switchTo, hzombie, betweenRounds, sharedStates]
  split_ifs <;> simp_all

theorem round_of_afterRounds (h : AfterRounds k n) :
    AfterRounds (k.tableRun round) (n + 1) ∧ created k round = 1 := by
  obtain ⟨hhalted₁, hcurrent₁, hstates₁, -, hnextPid₁⟩ := newTask_of_afterRounds h
  obtain ⟨hhalted₂, hcurrent₂, hstates₂, hnextPid₂⟩ := tick_of_newTask hhalted₁ hcurrent₁ hstates₁
  obtain ⟨hhalted₃, hcurrent₃, hstates₃, hnextPid₃⟩ := exit_of_tick hhalted₂ hcurrent₂ hstates₂
  refine ⟨⟨hhalted₃, hcurrent₃, ⟨true, hstates₃⟩, hnextPid₃.trans (hnextPid₂.trans hnextPid₁)⟩, ?_⟩
  have hnew : (k.tableStep newTask).nextPid ≠ k.nextPid := by
    rw [hnextPid₁, h.nextPid, Nat.add_right_comm, ofNat_add]
    exact nextPid_add_one_ne _
  simp only [round, created, if_neg hnew, hnextPid₂, hnextPid₃, if_true]

theorem created_append (k : Kernel) (ops ops' : List TableOp) :
    created k (ops ++ ops') = created k ops + created (k.tableRun ops) ops' := by
  induction ops generalizing k with
  | nil => simp [created, tableRun]
  | cons op ops ih =>
    rw [List.cons_append, created, created, ih, Nat.add_assoc]
    rfl

/-- The given number of rounds one after the other. -/
def rounds : ℕ → List TableOp
  | 0 => []
  | n + 1 => rounds n ++ round

theorem afterRounds_rounds (n : ℕ) :
    AfterRounds ((schedInit bootMemory noFiles 0).tableRun (rounds n)) n ∧
      created (schedInit bootMemory noFiles 0) (rounds n) = n := by
  induction n with
  | zero =>
    refine ⟨⟨rfl, rfl, ⟨false, fun i ↦ ?_⟩, rfl⟩, rfl⟩
    by_cases hi : i = shell
    · subst hi
      simp [tableRun, rounds, schedInit, betweenRounds]
    · simp [tableRun, rounds, schedInit, betweenRounds, hi, Task.zero]
  | succ n ih =>
    obtain ⟨h, hcreated⟩ := round_of_afterRounds ih.1
    rw [rounds, created_append, ih.2, hcreated, tableRun, foldl_append]
    exact ⟨h, rfl⟩

/-- The task created behind `n` rounds. -/
theorem pid_after_rounds (n : ℕ) :
    let k := (schedInit bootMemory noFiles 0).tableRun (rounds n ++ [newTask])
    created (schedInit bootMemory noFiles 0) (rounds n ++ [newTask]) = n + 1 ∧
      k.halted = false ∧ (k.tasks 1).state = .ready ∧ (k.tasks 1).pid = BitVec.ofNat 32 (n + 2) := by
  intro k
  obtain ⟨h, hcreated⟩ := afterRounds_rounds n
  obtain ⟨hhalted, -, hstates, hpid, hnextPid⟩ := newTask_of_afterRounds h
  have hk : k = ((schedInit bootMemory noFiles 0).tableRun (rounds n)).tableStep newTask :=
    foldl_append ..
  rw [hk]
  refine ⟨?_, hhalted, hstates 1, hpid⟩
  rw [created_append, hcreated, created, if_neg, created]
  rw [hnextPid, h.nextPid, Nat.add_right_comm, ofNat_add]
  exact nextPid_add_one_ne _

/-- The last of `2^32 - 1` tasks has the process id zero. -/
theorem last_pid_is_zero :
    ∃ ops, created (schedInit bootMemory noFiles 0) ops = 2 ^ 32 - 1 ∧
      ((schedInit bootMemory noFiles 0).tableRun ops).halted = false ∧
      (((schedInit bootMemory noFiles 0).tableRun ops).tasks 1).state = .ready ∧
      (((schedInit bootMemory noFiles 0).tableRun ops).tasks 1).pid = 0 := by
  obtain ⟨hcreated, hhalted, hready, hpid⟩ := pid_after_rounds (2 ^ 32 - 2)
  refine ⟨rounds (2 ^ 32 - 2) ++ [newTask], hcreated.trans (by norm_num), hhalted, hready,
    hpid.trans (by decide)⟩

end Kernel

end ToastyUnix.Sched
