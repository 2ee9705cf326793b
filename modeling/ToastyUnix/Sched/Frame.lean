import ToastyUnix.Sched.AddressSpace
import ToastyUnix.Vfs.Table

/-!
# What a step leaves to the other tasks

A step of the current task, and a timer interrupt, leave every other live task its descriptors and
its place in `elf_exec` or `execve` (`keepsTask_step`).
-/

namespace ToastyUnix.Sched.Kernel

open Mm Paging Errno
open Vfs (TaskId Addr)

variable {k k' k'' : Kernel} {t : TaskId}

/-- A task keeps its descriptors and its place in the loader. -/
structure KeepsTask (t : TaskId) (k k' : Kernel) : Prop where
  table : ∀ i, k'.vfs.fds (t, i) = k.vfs.fds (t, i)
  call : (k'.tasks t).call = (k.tasks t).call
  live : (k.tasks t).Live → (k'.tasks t).Live

theorem KeepsTask.refl (t : TaskId) (k : Kernel) : KeepsTask t k k := ⟨fun _ ↦ rfl, rfl, id⟩

theorem KeepsTask.trans (h : KeepsTask t k k') (h' : KeepsTask t k' k'') : KeepsTask t k k'' where
  table i := (h'.table i).trans (h.table i)
  call := h'.call.trans h.call
  live hlive := h'.live (h.live hlive)

theorem KeepsTask.of_tasks (htable : ∀ i, k'.vfs.fds (t, i) = k.vfs.fds (t, i))
    (htasks : k'.tasks = k.tasks) : KeepsTask t k k' :=
  ⟨htable, by rw [htasks], fun hlive ↦ by rwa [htasks]⟩

/-- Neither the tasks nor the file system change. -/
theorem KeepsTask.of_eq (hvfs : k'.vfs = k.vfs) (htasks : k'.tasks = k.tasks) :
    KeepsTask t k k' :=
  .of_tasks (fun _ ↦ by rw [hvfs]) htasks

theorem keepsTask_updateTask {u : TaskId} (hne : u ≠ t) (f : Task → Task) :
    KeepsTask t k (k.updateTask u f) := by
  have hself : (k.updateTask u f).tasks t = k.tasks t := Function.update_of_ne hne.symm _ _
  exact ⟨fun _ ↦ rfl, by rw [hself], fun hlive ↦ by rwa [hself]⟩

/-- A change of a task that may be the task itself. -/
theorem keepsTask_updateSelf (u : TaskId) {f : Task → Task}
    (hcall : ∀ task, (f task).call = task.call) (hlive : ∀ task : Task, task.Live → (f task).Live) :
    KeepsTask t k (k.updateTask u f) := by
  by_cases hne : u = t
  · subst hne
    refine ⟨fun _ ↦ rfl, ?_, fun hself ↦ ?_⟩
    · simp [updateTask, hcall]
    · simpa [updateTask] using hlive _ hself
  · exact keepsTask_updateTask hne f

theorem keepsTask_switchTo (k : Kernel) (next : TaskId) : KeepsTask t k (k.switchTo next) :=
  (keepsTask_updateSelf next (f := fun task ↦ { task with state := .running }) (fun _ ↦ rfl)
    fun _ _ ↦ .inr rfl).trans (.of_eq rfl rfl)

theorem keepsTask_schedTick (k : Kernel) (frameRsp : ℕ) : KeepsTask t k (k.schedTick frameRsp) := by
  have hsave : KeepsTask t k (k.updateTask k.current fun task ↦ { task with rsp := frameRsp }) :=
    keepsTask_updateSelf _ (fun _ ↦ rfl) fun _ hlive ↦ hlive
  unfold schedTick
  split
  · exact .refl t k
  split
  · exact .refl t k
  dsimp only
  split
  · exact hsave
  · have hready := keepsTask_updateSelf (t := t)
      (k := k.updateTask k.current fun task ↦ { task with rsp := frameRsp }) k.current
      (f := fun task ↦ { task with state := .ready }) (fun _ ↦ rfl) fun _ _ ↦ .inl rfl
    exact (hsave.trans hready).trans (keepsTask_switchTo _ _)

theorem keepsTask_taskFindSlot {slot : Option TaskId} (hlive : (k.tasks t).Live)
    (h : k.taskFindSlot = (slot, k')) :
    KeepsTask t k k' ∧ k'.current = k.current ∧ ∀ i ∈ slot, i ≠ t := by
  have hdead {i : TaskId} (hstate : (k.tasks i).state = .zombie ∨ (k.tasks i).state = .unused) :
      i ≠ t := by
    rintro rfl
    rcases hstate with hstate | hstate <;> simp [Task.Live, hstate] at hlive
  unfold taskFindSlot at h
  split at h
  case h_1 j hfind =>
    obtain ⟨rfl, rfl⟩ := Prod.mk.inj h
    have hj : j ≠ t := hdead (.inl (by simpa using List.find?_some hfind))
    refine ⟨(keepsTask_updateTask hj fun _ ↦ .zero).trans (.of_tasks ?_ rfl), rfl,
      fun i hi ↦ Option.some.inj hi ▸ hj⟩
    exact fun i ↦ if_neg hj.symm
  case h_2 =>
    obtain ⟨rfl, rfl⟩ := Prod.mk.inj h
    exact ⟨.refl t k, rfl, fun i hfind ↦ hdead (.inr (by simpa using List.find?_some hfind))⟩

theorem keepsTask_taskCreateUser {entry : ℕ} {name : List UInt8} {cr3 : BitVec 64}
    {argv : List (Option (List UInt8))} {kstack : Option ℕ} {pid : ℤ} (hlive : (k.tasks t).Live)
    (h : k.taskCreateUser entry name cr3 argv kstack = (pid, k')) :
    KeepsTask t k k' ∧ k'.current = k.current := by
  obtain ⟨slot, k₁, hslot, hcases⟩ := taskCreateUser_cases h
  obtain ⟨hkeeps, hcurrent, hfree⟩ := keepsTask_taskFindSlot hlive hslot
  obtain ⟨-, mm, -, rfl⟩ | ⟨i, hi, stack, rsp, k₂, rfl, -, rfl⟩ := hcases
  · exact ⟨hkeeps.trans (.of_eq rfl rfl), hcurrent⟩
  · have hstart := keepsTask_updateTask (k := k₁) (hfree i hi)
      (·.start k₁.nextPid entry name cr3 stack rsp)
    exact ⟨(hkeeps.trans hstart).trans
      (.of_tasks (fun j ↦ Vfs.vfsFdInherit_fds_of_ne _ _ (hfree i hi).symm) rfl), hcurrent⟩

section OtherTask

variable (hne : k.current ≠ t)

include hne

theorem keepsTask_setCall (call : Call) : KeepsTask t k (k.setCall call) :=
  keepsTask_updateTask hne _

theorem keepsTask_vfsClose (fd : ℤ) : KeepsTask t k { k with vfs := (Vfs.vfsClose k.fs fd).2 } :=
  .of_tasks (fun i ↦ Vfs.System.call_fds_of_ne (s := k.fs) (k := (t, i)) rfl (.close fd) hne.symm)
    rfl

theorem keepsTask_closeElf (result : ℤ) : KeepsTask t k (k.closeElf result) :=
  (keepsTask_vfsClose hne _).trans
    (keepsTask_setCall (k := { k with vfs := (Vfs.vfsClose k.fs k.elfFd).2 }) hne _)

theorem keepsTask_taskExit (status : ℤ) : KeepsTask t k (k.taskExit status) := by
  let k₁ := k.updateTask k.current fun t ↦ { t with state := .zombie, exitStatus := status }
  have hexit : KeepsTask t k k₁ := keepsTask_updateTask hne _
  have hclose : KeepsTask t k₁ { k₁ with vfs := Vfs.vfsCloseAll k₁.fs } := by
    refine .of_tasks (fun i ↦ ?_) rfl
    have hcurrent : k₁.fs.current = some k.current := rfl
    have htable := Vfs.vfsCloseAll_fds hcurrent (t, i)
    rwa [if_neg hne.symm] at htable
  unfold taskExit
  dsimp only
  split
  · exact hexit.trans (hclose.trans (.of_eq rfl rfl))
  · exact hexit.trans (hclose.trans (keepsTask_switchTo _ _))

theorem keepsTask_execOpen (path : Option (List UInt8)) (argv : List (Option (List UInt8)))
    (file : Option Addr) : KeepsTask t k (k.execOpen path argv file) := by
  obtain heq | ⟨p, mm, -, -, hcases⟩ := k.execOpen_cases path argv file
  · rw [heq]
    exact keepsTask_setCall hne _
  have hopen : KeepsTask t k (k.opened path file mm) :=
    .of_tasks (fun i ↦ Vfs.System.call_fds_of_ne (s := k.fs) (k := (t, i)) rfl
      (.openFile path Vfs.O_RDONLY none file) hne.symm) rfl
  have hne' : (k.opened path file mm).current ≠ t := hne
  obtain ⟨r, -, heq | heq⟩ | ⟨-, ehdr, cr3, heq⟩ := hcases <;> rw [heq]
  · exact hopen.trans (keepsTask_setCall hne' _)
  · exact hopen.trans (keepsTask_closeElf hne' _)
  · exact hopen.trans (keepsTask_setCall hne' _)

theorem keepsTask_leaveToRoot (result : ℤ) : KeepsTask t k (k.leaveToRoot result) := by
  have hleft : KeepsTask t k (k.switchSpace k.mm.rootCr3).preemptEnable := .of_eq rfl rfl
  exact hleft.trans (keepsTask_setCall (k := (k.switchSpace k.mm.rootCr3).preemptEnable) hne _)

theorem keepsTask_commit (path : List UInt8) (ehdr : Elf.Ehdr) (cr3 : BitVec 64) (rsp : ℕ) :
    KeepsTask t k (k.commit path ehdr cr3 rsp) := by
  let k₁ := { k with vfs := (Vfs.vfsClose k.fs k.elfFd).2 }
  have hswitch : KeepsTask t k₁ (k₁.switchSpace cr3) := .of_eq rfl rfl
  have hreplace := keepsTask_updateTask (k := k₁.switchSpace cr3) hne
    fun t ↦ t.replace ehdr.eEntry (baseLoop path path) cr3 rsp
  exact (keepsTask_vfsClose hne _).trans (hswitch.trans (hreplace.trans (.of_eq rfl rfl)))

theorem keepsTask_elfExecCurrentLoad (path : List UInt8) (argv : List (Option (List UInt8)))
    (ehdr : Elf.Ehdr) (cr3 : BitVec 64) :
    KeepsTask t k (k.elfExecCurrentLoad path argv ehdr cr3) := by
  have hmm (mm : Mm.State) : KeepsTask t k { k.preemptDisable with mm := mm } := .of_eq rfl rfl
  have hne' (mm : Mm.State) : ({ k.preemptDisable with mm := mm } : Kernel).current ≠ t := hne
  unfold elfExecCurrentLoad
  split
  · exact .of_eq rfl rfl
  · split
    · exact (hmm _).trans (keepsTask_leaveToRoot (hne' _) _)
    · exact (hmm _).trans (keepsTask_commit (hne' _) _ _ _ _)
  · exact (hmm _).trans (keepsTask_leaveToRoot (hne' _) _)

theorem keepsTask_elfExecLoad (hlive : (k.tasks t).Live) (path : List UInt8)
    (argv : List (Option (List UInt8))) (ehdr : Elf.Ehdr) (cr3 : BitVec 64) (kstack : Option ℕ) :
    KeepsTask t k (k.elfExecLoad path argv ehdr cr3 kstack) := by
  have hmm (mm : Mm.State) : KeepsTask t k { k.preemptDisable with mm := mm } := .of_eq rfl rfl
  unfold elfExecLoad
  split
  · exact .of_eq rfl rfl
  case h_2 mm _ =>
    dsimp only
    generalize hcreate : taskCreateUser { k.preemptDisable with mm := mm } ehdr.eEntry path cr3
      argv kstack = created
    obtain ⟨pid, k₁⟩ := created
    obtain ⟨hkeeps, hcurrent⟩ := keepsTask_taskCreateUser
      (k := { k.preemptDisable with mm := mm }) hlive hcreate
    have hne₁ : k₁.current ≠ t := hcurrent ▸ hne
    exact (hmm mm).trans (hkeeps.trans (keepsTask_leaveToRoot hne₁ _))
  case h_3 mm _ _ =>
    exact (hmm mm).trans (keepsTask_leaveToRoot (k := { k.preemptDisable with mm := mm }) hne _)

end OtherTask

/-- The step is not one of the task's: a timer interrupt, or a step of another task. -/
def Waits (t : TaskId) (k : Kernel) : Op → Prop
  | .tick _ => True
  | _ => k.current ≠ t

instance (t : TaskId) (k : Kernel) : DecidablePred (Waits t k)
  | .tick _ => isTrue trivial
  | .exit _ | .exec .. | .load _ | .close => inferInstanceAs (Decidable (_ ≠ _))

theorem keepsTask_step (hlive : (k.tasks t).Live) {op : Op} (h : Waits t k op) :
    KeepsTask t k (k.step op) := by
  unfold step
  split
  · exact .refl t k
  cases op with
  | tick frameRsp => exact k.keepsTask_schedTick frameRsp
  | exit status =>
    dsimp only
    split
    · exact .refl t k
    · exact keepsTask_taskExit h status
  | exec path argv file =>
    dsimp only
    split
    · exact .refl t k
    · exact keepsTask_execOpen h path argv file
  | load kstack =>
    dsimp only
    split
    · split
      · exact keepsTask_elfExecLoad h hlive _ _ _ _ kstack
      · exact keepsTask_elfExecCurrentLoad h _ _ _ _
    · exact .refl t k
  | close =>
    dsimp only
    split
    · exact keepsTask_closeElf h _
    · exact .refl t k

theorem keepsTask_run (hlive : (k.tasks t).Live) {ops : List Op} (h : Meets (Waits t) k ops) :
    KeepsTask t k (k.run ops) := by
  refine run_induction (P := KeepsTask t k) (.refl t k) ?_ h
  intro k' op hop hkeeps
  exact hkeeps.trans (keepsTask_step (hkeeps.live hlive) hop)

end ToastyUnix.Sched.Kernel
