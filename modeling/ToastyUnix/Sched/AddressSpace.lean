import ToastyUnix.Elf.Safety
import ToastyUnix.Sched.Kernel
import ToastyUnix.Vfs.Namespace

/-!
# The loaded address space

Between two steps the loaded address space should be the one of the current task. Five pieces of
code load a space: the switches of `sched_tick` and `task_exit` load the one of the task they
resume, `elf_exec` and `elf_exec_current` load the new space, and their error exits load the root
space. The root space is the shell's, so this is right for `elf_exec`. It is wrong for
`elf_exec_current`: a program whose `execve` fails in `el_load` or in `exec_build_stack` goes on in
the root space (`execve_returns_in_root_space`). In every run without such a failure the loaded
space is the current task's, and in every run a failed `execve` leaves the image of the task alone
(`loaded_space_of_current`).
-/

namespace ToastyUnix

open Mm Paging Errno
open Vfs (TaskId)

/-! ## Loading keeps the loaded space -/

namespace Elf.Load

theorem sameSpace_copy (load : Load) (virt : ℕ) (bytes : List UInt8) :
    State.SameSpace load.mm (load.copy virt bytes).2.mm := by
  induction bytes generalizing load virt with
  | nil => exact .refl load.mm
  | cons b bytes ih =>
    simp only [copy]
    split
    case h_1 => exact .refl load.mm
    case h_2 mm hstore =>
      have hrest := ih { load with mm := mm, written := virt :: load.written } (wrap (virt + 1))
      exact (State.sameSpace_storeByte hstore).trans hrest

theorem sameSpace_segment (src : Source) (cr3 : BitVec 64) (ph : Phdr) (load : Load) :
    State.SameSpace load.mm (segment src cr3 ph load).2.mm := by
  have halloc := load.mm.sameSpace_tusAlloc cr3 ph.pVaddr ph.pMemsz
  simp only [segment, clear_eq_copy]
  split
  case isTrue => exact halloc
  case isFalse =>
    apply halloc.trans
    have hcopy := sameSpace_copy
      { load with
        mm := (load.mm.tusAlloc cr3 ph.pVaddr ph.pMemsz).2
        segments := (ph.pVaddr, ph.pMemsz) :: load.segments }
      (load.mm.tusAlloc cr3 ph.pVaddr ph.pMemsz).1 (src.pread ph.pFilesz ph.pOffset).2
    split
    case h_1 load1 heq =>
      rw [heq] at hcopy
      exact hcopy
    case h_2 load1 heq =>
      rw [heq] at hcopy
      apply hcopy.trans
      split
      case isTrue => exact .refl load1.mm
      case isFalse =>
        have hclear := load1.sameSpace_copy
          (wrap ((load.mm.tusAlloc cr3 ph.pVaddr ph.pMemsz).1 + ph.pFilesz))
          (List.replicate (wrap (ph.pMemsz + (2 ^ 64 - ph.pFilesz))) 0)
        split
        case h_1 load2 heq2 =>
          rw [heq2] at hclear
          exact hclear
        case h_2 load2 heq2 =>
          rw [heq2] at hclear
          exact hclear

theorem sameSpace_loop (src : Source) (cr3 : BitVec 64) (ehdr : Ehdr) (fuel i : ℕ) (load : Load) :
    State.SameSpace load.mm (loop src cr3 ehdr fuel i load).2.mm := by
  induction fuel generalizing i load with
  | zero => exact .refl load.mm
  | succ fuel ih =>
    simp only [loop]
    split
    case h_1 => exact .refl load.mm
    case h_2 => exact .refl load.mm
    case h_3 j ph _ =>
      have hsegment := sameSpace_segment src cr3 ph load
      split
      case h_1 outcome load1 heq =>
        rw [heq] at hsegment
        exact hsegment
      case h_2 load1 heq =>
        rw [heq] at hsegment
        exact hsegment.trans (ih _ _)

end Elf.Load

namespace Sched

theorem sameSpace_buildStack (s : State) (cr3 : BitVec 64) (args : List (List UInt8)) :
    State.SameSpace s (buildStack s cr3 args).2 := by
  have hmap := s.sameSpace_mapStackLoop cr3 (USER_STACK_SIZE / 4096) USER_STACK_BASE
  unfold buildStack
  split
  case h_1 s1 heq =>
    rw [State.mapStack] at heq
    rw [heq] at hmap
    exact hmap
  case h_2 s1 heq =>
    rw [State.mapStack] at heq
    rw [heq] at hmap
    have htranslate := hmap.trans
      (s1.sameSpace_vmmTranslateIn cr3 (USER_STACK_BASE + USER_STACK_SIZE - 4096))
    dsimp only
    split
    · exact htranslate
    · split
      · exact htranslate
      · exact ⟨htranslate.cr3, htranslate.rootCr3⟩

/-- The fields of a task that describe its program. -/
structure Image where
  cr3 : BitVec 64
  ustack : ℕ
  ustackTop : ℕ
  uid : BitVec 32
  euid : BitVec 32
  gid : BitVec 32
  egid : BitVec 32
  mmapCur : ℕ
  frame : Frame
  deriving DecidableEq

def Task.image (t : Task) : Image :=
  ⟨t.cr3, t.ustack, t.ustackTop, t.uid, t.euid, t.gid, t.egid, t.mmapCur, t.frame⟩

namespace Kernel

variable {k k' k'' : Kernel}

theorem load_space (k : Kernel) (ehdr : Elf.Ehdr) (cr3 : BitVec 64) :
    (k.load ehdr cr3).2.cr3 = cr3 ∧ (k.load ehdr cr3).2.rootCr3 = k.mm.rootCr3 := by
  have hload := Elf.Load.sameSpace_loop ⟨k.fs, k.elfFd⟩ cr3 ehdr (ehdr.ePhnum + 1) 0
    ⟨k.mm.vmmSpaceSwitch cr3, [], []⟩
  exact ⟨hload.cr3, hload.rootCr3⟩

/-! ## What the steps do to the task table -/

/-- Live tasks stay live, and they and the shell keep their images. -/
structure KeepsImages (k k' : Kernel) : Prop where
  rootCr3 : k'.mm.rootCr3 = k.mm.rootCr3
  image : ∀ t, t = shell ∨ (k.tasks t).Live → (k'.tasks t).image = (k.tasks t).image
  live : ∀ t, (k.tasks t).Live → (k'.tasks t).Live

theorem KeepsImages.trans (h : KeepsImages k k') (h' : KeepsImages k' k'') : KeepsImages k k'' where
  rootCr3 := h'.rootCr3.trans h.rootCr3
  image t ht := (h'.image t (ht.imp_right (h.live t))).trans (h.image t ht)
  live t ht := h'.live t (h.live t ht)

theorem KeepsImages.of_tasks (htasks : k'.tasks = k.tasks) (hroot : k'.mm.rootCr3 = k.mm.rootCr3) :
    KeepsImages k k' :=
  ⟨hroot, fun t _ ↦ by rw [htasks], fun t ht ↦ by rwa [htasks]⟩

variable {t : TaskId} {cr3 : BitVec 64} {argv : List (Option (List UInt8))} {kstack : Option ℕ}
  {path : List UInt8} {ehdr : Elf.Ehdr}

theorem keepsImages_updateTask {f : Task → Task}
    (himage : t = shell ∨ (k.tasks t).Live → (f (k.tasks t)).image = (k.tasks t).image)
    (hlive : (k.tasks t).Live → (f (k.tasks t)).Live) : KeepsImages k (k.updateTask t f) where
  rootCr3 := rfl
  image u hu := by
    by_cases heq : u = t
    · subst heq
      simpa [updateTask] using himage hu
    · simp [updateTask, heq]
  live u hu := by
    by_cases heq : u = t
    · subst heq
      simpa [updateTask] using hlive hu
    · simpa [updateTask, heq] using hu

theorem keepsImages_updateTask_dead (hne : t ≠ shell) (hdead : ¬(k.tasks t).Live)
    (f : Task → Task) : KeepsImages k (k.updateTask t f) :=
  keepsImages_updateTask (fun h ↦ absurd h (not_or_intro hne hdead)) fun h ↦ absurd h hdead

theorem keepsImages_setCall (k : Kernel) (call : Call) : KeepsImages k (k.setCall call) :=
  keepsImages_updateTask (fun _ ↦ rfl) id

theorem keepsImages_switchTo (k : Kernel) (next : TaskId) : KeepsImages k (k.switchTo next) := by
  have hstate : KeepsImages k (k.updateTask next fun t ↦ { t with state := .running }) :=
    keepsImages_updateTask (fun _ ↦ rfl) fun _ ↦ .inr rfl
  exact hstate.trans (.of_tasks rfl rfl)

theorem keepsImages_schedTick (k : Kernel) (frameRsp : ℕ) : KeepsImages k (k.schedTick frameRsp) := by
  have hsave : KeepsImages k (k.updateTask k.current fun t ↦ { t with rsp := frameRsp }) :=
    keepsImages_updateTask (fun _ ↦ rfl) id
  unfold schedTick
  split
  · exact .of_tasks rfl rfl
  · split
    · exact .of_tasks rfl rfl
    · dsimp only
      split
      · exact hsave
      · apply hsave.trans
        refine KeepsImages.trans ?_ (keepsImages_switchTo _ _)
        exact keepsImages_updateTask (fun _ ↦ rfl) fun _ ↦ .inl rfl

theorem keepsImages_closeElf (k : Kernel) (result : ℤ) : KeepsImages k (k.closeElf result) := by
  have hclose : KeepsImages k { k with vfs := (Vfs.vfsClose k.fs k.elfFd).2 } := .of_tasks rfl rfl
  exact hclose.trans (keepsImages_setCall _ _)

/-- The image is open, and a space may have been made. -/
def opened (k : Kernel) (path : Option (List UInt8)) (file : Option Vfs.Addr) (mm : State) : Kernel :=
  { k with
    mm := mm
    vfs := (Vfs.vfsOpen k.fs path Vfs.O_RDONLY none file).2
    elfFd := (Vfs.vfsOpen k.fs path Vfs.O_RDONLY none file).1 }

/-- Both functions up to `preempt_disable` fail, or go on to load the image. -/
theorem execOpen_cases (k : Kernel) (path : Option (List UInt8))
    (argv : List (Option (List UInt8))) (file : Option Vfs.Addr) :
    k.execOpen path argv file = k.setCall (.returned (-EINVAL)) ∨
    ∃ p mm, path = some p ∧ State.SameSpace k.mm mm ∧
      ((∃ r < 0, k.execOpen path argv file = (k.opened path file mm).setCall (.returned r) ∨
          k.execOpen path argv file = (k.opened path file mm).closeElf r) ∨
        0 ≤ (k.opened path file mm).elfFd ∧ ∃ ehdr cr3, k.execOpen path argv file =
          (k.opened path file mm).setCall (.loading p argv ehdr cr3)) := by
  cases path with
  | none => exact .inl rfl
  | some path =>
    have hclone := k.mm.sameSpace_vmmSpaceClone
    refine .inr ?_
    rw [execOpen]
    dsimp only
    split
    case isTrue hfd => exact ⟨path, k.mm, rfl, .refl _, .inl ⟨_, hfd, .inl rfl⟩⟩
    split
    · exact ⟨path, k.mm, rfl, .refl _, .inl ⟨-EACCES, by decide, .inr rfl⟩⟩
    split
    · exact ⟨path, k.mm, rfl, .refl _, .inl ⟨-ENOEXEC, by decide, .inr rfl⟩⟩
    split
    · exact ⟨path, _, rfl, hclone, .inl ⟨-ENOMEM, by decide, .inr rfl⟩⟩
    case isFalse hfd _ _ _ _ _ =>
      exact ⟨path, _, rfl, hclone, .inr ⟨not_lt.mp hfd, _, _, rfl⟩⟩

theorem keepsImages_execOpen (k : Kernel) (path : Option (List UInt8))
    (argv : List (Option (List UInt8))) (file : Option Vfs.Addr) :
    KeepsImages k (k.execOpen path argv file) ∧
      (k.execOpen path argv file).current = k.current ∧
      (k.execOpen path argv file).mm.cr3 = k.mm.cr3 := by
  obtain heq | ⟨p, mm, -, hspace, hcases⟩ := k.execOpen_cases path argv file
  · rw [heq]
    exact ⟨keepsImages_setCall k _, rfl, rfl⟩
  have hopen : KeepsImages k (k.opened path file mm) := .of_tasks rfl hspace.rootCr3
  obtain ⟨r, -, heq | heq⟩ | ⟨-, ehdr, cr3, heq⟩ := hcases <;> rw [heq]
  · exact ⟨hopen.trans (keepsImages_setCall _ _), rfl, hspace.cr3⟩
  · exact ⟨hopen.trans (keepsImages_closeElf _ _), rfl, hspace.cr3⟩
  · exact ⟨hopen.trans (keepsImages_setCall _ _), rfl, hspace.cr3⟩

/-- The slot of a new task was not in use. -/
theorem keepsImages_taskFindSlot {slot : Option TaskId} (hshell : (k.tasks shell).Live)
    (h : k.taskFindSlot = (slot, k')) :
    KeepsImages k k' ∧ k'.current = k.current ∧ ∀ i ∈ slot, i ≠ shell ∧ ¬(k'.tasks i).Live := by
  have hne : ∀ {j}, ¬(k.tasks j).Live → j ≠ shell := by
    rintro j hdead rfl
    exact hdead hshell
  unfold taskFindSlot at h
  split at h
  case h_1 j hfind =>
    obtain ⟨rfl, rfl⟩ := Prod.mk.inj h
    have hzombie : (k.tasks j).state = .zombie := by simpa using List.find?_some hfind
    have hdead : ¬(k.tasks j).Live := by simp [Task.Live, hzombie]
    have hclear : KeepsImages k (k.updateTask j fun _ ↦ .zero) :=
      keepsImages_updateTask_dead (hne hdead) hdead _
    refine ⟨hclear.trans (.of_tasks rfl rfl), rfl, fun i hi ↦ ?_⟩
    obtain rfl := Option.some.inj hi
    exact ⟨hne hdead, by simp [updateTask, Task.Live, Task.zero]⟩
  case h_2 =>
    obtain ⟨rfl, rfl⟩ := Prod.mk.inj h
    refine ⟨.of_tasks rfl rfl, rfl, fun i hfind ↦ ?_⟩
    have hunused : (k.tasks i).state = .unused := by simpa using List.find?_some hfind
    have hdead : ¬(k.tasks i).Live := by simp [Task.Live, hunused]
    exact ⟨hne hdead, hdead⟩

theorem keepsImages_taskCreateUser {entry : ℕ} {name : List UInt8} {pid : ℤ}
    (hshell : (k.tasks shell).Live) (h : k.taskCreateUser entry name cr3 argv kstack = (pid, k')) :
    KeepsImages k k' ∧ k'.current = k.current := by
  obtain ⟨slot, k₁, hslot, hcases⟩ := taskCreateUser_cases h
  obtain ⟨hkeeps, hcurrent, hfree⟩ := keepsImages_taskFindSlot hshell hslot
  have hstack := sameSpace_buildStack k₁.mm cr3 (stackArgs name argv)
  obtain ⟨-, mm, hmm, rfl⟩ | ⟨i, hi, stack, rsp, k₂, rfl, -, rfl⟩ := hcases
  · have hroot : mm.rootCr3 = k₁.mm.rootCr3 := by
      rcases hmm with rfl | rfl
      · rfl
      · exact hstack.rootCr3
    exact ⟨hkeeps.trans (.of_tasks rfl hroot), hcurrent⟩
  · have hstart := keepsImages_updateTask_dead (hfree i hi).1 (hfree i hi).2
      (·.start k₁.nextPid entry name cr3 stack rsp)
    exact ⟨(hkeeps.trans hstart).trans (.of_tasks rfl hstack.rootCr3), hcurrent⟩

/-- Other live tasks stay live with their images, and the shell keeps its address space. -/
structure KeepsOthers (k k' : Kernel) : Prop where
  rootCr3 : k'.mm.rootCr3 = k.mm.rootCr3
  shellCr3 : (k'.tasks shell).cr3 = (k.tasks shell).cr3
  others : ∀ t ≠ k.current, (k.tasks t).Live →
    (k'.tasks t).Live ∧ (k'.tasks t).image = (k.tasks t).image

theorem KeepsImages.keepsOthers (h : KeepsImages k k') : KeepsOthers k k' where
  rootCr3 := h.rootCr3
  shellCr3 := congrArg Image.cr3 (h.image shell (.inl rfl))
  others t _ ht := ⟨h.live t ht, h.image t (.inr ht)⟩

/-- The current task can go on in its own address space. -/
def Resumed (k : Kernel) : Prop :=
  (k.tasks k.current).Live ∧ k.mm.cr3 = (k.tasks k.current).cr3

theorem resumed_switchTo (k : Kernel) (next : TaskId) : (k.switchTo next).Resumed := by
  refine ⟨.inr ?_, rfl⟩
  simp [switchTo, switchSpace, updateTask]

theorem schedTick_resumed (k : Kernel) (frameRsp : ℕ) :
    (k.schedTick frameRsp).Resumed ∨
      ((k.schedTick frameRsp).current = k.current ∧ (k.schedTick frameRsp).mm.cr3 = k.mm.cr3) := by
  unfold schedTick
  split
  · exact .inr ⟨rfl, rfl⟩
  · split
    · exact .inr ⟨rfl, rfl⟩
    · dsimp only
      split
      · exact .inr ⟨rfl, rfl⟩
      · exact .inl (resumed_switchTo _ _)

theorem keepsOthers_taskExit (k : Kernel) (status : ℤ) : KeepsOthers k (k.taskExit status) := by
  let k1 := k.updateTask k.current fun t ↦ { t with state := .zombie, exitStatus := status }
  have hexit : KeepsOthers k k1 := by
    refine ⟨rfl, ?_, fun t ht hlive ↦ ?_⟩
    · by_cases hshell : shell = k.current
      · simp [k1, updateTask, hshell]
      · simp [k1, updateTask, hshell]
    · simpa [k1, updateTask, ht] using hlive
  have hrest : KeepsImages k1 (k.taskExit status) := by
    unfold taskExit
    dsimp only
    split
    · exact .of_tasks rfl rfl
    · have hclose : KeepsImages k1 { k1 with vfs := Vfs.vfsCloseAll k1.fs } := .of_tasks rfl rfl
      exact hclose.trans (keepsImages_switchTo _ _)
  refine ⟨hrest.rootCr3.trans hexit.rootCr3, hrest.keepsOthers.shellCr3.trans hexit.shellCr3, ?_⟩
  intro t ht hlive
  obtain ⟨hlive1, himage1⟩ := hexit.others t ht hlive
  exact ⟨hrest.live t hlive1, (hrest.image t (.inr hlive1)).trans himage1⟩

theorem taskExit_resumed (k : Kernel) (status : ℤ) :
    (k.taskExit status).halted = true ∨ (k.taskExit status).Resumed := by
  unfold taskExit
  dsimp only
  split
  · exact .inl rfl
  · exact .inr (resumed_switchTo _ _)

theorem keepsImages_leaveToRoot (k : Kernel) (result : ℤ) :
    KeepsImages k (k.leaveToRoot result) := by
  have hswitch : KeepsImages k (k.switchSpace k.mm.rootCr3).preemptEnable := .of_tasks rfl rfl
  exact hswitch.trans (keepsImages_setCall _ _)

/-- `elf_exec` returns to the root space. -/
theorem elfExecLoad_effect (hshell : (k.tasks shell).Live)
    (h : k.elfExecLoad path argv ehdr cr3 kstack = k') :
    KeepsImages k k' ∧
      (k'.halted = true ∨ (k'.current = k.current ∧ k'.mm.cr3 = k.mm.rootCr3)) := by
  have hroot := (k.load_space ehdr cr3).2
  unfold elfExecLoad at h
  split at h
  case h_1 mm heq =>
    rw [heq] at hroot
    subst h
    exact ⟨.of_tasks rfl hroot, .inl rfl⟩
  case h_2 mm heq =>
    rw [heq] at hroot
    have hload : KeepsImages k { k.preemptDisable with mm := mm } := .of_tasks rfl hroot
    generalize hcreate : Kernel.taskCreateUser _ _ _ _ _ _ = created at h
    obtain ⟨pid, k1⟩ := created
    obtain ⟨hkeeps, hcurrent⟩ := keepsImages_taskCreateUser
      (k := { k.preemptDisable with mm := mm }) hshell hcreate
    subst h
    have hkept := hload.trans hkeeps
    exact ⟨hkept.trans (keepsImages_leaveToRoot k1 _), .inr ⟨hcurrent, hkept.rootCr3⟩⟩
  case h_3 mm _ heq =>
    rw [heq] at hroot
    have hload : KeepsImages k { k.preemptDisable with mm := mm } := .of_tasks rfl hroot
    subst h
    exact ⟨hload.trans (keepsImages_leaveToRoot _ _), .inr ⟨rfl, hroot⟩⟩

/-- `el_load` or `exec_build_stack` fails. -/
def loadFails (k : Kernel) (path : List UInt8) (argv : List (Option (List UInt8)))
    (ehdr : Elf.Ehdr) (cr3 : BitVec 64) : Bool :=
  match k.load ehdr cr3 with
  | (.faulted, _) => false
  | (.returned .EL_OK, mm) => (buildStack mm cr3 (stackArgs path argv)).1 = 0
  | (.returned _, _) => true

/-- The step is the load of an `execve` that fails. -/
def execveFails (k : Kernel) : Op → Bool
  | .load _ =>
    match (k.tasks k.current).call with
    | .loading path argv ehdr cr3 => k.current ≠ shell && k.loadFails path argv ehdr cr3
    | _ => false
  | _ => false

/-- The current task continues in the new space. -/
theorem commit_effect (hne : k.current ≠ shell) (hlive : (k.tasks k.current).Live)
    (path : List UInt8) (ehdr : Elf.Ehdr) (cr3 : BitVec 64) (rsp : ℕ) :
    KeepsOthers k (k.commit path ehdr cr3 rsp) ∧ (k.commit path ehdr cr3 rsp).Resumed ∧
      ((k.commit path ehdr cr3 rsp).tasks k.current).call = .returned 0 := by
  have hself : (k.commit path ehdr cr3 rsp).tasks k.current =
      (k.tasks k.current).replace ehdr.eEntry (baseLoop path path) cr3 rsp := by
    simp [commit, preemptEnable, updateTask, switchSpace]
  have hother : ∀ t ≠ k.current, (k.commit path ehdr cr3 rsp).tasks t = k.tasks t := by
    intro t ht
    simp [commit, preemptEnable, updateTask, switchSpace, ht]
  refine ⟨⟨rfl, ?_, fun t ht hlive ↦ ?_⟩, ⟨?_, ?_⟩, ?_⟩
  · rw [hother shell hne.symm]
  · rw [hother t ht]
    exact ⟨hlive, rfl⟩
  · exact hself ▸ hlive
  · exact (congrArg Task.cr3 hself).symm
  · rw [hself]
    rfl

theorem elfExecCurrentLoad_effect (hne : k.current ≠ shell) (hlive : (k.tasks k.current).Live)
    (h : k.elfExecCurrentLoad path argv ehdr cr3 = k') :
    (KeepsImages k k' ∧ (k'.halted = true ∨
      (k'.current = k.current ∧ k.loadFails path argv ehdr cr3 = true))) ∨
    (KeepsOthers k k' ∧ k'.Resumed ∧ (k'.tasks k.current).call = .returned 0) := by
  have hroot := (k.load_space ehdr cr3).2
  unfold elfExecCurrentLoad at h
  split at h
  case h_1 mm heq =>
    rw [heq] at hroot
    subst h
    exact .inl ⟨.of_tasks rfl hroot, .inl rfl⟩
  case h_2 mm heq =>
    rw [heq] at hroot
    have hstack := sameSpace_buildStack mm cr3 (stackArgs path argv)
    split at h
    case h_1 mm' hbuild =>
      rw [hbuild] at hstack
      have hload : KeepsImages k { k.preemptDisable with mm := mm' } :=
        .of_tasks rfl (hstack.rootCr3.trans hroot)
      have hfails : k.loadFails path argv ehdr cr3 = true := by
        simp [loadFails, heq, hbuild]
      subst h
      exact .inl ⟨hload.trans (keepsImages_leaveToRoot _ _), .inr ⟨rfl, hfails⟩⟩
    case h_2 rsp mm' _ hbuild =>
      rw [hbuild] at hstack
      obtain ⟨hothers, hresumed, hcall⟩ := commit_effect
        (k := { k.preemptDisable with mm := mm' }) hne hlive path ehdr cr3 rsp
      subst h
      exact .inr ⟨⟨hothers.rootCr3.trans (hstack.rootCr3.trans hroot), hothers.shellCr3,
        hothers.others⟩, hresumed, hcall⟩
  case h_3 st mm hst heq =>
    rw [heq] at hroot
    have hload : KeepsImages k { k.preemptDisable with mm := mm } := .of_tasks rfl hroot
    have hfails : k.loadFails path argv ehdr cr3 = true := by
      rw [loadFails, heq]
      cases st with
      | EL_OK => exact absurd rfl hst
      | _ => rfl
    subst h
    exact .inl ⟨hload.trans (keepsImages_leaveToRoot _ _), .inr ⟨rfl, hfails⟩⟩

/-- What a step of a machine that runs can do. -/
theorem step_cases (hlive : (k.tasks k.current).Live) (hrun : k.halted = false) (op : Op)
    (h : k.step op = k') :
    (KeepsImages k k' ∧ (k'.halted = true ∨ k'.Resumed ∨
      (k'.current = k.current ∧ (k'.mm.cr3 = k.mm.cr3 ∨
        (k.current = shell ∧ k'.mm.cr3 = k.mm.rootCr3) ∨ k.execveFails op = true)))) ∨
    (KeepsOthers k k' ∧ ¬(k.tasks k.current).call.Pending ∧ (k'.halted = true ∨ k'.Resumed)) ∨
    (KeepsOthers k k' ∧ k'.Resumed ∧ (k'.tasks k.current).call = .returned 0) := by
  have hidle : k = k' → KeepsImages k k' ∧ k'.current = k.current ∧ k'.mm.cr3 = k.mm.cr3 := by
    rintro rfl
    exact ⟨.of_tasks rfl rfl, rfl, rfl⟩
  have hstays : KeepsImages k k' ∧ k'.current = k.current ∧ k'.mm.cr3 = k.mm.cr3 →
      KeepsImages k k' ∧ (k'.halted = true ∨ k'.Resumed ∨
        (k'.current = k.current ∧ (k'.mm.cr3 = k.mm.cr3 ∨
          (k.current = shell ∧ k'.mm.cr3 = k.mm.rootCr3) ∨ k.execveFails op = true))) :=
    fun ⟨hkeeps, hcurrent, hcr3⟩ ↦ ⟨hkeeps, .inr (.inr ⟨hcurrent, .inl hcr3⟩)⟩
  unfold step at h
  rw [hrun] at h
  simp only [Bool.false_eq_true, if_false] at h
  cases op with
  | tick frameRsp =>
    subst h
    refine .inl ⟨keepsImages_schedTick k frameRsp, .inr ?_⟩
    exact (k.schedTick_resumed frameRsp).imp_right fun ⟨hcurrent, hcr3⟩ ↦ ⟨hcurrent, .inl hcr3⟩
  | exit status =>
    dsimp only at h
    split at h
    case isTrue => exact .inl (hstays (hidle h))
    case isFalse hpending =>
      subst h
      exact .inr (.inl ⟨k.keepsOthers_taskExit status, hpending, k.taskExit_resumed status⟩)
  | exec path argv file =>
    dsimp only at h
    split at h
    case isTrue => exact .inl (hstays (hidle h))
    case isFalse =>
      subst h
      exact .inl (hstays (k.keepsImages_execOpen path argv file))
  | close =>
    dsimp only at h
    split at h
    case h_1 result _ =>
      subst h
      exact .inl (hstays ⟨k.keepsImages_closeElf result, rfl, rfl⟩)
    case h_2 => exact .inl (hstays (hidle h))
  | load kstack =>
    dsimp only at h
    split at h
    case h_2 => exact .inl (hstays (hidle h))
    case h_1 path argv ehdr cr3 hcall =>
      split at h
      case isTrue hshell =>
        obtain ⟨hkeeps, hspace⟩ := elfExecLoad_effect (hshell ▸ hlive) h
        refine .inl ⟨hkeeps, hspace.imp_right fun ⟨hcurrent, hcr3⟩ ↦ .inr ⟨hcurrent, ?_⟩⟩
        exact .inr (.inl ⟨hshell, hcr3⟩)
      case isFalse hshell =>
        rcases elfExecCurrentLoad_effect hshell hlive h with ⟨hkeeps, hspace⟩ | hcommit
        · refine .inl ⟨hkeeps, hspace.imp_right fun ⟨hcurrent, hfails⟩ ↦ .inr ⟨hcurrent, ?_⟩⟩
          exact .inr (.inr (by simp [execveFails, hcall, hshell, hfails]))
        · exact .inr (.inr hcommit)

/-- The current task can run, and the shell has the root space. -/
structure Scheduled (k : Kernel) : Prop where
  live : (k.tasks k.current).Live
  root : (k.tasks shell).cr3 = k.mm.rootCr3

theorem scheduled_step (h : k.halted = false → Scheduled k) (op : Op)
    (hrun : (k.step op).halted = false) : Scheduled (k.step op) := by
  cases hhalted : k.halted with
  | true => simp [step, hhalted] at hrun
  | false =>
    obtain ⟨hlive, hroot⟩ := h hhalted
    have hshell : KeepsOthers k (k.step op) →
        ((k.step op).tasks shell).cr3 = (k.step op).mm.rootCr3 := fun hkeeps ↦ by
      rw [hkeeps.shellCr3, hkeeps.rootCr3, hroot]
    rcases step_cases hlive hhalted op rfl with
      ⟨hkeeps, hhalts | hresumed | ⟨hcurrent, _⟩⟩ | ⟨hkeeps, _, hhalts | hresumed⟩ |
      ⟨hkeeps, hresumed, _⟩
    · simp [hrun] at hhalts
    · exact ⟨hresumed.1, hshell hkeeps.keepsOthers⟩
    · exact ⟨hcurrent ▸ hkeeps.live _ hlive, hshell hkeeps.keepsOthers⟩
    · simp [hrun] at hhalts
    · exact ⟨hresumed.1, hshell hkeeps⟩
    · exact ⟨hresumed.1, hshell hkeeps⟩

/-- The loaded space stays the current task's, unless an `execve` fails after its switch to the new
space. -/
theorem loaded_step (h : Scheduled k) (hrun : k.halted = false)
    (hloaded : k.mm.cr3 = (k.tasks k.current).cr3) (op : Op) (hop : k.execveFails op = false) :
    (k.step op).halted = true ∨
      (k.step op).mm.cr3 = ((k.step op).tasks (k.step op).current).cr3 := by
  rcases step_cases h.live hrun op rfl with
    ⟨hkeeps, hhalts | hresumed | ⟨hcurrent, hspace⟩⟩ | ⟨_, _, hhalts | hresumed⟩ |
    ⟨_, hresumed, _⟩
  · exact .inl hhalts
  · exact .inr hresumed.2
  · have hcr3 : ((k.step op).tasks (k.step op).current).cr3 = (k.tasks k.current).cr3 := by
      rw [hcurrent]
      exact congrArg Image.cr3 (hkeeps.image k.current (.inr h.live))
    right
    rw [hcr3]
    rcases hspace with hsame | ⟨hshell, hroot⟩ | hfails
    · rw [hsame, hloaded]
    · rw [hroot, hshell, h.root]
    · simp [hop] at hfails
  · exact .inl hhalts
  · exact .inr hresumed.2
  · exact .inr hresumed.2

/-- While a task is inside `execve`, its image stays until the call has succeeded. -/
theorem image_step (h : k.halted = false → Scheduled k) (hlive : (k.tasks t).Live)
    (hpending : (k.tasks t).call.Pending) (op : Op) :
    (((k.step op).tasks t).Live ∧ ((k.step op).tasks t).image = (k.tasks t).image) ∨
      ((k.step op).tasks t).call = .returned 0 := by
  cases hhalted : k.halted with
  | true =>
    have hsame : k.step op = k := by simp [step, hhalted]
    rw [hsame]
    exact .inl ⟨hlive, rfl⟩
  | false =>
    rcases step_cases (h hhalted).live hhalted op rfl with
      ⟨hkeeps, _⟩ | ⟨hkeeps, hidle, _⟩ | ⟨hkeeps, _, hcall⟩
    · exact .inl ⟨hkeeps.live t hlive, hkeeps.image t (.inr hlive)⟩
    · have hne : t ≠ k.current := by
        rintro rfl
        exact hidle hpending
      exact .inl (hkeeps.others t hne hlive)
    · by_cases heq : t = k.current
      · exact .inr (heq ▸ hcall)
      · exact .inl (hkeeps.others t heq hlive)

theorem scheduled_schedInit (mm : State) (vfs : Vfs.State) (kstack : ℕ) :
    Scheduled (schedInit mm vfs kstack) :=
  ⟨.inr (by simp [schedInit]), by simp [schedInit]⟩

theorem scheduled_run (mm : State) (vfs : Vfs.State) (kstack : ℕ) (ops : List Op) :
    ((schedInit mm vfs kstack).run ops).halted = false →
      Scheduled ((schedInit mm vfs kstack).run ops) :=
  run_induction (P := fun k ↦ k.halted = false → Scheduled k)
    (fun _ ↦ scheduled_schedInit mm vfs kstack) (fun _ op _ h ↦ scheduled_step h op)
    (.of_forall (fun _ _ ↦ trivial) _ ops)

theorem loaded_run {mm : State} {vfs : Vfs.State} {kstack : ℕ} {ops : List Op}
    (hroot : mm.cr3 = mm.rootCr3)
    (hops : Meets (fun k op ↦ k.execveFails op = false) (schedInit mm vfs kstack) ops) :
    ((schedInit mm vfs kstack).run ops).halted = true ∨
      ((schedInit mm vfs kstack).run ops).mm.cr3 =
        (((schedInit mm vfs kstack).run ops).tasks
          ((schedInit mm vfs kstack).run ops).current).cr3 := by
  have hinit : (schedInit mm vfs kstack).mm.cr3 =
      ((schedInit mm vfs kstack).tasks (schedInit mm vfs kstack).current).cr3 := by
    simpa [schedInit] using hroot
  have hrun := run_induction
    (P := fun k ↦ (k.halted = false → Scheduled k) ∧
      (k.halted = true ∨ k.mm.cr3 = (k.tasks k.current).cr3))
    ⟨fun _ ↦ scheduled_schedInit mm vfs kstack, .inr hinit⟩ ?_ hops
  · exact hrun.2
  · rintro k op hop ⟨hscheduled, hloaded⟩
    refine ⟨scheduled_step hscheduled op, ?_⟩
    cases hhalted : k.halted with
    | true => exact .inl (by simp [step, hhalted])
    | false =>
      have hloaded := hloaded.resolve_left (by simp [hhalted])
      exact loaded_step (hscheduled hhalted) hhalted hloaded op hop

theorem run_of_halted (h : k.halted = true) (ops : List Op) : k.run ops = k := by
  induction ops with
  | nil => rfl
  | cons op ops ih =>
    have hstep : k.step op = k := by simp [step, h]
    rw [run, List.foldl_cons, hstep]
    exact ih

/-- From call to return of `execve` the caller's image stays, whatever others do, unless the call
succeeds. -/
theorem image_execve {path : Option (List UInt8)} {file : Option Vfs.Addr} {during : List Op}
    (h : k.halted = false → Scheduled k) (hidle : ¬(k.tasks k.current).call.Pending)
    (hduring : Meets (fun k' _ ↦ (k'.tasks k.current).call.Pending)
      (k.step (.exec path argv file)) during) :
    (((k.step (.exec path argv file)).run during).tasks k.current).image =
        (k.tasks k.current).image ∨
      (((k.step (.exec path argv file)).run during).tasks k.current).call = .returned 0 := by
  cases hhalted : k.halted with
  | true =>
    have hstep : k.step (.exec path argv file) = k := by simp [step, hhalted]
    rw [hstep, run_of_halted hhalted]
    exact .inl rfl
  | false =>
    have hlive := (h hhalted).live
    have hopen : KeepsImages k (k.step (.exec path argv file)) := by
      have hstep : k.step (.exec path argv file) = k.execOpen path argv file := by
        simp [step, hhalted, hidle]
      rw [hstep]
      exact (k.keepsImages_execOpen path argv file).1
    have hrun := run_induction
      (P := fun k' ↦ (k'.halted = false → Scheduled k') ∧
        (((k'.tasks k.current).Live ∧ (k'.tasks k.current).image = (k.tasks k.current).image) ∨
          (k'.tasks k.current).call = .returned 0))
      ⟨scheduled_step h _, .inl ⟨hopen.live _ hlive, hopen.image _ (.inr hlive)⟩⟩ ?_ hduring
    · exact hrun.2.imp_left And.right
    · rintro k' op hpending ⟨hscheduled, hkept⟩
      refine ⟨scheduled_step hscheduled op, ?_⟩
      rcases hkept with ⟨hlive', himage⟩ | hreturned
      · refine (image_step hscheduled hlive' hpending op).imp_left ?_
        exact fun ⟨hlive'', himage'⟩ ↦ ⟨hlive'', himage'.trans himage⟩
      · simp [hreturned, Call.Pending] at hpending

/-- **The loaded address space is the current task's** in every run from `sched_init` on in which no
`execve` fails in `el_load` or in `exec_build_stack`, as long as the machine runs. In every run, an
`execve` that returns an error leaves the address space, the stack fields, the ids, the `mmap`
cursor and the interrupt frame of its task as they were when it was called. -/
theorem loaded_space_of_current {mm : State} (hroot : mm.cr3 = mm.rootCr3) (vfs : Vfs.State)
    (kstack : ℕ) (ops : List Op) :
    (Meets (fun k op ↦ k.execveFails op = false) (schedInit mm vfs kstack) ops →
      ((schedInit mm vfs kstack).run ops).halted = true ∨
        ((schedInit mm vfs kstack).run ops).mm.cr3 = (((schedInit mm vfs kstack).run ops).tasks
            ((schedInit mm vfs kstack).run ops).current).cr3) ∧
    ∀ k path argv file during result, k = (schedInit mm vfs kstack).run ops →
      k.current ≠ shell → ¬(k.tasks k.current).call.Pending →
      Meets (fun k' _ ↦ (k'.tasks k.current).call.Pending)
        (k.step (.exec path argv file)) during →
      (((k.step (.exec path argv file)).run during).tasks k.current).call = .returned result →
      result < 0 →
      (((k.step (.exec path argv file)).run during).tasks k.current).image =
        (k.tasks k.current).image := by
  refine ⟨loaded_run hroot, ?_⟩
  intro k path argv file during result hk _ hidle hduring hreturned hneg
  have hscheduled := scheduled_run mm vfs kstack ops
  rw [← hk] at hscheduled
  rcases image_execve hscheduled hidle hduring with himage | hsuccess
  · exact himage
  · have hzero : result = 0 := Call.returned.inj (hreturned.symm.trans hsuccess)
    omega

/-! ## A failed `execve` -/

/-- A program of one byte at `vaddr` as a file. -/
def programNode (name : UInt8) (vaddr : ℕ) : Vfs.Node :=
  { Vfs.freshNode [name] .file 0o755 none with
    data := fun i ↦ (Elf.oneByteImage vaddr).getD i 0
    size := 121
    capacity := 121 }

/-- Two programs: the segment of `a` lies at `0x400000`, that of `b` at address 0, which `el_load`
takes for a failure of `tus_alloc`. -/
def bootFiles : Vfs.State :=
  let nodes := Vfs.dirAttach (Vfs.emptyTree 0) 0 1 (programNode 97 0x400000)
  ⟨0, Vfs.dirAttach nodes 0 2 (programNode 98 0), ∅, ∅, fun _ ↦ none, none⟩

def twoPrograms : Kernel := schedInit bootMemory bootFiles 0x1000

/-- The shell starts `a`, the timer switches to it, and it calls `execve`. -/
def execveBy (program : UInt8) : List Op :=
  [.exec (some [97]) [] (some 5), .load (some 0x9000), .close, .tick 0,
    .exec (some [program]) [] (some 6), .load none, .close]

theorem loaded_space_of_current_twoPrograms :
    (twoPrograms.run (execveBy 97)).current = 1 ∧
      (twoPrograms.run (execveBy 97)).mm.cr3 =
        ((twoPrograms.run (execveBy 97)).tasks (twoPrograms.run (execveBy 97)).current).cr3 := by
  have hcurrent : (twoPrograms.run (execveBy 97)).current = 1 := by decide +kernel
  have hrun : (twoPrograms.run (execveBy 97)).halted = false := by decide +kernel
  have hops : Meets (fun k op ↦ k.execveFails op = false) twoPrograms (execveBy 97) := by
    refine ⟨?_, ?_, ?_, ?_, ?_, ?_, ?_, trivial⟩ <;> decide +kernel
  have hroot : bootMemory.cr3 = bootMemory.rootCr3 := rfl
  have hloaded := (loaded_space_of_current hroot bootFiles 0x1000 (execveBy 97)).1 hops
  rw [← twoPrograms] at hloaded
  rcases hloaded with hhalted | hloaded
  · exact absurd (hrun.symm.trans hhalted) (by decide)
  · exact ⟨hcurrent, hloaded⟩

/-- The `execve` of `b` returns `-ENOEXEC` to its caller with the root space loaded. -/
theorem execve_returns_in_root_space :
    (twoPrograms.run (execveBy 98)).halted = false ∧
    (twoPrograms.run (execveBy 98)).current = 1 ∧
    ((twoPrograms.run (execveBy 98)).tasks 1).call = .returned (-8) ∧
    (twoPrograms.run (execveBy 98)).mm.cr3 = ofFrame 1 ∧
    ((twoPrograms.run (execveBy 98)).tasks 1).cr3 = ofFrame 2 := by
  decide +kernel

end Kernel

end Sched

end ToastyUnix
