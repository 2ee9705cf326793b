import ToastyUnix.Elf.Load
import ToastyUnix.Vfs.System

/-!
# Tasks, the scheduler and program execution

`kernel/sched/sched.c` with `elf_exec` and `elf_exec_current` of `kernel/elf/tus_elf.c`, over the
memory and the file system of the other modules. System calls enter through a trap gate, so the
timer can switch tasks inside of them as well as inside the shell, but not between `preempt_disable`
and `preempt_enable`. The two functions are therefore cut into three steps, between which other
tasks may run: up to `preempt_disable`, the section without preemption, and the last `vfs_close`.
The number of the descriptor that is read, `g_elf_fd`, is shared by all of them.

The FPU state, the owner of the keyboard, messages, and the frames that the kernel heap takes are
not modelled; an allocation on the heap is a choice of the step.
-/

namespace ToastyUnix.Sched

open Mm Paging Errno
open Vfs (TaskId taskMax Addr)

def STACK_SIZE : ℕ := 16384
def FRAME_WORDS : ℕ := 20
def TASK_NAME_MAX : ℕ := 32
def AT_PAGESZ : BitVec 64 := 6
def SEL_USER_CODE : ℕ := 0x1B
def SEL_USER_DATA : ℕ := 0x23

/-- The most arguments that fit on the initial stack, program name included. -/
def EXEC_MAX_ARGS : ℕ := 16

/-- Store bytes in a frame through the direct map. -/
def putBytes (mem : Memory) (f : ℕ) : ℕ → List UInt8 → Memory
  | _, [] => mem
  | offset, b :: bytes => putBytes (mem.writeByte f offset b) f (offset + 1) bytes

/-- Copy the argument strings into a frame, downwards from `offset`: their offsets, and the lowest
one. -/
def putStrings (mem : Memory) (f : ℕ) : ℕ → List (List UInt8) → List ℕ × ℕ × Memory
  | offset, [] => ([], offset, mem)
  | offset, arg :: args =>
    let start := offset - (arg.length + 1)
    let (starts, lowest, mem) := putStrings (putBytes mem f start (arg ++ [0])) f start args
    (start :: starts, lowest, mem)

/-- Store words in a frame through the direct map. -/
def putWords (mem : Memory) (f : ℕ) : ℕ → List (BitVec 64) → Memory
  | _, [] => mem
  | i, w :: words => putWords (mem.write f i w) f (i + 1) words

/-- The array `args`: program name and arguments, where `NULL` is the empty string. -/
def stackArgs (name : List UInt8) (argv : List (Option (List UInt8))) : List (List UInt8) :=
  (name :: argv.map fun arg ↦ arg.getD []).take EXEC_MAX_ARGS

/-- `exec_build_stack`, also in `task_create_user`: the initial stack pointer, or 0. -/
def buildStack (s : Mm.State) (cr3 : BitVec 64) (args : List (List UInt8)) : ℕ × Mm.State :=
  match s.mapStack cr3 with
  | (false, s) => (0, s)
  | (true, s) =>
    let topPage := USER_STACK_BASE + USER_STACK_SIZE - 4096
    let nwords := args.length + 6
    let (topFrame, s) := s.vmmTranslateIn cr3 topPage
    if topFrame = 0 then (0, s)
    else if 4096 < 8 + nwords * 8 + (args.map fun arg ↦ arg.length + 1).sum then (0, s)
    else
      let (starts, lowest, mem) := putStrings s.mem (frameOf topFrame) 4096 args
      let init := lowest / 8 - nwords
      let words := BitVec.ofNat 64 args.length ::
        starts.map (fun start ↦ BitVec.ofNat 64 (topPage + start)) ++ [0, 0, AT_PAGESZ, 4096, 0]
      (topPage + init * 8, { s with mem := putWords mem (frameOf topFrame) init words })

inductive TaskState
  | unused
  | ready
  | running
  | zombie
  deriving DecidableEq

/-- What `iretq` pops from a task's kernel stack when it returns to ring 3. -/
structure Frame where
  rip : ℕ
  cs : ℕ
  rflags : BitVec 64
  rsp : ℕ
  ss : ℕ
  deriving DecidableEq

/-- How far a task is in `elf_exec` or `elf_exec_current`. -/
inductive Call
  /-- It runs other code and has not called them. -/
  | outside
  /-- The new space is cloned; `preempt_disable` is next. -/
  | loading (path : List UInt8) (argv : List (Option (List UInt8))) (ehdr : Elf.Ehdr)
      (cr3 : BitVec 64)
  /-- Preemption is on again; `vfs_close` and the return are next. -/
  | closing (result : ℤ)
  /-- The last call has returned. -/
  | returned (result : ℤ)
  deriving DecidableEq

/-- The task is inside one of the two functions. -/
def Call.Pending : Call → Prop
  | .loading .. | .closing _ => True
  | .outside | .returned _ => False

instance : DecidablePred Call.Pending
  | .loading .. | .closing _ => isTrue trivial
  | .outside | .returned _ => isFalse id

/-- `struct task`, with the interrupt frame on its kernel stack. `Vfs.State` has the descriptors. -/
structure Task where
  pid : BitVec 32
  state : TaskState
  name : List UInt8
  kstack : ℕ
  kstackTop : ℕ
  rsp : ℕ
  ustack : ℕ
  ustackTop : ℕ
  cr3 : BitVec 64
  fsBase : ℕ
  uid : BitVec 32
  euid : BitVec 32
  gid : BitVec 32
  egid : BitVec 32
  mmapCur : ℕ
  exitStatus : ℤ
  frame : Frame
  call : Call

/-- An entry of the task table that is all zeros. -/
def Task.zero : Task :=
  { pid := 0, state := .unused, name := [], kstack := 0, kstackTop := 0, rsp := 0, ustack := 0,
    ustackTop := 0, cr3 := 0, fsBase := 0, uid := 0, euid := 0, gid := 0, egid := 0, mmapCur := 0,
    exitStatus := 0, frame := ⟨0, 0, 0, 0, 0⟩, call := .outside }

/-- A new user task, with the fake interrupt frame on its kernel stack. -/
def Task.start (t : Task) (pid : BitVec 32) (entry : ℕ) (name : List UInt8) (cr3 : BitVec 64)
    (kstack rsp : ℕ) : Task :=
  { t with
    pid := pid
    state := .ready
    name := name.take (TASK_NAME_MAX - 1)
    kstack := kstack
    kstackTop := wrap (kstack + STACK_SIZE)
    ustack := USER_STACK_BASE
    ustackTop := USER_STACK_BASE + USER_STACK_SIZE
    cr3 := cr3
    fsBase := 0
    mmapCur := MMAP_CURSOR_START
    uid := 0
    euid := 0
    gid := 0
    egid := 0
    frame := ⟨entry, SEL_USER_CODE, 0x3202, rsp, SEL_USER_DATA⟩
    rsp := wrap (wrap (kstack + STACK_SIZE) + (2 ^ 64 - FRAME_WORDS * 8))
    call := .outside }

/-- The entry of a task that continues in a new image. -/
def Task.replace (t : Task) (entry : ℕ) (name : List UInt8) (cr3 : BitVec 64) (rsp : ℕ) : Task :=
  { t with
    cr3 := cr3
    ustack := USER_STACK_BASE
    ustackTop := USER_STACK_BASE + USER_STACK_SIZE
    fsBase := 0
    mmapCur := MMAP_CURSOR_START
    uid := 0
    euid := 0
    gid := 0
    egid := 0
    name := name.take (TASK_NAME_MAX - 1)
    frame := ⟨entry, SEL_USER_CODE, t.frame.rflags ||| 0x200, rsp, SEL_USER_DATA⟩
    call := .returned 0 }

/-- The task can be scheduled. -/
def Task.Live (t : Task) : Prop := t.state = .ready ∨ t.state = .running

instance (t : Task) : Decidable t.Live := inferInstanceAs (Decidable (_ ∨ _))

/-- The machine: `rsp0` is the field of the TSS, `fsMsr` the register for the thread pointer. -/
structure Kernel where
  mm : Mm.State
  vfs : Vfs.State
  tasks : TaskId → Task
  current : TaskId
  nextPid : BitVec 32
  preemptDepth : ℕ
  elfFd : ℤ
  rsp0 : ℕ
  fsMsr : ℕ
  halted : Bool

/-- The task of `sched_init`. -/
def shell : TaskId := 0

namespace Kernel

/-- The file system as the current task sees it. -/
def fs (k : Kernel) : Vfs.State := k.vfs.enter k.current

def updateTask (k : Kernel) (t : TaskId) (f : Task → Task) : Kernel :=
  { k with tasks := Function.update k.tasks t (f (k.tasks t)) }

/-- The current task goes on at another point of its call. -/
def setCall (k : Kernel) (call : Call) : Kernel :=
  k.updateTask k.current fun t ↦ { t with call := call }

/-- `task_find_slot`. -/
def taskFindSlot (k : Kernel) : Option TaskId × Kernel :=
  match (List.finRange taskMax).find? fun i ↦ (k.tasks i).state = .zombie with
  | some i =>
    let fds := fun p ↦ if p.1 = i then none else k.vfs.fds p
    (some i, { k.updateTask i fun _ ↦ .zero with vfs := { k.vfs with fds := fds } })
  | none => ((List.finRange taskMax).find? fun i ↦ (k.tasks i).state = .unused, k)

/-- `task_next`. -/
def taskNext (k : Kernel) (after : TaskId) : TaskId :=
  (((List.range' 1 taskMax).map fun i ↦ Fin.ofNat taskMax (after + i)).find?
    fun i ↦ (k.tasks i).Live).getD after

/-- `sched_init` on a machine that has run no task. `kstack` is the block for the kernel stack. -/
def schedInit (mm : Mm.State) (vfs : Vfs.State) (kstack : ℕ) : Kernel where
  mm := mm
  vfs := vfs
  tasks := Function.update (fun _ ↦ .zero) shell
    { Task.zero with
      pid := 1
      state := .running
      name := [116, 115, 104] -- "tsh"
      cr3 := mm.rootCr3
      mmapCur := MMAP_CURSOR_START
      kstack := kstack
      kstackTop := wrap (kstack + STACK_SIZE) }
  current := shell
  nextPid := 2
  preemptDepth := 0
  elfFd := -1
  rsp0 := wrap (kstack + STACK_SIZE)
  fsMsr := 0
  halted := false

/-- `preempt_disable`. -/
def preemptDisable (k : Kernel) : Kernel := { k with preemptDepth := k.preemptDepth + 1 }

/-- `preempt_enable`. -/
def preemptEnable (k : Kernel) : Kernel := { k with preemptDepth := k.preemptDepth - 1 }

def switchSpace (k : Kernel) (cr3 : BitVec 64) : Kernel :=
  { k with mm := k.mm.vmmSpaceSwitch cr3 }

/-- The end of `sched_tick` and of `task_exit`: resume another task. -/
def switchTo (k : Kernel) (next : TaskId) : Kernel :=
  let k := k.updateTask next fun t ↦ { t with state := .running }
  { k.switchSpace (k.tasks next).cr3 with
    rsp0 := (k.tasks next).kstackTop
    fsMsr := (k.tasks next).fsBase
    current := next }

/-- `sched_tick`. -/
def schedTick (k : Kernel) (frameRsp : ℕ) : Kernel :=
  if (k.tasks k.current).state = .zombie then k
  else if 0 < k.preemptDepth then k
  else
    let k := k.updateTask k.current fun t ↦ { t with rsp := frameRsp }
    let next := k.taskNext k.current
    if next = k.current then k
    else (k.updateTask k.current fun t ↦ { t with state := .ready }).switchTo next

/-- `task_exit`. -/
def taskExit (k : Kernel) (status : ℤ) : Kernel :=
  let k := k.updateTask k.current fun t ↦ { t with state := .zombie, exitStatus := status }
  let k := { k with vfs := Vfs.vfsCloseAll k.fs }
  let next := k.taskNext k.current
  if next = k.current then { k with halted := true } else k.switchTo next

/-- `task_create_user`. -/
def taskCreateUser (k : Kernel) (entry : ℕ) (name : List UInt8) (cr3 : BitVec 64)
    (argv : List (Option (List UInt8))) (kstack : Option ℕ) : ℤ × Kernel :=
  match k.taskFindSlot with
  | (none, k) => (-1, k)
  | (some i, k) =>
    match kstack with
    | none => (-1, k)
    | some kstack =>
      match buildStack k.mm cr3 (stackArgs name argv) with
      | (0, mm) => (-1, { k with mm := mm })
      | (rsp, mm) =>
        let k := k.updateTask i fun t ↦ t.start k.nextPid entry name cr3 kstack rsp
        ((k.tasks i).pid.toInt, { k with
            mm := mm
            vfs := Vfs.vfsFdInherit k.fs i k.current
            nextPid := k.nextPid + 1 })

/-- `task_create_user` fails behind the search for a slot, or starts a task there. -/
theorem taskCreateUser_cases {k k' : Kernel} {entry : ℕ} {name : List UInt8} {cr3 : BitVec 64}
    {argv : List (Option (List UInt8))} {kstack : Option ℕ} {pid : ℤ}
    (h : k.taskCreateUser entry name cr3 argv kstack = (pid, k')) :
    ∃ slot k₁, k.taskFindSlot = (slot, k₁) ∧
      ((pid = -1 ∧ ∃ mm, (mm = k₁.mm ∨ mm = (buildStack k₁.mm cr3 (stackArgs name argv)).2) ∧
          k' = { k₁ with mm := mm }) ∨
        ∃ i ∈ slot, ∃ stack rsp, ∃ k₂ : Kernel,
          k₂ = k₁.updateTask i (·.start k₁.nextPid entry name cr3 stack rsp) ∧
          pid = (k₂.tasks i).pid.toInt ∧ k' = { k₂ with
            mm := (buildStack k₁.mm cr3 (stackArgs name argv)).2
            vfs := Vfs.vfsFdInherit k₂.fs i k₂.current
            nextPid := k₂.nextPid + 1 }) := by
  unfold taskCreateUser at h
  split at h
  case h_1 k₁ hslot =>
    obtain ⟨rfl, rfl⟩ := Prod.mk.inj h
    exact ⟨none, k₁, hslot, .inl ⟨rfl, k₁.mm, .inl rfl, rfl⟩⟩
  case h_2 i k₁ hslot =>
    refine ⟨some i, k₁, hslot, ?_⟩
    split at h
    · obtain ⟨rfl, rfl⟩ := Prod.mk.inj h
      exact .inl ⟨rfl, k₁.mm, .inl rfl, rfl⟩
    split at h
    case h_1 mm hbuild =>
      obtain ⟨rfl, rfl⟩ := Prod.mk.inj h
      exact .inl ⟨rfl, mm, .inr (by rw [hbuild]), rfl⟩
    case h_2 rsp mm _ hbuild =>
      obtain ⟨rfl, rfl⟩ := Prod.mk.inj h
      exact .inr ⟨i, rfl, _, rsp, _, rfl, rfl, by rw [hbuild]⟩

/-- `vfs_close(g_elf_fd)` and the return. -/
def closeElf (k : Kernel) (result : ℤ) : Kernel :=
  { k with vfs := (Vfs.vfsClose k.fs k.elfFd).2 }.setCall (.returned result)

/-- The `x` permission of the file at `path`. -/
def executable (k : Kernel) (path : List UInt8) : Bool :=
  ((Vfs.vfsLookup k.fs path).bind k.vfs.nodes.lookup).any fun node ↦ node.mode &&& 0o111 ≠ 0

/-- `elf_exec` and `elf_exec_current` up to `preempt_disable`. `file` is the block for the open
file. -/
def execOpen (k : Kernel) (path : Option (List UInt8)) (argv : List (Option (List UInt8)))
    (file : Option Addr) : Kernel :=
  match path with
  | none => k.setCall (.returned (-EINVAL))
  | some path =>
    let (fd, vfs) := Vfs.vfsOpen k.fs (some path) Vfs.O_RDONLY none file
    let k := { k with vfs := vfs, elfFd := fd }
    if fd < 0 then k.setCall (.returned fd)
    else if !k.executable path then k.closeElf (-EACCES)
    else
      match Elf.elInit ⟨k.fs, k.elfFd⟩ with
      | .error _ => k.closeElf (-ENOEXEC)
      | .ok ctx =>
        let (cr3, mm) := k.mm.vmmSpaceClone
        let k := { k with mm := mm }
        if cr3 = 0 then k.closeElf (-ENOMEM) else k.setCall (.loading path argv ctx.ehdr cr3)

/-- The load that both functions do in the new space, once preemption is off. -/
def load (k : Kernel) (ehdr : Elf.Ehdr) (cr3 : BitVec 64) : Elf.Outcome × Mm.State :=
  let (outcome, load) := Elf.elLoad ⟨k.fs, k.elfFd⟩ cr3 ehdr (k.mm.vmmSpaceSwitch cr3)
  (outcome, load.mm)

/-- The error exits of both behind `preempt_disable`: they load the root space. -/
def leaveToRoot (k : Kernel) (result : ℤ) : Kernel :=
  (k.switchSpace k.mm.rootCr3).preemptEnable.setCall (.closing result)

/-- `elf_exec` from `preempt_disable` to `preempt_enable`. A fault of `el_load` halts the machine. -/
def elfExecLoad (k : Kernel) (path : List UInt8) (argv : List (Option (List UInt8)))
    (ehdr : Elf.Ehdr) (cr3 : BitVec 64) (kstack : Option ℕ) : Kernel :=
  match k.load ehdr cr3 with
  | (.faulted, mm) => { k.preemptDisable with mm := mm, halted := true }
  | (.returned .EL_OK, mm) =>
    let (pid, k) :=
      { k.preemptDisable with mm := mm }.taskCreateUser ehdr.eEntry path cr3 argv kstack
    k.leaveToRoot (if pid < 0 then -ENOMEM else pid)
  | (.returned _, mm) => { k.preemptDisable with mm := mm }.leaveToRoot (-ENOMEM)

/-- The loop of `elf_exec_current` for the last component of the path. -/
def baseLoop (base : List UInt8) : List UInt8 → List UInt8
  | [] => base
  | c :: path => if c = slash then baseLoop path path else baseLoop base path

/-- The end of `elf_exec_current`: the task continues in the new image. -/
def commit (k : Kernel) (path : List UInt8) (ehdr : Elf.Ehdr) (cr3 : BitVec 64) (rsp : ℕ) :
    Kernel :=
  let k := { k with vfs := (Vfs.vfsClose k.fs k.elfFd).2 }
  let k := (k.switchSpace cr3).updateTask k.current fun t ↦
    t.replace ehdr.eEntry (baseLoop path path) cr3 rsp
  k.preemptEnable

/-- `elf_exec_current` from `preempt_disable` on. -/
def elfExecCurrentLoad (k : Kernel) (path : List UInt8) (argv : List (Option (List UInt8)))
    (ehdr : Elf.Ehdr) (cr3 : BitVec 64) : Kernel :=
  match k.load ehdr cr3 with
  | (.faulted, mm) => { k.preemptDisable with mm := mm, halted := true }
  | (.returned .EL_OK, mm) =>
    match buildStack mm cr3 (stackArgs path argv) with
    | (0, mm) => { k.preemptDisable with mm := mm }.leaveToRoot (-ENOMEM)
    | (rsp, mm) => { k.preemptDisable with mm := mm }.commit path ehdr cr3 rsp
  | (.returned _, mm) => { k.preemptDisable with mm := mm }.leaveToRoot (-ENOEXEC)

/-- The steps: a timer interrupt, or the next step of the current task. -/
inductive Op
  | tick (frameRsp : ℕ)
  | exit (status : ℤ)
  | exec (path : Option (List UInt8)) (argv : List (Option (List UInt8))) (file : Option Addr)
  | load (kstack : Option ℕ)
  | close

/-- One step. A step that the current task cannot take does nothing. -/
def step (k : Kernel) (op : Op) : Kernel :=
  if k.halted then k
  else
    match op with
    | .tick frameRsp => k.schedTick frameRsp
    | .exit status => if (k.tasks k.current).call.Pending then k else k.taskExit status
    | .exec path argv file =>
      if (k.tasks k.current).call.Pending then k else k.execOpen path argv file
    | .load kstack =>
      match (k.tasks k.current).call with
      | .loading path argv ehdr cr3 =>
        if k.current = shell then k.elfExecLoad path argv ehdr cr3 kstack
        else k.elfExecCurrentLoad path argv ehdr cr3
      | _ => k
    | .close =>
      match (k.tasks k.current).call with
      | .closing result => k.closeElf result
      | _ => k

/-- The steps of a list in order. -/
def run (k : Kernel) (ops : List Op) : Kernel := ops.foldl step k

/-- Every step of the list meets the condition in the state in which it is taken. -/
abbrev Meets (cond : Kernel → Op → Prop) (k : Kernel) (ops : List Op) : Prop :=
  Runs.Meets step cond k ops

/-- A property that every step under the condition keeps holds after every run under it. -/
theorem run_induction {P : Kernel → Prop} {cond : Kernel → Op → Prop} {k : Kernel} (h : P k)
    (hstep : ∀ k op, cond k op → P k → P (k.step op)) {ops : List Op} (hops : Meets cond k ops) :
    P (k.run ops) :=
  (hops.always h hstep).last

end Kernel

/-- A machine with 64 frames in its root space. -/
def bootMemory : Mm.State := .bare 0x40000

end ToastyUnix.Sched
