import ToastyUnix.Lib.Runs
import ToastyUnix.Vfs.Io

/-!
# The file system under all tasks

The state of the file system together with the set of live tasks, and one step for each call that
a live task can make. A run is a list of such steps by any tasks in any order; every choice of an
allocator or a device driver is part of the step. The boot sequence leaves the root directory and
the standard descriptors of the first task.
-/

namespace ToastyUnix.Vfs

open Function

/-- The calls a task can make. -/
inductive Op
  | openFile (path : Option (List UInt8)) (flags : BitVec 32) (nodeChoice fileChoice : Option Addr)
  | close (fd : ℤ)
  | dup (oldfd : ℤ)
  | dup2 (oldfd newfd : ℤ)
  | pipe (pipeChoice readChoice writeChoice : Option Addr)
  | read (fd : ℤ) (hasBuf : Bool) (count : ℕ) (driver : ℤ)
  | pread (fd : ℤ) (hasBuf : Bool) (count offset : ℕ)
  | write (fd : ℤ) (buf : Option (List UInt8)) (driver : ℤ) (alloc : Realloc)
  | ftruncate (fd length : ℤ) (alloc : Realloc)
  | ioctl (fd : ℤ) (driver : ℤ)
  | readdir (fd : ℤ) (hasBuf : Bool) (count : ℕ)
  | mkdir (path : Option (List UInt8)) (mode : BitVec 32) (choice : Option Addr)
  | unlink (path : Option (List UInt8))
  | chmod (path : Option (List UInt8)) (mode : BitVec 32)
  | spawn (child : TaskId)
  | exit

/-- The calls that create, share or drop descriptors. -/
def Op.onSlots : Op → Bool
  | .openFile .. | .close _ | .dup _ | .dup2 .. | .pipe .. => true
  | _ => false

/-- The file system and the tasks that are ready or running. -/
structure System where
  vfs : State
  alive : TaskId → Bool

/-- The file system as the given task sees it. -/
def State.enter (s : State) (task : TaskId) : State := { s with current := some task }

namespace System

/-- The effect of a call that only concerns the file system. -/
def call (s : State) : Op → State
  | .openFile path flags nodeChoice fileChoice => (vfsOpen s path flags nodeChoice fileChoice).2
  | .close fd => (vfsClose s fd).2
  | .dup oldfd => (vfsDup s oldfd).2
  | .dup2 oldfd newfd => (vfsDup2 s oldfd newfd).2
  | .pipe pipeChoice readChoice writeChoice => (vfsPipe s pipeChoice readChoice writeChoice).2.2
  | .read fd hasBuf count driver => (vfsRead s fd hasBuf count driver).2.2
  | .write fd buf driver alloc => (vfsWrite s fd buf driver alloc).2
  | .ftruncate fd length alloc => (vfsFtruncate s fd length alloc).2
  | .readdir fd hasBuf count => (vfsReaddir s fd hasBuf count).2.2
  | .mkdir path mode choice => (vfsMkdir s path mode choice).2
  | .unlink path => (vfsUnlink s path).2
  | .chmod path mode => (vfsChmod s path mode).2
  | .pread .. | .ioctl .. | .spawn _ | .exit => s

/-- One call of a live task. A new task gets a free slot of the task table. -/
def step (s : System) (task : TaskId) (op : Op) : System :=
  if s.alive task then
    match op with
    | .spawn child =>
      if s.alive child then s
      else ⟨vfsFdInherit (s.vfs.enter task) child task, update s.alive child true⟩
    | .exit => ⟨vfsCloseAll (s.vfs.enter task), update s.alive task false⟩
    | op => ⟨call (s.vfs.enter task) op, s.alive⟩
  else s

/-- A step has no effect, creates a task, ends one, or is a call of a live task. -/
theorem step_cases (s : System) (task : TaskId) (op : Op) :
    s.step task op = s ∨
    (∃ child, op = .spawn child ∧ s.alive child = false ∧ s.step task op =
      ⟨vfsFdInherit (s.vfs.enter task) child task, update s.alive child true⟩) ∨
    (op = .exit ∧ s.step task op =
      ⟨vfsCloseAll (s.vfs.enter task), update s.alive task false⟩) ∨
    (s.alive task = true ∧ s.step task op = ⟨call (s.vfs.enter task) op, s.alive⟩) := by
  by_cases hlive : s.alive task = true
  case neg => exact .inl (if_neg hlive)
  unfold step
  rw [if_pos hlive]
  cases op with
  | spawn child =>
    cases hchild : s.alive child with
    | true => exact .inl (if_pos hchild)
    | false => exact .inr (.inl ⟨child, rfl, hchild, if_neg (by simp [hchild])⟩)
  | exit => exact .inr (.inr (.inl ⟨rfl, rfl⟩))
  | _ => exact .inr (.inr (.inr ⟨hlive, rfl⟩))

/-- The steps of a list in order. -/
def run (s : System) (steps : List (TaskId × Op)) : System :=
  steps.foldl (fun s action ↦ s.step action.1 action.2) s

/-- Every step of the list meets the condition in the state in which it is taken. -/
abbrev Meets (cond : System → TaskId → Op → Prop) (s : System) (steps : List (TaskId × Op)) : Prop :=
  Runs.Meets (fun s action ↦ s.step action.1 action.2) (fun s action ↦ cond s action.1 action.2)
    s steps

variable {P : System → Prop} {s : System}

/-- A property that every step under the condition keeps holds after every run under it. -/
theorem run_induction_of_meets {cond : System → TaskId → Op → Prop} (h : P s)
    (hstep : ∀ s task op, cond s task op → P s → P (s.step task op)) {steps : List (TaskId × Op)}
    (hsteps : Meets cond s steps) : P (s.run steps) :=
  (hsteps.always h fun s action ↦ hstep s action.1 action.2).last

theorem run_induction (h : P s) (hstep : ∀ s task op, P s → P (s.step task op))
    (steps : List (TaskId × Op)) : P (s.run steps) :=
  @run_induction_of_meets P s (fun _ _ _ ↦ True) h (fun s task op _ ↦ hstep s task op) steps
    (.of_forall (fun _ _ ↦ trivial) s steps)

theorem call_quiet (s : State) {op : Op} (hop : op.onSlots = false) : Quiet s (call s op) := by
  cases op with
  | read fd hasBuf count driver => exact vfsRead_quiet s fd hasBuf count driver
  | write fd buf driver alloc => exact vfsWrite_quiet s fd buf driver alloc
  | ftruncate fd length alloc => exact vfsFtruncate_quiet s fd length alloc
  | readdir fd hasBuf count => exact vfsReaddir_quiet s fd hasBuf count
  | mkdir path mode choice => exact vfsMkdir_quiet s path mode choice
  | unlink path => exact vfsUnlink_quiet s path
  | chmod path mode => exact vfsChmod_quiet s path mode
  | pread | ioctl | spawn | exit => exact .refl s
  | openFile | close | dup | dup2 | pipe => cases hop

theorem call_fds_of_ne {s : State} {task : TaskId} (hcurrent : s.current = some task) (op : Op)
    {k : TaskId × Slot} (hk : k.1 ≠ task) : (call s op).fds k = s.fds k := by
  have hne : ∀ i, k ≠ (task, i) := fun i heq ↦ hk (congrArg Prod.fst heq)
  cases op with
  | openFile path flags nodeChoice fileChoice =>
    rcases vfsOpen_cases s path flags nodeChoice fileChoice with
      hsame | ⟨p, node, s', nodes, -, hnode, -, hcases⟩
    · rw [call, hsame]
    obtain ⟨nodes', rfl⟩ := openNode_nodes hnode
    rcases hcases with hopen | ⟨x, f, file, -, -, -, -, -, -, hleak | ⟨t, i, ht, -, hopen⟩⟩
    · rw [call, hopen]
    · rw [call, hleak]
    · obtain rfl : task = t := Option.some.inj (hcurrent.symm.trans ht)
      rw [call, hopen]
      simp [State.setFd, hne i]
  | close fd =>
    simp only [call, vfsClose, hcurrent]
    split
    · split <;> simp_all [State.setFd]
    · rfl
  | dup oldfd =>
    simp only [call, vfsDup, hcurrent]
    split
    · split
      · rfl
      · split <;> simp_all [State.setFd]
    · rfl
  | dup2 oldfd newfd =>
    simp only [call, vfsDup2, hcurrent]
    split
    · split
      · rfl
      · split
        · rfl
        · split_ifs
          · rfl
          · dsimp only
            split <;> simp_all [State.setFd]
    · rfl
  | pipe pipeChoice readChoice writeChoice =>
    rcases vfsPipe_cases s pipeChoice readChoice writeChoice with
      hsame | ⟨p, r, w, t, i, j, ht, -, -, -, -, -, -, -, hpipe⟩
    · rw [call, hsame]
    · obtain rfl : task = t := Option.some.inj (hcurrent.symm.trans ht)
      rw [call, hpipe]
      simp [State.setFd, hne i, hne j]
  | _ => exact congrFun (call_quiet s rfl).fds k

end System

/-- The root node of `vfs_init`. -/
def rootNode : Node := freshNode [slash] .dir 0 none

/-- One round of the loop of `vfs_devices_init` that opens a standard descriptor. -/
def openStdio (tty0 : Addr) (task : TaskId) (s : State) (i : Slot) (choice : Option Addr) :
    State :=
  match kmalloc s.files choice with
  | none => s
  | some f =>
    { s with files := s.files.insert f ⟨some tty0, none, 0, O_RDWR, 1⟩ }.setFd (task, i) (some f)

/-- The system after `vfs_init` and `vfs_devices_init`: the tree built meanwhile, the standard
descriptors of the first task, no pipes. -/
def System.boot (root : Addr) (nodes : Heap Node) (tty0 : Addr) (task : TaskId)
    (choices : Slot → Option Addr) : System where
  vfs := ([0, 1, 2] : List Slot).foldl (fun s i ↦ openStdio tty0 task s i (choices i))
    ⟨root, nodes, ∅, ∅, fun _ ↦ none, some task⟩
  alive := fun t ↦ t == task

end ToastyUnix.Vfs
