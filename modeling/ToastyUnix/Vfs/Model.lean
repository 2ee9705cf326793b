import ToastyUnix.Vfs.Pipe

/-!
# The data model of the virtual file system

Nodes, open file descriptions and pipes are blocks of the kernel heap. A heap is a finite map from
the addresses of its live blocks; `kfree` removes a block, so a pointer dangles when its address is
not in the map. The allocator may hand out any address that is not live, freed ones included, or
fail, and it does so by choices that the caller of a modelled function supplies.

The descriptor tables of all tasks are one function from pairs of task and slot. The fields
`uid`, `gid` and `priv` of `struct vfs_node` are left out: no modelled function reads them.
-/

namespace ToastyUnix.Vfs

/-- A kernel pointer to a heap block; the null pointer is `none` of `Option Addr`. -/
abbrev Addr := ℕ

/-- The live blocks of one kind. -/
abbrev Heap (β : Type) := Finmap fun _ : Addr ↦ β

/-- `kmalloc`: the block the allocator chose, unless it is still in use. -/
def kmalloc {β : Type} (heap : Heap β) (choice : Option Addr) : Option Addr :=
  choice.filter fun a ↦ (heap.lookup a).isNone

theorem lookup_of_kmalloc {β : Type} {heap : Heap β} {choice : Option Addr} {a : Addr}
    (h : kmalloc heap choice = some a) : heap.lookup a = none := by
  simp only [kmalloc, Option.filter_eq_some_iff, Option.isNone_iff_eq_none] at h
  exact h.2

/-- `VFS_NAME_MAX`. -/
def vfsNameMax : ℕ := 64

/-- `VFS_MAX_FDS`. -/
def vfsMaxFds : ℕ := 16

/-- `TASK_MAX`. -/
def taskMax : ℕ := 16

instance : NeZero vfsMaxFds := ⟨by decide⟩
instance : NeZero taskMax := ⟨by decide⟩

abbrev TaskId := Fin taskMax
abbrev Slot := Fin vfsMaxFds

def O_RDONLY : BitVec 32 := 0
def O_WRONLY : BitVec 32 := 1
def O_RDWR : BitVec 32 := 2
def O_CREAT : BitVec 32 := 0x40
def O_TRUNC : BitVec 32 := 0x200
def O_APPEND : BitVec 32 := 0x400

inductive NodeType
  | dir
  | file
  | device
  deriving DecidableEq

/-- Which functions a device driver supplies (`struct file_ops`). -/
structure FileOps where
  read : Bool
  write : Bool

/-- `struct vfs_node`. The buffer `data` has `capacity` bytes, the first `size` of which are the
file; the others are whatever it last held. -/
structure Node where
  name : List UInt8
  type : NodeType
  mode : BitVec 32
  data : ℕ → UInt8
  size : ℕ
  capacity : ℕ
  ops : Option FileOps
  parent : Option Addr
  sibling : Option Addr
  child : Option Addr

/-- `struct vfs_file`: a reference to a node or a pipe, with a position. -/
structure File where
  node : Option Addr
  pipe : Option Addr
  pos : ℕ
  flags : BitVec 32
  refs : ℤ
  deriving DecidableEq

/-- `f->flags & O_WRONLY`, which decides the pipe end a file counts for. -/
def File.isWriteEnd (f : File) : Bool := f.flags &&& O_WRONLY != 0

/-- The state of the file system. `current` is the task that `sched_current` returns. -/
structure State where
  root : Addr
  nodes : Heap Node
  files : Heap File
  pipes : Heap Pipe
  fds : TaskId × Slot → Option Addr
  current : Option TaskId

/-- The slot a descriptor number names, when it is in range. -/
def slotOf (fd : ℤ) : Option Slot :=
  if h : 0 ≤ fd ∧ fd < vfsMaxFds then some ⟨fd.toNat, by omega⟩ else none

namespace State

def setFd (s : State) (i : TaskId × Slot) (f : Option Addr) : State :=
  { s with fds := Function.update s.fds i f }

theorem setFd_setFd (s : State) (i : TaskId × Slot) (f g : Option Addr) :
    (s.setFd i f).setFd i g = s.setFd i g := by
  simp [setFd]

theorem setFd_none_of_free {s : State} {i : TaskId × Slot} (h : s.fds i = none) :
    s.setFd i none = s := by
  have hsame : Function.update s.fds i none = s.fds := by
    rw [← h, Function.update_eq_self]
  rw [setFd, hsame]

/-- `fd_get`: the file behind a descriptor of the current task. -/
def fdGet (s : State) (fd : ℤ) : Option Addr := do
  let task ← s.current
  let slot ← slotOf fd
  s.fds (task, slot)

end State

end ToastyUnix.Vfs
