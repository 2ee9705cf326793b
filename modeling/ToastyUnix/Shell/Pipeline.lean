import ToastyUnix.Vfs.System
import ToastyUnix.Lib.Interference

/-!
# The pipelines of the shell

`exec_pipeline` of `kernel/shell/commands.c` with the builtins of `cmd_fs.c` and `elf_exec`, as a
program whose commands are the calls that it makes. The tasks that it starts, and those still
running from earlier command lines, make calls of their own between any two of these commands.

The variable `g_elf_fd` is shared: `elf_exec` keeps the descriptor of the image there, and so does
`elf_exec_current`, which other tasks reach through `execve`. What the shell reads and writes
through a descriptor does not matter here, so the I/O of a builtin is any number of I/O calls, and
a path given to a builtin is resolved to any path. The outcome of loading an image is a choice too.
-/

namespace ToastyUnix.Shell

open Vfs Errno Interference

/-- The task of the shell. -/
def shell : TaskId := 0

/-- The file system under all tasks and `g_elf_fd`. -/
structure World where
  sys : System
  elfFd : ℤ
  /-- The shell is inside `elf_exec`, between the open and the close of the image. -/
  loading : Bool

namespace World

/-- The file system as the shell sees it. -/
def vfs (w : World) : State := w.sys.vfs.enter shell

def setVfs (w : World) (vfs : State) : World := { w with sys := { w.sys with vfs := vfs } }

/-- The descriptor table of the shell. -/
def table (w : World) (i : Slot) : Option Addr := w.sys.vfs.fds (shell, i)

end World

/-- What the calls of the shell leave to the rest of the kernel. -/
structure Choice where
  node : Option Addr := none
  file : Option Addr := none
  pipe : Option Addr := none
  readEnd : Option Addr := none
  writeEnd : Option Addr := none
  path : List UInt8 := []
  op : Vfs.Op := .exit
  rounds : ℕ := 0
  /-- The process id of the new task, or the error of the loader. -/
  status : ℤ := 0
  child : TaskId := 0

/-- The calls that the shell makes. -/
inductive Cmd
  | resolveProg (name : List UInt8)
  | pathResolve (arg : List UInt8)
  | dup (fd : ℤ)
  | dup2 (oldfd newfd : ℤ)
  | close (fd : ℤ)
  | openFile (path : List UInt8) (flags : BitVec 32)
  | pipe
  | io
  | rounds
  | elfOpen (path : List UInt8)
  | executable (path : List UInt8)
  | elfLoad
  | elfClose
  | wait (pid : ℤ)

/-- What a call returns; `vfs_pipe` its descriptors, or nothing when it fails. -/
def Res : Cmd → Type
  | .resolveProg _ => Option (List UInt8)
  | .pathResolve _ => List UInt8
  | .pipe => Option (ℤ × ℤ)
  | .rounds => ℕ
  | .executable _ => Bool
  | .io => Unit
  | .wait _ => Unit
  | .dup _ => ℤ
  | .dup2 _ _ => ℤ
  | .close _ => ℤ
  | .openFile _ _ => ℤ
  | .elfOpen _ => ℤ
  | .elfLoad => ℤ
  | .elfClose => ℤ

/-- The node is there and its mode has an x bit. -/
def isExecutable (s : State) (path : List UInt8) : Bool :=
  match (vfsLookup s path).bind s.nodes.lookup with
  | none => false
  | some n => n.mode &&& 0o111 ≠ 0

/-- `resolve_prog` with the buffer of `exec_pipeline`. -/
def resolveProg (s : State) (name : List UInt8) : Option (List UInt8) :=
  if slash ∈ name then if name.length ≥ 160 then none else some name
  else if name.length + 6 ≥ 160 then none
  else
    let path := [47, 98, 105, 110, 47] ++ name
    match (vfsLookup s path).bind s.nodes.lookup with
    | none => none
    | some n => if n.type = .file ∧ isExecutable s path then some path else none

/-- The calls that read and write through a descriptor or change the tree. -/
def isIo : Vfs.Op → Bool
  | .read .. | .pread .. | .write .. | .ftruncate .. | .ioctl .. | .readdir .. | .mkdir ..
  | .unlink .. | .chmod .. => true
  | _ => false

/-- The effect of a call. -/
def perform : (c : Cmd) → Choice → World → Res c × World
  | .resolveProg name, _, w => (resolveProg w.vfs name, w)
  | .pathResolve _, choice, w => (choice.path, w)
  | .dup fd, _, w => ((vfsDup w.vfs fd).1, w.setVfs (vfsDup w.vfs fd).2)
  | .dup2 oldfd newfd, _, w =>
    ((vfsDup2 w.vfs oldfd newfd).1, w.setVfs (vfsDup2 w.vfs oldfd newfd).2)
  | .close fd, _, w => ((vfsClose w.vfs fd).1, w.setVfs (vfsClose w.vfs fd).2)
  | .openFile path flags, choice, w =>
    let (fd, s) := vfsOpen w.vfs (some path) flags choice.node choice.file
    (fd, w.setVfs s)
  | .pipe, choice, w =>
    let (_, fds, s) := vfsPipe w.vfs choice.pipe choice.readEnd choice.writeEnd
    (fds, w.setVfs s)
  | .io, choice, w =>
    ((), if isIo choice.op then w.setVfs (System.call w.vfs choice.op) else w)
  | .rounds, choice, w => (choice.rounds, w)
  | .elfOpen path, choice, w =>
    let (fd, s) := vfsOpen w.vfs (some path) O_RDONLY choice.node choice.file
    (fd, { w.setVfs s with elfFd := fd, loading := decide (0 ≤ fd) })
  | .executable path, _, w => (isExecutable w.vfs path, w)
  | .elfLoad, choice, w =>
    if choice.status < 0 then (choice.status, w)
    else if w.sys.alive choice.child then (-ENOMEM, w)
    else
      (choice.status, { w with
          sys := ⟨vfsFdInherit w.vfs choice.child shell,
            Function.update w.sys.alive choice.child true⟩ })
  | .elfClose, _, w =>
    ((vfsClose w.vfs w.elfFd).1, { w.setVfs (vfsClose w.vfs w.elfFd).2 with loading := false })
  | .wait _, _, w => ((), w)

/-- What another task can do: any call, and the open of the image in `elf_exec_current`. -/
inductive Event
  | call (task : TaskId) (op : Vfs.Op)
  | execve (task : TaskId) (path : Option (List UInt8)) (node file : Option Addr)

def interfere (w : World) : Event → World
  | .call task op => if task = shell then w else { w with sys := w.sys.step task op }
  | .execve task path node file =>
    if task = shell ∨ w.sys.alive task = false then w
    else
      let (fd, s) := vfsOpen (w.sys.vfs.enter task) path O_RDONLY node file
      { w.setVfs s with elfFd := fd }

def machine : Machine World Cmd Res Choice Event := ⟨perform, interfere⟩

abbrev Program := Prog Cmd Res

namespace Sys

def resolveProg (name : List UInt8) : Program (Option (List UInt8)) :=
  Prog.perform (Cmd.resolveProg name)
def pathResolve (arg : List UInt8) : Program (List UInt8) := Prog.perform (Cmd.pathResolve arg)
def dup (fd : ℤ) : Program ℤ := Prog.perform (Cmd.dup fd)
def dup2 (oldfd newfd : ℤ) : Program ℤ := Prog.perform (Cmd.dup2 oldfd newfd)
def close (fd : ℤ) : Program ℤ := Prog.perform (Cmd.close fd)
def openFile (path : List UInt8) (flags : BitVec 32) : Program ℤ :=
  Prog.perform (Cmd.openFile path flags)
def pipe : Program (Option (ℤ × ℤ)) := Prog.perform Cmd.pipe
def io : Program Unit := Prog.perform Cmd.io
def rounds : Program ℕ := Prog.perform Cmd.rounds
def elfOpen (path : List UInt8) : Program ℤ := Prog.perform (Cmd.elfOpen path)
def executable (path : List UInt8) : Program Bool := Prog.perform (Cmd.executable path)
def elfLoad : Program ℤ := Prog.perform Cmd.elfLoad
def elfClose : Program ℤ := Prog.perform Cmd.elfClose
def wait (pid : ℤ) : Program Unit := Prog.perform (Cmd.wait pid)

end Sys

/-- `elf_exec`. -/
def elfExec (path : List UInt8) : Program ℤ := do
  let fd ← Sys.elfOpen path
  if fd < 0 then return fd
  else
    let ok ← Sys.executable path
    if !ok then
      let _ ← Sys.elfClose
      return -EACCES
    else
      let pid ← Sys.elfLoad
      let _ ← Sys.elfClose
      return pid

/-- I/O calls of a builtin. -/
def ioLoop : ℕ → Program Unit
  | 0 => return
  | n + 1 => do
    Sys.io
    ioLoop n

def doIo : Program Unit := do
  let n ← Sys.rounds
  ioLoop n

/-- A builtin that opens a file, works on it and closes it. -/
def withFile (path : List UInt8) (flags : BitVec 32) : Program Unit := do
  let fd ← Sys.openFile path flags
  if fd < 0 then return
  else
    doIo
    let _ ← Sys.close fd
    return

/-- The commands of `g_core_commands` and `g_fs_commands`. -/
inductive Builtin
  | help | clear | ver | about | sysinfo | reboot | crash
  | ls | cat | echo | mkdir | touch | rm | cd | pwd | uptime | sleep | fbfill | exec | ps
deriving DecidableEq

/-- `/dev/fb0`. -/
def fbPath : List UInt8 := [47, 100, 101, 118, 47, 102, 98, 48]

/-- An argument of `ls` with an option letter other than `l` and `a`. -/
def invalidLsOption : List UInt8 → Bool
  | 45 :: letter :: letters => (letter :: letters).any fun c ↦ c ≠ 108 && c ≠ 97
  | _ => false

/-- The redirection that `cmd_echo` looks for in its own arguments. -/
def echoTarget : List (List UInt8) → Option (BitVec 32 × List UInt8)
  | op :: file :: rest =>
    if op = [62] then some (O_WRONLY ||| O_CREAT ||| O_TRUNC, file)
    else if op = [62, 62] then some (O_WRONLY ||| O_CREAT ||| O_APPEND, file)
    else echoTarget (file :: rest)
  | _ => none

/-- `builtin_run`. `reboot` and `crash` do not return; the others without a case only print, sleep
or do I/O. -/
def builtinRun (builtin : Builtin) (argv : List (List UInt8)) : Program Unit :=
  match builtin, argv with
  | .ls, _ :: args =>
    if args.any invalidLsOption then return
    else do
      let path ← Sys.pathResolve (args.headD [])
      withFile path O_RDONLY
  | .cat, _ :: arg :: _ => do
    let path ← Sys.pathResolve arg
    withFile path O_RDONLY
  | .touch, _ :: arg :: _ => do
    let path ← Sys.pathResolve arg
    withFile path (O_CREAT ||| O_RDWR)
  | .cd, _ :: args => do
    let path ← Sys.pathResolve (args.headD [])
    -- `cd -` without a previous directory stops here
    if path = [] then return
    else withFile path O_RDONLY
  | .fbfill, _ => withFile fbPath O_WRONLY
  | .echo, _ :: args =>
    match echoTarget args with
    | none => doIo
    | some (flags, arg) => do
      let path ← Sys.pathResolve arg
      withFile path flags
  | .exec, _ :: arg :: _ => do
    let path ← Sys.pathResolve arg
    let _ ← elfExec path
    return
  | _, _ => doIo

/-- `rmode`. -/
inductive RMode
  | trunc
  | append
  | input
deriving DecidableEq

/-- The flags of a redirection. -/
def RMode.flags : RMode → BitVec 32
  | .input => O_RDONLY
  | .append => O_WRONLY ||| O_CREAT ||| O_APPEND
  | .trunc => O_WRONLY ||| O_CREAT ||| O_TRUNC

/-- Numerals name the standard descriptors. -/
instance neZeroThree : NeZero 3 := ⟨by decide⟩

/-- `struct pipeline_seg`. -/
structure Seg where
  argv : List (List UInt8)
  redir : Fin 3 → Option (RMode × List UInt8)
  builtin : Option Builtin

/-- The loop over the redirections: whether one failed, and the open files. -/
def redirect (seg : Seg) : List (Fin 3) → List ℤ → Program (Bool × List ℤ)
  | [], files => return (false, files)
  | tgt :: rest, files =>
    match seg.redir tgt with
    | none => redirect seg rest files
    | some (mode, file) => do
      let fd ← Sys.openFile file mode.flags
      if fd < 0 then return (true, files)
      else
        let _ ← Sys.dup2 fd tgt.val
        redirect seg rest (files ++ [fd])

/-- Run the builtin or start the program: whether it failed, and the process id. -/
def runSegment (seg : Seg) (path : List UInt8) : Program (Bool × List ℤ) :=
  match seg.builtin with
  | some builtin => do
    builtinRun builtin seg.argv
    return (false, [])
  | none => do
    let pid ← elfExec path
    if pid < 0 then return (true, [])
    else return (false, [pid])

def closeFiles : List ℤ → Program Unit
  | [] => return
  | fd :: files => do
    let _ ← Sys.close fd
    closeFiles files

/-- Put the standard descriptors back. -/
def restore (saves : ℤ × ℤ × ℤ) : Program Unit := do
  let _ ← Sys.dup2 saves.1 0
  let _ ← Sys.dup2 saves.2.1 1
  let _ ← Sys.dup2 saves.2.2 2
  return

/-- The read end of the previous pipe becomes the standard input. -/
def takeInput (first : Bool) (prevR : ℤ) : Program ℤ :=
  if first then return prevR
  else do
    let _ ← Sys.dup2 prevR 0
    let _ ← Sys.close prevR
    return -1

/-- The pipe to the next stage: whether it failed, its read end and its write end. -/
def makeOutput (last : Bool) (prevR : ℤ) : Program (Bool × ℤ × ℤ) :=
  if last then return (false, prevR, -1)
  else do
    match ← Sys.pipe with
    | none => return (true, prevR, -1)
    | some (r, w) =>
      let _ ← Sys.dup2 w 1
      return (false, r, w)

/-- One round of the loop of `exec_pipeline`: whether it failed, `prev_r` and the process id. -/
def stage (saves : ℤ × ℤ × ℤ) (first last : Bool) (prevR : ℤ) (seg : Seg) (path : List UInt8) :
    Program (Bool × ℤ × List ℤ) := do
  let prevR ← takeInput first prevR
  let (failed, prevR, w) ← makeOutput last prevR
  let (failed, files) ← (if failed then pure (true, []) else redirect seg [0, 1, 2] [])
  let (failed, pids) ← (if failed then pure (true, []) else runSegment seg path)
  restore saves
  closeFiles files
  closeFiles (if 0 ≤ w then [w] else [])
  return (failed, prevR, pids)

/-- The loop of `exec_pipeline`: `prev_r` and the process ids at its end. -/
def stages (saves : ℤ × ℤ × ℤ) : Bool → ℤ → List ℤ → List (Seg × List UInt8) →
    Program (ℤ × List ℤ)
  | _, prevR, pids, [] => return (prevR, pids)
  | first, prevR, pids, (seg, path) :: rest => do
    let (failed, prevR, new) ← stage saves first rest.isEmpty prevR seg path
    if failed then return (prevR, pids)
    else stages saves false prevR (pids ++ new) rest

/-- The check of the external programs. -/
def resolveAll : List Seg → Program (Option (List (Seg × List UInt8)))
  | [] => return some []
  | seg :: segs => do
    let path ←
      (if seg.builtin.isSome then pure (some []) else Sys.resolveProg (seg.argv.headD []))
    match path with
    | none => return none
    | some path =>
      let rest ← resolveAll segs
      return rest.map ((seg, path) :: ·)

def waitAll : List ℤ → Program Unit
  | [] => return
  | pid :: pids => do
    Sys.wait pid
    waitAll pids

/-- `exec_pipeline`. -/
def execPipeline (segs : List Seg) : Program Unit := do
  match ← resolveAll segs with
  | none => return
  | some segs =>
    let s0 ← Sys.dup 0
    let s1 ← Sys.dup 1
    let s2 ← Sys.dup 2
    if s0 < 0 ∨ s1 < 0 ∨ s2 < 0 then return
    else
      let (prevR, pids) ← stages (s0, s1, s2) true (-1) [] segs
      closeFiles (if 0 ≤ prevR then [prevR] else [])
      waitAll pids
      closeFiles [s0, s1, s2]

/-- A sequence of command lines. -/
def commandLines : List (List Seg) → Program Unit
  | [] => return
  | segs :: rest => do
    execPipeline segs
    commandLines rest

end ToastyUnix.Shell
