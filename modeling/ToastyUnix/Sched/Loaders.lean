import ToastyUnix.Lib.Runs
import ToastyUnix.Sched.AddressSpace
import ToastyUnix.Vfs.Lifetime
import ToastyUnix.Vfs.Table

/-!
# Concurrent loads

`elf_exec` and `elf_exec_current` of several tasks over the file system of `Vfs.System`, cut where
the timer can switch between them: the file is opened, `el_init` reads the headers, and a section
without preemption loads the segments and closes the file. In between, every other live task may
take a step of its own load or make any other call. All loads read from and close the descriptor
`g_elf_fd`. The main result says in which runs this descriptor is always the one of the load that
uses it (`loads_use_own_file_iff`).

The memory that a load works in and the new address space are choices of the step, and so is the
task that `elf_exec` creates.
-/

namespace ToastyUnix.Sched.Loaders

open Vfs Elf Option
open Runs (Always Meets)

/-- A load that has opened its file: the path, the result of `vfs_open`, and the node of the path.
-/
structure Opened where
  path : List UInt8
  fd : ℤ
  node : Option Addr
  deriving DecidableEq

/-- How far a task is in `elf_exec` or `elf_exec_current`. -/
inductive Stage
  | idle
  | opened (o : Opened)
  | inited (o : Opened) (ehdr : Ehdr)
  deriving DecidableEq

/-- The file system, `g_elf_fd` and the loads under way. -/
structure Machine where
  sys : System
  elfFd : ℤ
  stage : TaskId → Stage
  halted : Bool

/-- The next step of a task. -/
inductive Action
  /-- A call of a task that is not loading. -/
  | call (op : Vfs.Op)
  | openFile (path : Option (List UInt8)) (file : Option Addr)
  | init (cloned : Bool)
  | load (cr3 : BitVec 64) (mm : Mm.State) (child : Option TaskId)

namespace Machine

/-- What `tus_pread` reads from in a task. -/
def source (m : Machine) (t : TaskId) : Source := ⟨m.sys.vfs.enter t, m.elfFd⟩

def setStage (m : Machine) (t : TaskId) (stage : Stage) : Machine :=
  { m with stage := Function.update m.stage t stage }

/-- `vfs_close(g_elf_fd)` at the end of a load. -/
def close (m : Machine) (t : TaskId) : Machine :=
  { m with sys := m.sys.step t (.close m.elfFd) }.setStage t .idle

/-- The `x` permission of the file at `path`. -/
def executable (m : Machine) (path : List UInt8) : Bool :=
  ((vfsLookup m.sys.vfs path).bind m.sys.vfs.nodes.lookup).any fun node ↦ node.mode &&& 0o111 ≠ 0

/-- Open the file and record the descriptor. -/
def openFile (m : Machine) (t : TaskId) (path : Option (List UInt8)) (file : Option Addr) :
    Machine :=
  match path with
  | none => m
  | some path =>
    let fd := (vfsOpen (m.sys.vfs.enter t) (some path) O_RDONLY none file).1
    let o := ⟨path, fd, vfsLookup m.sys.vfs path⟩
    let m := { m with sys := m.sys.step t (.openFile (some path) O_RDONLY none file), elfFd := fd }
    if fd < 0 then m
    else if !m.executable path then m.close t
    else m.setStage t (.opened o)

/-- `el_init` and the clone of the address space. -/
def init (m : Machine) (t : TaskId) (o : Opened) (cloned : Bool) : Machine :=
  match elInit (m.source t) with
  | .error _ => m.close t
  | .ok ctx => if cloned then m.setStage t (.inited o ctx.ehdr) else m.close t

/-- The new task of `elf_exec`, if there is one. -/
def spawn (m : Machine) (t : TaskId) (child : Option TaskId) : Machine :=
  match child with
  | none => m
  | some child => { m with sys := m.sys.step t (.spawn child) }

/-- `el_load` and the end of the call. A fault halts the machine. -/
def load (m : Machine) (t : TaskId) (ehdr : Ehdr) (cr3 : BitVec 64) (mm : Mm.State)
    (child : Option TaskId) : Machine :=
  match (elLoad (m.source t) cr3 ehdr mm).1 with
  | .faulted => { m with halted := true }
  | .returned .EL_OK => (m.spawn t child).close t
  | .returned _ => m.close t

/-- One step of a live task. A step that the task cannot take does nothing. -/
def step (m : Machine) (action : TaskId × Action) : Machine :=
  if m.halted || !m.sys.alive action.1 then m
  else
    match action.2, m.stage action.1 with
    | .call op, .idle => { m with sys := m.sys.step action.1 op }
    | .openFile path file, .idle => m.openFile action.1 path file
    | .init cloned, .opened o => m.init action.1 o cloned
    | .load cr3 mm child, .inited _ ehdr => m.load action.1 ehdr cr3 mm child
    | _, _ => m

/-- No load is under way. -/
def start (sys : System) : Machine := ⟨sys, -1, fun _ ↦ .idle, false⟩

/-! ## What a load uses -/

/-- The task has opened its file and not closed it yet. -/
def InProgress (m : Machine) (t : TaskId) (o : Opened) : Prop :=
  m.stage t = .opened o ∨ ∃ ehdr, m.stage t = .inited o ehdr

/-- The node behind `g_elf_fd` in the table of a task. -/
def nodeRead (m : Machine) (t : TaskId) : Option Addr := do
  let a ← (m.sys.vfs.enter t).fdGet m.elfFd
  let f ← m.sys.vfs.files.lookup a
  f.node

/-- Each load under way would next read from the file that its path named and close its own
descriptor. -/
def UseOwnFile (m : Machine) : Prop :=
  ∀ t o, m.InProgress t o → m.nodeRead t = o.node ∧ m.elfFd = o.fd

/-- The slot in which a task opens an image: the lowest free from 3 on, if the path names a node and
there is a block for the description. -/
def imageSlot (s : Vfs.State) (t : TaskId) (path : List UInt8) (file : Option Addr) :
    Option Slot := do
  let x ← vfsLookup s path
  let _ ← s.nodes.lookup x
  let _ ← kmalloc s.files file
  freeSlot s t 3

variable {s s' : Vfs.State} {a : Addr} {f f' : File} {sys : System} {t : TaskId} {o : Opened}

/-- A task that opens its image gets the descriptor number of every load under way. -/
def OpensAlike (m : Machine) : TaskId × Action → Prop
  | (t, .openFile (some path) file) => m.halted = false → m.sys.alive t = true → m.stage t = .idle →
      ∀ u o, m.InProgress u o →
        (imageSlot m.sys.vfs t path file).map (fun i ↦ (i.val : ℤ)) = some o.fd
  | _ => True

/-! ## The descriptors of the loads under way -/

/-- A live task has the file of its load open. -/
def Held (sys : System) (t : TaskId) (o : Opened) : Prop :=
  sys.alive t = true ∧ ∃ (i : Slot) (a : Addr) (f : File), o.fd = i.val ∧
    sys.vfs.fds (t, i) = some a ∧ sys.vfs.files.lookup a = some f ∧ f.node = o.node

theorem Held.other (hsound : sys.Sound) (h : Held sys t o) {task : TaskId} (hne : task ≠ t)
    (op : Vfs.Op) : Held (sys.step task op) t o := by
  obtain ⟨hlive, i, a, f, hfd, hslot, hf, hnode⟩ := h
  obtain ⟨hlive', htable⟩ := System.step_fds_of_ne hlive hne op
  have hslot' := (htable i).trans hslot
  obtain ⟨f', hf', -⟩ := (hsound.step task op).1.counted.file (t, i) a hslot'
  have hobject := System.step_object task op hf hf'
  exact ⟨hlive', i, a, f', hfd, hslot', hf', (congrArg Prod.fst hobject).trans hnode⟩

/-- The node behind `g_elf_fd` is the load's when `g_elf_fd` is its descriptor. -/
theorem Held.nodeRead {m : Machine} (h : Held m.sys t o) (hfd : m.elfFd = o.fd) :
    m.nodeRead t = o.node := by
  obtain ⟨-, i, a, f, hslot, hfds, hf, hnode⟩ := h
  have hget : (m.sys.vfs.enter t).fdGet m.elfFd = some a := by
    rw [hfd, hslot, Vfs.State.fdGet, slotOf_val]
    exact hfds
  simp [Machine.nodeRead, hget, hf, hnode]

/-- What `vfs_open` does for an image. -/
theorem vfsOpen_image {path : List UInt8} {file : Option Addr} {fd : ℤ}
    (h : vfsOpen (s.enter t) (some path) O_RDONLY none file = (fd, s')) :
    (imageSlot s t path file = none ∧ fd < 0) ∨
    ∃ (i : Slot) (a : Addr) (f : File), imageSlot s t path file = some i ∧ fd = i.val ∧
      s'.fds (t, i) = some a ∧ s'.files.lookup a = some f ∧ f.node = vfsLookup s path := by
  have hnode : openNode (s.enter t) path O_RDONLY none = (vfsLookup s path, s.enter t) := by
    have hlookup : vfsLookup (s.enter t) path = vfsLookup s path := rfl
    have hread : ¬(O_RDONLY &&& O_CREAT ≠ 0) := by decide
    rw [openNode, hlookup]
    cases vfsLookup s path with
    | none => exact if_neg hread
    | some x => rfl
  have hdir (n : Node) : ¬(n.type = .dir ∧ O_RDONLY &&& (O_WRONLY ||| O_RDWR) ≠ 0) :=
    fun hwrite ↦ hwrite.2 (by decide)
  simp only [vfsOpen, hnode, hdir, if_false] at h
  unfold imageSlot
  cases hlookup : vfsLookup s path with
  | none =>
    rw [hlookup] at h
    obtain ⟨rfl, -⟩ := Prod.mk.inj h
    exact .inl ⟨rfl, by decide⟩
  | some x =>
    have hnodes : (s.enter t).nodes.lookup x = s.nodes.lookup x := rfl
    have hfiles : kmalloc (s.enter t).files file = kmalloc s.files file := rfl
    simp only [hlookup, hnodes, hfiles] at h
    cases hx : s.nodes.lookup x with
    | none =>
      rw [hx] at h
      obtain ⟨rfl, -⟩ := Prod.mk.inj h
      exact .inl ⟨by simp [hx], by decide⟩
    | some n =>
      simp only [hx] at h
      cases hfile : kmalloc s.files file with
      | none =>
        simp only [hfile] at h
        obtain ⟨rfl, -⟩ := Prod.mk.inj h
        exact .inl ⟨by simp, by decide⟩
      | some a =>
        simp only [hfile] at h
        generalize hs : ({ s.enter t with
          nodes := (s.enter t).nodes.insert x (truncateOnOpen n O_RDONLY)
          files := (s.enter t).files.insert a
            (Vfs.openFile x (truncateOnOpen n O_RDONLY) O_RDONLY) } : Vfs.State) = opened at h
        have hcurrent : opened.current = some t := by rw [← hs]; rfl
        have hslot : freeSlot opened t 3 = freeSlot s t 3 := by rw [← hs]; rfl
        have hfile : opened.files.lookup a =
            some (Vfs.openFile x (truncateOnOpen n O_RDONLY) O_RDONLY) := by
          rw [← hs]
          exact Finmap.lookup_insert _
        simp only [fdAlloc, hcurrent, hslot] at h
        cases hfree : freeSlot s t 3 with
        | none =>
          rw [hfree] at h
          obtain ⟨rfl, -⟩ := Prod.mk.inj h
          exact .inl ⟨by simp, by decide⟩
        | some i =>
          rw [hfree] at h
          obtain ⟨rfl, rfl⟩ := Prod.mk.inj h
          exact .inr ⟨i, a, _, by simp [hx], rfl, by simp [Vfs.State.setFd], hfile, rfl⟩

section Step

variable {m m' : Machine} {t : TaskId}

/-- The machine after steps of one task that leave the loads of the others alone. -/
structure StepOf (t : TaskId) (m m' : Machine) : Prop where
  stage : ∀ u ≠ t, m'.stage u = m.stage u
  sys : ∃ ops : List Vfs.Op, m'.sys = m.sys.run (ops.map (Prod.mk t))

theorem StepOf.of_sys (hstage : ∀ u ≠ t, m'.stage u = m.stage u) (hsys : m'.sys = m.sys) :
    StepOf t m m' :=
  ⟨hstage, [], hsys⟩

theorem StepOf.of_op (op : Vfs.Op) (hstage : ∀ u ≠ t, m'.stage u = m.stage u)
    (hsys : m'.sys = m.sys.step t op) : StepOf t m m' :=
  ⟨hstage, [op], hsys⟩

theorem StepOf.trans {m'' : Machine} (h : StepOf t m m') (h' : StepOf t m' m'') :
    StepOf t m m'' where
  stage u hu := (h'.stage u hu).trans (h.stage u hu)
  sys := by
    obtain ⟨ops, hops⟩ := h.sys
    obtain ⟨ops', hops'⟩ := h'.sys
    refine ⟨ops ++ ops', ?_⟩
    rw [hops', hops, List.map_append, System.run, System.run, System.run, List.foldl_append]

theorem stepOf_setStage (m : Machine) (t : TaskId) (stage : Stage) :
    StepOf t m (m.setStage t stage) :=
  .of_sys (fun _ hu ↦ Function.update_of_ne hu _ _) rfl

theorem stepOf_close (m : Machine) (t : TaskId) : StepOf t m (m.close t) :=
  .of_op (.close m.elfFd) (fun _ hu ↦ Function.update_of_ne hu _ _) rfl

theorem not_inProgress_close (m : Machine) (t : TaskId) (o : Opened) :
    ¬(m.close t).InProgress t o := by
  simp [InProgress, close, setStage]

/-- A step of a task that does not open an image. -/
structure Goes (t : TaskId) (m m' : Machine) : Prop extends StepOf t m m' where
  elfFd : m'.elfFd = m.elfFd
  self : ∀ o, m'.InProgress t o → m.InProgress t o ∧ m'.sys = m.sys

theorem Goes.refl (t : TaskId) (m : Machine) : Goes t m m :=
  ⟨.of_sys (fun _ _ ↦ rfl) rfl, rfl, fun _ ho ↦ ⟨ho, rfl⟩⟩

theorem goes_close (m : Machine) (t : TaskId) : Goes t m (m.close t) :=
  ⟨stepOf_close m t, rfl, fun o ho ↦ absurd ho (not_inProgress_close m t o)⟩

theorem goes_init {o : Opened} (h : m.stage t = .opened o) (cloned : Bool) :
    Goes t m (m.init t o cloned) := by
  unfold Machine.init
  split
  · exact goes_close m t
  split
  · refine ⟨stepOf_setStage m t _, rfl, fun o' ho' ↦ ⟨?_, rfl⟩⟩
    obtain rfl : o = o' := by simpa [InProgress, setStage] using ho'
    exact .inl h
  · exact goes_close m t

theorem goes_load (m : Machine) (t : TaskId) (ehdr : Ehdr) (cr3 : BitVec 64) (mm : Mm.State)
    (child : Option TaskId) : Goes t m (m.load t ehdr cr3 mm child) := by
  unfold Machine.load
  split
  · exact ⟨.of_sys (fun _ _ ↦ rfl) rfl, rfl, fun _ ho ↦ ⟨ho, rfl⟩⟩
  · have hspawn : StepOf t m (m.spawn t child) ∧ (m.spawn t child).elfFd = m.elfFd := by
      cases child with
      | none => exact ⟨.of_sys (fun _ _ ↦ rfl) rfl, rfl⟩
      | some child => exact ⟨.of_op (.spawn child) (fun _ _ ↦ rfl) rfl, rfl⟩
    exact ⟨hspawn.1.trans (stepOf_close _ t), hspawn.2,
      fun o ho ↦ absurd ho (not_inProgress_close _ t o)⟩
  · exact goes_close m t

/-- A task opens an image. -/
def Opens (m : Machine) (action : TaskId × Action) (path : List UInt8) (file : Option Addr) :
    Prop :=
  action.2 = .openFile (some path) file ∧ m.halted = false ∧ m.sys.alive action.1 = true ∧
    m.stage action.1 = .idle

/-- A step opens an image, or goes on with a load or with other work. -/
theorem step_cases (m : Machine) (action : TaskId × Action) :
    ((∀ path file, ¬m.Opens action path file) ∧ Goes action.1 m (m.step action)) ∨
    ∃ path file, m.Opens action path file ∧
      m.step action = m.openFile action.1 (some path) file := by
  by_cases hopens : ∃ path file, m.Opens action path file
  · obtain ⟨path, file, hopen⟩ := hopens
    obtain ⟨t, action⟩ := action
    obtain ⟨rfl, hrun, hlive, hidle⟩ := id hopen
    exact .inr ⟨path, file, hopen, by simp_all [step]⟩
  refine .inl ⟨fun path file hopen ↦ hopens ⟨path, file, hopen⟩, ?_⟩
  obtain ⟨t, action⟩ := action
  unfold step
  dsimp only
  split
  · exact .refl t m
  case isFalse hrun =>
    rw [Bool.or_eq_true, not_or, Bool.not_eq_true, Bool.not_eq_true, Bool.not_eq_false'] at hrun
    split
    case h_1 op hidle =>
      refine ⟨.of_op op (fun _ _ ↦ rfl) rfl, rfl, fun o ho ↦ ?_⟩
      simp [InProgress, hidle] at ho
    case h_2 path file hidle =>
      cases path with
      | none => exact .refl t m
      | some path => exact absurd ⟨path, file, rfl, hrun.1, hrun.2, hidle⟩ hopens
    case h_3 cloned o hopened => exact goes_init hopened cloned
    case h_4 => exact goes_load m t _ _ _ _
    case h_5 => exact .refl t m

theorem openFile_cases (hidle : m.stage t = .idle) (path : List UInt8) (file : Option Addr)
    {fd : ℤ} (hfd : (vfsOpen (m.sys.vfs.enter t) (some path) O_RDONLY none file).1 = fd) :
    StepOf t m (m.openFile t (some path) file) ∧ (m.openFile t (some path) file).elfFd = fd ∧
    ∀ o, (m.openFile t (some path) file).InProgress t o → 0 ≤ fd ∧ o.fd = fd ∧
      o.node = vfsLookup m.sys.vfs path ∧
      (m.openFile t (some path) file).sys =
        m.sys.step t (.openFile (some path) O_RDONLY none file) := by
  unfold Machine.openFile
  simp only [hfd]
  generalize hm : ({ m with
    sys := m.sys.step t (.openFile (some path) O_RDONLY none file), elfFd := fd } : Machine) = m₁
  have hopen : StepOf t m m₁ := by
    rw [← hm]
    exact .of_op (.openFile (some path) O_RDONLY none file) (fun _ _ ↦ rfl) rfl
  have helfFd : m₁.elfFd = fd := by rw [← hm]
  have hsys : m₁.sys = m.sys.step t (.openFile (some path) O_RDONLY none file) := by rw [← hm]
  have hstage : m₁.stage t = .idle := by
    rw [← hm]
    exact hidle
  split
  · refine ⟨hopen, helfFd, fun o ho ↦ ?_⟩
    simp [InProgress, hstage] at ho
  case isFalse hpos =>
    split
    · exact ⟨hopen.trans (stepOf_close m₁ t), helfFd,
        fun o ho ↦ absurd ho (not_inProgress_close m₁ t o)⟩
    · refine ⟨hopen.trans (stepOf_setStage m₁ t _), helfFd, fun o ho ↦ ?_⟩
      obtain rfl : (⟨path, fd, vfsLookup m.sys.vfs path⟩ : Opened) = o := by
        simpa [InProgress, setStage] using ho
      exact ⟨not_lt.mp hpos, rfl, rfl, hsys⟩

end Step

/-- Every load under way has its file open. -/
structure Inv (m : Machine) : Prop where
  sound : m.sys.Sound
  held : ∀ t o, m.InProgress t o → Held m.sys t o

theorem inv_start (h : sys.Sound) : Inv (start sys) := by
  refine ⟨h, fun t o ho ↦ ?_⟩
  simp [InProgress, start] at ho

section Runs

variable {m m' : Machine} {t : TaskId}

variable {o : Opened}

theorem Held.run {sys : System} (hsound : sys.Sound) (h : Held sys t o) {task : TaskId}
    (hne : task ≠ t) (ops : List Vfs.Op) : Held (sys.run (ops.map (Prod.mk task))) t o := by
  induction ops generalizing sys with
  | nil => exact h
  | cons op ops ih => exact ih (hsound.step task op).1 (h.other hsound hne op)

theorem StepOf.others (h : StepOf t m m') (hI : Inv m) :
    m'.sys.Sound ∧ ∀ u o, u ≠ t → (m'.InProgress u o ↔ m.InProgress u o) ∧
      (m.InProgress u o → Held m'.sys u o) := by
  obtain ⟨ops, hops⟩ := h.sys
  refine ⟨hops ▸ hI.sound.run _, fun u o hu ↦ ⟨by rw [InProgress, InProgress, h.stage u hu], ?_⟩⟩
  intro ho
  rw [hops]
  exact (hI.held u o ho).run hI.sound (Ne.symm hu) ops

/-- What a task has opened is open in its table. -/
theorem held_openFile (hlive : m.sys.alive t = true) {path : List UInt8} {file : Option Addr}
    (hfd : (vfsOpen (m.sys.vfs.enter t) (some path) O_RDONLY none file).1 = o.fd)
    (hpos : 0 ≤ o.fd) (hnode : o.node = vfsLookup m.sys.vfs path) :
    Held (m.sys.step t (.openFile (some path) O_RDONLY none file)) t o := by
  obtain ⟨fd, s', hopen⟩ :
      ∃ fd s', vfsOpen (m.sys.vfs.enter t) (some path) O_RDONLY none file = (fd, s') := ⟨_, _, rfl⟩
  have hstep : m.sys.step t (.openFile (some path) O_RDONLY none file) = ⟨s', m.sys.alive⟩ := by
    simp [System.step, hlive, System.call, hopen]
  have hfd : fd = o.fd := by rw [← hfd, hopen]
  rw [hstep]
  obtain ⟨-, hneg⟩ | ⟨i, a, f, -, hi, hslot, hf, hfnode⟩ := vfsOpen_image hopen
  · exact absurd hpos (not_le.mpr (hfd ▸ hneg))
  · exact ⟨hlive, i, a, f, hfd.symm.trans hi, hslot, hf, hfnode.trans hnode.symm⟩

theorem Inv.next (hI : Inv m) (action : TaskId × Action) : Inv (m.step action) := by
  rcases m.step_cases action with ⟨-, hgoes⟩ | ⟨path, file, ⟨-, -, hlive, hidle⟩, hstep⟩
  · obtain ⟨hsound, hothers⟩ := hgoes.toStepOf.others hI
    refine ⟨hsound, fun u o ho ↦ ?_⟩
    by_cases hu : u = action.1
    · subst hu
      obtain ⟨hbefore, hsys⟩ := hgoes.self o ho
      exact hsys ▸ hI.held _ o hbefore
    · exact (hothers u o hu).2 ((hothers u o hu).1.mp ho)
  · rw [hstep]
    obtain ⟨hstepOf, -, hself⟩ := openFile_cases hidle path file rfl
    obtain ⟨hsound, hothers⟩ := hstepOf.others hI
    refine ⟨hsound, fun u o ho ↦ ?_⟩
    by_cases hu : u = action.1
    · subst hu
      obtain ⟨hpos, hfd, hnode, hsys⟩ := hself o ho
      rw [hsys]
      exact held_openFile hlive hfd.symm (hfd ▸ hpos) hnode
    · exact (hothers u o hu).2 ((hothers u o hu).1.mp ho)

theorem useOwnFile_iff (hI : Inv m) :
    m.UseOwnFile ↔ ∀ t o, m.InProgress t o → m.elfFd = o.fd :=
  ⟨fun h t o ho ↦ (h t o ho).2, fun h t o ho ↦ ⟨(hI.held t o ho).nodeRead (h t o ho), h t o ho⟩⟩

/-- The number that `vfs_open` returns for an image is that of its slot. -/
theorem vfsOpen_fd_eq_iff (s : Vfs.State) (t : TaskId) (path : List UInt8) (file : Option Addr)
    {fd : ℤ} (hpos : 0 ≤ fd) :
    (vfsOpen (s.enter t) (some path) O_RDONLY none file).1 = fd ↔
      (imageSlot s t path file).map (fun i ↦ (i.val : ℤ)) = some fd := by
  obtain ⟨fd', s', hopen⟩ :
      ∃ fd' s', vfsOpen (s.enter t) (some path) O_RDONLY none file = (fd', s') := ⟨_, _, rfl⟩
  rw [hopen]
  obtain ⟨hslot, hneg⟩ | ⟨i, a, f, hslot, hi, -⟩ := vfsOpen_image hopen
  · simp only [hslot, map_none, reduceCtorEq, iff_false]
    omega
  · rw [hslot, hi, map_some, some.injEq]

/-- A step keeps the loads apart exactly if it opens no image under another number. -/
theorem useOwnFile_step (hI : Inv m) (h : m.UseOwnFile) (action : TaskId × Action) :
    (m.step action).UseOwnFile ↔ m.OpensAlike action := by
  rw [useOwnFile_iff (hI.next action)]
  rw [useOwnFile_iff hI] at h
  rcases m.step_cases action with ⟨hnot, hgoes⟩ | ⟨path, file, ⟨haction, hrun, hlive, hidle⟩, hstep⟩
  · have halike : m.OpensAlike action := by
      obtain ⟨t, action⟩ := action
      unfold OpensAlike
      split
      case h_1 path file heq =>
        obtain ⟨rfl, rfl⟩ := Prod.mk.inj heq
        exact fun hrun hlive hidle ↦ absurd ⟨rfl, hrun, hlive, hidle⟩ (hnot path file)
      case h_2 => trivial
    refine iff_of_true (fun u o ho ↦ ?_) halike
    rw [hgoes.elfFd]
    by_cases hu : u = action.1
    · subst hu
      exact h _ o (hgoes.self o ho).1
    · exact h u o (((hgoes.toStepOf.others hI).2 u o hu).1.mp ho)
  · obtain ⟨t, action⟩ := action
    obtain rfl : action = .openFile (some path) file := haction
    obtain ⟨hstepOf, helfFd, hself⟩ := openFile_cases hidle path file rfl
    rw [hstep, helfFd]
    have hothers := (hstepOf.others hI).2
    have hne : ∀ u o, m.InProgress u o → u ≠ t := by
      rintro u o ho rfl
      have hidle : m.stage u = .idle := hidle
      simp [InProgress, hidle] at ho
    have hfd : ∀ u o, m.InProgress u o →
        ((vfsOpen (m.sys.vfs.enter t) (some path) O_RDONLY none file).1 = o.fd ↔
          (imageSlot m.sys.vfs t path file).map (fun i ↦ (i.val : ℤ)) = some o.fd) := by
      intro u o ho
      obtain ⟨-, i, -, -, hi, -⟩ := hI.held u o ho
      exact vfsOpen_fd_eq_iff _ _ _ _ (by omega)
    constructor
    · intro hsame _ _ _ u o ho
      exact (hfd u o ho).mp (hsame u o ((hothers u o (hne u o ho)).1.mpr ho))
    · intro halike u o ho
      by_cases hu : u = t
      · subst hu
        exact ((hself o ho).2.1).symm
      · have hbefore := (hothers u o hu).1.mp ho
        exact (hfd u o hbefore).mpr (halike hrun hlive hidle u o hbefore)

end Runs

/-- **Loads stay apart** in a run if and only if no task opens an image, while another load is under
way, in a slot with another number than the one of that load: then, and only then, each load under
way would at any time read from the file that its path named and close its own descriptor. -/
theorem loads_use_own_file_iff (root : Addr) (nodes : Heap Node) (tty0 : Addr) (task : TaskId)
    (choices : Slot → Option Addr) (actions : List (TaskId × Action)) :
    Always step UseOwnFile (start (System.boot root nodes tty0 task choices)) actions ↔
      Meets step OpensAlike (start (System.boot root nodes tty0 task choices)) actions := by
  refine Runs.always_iff_meets (inv_start (System.sound_boot root nodes tty0 task choices)) ?_
    (fun _ action hI ↦ hI.next action) fun _ action hI hP ↦ useOwnFile_step hI hP action
  intro t o ho
  simp [InProgress, start] at ho

/-- The shell and a program that has the file `a` open. -/
def shellAndProgram : Machine :=
  Runs.run step (start (System.boot 0 Kernel.bootFiles.nodes 0 0 fun _ ↦ none))
    [(0, .call (.spawn 1)), (1, .call (.openFile (some [97]) O_RDONLY none (some 5)))]

/-- The program executes `b`. Before it reads the file, the shell opens `a`. -/
def openedTwice : Machine :=
  Runs.run step shellAndProgram
    [(1, .openFile (some [98]) (some 6)), (0, .openFile (some [97]) (some 7))]

/-- The program goes on with `execve`. -/
def loadedByProgram : Machine :=
  Runs.run step openedTwice
    [(1, .init true), (1, .load bootMemory.vmmSpaceClone.1
        (bootMemory.vmmSpaceClone.2.vmmSpaceSwitch bootMemory.vmmSpaceClone.1) none)]

/-- The program that executes `b`, which it has opened as descriptor 4, reads the headers of `a` and
closes its descriptor 3. -/
theorem program_loads_other_file :
    openedTwice.stage 1 = .opened ⟨[98], 4, some 2⟩ ∧
    openedTwice.nodeRead 1 = some 1 ∧ openedTwice.elfFd = 3 ∧
    (elInit (openedTwice.source 1)).toOption.map (·.ehdr.eEntry) = some 0x400000 ∧
    loadedByProgram.halted = false ∧ loadedByProgram.stage 1 = .idle ∧
    loadedByProgram.sys.vfs.fds (1, 3) = none ∧
    loadedByProgram.sys.vfs.fds (1, 4) = some 6 := by
  decide +kernel

end Machine

end ToastyUnix.Sched.Loaders
