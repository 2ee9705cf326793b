import ToastyUnix.Shell.Descriptors
import ToastyUnix.Vfs.PipeAccess

/-!
# A builtin at the head of a pipeline

`exec_pipeline` runs a builtin inline, before the stage that will read its output exists. Its
writes go through `pipe_write`, which waits while the pipe is full, and the only read end is in the
table of the shell itself. Here the shell has an output that its builtin writes to descriptor 1,
one pass of `vfs_write` at a time, and `stuck` records that a pass has had to wait for a reader that
only the shell could be.
-/

namespace ToastyUnix.Shell

open Vfs Interference Machine List Option

/-- One pass of `vfs_write(1, buf, size)`, with the next bytes of the output in the buffer. -/
structure Pass where
  size : ℕ
  driver : ℤ
  alloc : Realloc

/-- A shell command, and for builtin I/O possibly a pass on descriptor 1. -/
structure OutputChoice where
  call : Choice := {}
  pass : Option Pass := none

instance : Nonempty OutputChoice := ⟨{}⟩

/-- The world and the part of the builtin's output that is not yet written. -/
structure Producer where
  world : World
  pending : List UInt8
  stuck : Bool

/-- The pipe behind the standard output of the shell. -/
def stdoutPipe (s : State) : Option Addr := s.pipeOf (shell, 1)

/-- The call writes to a pipe. -/
def writesPipe (s : State) : Vfs.Op → Bool
  | .write fd _ _ _ => (slotOf fd).any fun i ↦ (s.pipeOf (shell, i)).isSome
  | _ => false

/-- How much of the buffer the caller is done with after a pass. -/
def passed (s : State) (buf : List UInt8) (pass : Pass) : ℕ :=
  match (vfsWrite s 1 (some buf) pass.driver pass.alloc).1 with
  | some _ => buf.length
  | none =>
    match (stdoutPipe s).bind s.pipes.lookup with
    | none => 0
    | some pipe =>
      match pipeWritePass pipe buf 0 with
      | .copied chunk _ => chunk.length
      | _ => 0

/-- Every read end of the pipe is in the table of the shell. -/
def onlyReader (s : State) (q : Addr) : Bool :=
  decide (∀ k, (s.fds k).any (endOf s.files q false) = true → k.1 = shell)

/-- The pass waits in `pipe_write`, and nobody but the shell could read from the pipe. -/
def waitsForItself (s : State) (buf : List UInt8) (pass : Pass) : Bool :=
  (vfsWrite s 1 (some buf) pass.driver pass.alloc).1.isNone &&
  match stdoutPipe s with
  | none => false
  | some q =>
    match s.pipes.lookup q with
    | none => false
    | some pipe =>
      match pipeWritePass pipe buf 0 with
      | .wait => onlyReader s q
      | _ => false

namespace Producer

/-- The I/O of a builtin: a pass on descriptor 1, or a call that writes to no pipe. -/
def io (s : Producer) (choice : OutputChoice) : Producer :=
  match choice.pass with
  | none =>
    if writesPipe s.world.vfs choice.call.op then s
    else { s with world := (Shell.perform .io choice.call s.world).2 }
  | some pass =>
    let buf := s.pending.take pass.size
    { world := s.world.setVfs (vfsWrite s.world.vfs 1 (some buf) pass.driver pass.alloc).2
      pending := s.pending.drop (passed s.world.vfs buf pass)
      stuck := s.stuck || waitsForItself s.world.vfs buf pass }

def perform : (c : Cmd) → OutputChoice → Producer → Res c × Producer
  | .io, choice, s => ((), s.io choice)
  | c, choice, s =>
    ((Shell.perform c choice.call s.world).1,
      { s with world := (Shell.perform c choice.call s.world).2 })

def interfere (s : Producer) (e : Event) : Producer := { s with world := Shell.interfere s.world e }

def machine : Machine Producer Cmd Res OutputChoice Event := ⟨perform, interfere⟩

/-- Any number of events of the others. -/
def Rely (s s' : Producer) : Prop := ∃ events : List Event, s' = events.foldl interfere s

instance : Std.Refl Rely := ⟨fun _ ↦ ⟨[], rfl⟩⟩

instance : IsTrans Producer Rely where
  trans _ _ _ := by
    rintro ⟨events, rfl⟩ ⟨events', rfl⟩
    exact ⟨events ++ events', by rw [foldl_append]⟩

theorem stable_of_interfere {P : Producer → Prop} (h : ∀ s e, P s → P (interfere s e)) :
    Stable Rely P := by
  rintro s _ ⟨events, rfl⟩ hs
  induction events generalizing s with
  | nil => exact hs
  | cons e events ih => exact ih _ (h s e hs)

/-- An event of the others is a step of some other task. -/
theorem interfere_sys (w : World) (e : Event) : (Shell.interfere w e).sys = w.sys ∨
    ∃ task op, task ≠ shell ∧ (Shell.interfere w e).sys = w.sys.step task op := by
  cases e with
  | call task op =>
    simp only [Shell.interfere]
    split_ifs with htask
    · exact .inl rfl
    · exact .inr ⟨task, op, htask, rfl⟩
  | execve task path node file =>
    simp only [Shell.interfere]
    split_ifs with htask
    · exact .inl rfl
    · obtain ⟨hne, hlive⟩ := not_or.mp htask
      refine .inr ⟨task, .openFile path O_RDONLY node file, hne, ?_⟩
      unfold System.step
      rw [if_pos (by simpa using hlive)]
      rfl

/-- The shell runs, no pass had to wait for the shell itself, and a small output has room for its
rest in every pipe of the shell. -/
structure Ready (small : Prop) (s : Producer) : Prop where
  sound : s.world.sys.Sound
  live : s.world.sys.alive shell = true
  calm : s.stuck = false
  room : small → s.pending.length ≤ pipeBufSize ∧
    Alone shell s.pending.length s.world.sys.vfs

variable {small : Prop} {s : Producer}

theorem Ready.interfere (h : Ready small s) (e : Event) : Ready small (s.interfere e) := by
  rcases interfere_sys s.world e with hsame | ⟨task, op, hne, hstep⟩
  · exact ⟨hsame ▸ h.sound, hsame ▸ h.live, h.calm, fun hs ↦ hsame ▸ h.room hs⟩
  · refine ⟨hstep ▸ (h.sound.step task op).1, hstep ▸ (System.step_fds_of_ne h.live hne op).1,
      h.calm, fun hs ↦ ⟨(h.room hs).1, ?_⟩⟩
    exact hstep ▸ (h.room hs).2.step_other h.sound h.live hne op

/-- No pipe is behind the standard output. -/
def Redirected (s : Producer) : Prop := stdoutPipe s.world.sys.vfs = none

theorem Redirected.interfere (h : s.Redirected) (hready : Ready small s) (e : Event) :
    (s.interfere e).Redirected := by
  unfold Redirected Producer.interfere at *
  rcases interfere_sys s.world e with hsame | ⟨task, op, hne, hstep⟩
  · rwa [hsame]
  · rw [hstep]
    refine eq_none_iff_forall_ne_some.mpr fun q hq ↦ ?_
    have hbefore := System.pipeOf_step_other hready.sound hready.live hne op hq
    exact some_ne_none q (hbefore.symm.trans h)

/-- A call of the shell that writes to no pipe and creates no task. -/
theorem Ready.own (h : Ready small s) {w : World} (op : Vfs.Op)
    (hop : written s.world.vfs shell op = ∅)
    (hw : w.sys = ⟨System.call s.world.vfs op, s.world.sys.alive⟩) :
    Ready small { s with world := w } := by
  have c : Counted s.world.vfs := ⟨h.sound.counted.file, h.sound.counted.pipe⟩
  have hflow := System.call_flows c rfl op
  rw [hop] at hflow
  refine ⟨hw ▸ h.sound.call h.live op, hw ▸ h.live, h.calm, fun hs ↦ ⟨(h.room hs).1, ?_⟩⟩
  have halone : Alone shell s.pending.length s.world.vfs := (h.room hs).2
  exact hw ▸ halone.of_flows_own c hflow (fun k hk ↦ hk) (h.room hs).1

/-- A call of the shell that copies no descriptor. -/
theorem Redirected.own (h : s.Redirected) (hready : Ready small s) {s' : Producer} (op : Vfs.Op)
    (hop : op.copies = false)
    (hw : s'.world.sys = ⟨System.call s.world.vfs op, s.world.sys.alive⟩) : s'.Redirected := by
  have c : Counted s.world.vfs := ⟨hready.sound.counted.file, hready.sound.counted.pipe⟩
  have hflow := System.call_flows_of_not_copies c rfl hop
  unfold Redirected
  rw [hw]
  refine eq_none_iff_forall_ne_some.mpr fun q hq ↦ ?_
  have hbefore : stdoutPipe s.world.vfs = some q :=
    (hflow.slot (shell, 1) q hq).resolve_right fun hk ↦ Set.notMem_empty _ hk.1
  exact some_ne_none q (hbefore.symm.trans h)

variable {c : Cmd} {p : Program α} {fd : ℤ} {builtin : Builtin}

/-- The commands other than the I/O of a builtin and the creation of a task. -/
def Setup : Cmd → Prop
  | .io | .elfLoad => False
  | _ => True

theorem perform_call (hc : Setup c) (choice : Choice) (w : World) :
    (Shell.perform c choice w).2.sys = w.sys ∨
    ∃ op, written w.vfs shell op = ∅ ∧
      (Shell.perform c choice w).2.sys = ⟨System.call w.vfs op, w.sys.alive⟩ := by
  cases c with
  | io | elfLoad => cases hc
  | dup fd => exact .inr ⟨.dup fd, rfl, rfl⟩
  | dup2 oldfd newfd => exact .inr ⟨.dup2 oldfd newfd, rfl, rfl⟩
  | close fd => exact .inr ⟨.close fd, rfl, rfl⟩
  | openFile path flags =>
    exact .inr ⟨.openFile (some path) flags choice.node choice.file, rfl, rfl⟩
  | pipe => exact .inr ⟨.pipe choice.pipe choice.readEnd choice.writeEnd, rfl, rfl⟩
  | elfOpen path => exact .inr ⟨.openFile (some path) O_RDONLY choice.node choice.file, rfl, rfl⟩
  | elfClose => exact .inr ⟨.close w.elfFd, rfl, rfl⟩
  | resolveProg | pathResolve | rounds | executable | wait => exact .inl rfl

theorem Ready.perform (h : Ready small s) (hc : Setup c) (choice : OutputChoice) :
    Ready small (Producer.perform c choice s).2 := by
  have heq : (Producer.perform c choice s).2 =
      { s with world := (Shell.perform c choice.call s.world).2 } := by
    cases c with
    | io => cases hc
    | _ => rfl
  rw [heq]
  rcases perform_call hc choice.call s.world with hsame | ⟨op, hop, hcall⟩
  · exact ⟨hsame ▸ h.sound, hsame ▸ h.live, h.calm, fun hs ↦ hsame ▸ h.room hs⟩
  · exact h.own _ hop hcall

/-- Only the I/O of a builtin can get stuck. -/
theorem perform_stuck (hc : c ≠ .io) (choice : OutputChoice) (s : Producer) :
    (Producer.perform c choice s).2.stuck = s.stuck := by
  cases c with
  | io => exact absurd rfl hc
  | _ => rfl

section Io

variable {pipe pipe' : Pipe} {buf chunk : List UInt8} {total : ℕ}

theorem pipeWritePass_wait (h : pipeWritePass pipe buf total = .wait) :
    total < buf.length ∧ pipe.count = pipeBufSize := by
  unfold pipeWritePass at h
  split at h
  case isFalse => cases h
  case isTrue htotal =>
    split at h
    · cases h
    · split at h
      case isTrue hfull => exact ⟨htotal, hfull⟩
      case isFalse => cases h

theorem pipeWritePass_length_le (h : pipeWritePass pipe buf total = .copied chunk pipe') :
    chunk.length ≤ buf.length := by
  unfold pipeWritePass at h
  split_ifs at h
  obtain ⟨rfl, -⟩ := h
  simp only [length_take, length_drop]
  omega

/-- With room for the whole output, or without a pipe, a pass does not wait. -/
theorem Ready.not_waits (h : Ready small s) (hcond : small ∨ s.Redirected) (pass : Pass) :
    waitsForItself s.world.vfs (s.pending.take pass.size) pass = false := by
  rw [Bool.eq_false_iff]
  intro hwaits
  simp only [waitsForItself, Bool.and_eq_true] at hwaits
  obtain ⟨-, hwaits⟩ := hwaits
  split at hwaits
  · cases hwaits
  case h_2 q hq =>
    rcases hcond with hsmall | hredirected
    · split at hwaits
      · cases hwaits
      case h_2 pipe hpipe =>
        split at hwaits
        case h_1 hpass =>
          obtain ⟨hlength, hfull⟩ := pipeWritePass_wait hpass
          have hroom := ((h.room hsmall).2 1 q hq).2 pipe hpipe
          rw [length_take] at hlength
          omega
        · cases hwaits
    · exact some_ne_none q (hq.symm.trans hredirected)

theorem passed_eq {v : State} {pass : Pass} {q : Addr} (hq : v.pipeOf (shell, 1) = some q)
    (hpipe : v.pipes.lookup q = some pipe) (hpass : pipeWritePass pipe buf 0 = .copied chunk pipe')
    (hnone : (vfsWrite v 1 (some buf) pass.driver pass.alloc).1 = none) :
    passed v buf pass = chunk.length := by
  simp only [passed, hnone, stdoutPipe, hq, bind_some, hpipe, hpass]

theorem Ready.io (h : Ready small s) (hcond : small ∨ s.Redirected) (choice : OutputChoice) :
    Ready small (s.io choice) := by
  unfold Producer.io
  cases choice.pass with
  | none =>
    dsimp only
    split_ifs with hwrites
    · exact h
    · simp only [Shell.perform]
      split_ifs
      · refine h.own choice.call.op ?_ rfl
        cases hop : choice.call.op with
        | write fd buf driver alloc =>
          rw [hop] at hwrites
          refine Set.eq_empty_of_forall_notMem fun q hq ↦ hwrites ?_
          obtain ⟨i, hi, hq⟩ := hq
          simp [writesPipe, hi, hq]
        | _ => rfl
      · exact h
  | some pass =>
    dsimp only
    have hcalm := h.not_waits hcond pass
    refine ⟨h.sound.call h.live (.write 1 _ _ _), h.live, by simp [h.calm, hcalm], fun hs ↦ ?_⟩
    obtain ⟨hle, halone⟩ := h.room hs
    have halone' : Alone shell s.pending.length s.world.vfs := halone
    rw [length_drop]
    refine ⟨by omega, halone'.vfsWrite rfl (i := 1) rfl ?_⟩
    intro q pipe chunk pipe' hq hp hpass hnone
    have hlength := pipeWritePass_length_le hpass
    rw [length_take] at hlength
    rw [passed_eq hq hp hpass hnone]
    exact ⟨rfl, by omega⟩

theorem Redirected.io (h : s.Redirected) (hready : Ready small s) (choice : OutputChoice) :
    (s.io choice).Redirected := by
  unfold Producer.io
  cases choice.pass with
  | none =>
    dsimp only
    split_ifs
    · exact h
    · simp only [Shell.perform]
      split_ifs with hio
      · refine h.own hready choice.call.op ?_ rfl
        cases hop : choice.call.op <;> simp_all [isIo, Op.copies]
      · exact h
  | some pass => exact h.own hready (.write 1 _ _ _) rfl rfl

end Io

variable {α : Type} {seg : Seg}

/-- What holds while the builtin runs. -/
def Running (small : Prop) (s : Producer) : Prop :=
  Ready small s ∧ (small ∨ s.Redirected)

theorem stable_ready : Stable Rely (Ready small) := stable_of_interfere fun _ e h ↦ h.interfere e

theorem Running.interfere (h : Running small s) (e : Event) : Running small (s.interfere e) :=
  ⟨h.1.interfere e, h.2.imp_right fun hr ↦ hr.interfere h.1 e⟩

/-- The commands of a builtin that works on files. -/
def Working : Cmd → Prop
  | .pathResolve _ | .openFile _ _ | .close _ | .rounds | .io => True
  | _ => False

theorem Running.perform (h : Running small s) (hc : Working c) (choice : OutputChoice) :
    Running small (Producer.perform c choice s).2 := by
  cases c with
  | io => exact ⟨h.1.io h.2 choice, h.2.imp_right fun hr ↦ hr.io h.1 choice⟩
  | pathResolve arg => exact ⟨h.1.perform (c := .pathResolve arg) trivial choice, h.2⟩
  | rounds => exact ⟨h.1.perform (c := .rounds) trivial choice, h.2⟩
  | openFile path flags =>
    exact ⟨h.1.perform (c := .openFile path flags) trivial choice, h.2.imp_right fun hr ↦
      hr.own h.1 (.openFile (some path) flags choice.call.node choice.call.file) rfl rfl⟩
  | close fd =>
    exact ⟨h.1.perform (c := .close fd) trivial choice, h.2.imp_right fun hr ↦
      hr.own h.1 (.close fd) rfl rfl⟩
  | _ => cases hc

/-- The rest of `exec_pipeline` does no I/O. -/
def NoIo (c : Cmd) : Prop := c ≠ .io

theorem calm_triple (hp : p.Within NoIo fun _ ↦ True) :
    machine.Triple Rely (fun s ↦ s.stuck = false) p fun _ s ↦ s.stuck = false :=
  (Triple.of_within (stable_of_interfere fun _ _ h ↦ h)
    (fun _ hc choice s h ↦ (perform_stuck hc choice s).trans h) hp).mono (fun _ h ↦ h)
    fun _ _ h ↦ h.1

theorem perform_within {allowed : Cmd → Prop} (hc : allowed c) :
    (Prog.perform c : Program (Res c)).Within allowed fun _ ↦ True :=
  ⟨hc, fun _ ↦ trivial⟩

theorem elfExec_within (path : List UInt8) : (elfExec path).Within NoIo fun _ ↦ True := by
  refine (perform_within nofun).bind fun fd _ ↦ ?_
  split_ifs
  · trivial
  · refine (perform_within nofun).bind fun ok _ ↦ ?_
    split_ifs
    · exact (perform_within nofun).bind fun _ _ ↦ trivial
    · exact (perform_within nofun).bind fun _ _ ↦ (perform_within nofun).bind fun _ _ ↦ trivial

theorem ioLoop_within (n : ℕ) : (ioLoop n).Within Working fun _ ↦ True := by
  induction n with
  | zero => trivial
  | succ n ih => exact (perform_within trivial).bind fun _ _ ↦ ih

theorem doIo_within : doIo.Within Working fun _ ↦ True :=
  (perform_within trivial).bind fun n _ ↦ ioLoop_within n

theorem withFile_within (path : List UInt8) (flags : BitVec 32) :
    (withFile path flags).Within Working fun _ ↦ True := by
  refine (perform_within trivial).bind fun fd _ ↦ ?_
  split_ifs
  · trivial
  · exact doIo_within.bind fun _ _ ↦ (perform_within trivial).bind fun _ _ ↦ trivial

/-- A builtin does no I/O, or it only works on files. -/
theorem builtinRun_within (builtin : Builtin) (argv : List (List UInt8)) :
    (builtinRun builtin argv).Within NoIo (fun _ ↦ True) ∨
    (builtinRun builtin argv).Within Working fun _ ↦ True := by
  unfold builtinRun
  split
  · split_ifs
    · exact .inr trivial
    · exact .inr ((perform_within trivial).bind fun path _ ↦ withFile_within path _)
  · exact .inr ((perform_within trivial).bind fun path _ ↦ withFile_within path _)
  · exact .inr ((perform_within trivial).bind fun path _ ↦ withFile_within path _)
  · refine .inr ((perform_within trivial).bind fun path _ ↦ ?_)
    split_ifs
    · trivial
    · exact withFile_within path _
  · exact .inr (withFile_within fbPath _)
  · split
    · exact .inr doIo_within
    · exact .inr ((perform_within trivial).bind fun path _ ↦ withFile_within path _)
  · exact .inl ((perform_within nofun).bind fun path _ ↦
      (elfExec_within path).bind fun _ _ ↦ trivial)
  · exact .inr doIo_within

theorem builtinRun_triple (builtin : Builtin) (argv : List (List UInt8)) :
    machine.Triple Rely (Running small) (builtinRun builtin argv) fun _ s ↦ s.stuck = false := by
  rcases builtinRun_within builtin argv with hp | hp
  · exact (calm_triple hp).mono (fun _ h ↦ h.1.calm) fun _ _ h ↦ h
  · exact (Triple.of_within (stable_of_interfere fun _ e h ↦ h.interfere e)
      (fun _ hc choice _ h ↦ h.perform hc choice) hp).mono (fun _ h ↦ h) fun _ _ h ↦ h.1.1.calm

theorem closeFiles_within (files : List ℤ) : (closeFiles files).Within NoIo fun _ ↦ True := by
  induction files with
  | nil => trivial
  | cons fd files ih => exact (perform_within nofun).bind fun _ _ ↦ ih

theorem restore_within (saves : ℤ × ℤ × ℤ) : (restore saves).Within NoIo fun _ ↦ True :=
  (perform_within nofun).bind fun _ _ ↦ (perform_within nofun).bind fun _ _ ↦
    (perform_within nofun).bind fun _ _ ↦ trivial

theorem takeInput_within (first : Bool) (prevR : ℤ) :
    (takeInput first prevR).Within (fun c ↦ Setup c ∧ NoIo c) fun _ ↦ True := by
  unfold takeInput
  split_ifs
  · trivial
  · exact (perform_within ⟨trivial, nofun⟩).bind fun _ _ ↦
      (perform_within ⟨trivial, nofun⟩).bind fun _ _ ↦ trivial

theorem makeOutput_within (last : Bool) (prevR : ℤ) :
    (makeOutput last prevR).Within (fun c ↦ Setup c ∧ NoIo c) fun _ ↦ True := by
  unfold makeOutput
  split_ifs
  · trivial
  · refine (perform_within ⟨trivial, nofun⟩).bind fun fds _ ↦ ?_
    split
    · trivial
    · exact (perform_within ⟨trivial, nofun⟩).bind fun _ _ ↦ trivial

theorem redirect_within (seg : Seg) (targets : List (Fin 3)) (files : List ℤ) :
    (redirect seg targets files).Within NoIo fun _ ↦ True := by
  induction targets generalizing files with
  | nil => trivial
  | cons tgt targets ih =>
    unfold redirect
    split
    · exact ih files
    · refine (perform_within nofun).bind fun fd _ ↦ ?_
      split_ifs
      · trivial
      · exact (perform_within nofun).bind fun _ _ ↦ ih _

theorem setup_triple {p : Program α} {Q : α → Prop} (hp : p.Within (fun c ↦ Setup c ∧ NoIo c) Q) :
    machine.Triple Rely (Ready small) p fun a s ↦ Ready small s ∧ Q a :=
  .of_within stable_ready (fun _ hc choice _ h ↦ h.perform hc.1 choice) hp

theorem dup_triple (fd : ℤ) :
    machine.Triple Rely (Ready small) (Sys.dup fd) fun _ ↦ Ready small :=
  (setup_triple (perform_within (c := .dup fd) ⟨trivial, nofun⟩)).mono (fun _ h ↦ h)
    fun _ _ h ↦ h.1

/-- With targets still to come, a redirected standard output is in place. -/
def Before (small : Prop) (seg : Seg) (targets : List (Fin 3)) (s : Producer) : Prop :=
  Ready small s ∧ (seg.redir 1 ≠ none → 1 ∉ targets → s.Redirected)

theorem stable_before (targets : List (Fin 3)) : Stable Rely (Before small seg targets) :=
  stable_of_interfere fun _ e h ↦
    ⟨h.1.interfere e, fun hredir htargets ↦ (h.2 hredir htargets).interfere h.1 e⟩

/-- The call failed, or the descriptor is open and for no pipe. -/
def OpenAt (fd : ℤ) (s : Producer) : Prop :=
  fd < 0 ∨ ∃ (i : Slot) (a : Addr), fd = i.val ∧ 3 ≤ i.val ∧
    s.world.sys.vfs.fds (shell, i) = some a ∧ s.world.sys.vfs.pipeOf (shell, i) = none

theorem OpenAt.interfere (h : OpenAt fd s) (hready : Ready small s) (e : Event) :
    OpenAt fd (s.interfere e) := by
  refine h.imp_right fun ⟨i, a, hfd, hi, hslot, hpipe⟩ ↦ ⟨i, a, hfd, hi, ?_⟩
  unfold Producer.interfere
  rcases interfere_sys s.world e with hsame | ⟨task, op, hne, hstep⟩
  · rw [hsame]
    exact ⟨hslot, hpipe⟩
  · rw [hstep]
    refine ⟨((System.step_fds_of_ne hready.live hne op).2 i).trans hslot, ?_⟩
    refine eq_none_iff_forall_ne_some.mpr fun q hq ↦ ?_
    have hbefore := System.pipeOf_step_other hready.sound hready.live hne op hq
    exact some_ne_none q (hbefore.symm.trans hpipe)

theorem openFile_triple (targets : List (Fin 3)) (path : List UInt8) (flags : BitVec 32) :
    machine.Triple Rely (Before small seg targets) (Sys.openFile path flags)
      fun fd s ↦ Before small seg targets s ∧ OpenAt fd s := by
  refine Triple.perform (stable_before targets) (fun fd ↦ stable_of_interfere fun s e h ↦ ?_)
    fun s choice h ↦ ⟨⟨?_, fun hredir htargets ↦ ?_⟩, ?_⟩
  · exact ⟨stable_before targets s _ ⟨[e], rfl⟩ h.1, h.2.interfere h.1.1 e⟩
  · exact h.1.perform (c := .openFile path flags) trivial choice
  · exact (h.2 hredir htargets).own h.1
      (.openFile (some path) flags choice.call.node choice.call.file) rfl rfl
  · have c : Counted s.world.vfs := ⟨h.1.sound.counted.file, h.1.sound.counted.pipe⟩
    rcases vfsOpen_result (s := s.world.vfs) rfl (some path) flags choice.call.node
      choice.call.file with ⟨hneg, -⟩ | ⟨i, f, hslot, hfd, hfds⟩
    · exact .inl hneg
    · obtain ⟨hi, hfree⟩ := freeSlot_eq_some hslot
      refine .inr ⟨i, f, hfd, hi, ?_, eq_none_iff_forall_ne_some.mpr fun q hq ↦ ?_⟩
      · exact (congrFun hfds _).trans (Function.update_self ..)
      · have hcopies : Copies shell _ _ _ :=
          vfsOpen_copies c (some path) flags choice.call.node choice.call.file
        rcases hcopies.slot (shell, i) q hq with hbefore | ⟨hk, -⟩
        · rw [State.pipeOf, hfree] at hbefore
          cases hbefore
        · exact absurd hk (Set.notMem_empty _)

theorem dup2_triple (tgt : Fin 3) (targets : List (Fin 3)) (hfd : 0 ≤ fd) :
    machine.Triple Rely (fun s ↦ Before small seg (tgt :: targets) s ∧ OpenAt fd s)
      (Sys.dup2 fd tgt.val) fun _ ↦ Before small seg targets := by
  refine Triple.perform (stable_of_interfere fun s e h ↦ ?_) (fun _ ↦ stable_before targets)
    fun s choice ⟨h, hopen⟩ ↦ ⟨?_, fun hredir htargets ↦ ?_⟩
  · exact ⟨stable_before _ s _ ⟨[e], rfl⟩ h.1, h.2.interfere h.1.1 e⟩
  · exact h.1.perform (c := .dup2 fd tgt.val) trivial choice
  · have c : Counted s.world.vfs := ⟨h.1.sound.counted.file, h.1.sound.counted.pipe⟩
    by_cases htgt : tgt = 1
    · subst htgt
      obtain ⟨i, a, rfl, hi, hslot, hpipe⟩ := hopen.resolve_left (by omega)
      have hne : i ≠ 1 := by
        rintro rfl
        exact absurd hi (by decide)
      have hmoved := vfsDup2_pipeOf c rfl hslot hne
      exact hmoved.trans hpipe
    · have hbefore : s.Redirected := h.2 hredir (by simp [Ne.symm htgt, htargets])
      refine eq_none_iff_forall_ne_some.mpr fun q hq ↦ ?_
      rcases (vfsDup2_copies c rfl fd tgt.val).slot (shell, 1) q hq with hkeep | ⟨⟨-, hslot⟩, -⟩
      · exact some_ne_none q (hkeep.symm.trans hbefore)
      · have hval : (tgt.val : ℤ) = ((1 : Slot).val : ℤ) := slotOf_eq_some hslot
        exact htgt (Fin.ext (by exact_mod_cast hval))

theorem redirect_triple (targets : List (Fin 3)) (files : List ℤ) :
    machine.Triple Rely (Before small seg targets) (redirect seg targets files)
      fun r s ↦ Ready small s ∧ (r.1 = false → seg.redir 1 ≠ none → s.Redirected) := by
  induction targets generalizing files with
  | nil =>
    exact .ret (stable_before []) fun s h ↦ ⟨h.1, fun _ hredir ↦ h.2 hredir not_mem_nil⟩
  | cons tgt targets ih =>
    unfold redirect
    split
    case h_1 hnone =>
      refine (ih files).mono (fun s h ↦ ⟨h.1, fun hredir htargets ↦ h.2 hredir ?_⟩) fun _ _ h ↦ h
      rw [mem_cons, not_or]
      exact ⟨fun heq ↦ hredir (heq ▸ hnone), htargets⟩
    case h_2 mode file _ =>
      refine (openFile_triple (tgt :: targets) file mode.flags).bind fun fd ↦ ?_
      split_ifs with hneg
      · refine .ret (stable_of_interfere fun s e h ↦ ?_) fun s h ↦ ⟨h.1.1, nofun⟩
        exact ⟨stable_before _ s _ ⟨[e], rfl⟩ h.1, h.2.interfere h.1.1 e⟩
      · exact (dup2_triple tgt targets (not_lt.mp hneg)).bind fun _ ↦ ih _

theorem noIo_of_setup (hp : p.Within (fun c ↦ Setup c ∧ NoIo c) fun _ ↦ True) :
    p.Within NoIo fun _ ↦ True :=
  hp.mono (fun _ hc ↦ hc.2) fun _ h ↦ h

/-- What a stage does behind its program or builtin. -/
theorem cleanUp_within (saves : ℤ × ℤ × ℤ) (files : List ℤ) (w : ℤ) (r : Bool × ℤ × List ℤ) :
    (do
      restore saves
      closeFiles files
      closeFiles (if 0 ≤ w then [w] else [])
      return r : Program (Bool × ℤ × List ℤ)).Within NoIo fun _ ↦ True :=
  (restore_within saves).bind fun _ _ ↦ (closeFiles_within files).bind fun _ _ ↦
    (closeFiles_within _).bind fun _ _ ↦ trivial

theorem stage_within (hseg : seg.builtin = none) (saves : ℤ × ℤ × ℤ) (first last : Bool)
    (prevR : ℤ) (path : List UInt8) :
    (stage saves first last prevR seg path).Within NoIo fun _ ↦ True := by
  refine (noIo_of_setup (takeInput_within first prevR)).bind fun prevR _ ↦ ?_
  refine (noIo_of_setup (makeOutput_within last prevR)).bind fun ⟨failed, prevR, w⟩ _ ↦ ?_
  have hredirect : (if failed then pure (true, []) else redirect seg [0, 1, 2] [] :
      Program (Bool × List ℤ)).Within NoIo fun _ ↦ True := by
    split_ifs
    · trivial
    · exact redirect_within seg _ _
  refine hredirect.bind fun ⟨failed, files⟩ _ ↦ ?_
  have hrun : (if failed then pure (true, []) else runSegment seg path :
      Program (Bool × List ℤ)).Within NoIo fun _ ↦ True := by
    split_ifs
    · trivial
    · unfold runSegment
      rw [hseg]
      refine (elfExec_within path).bind fun pid _ ↦ ?_
      split_ifs
      · trivial
      · trivial
  exact hrun.bind fun ⟨failed, pids⟩ _ ↦ cleanUp_within saves files w _

theorem stage_triple (hcond : small ∨ seg.redir 1 ≠ none) (hseg : seg.builtin = some builtin)
    (saves : ℤ × ℤ × ℤ) (first last : Bool) (prevR : ℤ) (path : List UInt8) :
    machine.Triple Rely (Ready small) (stage saves first last prevR seg path)
      fun _ s ↦ s.stuck = false := by
  refine (setup_triple (takeInput_within first prevR)).bind fun prevR ↦ ?_
  refine ((setup_triple (makeOutput_within last prevR)).mono (fun _ h ↦ h.1) fun _ _ h ↦ h).bind
    fun ⟨failed, prevR, w⟩ ↦ ?_
  have hredirect : machine.Triple Rely (fun s ↦ Ready small s ∧ True)
      (if failed then pure (true, []) else redirect seg [0, 1, 2] [])
      fun r s ↦ Ready small s ∧ (r.1 = false → small ∨ s.Redirected) := by
    split_ifs
    · exact .ret (stable_of_interfere fun _ e h ↦ ⟨h.1.interfere e, trivial⟩) fun s h ↦
        ⟨h.1, nofun⟩
    · exact (redirect_triple [0, 1, 2] []).mono (fun s h ↦ ⟨h.1, fun _ hmem ↦ by simp at hmem⟩)
        fun r s h ↦ ⟨h.1, fun hr ↦ hcond.imp_right (h.2 hr)⟩
  refine hredirect.bind fun ⟨failed, files⟩ ↦ ?_
  have hrun : machine.Triple Rely
      (fun s ↦ Ready small s ∧ (failed = false → small ∨ s.Redirected))
      (if failed then pure (true, []) else runSegment seg path)
      fun _ s ↦ s.stuck = false := by
    cases failed with
    | true =>
      exact .ret (stable_of_interfere fun _ e h ↦ ⟨h.1.interfere e, nofun⟩) fun s h ↦ h.1.calm
    | false =>
      rw [if_neg Bool.false_ne_true, runSegment, hseg]
      refine ((builtinRun_triple builtin seg.argv).mono (fun s h ↦ ⟨h.1, h.2 rfl⟩)
        fun _ _ h ↦ h).bind fun _ ↦ ?_
      exact .ret (stable_of_interfere fun _ _ h ↦ h) fun _ h ↦ h
  exact hrun.bind fun ⟨failed, pids⟩ ↦ calm_triple (cleanUp_within saves files w _)

theorem stages_within {segs : List (Seg × List UInt8)}
    (hsegs : ∀ x ∈ segs, x.1.builtin = none) (saves : ℤ × ℤ × ℤ) (first : Bool) (prevR : ℤ)
    (pids : List ℤ) : (stages saves first prevR pids segs).Within NoIo fun _ ↦ True := by
  induction segs generalizing first prevR pids with
  | nil => trivial
  | cons x segs ih =>
    refine (stage_within (hsegs x mem_cons_self) saves first segs.isEmpty prevR x.2).bind
      fun ⟨failed, prevR, new⟩ _ ↦ ?_
    dsimp only
    split_ifs
    · trivial
    · exact ih (fun y hy ↦ hsegs y (mem_cons_of_mem _ hy)) _ _ _

theorem resolveAll_within (segs : List Seg) :
    (resolveAll segs).Within (fun c ↦ Setup c ∧ NoIo c) fun r ↦
      ∀ l, r = some l → l.map Prod.fst = segs := by
  induction segs with
  | nil =>
    rintro l ⟨⟩
    rfl
  | cons seg segs ih =>
    have hpath : (if seg.builtin.isSome then pure (some []) else
        Sys.resolveProg (seg.argv.headD []) : Program (Option (List UInt8))).Within
        (fun c ↦ Setup c ∧ NoIo c) fun _ ↦ True := by
      split_ifs
      · trivial
      · exact ⟨⟨trivial, nofun⟩, fun _ ↦ trivial⟩
    refine hpath.bind fun path _ ↦ ?_
    cases path with
    | none => exact fun _ h ↦ nomatch h
    | some path =>
      refine ih.bind fun rest hrest ↦ ?_
      intro l hl
      obtain ⟨l', hl', rfl⟩ := map_eq_some_iff.mp hl
      simp [hrest l' hl']

theorem waitAll_within (pids : List ℤ) : (waitAll pids).Within NoIo fun _ ↦ True := by
  induction pids with
  | nil => trivial
  | cons pid pids ih => exact (perform_within nofun).bind fun _ _ ↦ ih

/-- A pipeline with a builtin at its head and programs behind it. -/
theorem execPipeline_triple {segs : List Seg} (hcond : small ∨ seg.redir 1 ≠ none)
    (hseg : seg.builtin = some builtin) (hsegs : ∀ x ∈ segs, x.builtin = none) :
    machine.Triple Rely (Ready small) (execPipeline (seg :: segs)) fun _ s ↦ s.stuck = false := by
  refine (setup_triple (resolveAll_within (seg :: segs))).bind fun r ↦ ?_
  cases r with
  | none => exact .ret (stable_of_interfere fun _ e h ↦ ⟨h.1.interfere e, h.2⟩) fun _ h ↦ h.1.calm
  | some l =>
    intro s ⟨hs, hl⟩
    obtain ⟨⟨seg', path⟩, rest, rfl, hfirst, hrest⟩ := map_eq_cons_iff.mp (hl l rfl)
    obtain rfl : seg' = seg := hfirst
    have hexternal : ∀ x ∈ rest, x.1.builtin = none := fun x hx ↦
      hsegs x.1 (hrest ▸ mem_map_of_mem hx)
    refine (?_ : machine.Triple Rely (Ready small) _ _) s hs
    refine (dup_triple 0).bind fun s0 ↦ (dup_triple 1).bind fun s1 ↦ (dup_triple 2).bind fun s2 ↦ ?_
    split_ifs
    · exact .ret stable_ready fun _ h ↦ h.calm
    · have hstages : machine.Triple Rely (Ready small)
          (stages (s0, s1, s2) true (-1) [] ((seg', path) :: rest)) fun _ s ↦ s.stuck = false := by
        refine (stage_triple hcond hseg (s0, s1, s2) true rest.isEmpty (-1) path).bind
          fun ⟨failed, prevR, new⟩ ↦ ?_
        dsimp only
        split_ifs
        · exact .ret (stable_of_interfere fun _ _ h ↦ h) fun _ h ↦ h
        · exact calm_triple (stages_within hexternal _ _ _ _)
      refine hstages.bind fun ⟨prevR, pids⟩ ↦ calm_triple ?_
      exact (closeFiles_within _).bind fun _ _ ↦ (waitAll_within pids).bind fun _ _ ↦
        closeFiles_within _

/-- Before a command line: the shell runs and has no descriptor for a pipe. -/
structure Idle (w : World) : Prop where
  sound : w.sys.Sound
  live : w.sys.alive shell = true
  noPipe : ∀ i, w.sys.vfs.pipeOf (shell, i) = none

theorem perform_persists (c : Cmd) (choice : OutputChoice) (s : Producer) (h : s.stuck = true) :
    (Producer.perform c choice s).2.stuck = true := by
  cases c with
  | io =>
    simp only [Producer.perform, Producer.io]
    split
    · split_ifs <;> exact h
    · simp [h]
  | _ => exact h

/-- A pipeline of a builtin and programs never waits in `pipe_write` for a reader that only the
shell could be, if the output of the builtin fits in a pipe or goes to a file. -/
theorem builtin_producer_never_stuck {w : World} (hw : Idle w) {seg : Seg} {segs : List Seg}
    (hbuiltin : seg.builtin.isSome) (hsegs : ∀ x ∈ segs, x.builtin = none) {output : List UInt8}
    (hcond : output.length ≤ pipeBufSize ∨ seg.redir 1 ≠ none)
    (schedule : List (Step OutputChoice Event)) :
    (machine.run (⟨w, output, false⟩, execPipeline (seg :: segs)) schedule).1.stuck = false := by
  obtain ⟨builtin, hseg⟩ := isSome_iff_exists.mp hbuiltin
  have hready : Ready (output.length ≤ pipeBufSize) ⟨w, output, false⟩ :=
    ⟨hw.sound, hw.live, rfl, fun hsmall ↦ ⟨hsmall, fun i q hq ↦ by simp [hw.noPipe i] at hq⟩⟩
  have htriple := execPipeline_triple hcond hseg hsegs
  have hmeets : machine.Meets (fun _ _ ↦ True) (⟨w, output, false⟩, execPipeline (seg :: segs))
      schedule := machine.meets_of_forall (fun _ _ ↦ trivial) _ schedule
  have hcalm : machine.Triple Rely (Ready (output.length ≤ pipeBufSize))
      (execPipeline (seg :: segs)) fun _ s ↦ ¬ s.stuck = true :=
    htriple.mono (fun _ h ↦ h) fun _ _ h ↦ by simp [h]
  have hnever := Triple.never (fun s e _ ↦ ⟨[e], rfl⟩) perform_persists hcalm hready hmeets
  simpa using hnever

/-- The shell after boot, with its standard descriptors. -/
def promptWorld : World where
  sys := System.boot 1 bootNodes 2 shell fun i ↦ some (10 + i.val)
  elfFd := -1
  loading := false

theorem promptWorld_idle : Idle promptWorld :=
  ⟨System.sound_boot _ _ _ _ _, by decide, by decide +kernel⟩

/-- The command line `cat /a | /a`. -/
def catPipeline : List Seg :=
  [⟨[[99, 97, 116], [47, 97]], fun _ ↦ none, some .cat⟩, ⟨[[47, 97]], fun _ ↦ none, none⟩]

/-- Up to the loop of `cat` every call succeeds; then come writes of 256 bytes. -/
def catSchedule (writes : ℕ) : List (Step OutputChoice Event) :=
  [.go {}, .go {}, .go {}, .go {},
    .go { call := { pipe := some 1, readEnd := some 2, writeEnd := some 3 } }, .go {},
    .go { call := { path := [47, 97] } }, .go { call := { file := some 4 } },
    .go { call := { rounds := 100 } }] ++
  List.replicate writes (.go { pass := some ⟨256, 0, ⟨true, fun _ ↦ 0⟩⟩ })

theorem builtin_producer_never_stuck_cat :
    pipeBufSize = 4096 ∧
    (machine.run (⟨promptWorld, List.replicate 4096 0, false⟩, execPipeline catPipeline)
      (catSchedule 17)).1.stuck = false :=
  ⟨rfl, builtin_producer_never_stuck promptWorld_idle rfl (by simp)
    (.inl (length_replicate.trans_le le_rfl)) (catSchedule 17)⟩

/-- With one byte more, the shell waits in its seventeenth write for itself. -/
theorem cat_waits_for_itself :
    Idle promptWorld ∧
    (machine.run (⟨promptWorld, List.replicate 4097 0, false⟩, execPipeline catPipeline)
      (catSchedule 17)).1.stuck = true :=
  ⟨promptWorld_idle, by decide +kernel⟩

end Producer

end ToastyUnix.Shell
