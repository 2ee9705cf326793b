import ToastyUnix.Core.Errno
import ToastyUnix.Lib.RingBuffer

/-!
# Pipes as lossless queues

`pipe_read` and `pipe_write` wait in `hlt` loops, so a call is modelled by its passes: one
evaluation of the loop body, which waits, copies or returns. `System` holds one pipe together
with every read and write call in progress on it, and an `Action` is one atomic pass of one call,
the start of a call, or a change of the reference counts by some other descriptor operation. The
trace records what the passes copied and returned.

The main result is about every list of actions: what the readers were given, followed by what the
ring still buffers, is what the writers put in, in the order of the passes.
-/

namespace ToastyUnix.Vfs

open Errno List Function Option

/-- `PIPE_BUF_SIZE`. -/
def pipeBufSize : ℕ := 4096

/-- `struct vfs_pipe`. -/
structure Pipe where
  buf : ℕ → UInt8
  head : ℕ
  count : ℕ
  refsR : ℤ
  refsW : ℤ

namespace Pipe

/-- The pipe that `vfs_pipe` sets up: zeroed, with one reference on each end. -/
def fresh : Pipe := ⟨fun _ ↦ 0, 0, 0, 1, 1⟩

/-- The bytes written and not yet read, oldest first. -/
def buffered (p : Pipe) : List UInt8 :=
  RingBuffer.contents pipeBufSize p.buf p.head p.count

/-- Head and count stay inside the ring. -/
structure InRange (p : Pipe) : Prop where
  count_le : p.count ≤ pipeBufSize
  head_lt : p.head < pipeBufSize

end Pipe

/-- What one pass of the waiting loop of `pipe_read` does. -/
inductive ReadPass
  | eof
  | wait
  | copied (bytes : List UInt8) (pipe : Pipe)

/-- One pass of `pipe_read(p, buf, count)`. -/
def pipeReadPass (p : Pipe) (count : ℕ) : ReadPass :=
  if p.count = 0 then
    if p.refsW = 0 then .eof else .wait
  else
    let n := if count < p.count then count else p.count
    .copied (RingBuffer.copyOut pipeBufSize p.buf p.head n)
      { p with head := (p.head + n) % pipeBufSize, count := p.count - n }

/-- What one pass of the loop of `pipe_write` does. -/
inductive WritePass
  | returned (result : ℤ)
  | wait
  | copied (chunk : List UInt8) (pipe : Pipe)

/-- One pass of `pipe_write(p, buf, count)` after `total` bytes have been copied. -/
def pipeWritePass (p : Pipe) (buf : List UInt8) (total : ℕ) : WritePass :=
  if total < buf.length then
    if p.refsR = 0 then
      .returned (if 0 < total then (total : ℤ) else -EPIPE)
    else if p.count = pipeBufSize then .wait
    else
      let free := pipeBufSize - p.count
      let n := if buf.length - total < free then buf.length - total else free
      let wpos := (p.head + p.count) % pipeBufSize
      let chunk := (buf.drop total).take n
      .copied chunk
        { p with buf := RingBuffer.copyIn pipeBufSize p.buf wpos chunk, count := p.count + n }
  else .returned total

variable {p q : Pipe} {count total : ℕ} {buf chunk : List UInt8}

/-- A copying read hands out the front of the queue, as much as was asked for. -/
theorem pipeReadPass_copied {bytes : List UInt8} (hp : p.InRange)
    (h : pipeReadPass p count = .copied bytes q) :
    p.buffered = bytes ++ q.buffered ∧ q.InRange ∧ bytes.length = min count p.count ∧
      0 < p.count := by
  unfold pipeReadPass at h
  split at h
  case isTrue => split at h <;> cases h
  case isFalse hcount =>
    obtain ⟨rfl, rfl⟩ := h
    set n := if count < p.count then count else p.count with hn
    have hle : n ≤ p.count := by split at hn <;> omega
    have hmin : n = min count p.count := by split at hn <;> omega
    have hcopy := RingBuffer.copyOut_eq_contents pipeBufSize p.buf hp.head_lt
      (hle.trans hp.count_le)
    have hsplit := RingBuffer.contents_add pipeBufSize p.buf p.head n (p.count - n)
    rw [Nat.add_sub_cancel' hle] at hsplit
    refine ⟨?_, ⟨?_, Nat.mod_lt _ (by decide)⟩, ?_, by omega⟩
    · rw [hcopy]
      exact hsplit
    · exact (Nat.sub_le _ _).trans hp.count_le
    · rw [hcopy, RingBuffer.length_contents, hmin]

theorem pipeReadPass_eof (h : pipeReadPass p count = .eof) : p.count = 0 ∧ p.refsW = 0 := by
  unfold pipeReadPass at h
  split at h
  case isTrue hcount =>
    split at h
    case isTrue hrefs => exact ⟨hcount, hrefs⟩
    case isFalse => cases h
  case isFalse => cases h

/-- A copying write appends the next bytes of the caller's buffer to the queue. -/
theorem pipeWritePass_copied (hp : p.InRange) (h : pipeWritePass p buf total = .copied chunk q) :
    q.buffered = p.buffered ++ chunk ∧ q.InRange ∧
      buf.take total ++ chunk = buf.take (total + chunk.length) ∧ 0 < chunk.length := by
  unfold pipeWritePass at h
  split at h
  case isFalse => cases h
  case isTrue htotal =>
    split at h
    · cases h
    · split at h
      · cases h
      case isFalse hfull =>
        obtain ⟨rfl, rfl⟩ := h
        set n := if buf.length - total < pipeBufSize - p.count then buf.length - total
          else pipeBufSize - p.count with hn
        have hroom : p.count + n ≤ pipeBufSize := by
          have := hp.count_le
          split at hn <;> omega
        have hpos : 0 < n := by
          have := hp.count_le
          split at hn <;> omega
        have hlength : ((buf.drop total).take n).length = n := by
          rw [length_take, length_drop]
          split at hn <;> omega
        have happend := RingBuffer.contents_copyIn pipeBufSize p.buf ((buf.drop total).take n)
          hp.head_lt (by rw [hlength]; exact hroom)
        rw [hlength] at happend
        refine ⟨happend, ⟨hroom, hp.head_lt⟩, ?_, by rw [hlength]; exact hpos⟩
        rw [hlength, take_add]

theorem pipeWritePass_epipe (h : pipeWritePass p buf total = .returned (-EPIPE)) :
    p.refsR = 0 ∧ total = 0 := by
  unfold pipeWritePass at h
  split at h
  case isTrue =>
    split at h
    case isTrue hrefs =>
      refine ⟨hrefs, ?_⟩
      split at h
      case isTrue =>
        simp only [WritePass.returned.injEq, EPIPE] at h
        omega
      case isFalse hzero => omega
    case isFalse => split at h <;> cases h
  case isFalse =>
    simp only [WritePass.returned.injEq, EPIPE] at h
    omega

namespace PipeSystem

/-- A `pipe_write` in progress: the caller's buffer and the bytes copied so far. -/
structure WriteCall where
  buf : List UInt8
  total : ℕ

/-- One pipe and the calls in progress on it; callers are numbered. -/
structure System where
  pipe : Pipe
  writers : ℕ → Option WriteCall
  readers : ℕ → Option ℕ

inductive Action
  | startWrite (caller : ℕ) (buf : List UInt8)
  | writePass (caller : ℕ)
  | startRead (caller : ℕ) (count : ℕ)
  | readPass (caller : ℕ)
  | setRefs (refsR refsW : ℤ)

inductive Event
  | writeStarted (caller : ℕ)
  | copied (caller : ℕ) (chunk : List UInt8)
  | writeReturned (caller : ℕ) (result : ℤ)
  | readReturned (caller : ℕ) (count : ℕ) (bytes : List UInt8)

/-- One action and the event it adds to the trace. An action outside the matching call has no
effect. -/
def step (s : System) : Action → System × Option Event
  | .startWrite caller buf =>
    match s.writers caller with
    | some _ => (s, none)
    | none => ({ s with writers := update s.writers caller (some ⟨buf, 0⟩) },
        some (.writeStarted caller))
  | .writePass caller =>
    match s.writers caller with
    | none => (s, none)
    | some call =>
      match pipeWritePass s.pipe call.buf call.total with
      | .returned result => ({ s with writers := update s.writers caller none },
          some (.writeReturned caller result))
      | .wait => (s, none)
      | .copied chunk pipe =>
        ({ s with
            pipe := pipe
            writers := update s.writers caller
              (some ⟨call.buf, call.total + chunk.length⟩) }, some (.copied caller chunk))
  | .startRead caller count =>
    match s.readers caller with
    | some _ => (s, none)
    | none => ({ s with readers := update s.readers caller (some count) }, none)
  | .readPass caller =>
    match s.readers caller with
    | none => (s, none)
    | some count =>
      match pipeReadPass s.pipe count with
      | .eof => ({ s with readers := update s.readers caller none },
          some (.readReturned caller count []))
      | .wait => (s, none)
      | .copied bytes pipe =>
        ({ s with pipe := pipe, readers := update s.readers caller none },
          some (.readReturned caller count bytes))
  | .setRefs refsR refsW =>
    ({ s with pipe := { s.pipe with refsR := refsR, refsW := refsW } }, none)

/-- The state after a list of actions, latest first, with the events in step order. -/
def run : List Action → System × List Event
  | [] => (⟨Pipe.fresh, fun _ ↦ none, fun _ ↦ none⟩, [])
  | action :: earlier =>
    let (s, trace) := run earlier
    let (s', event) := step s action
    (s', trace ++ event.toList)

/-- Everything the reads returned, in step order. -/
def received : List Event → List UInt8
  | [] => []
  | .readReturned _ _ bytes :: rest => bytes ++ received rest
  | _ :: rest => received rest

/-- Every chunk copied in by the writes, in step order. -/
def sent : List Event → List UInt8
  | [] => []
  | .copied _ chunk :: rest => chunk ++ sent rest
  | _ :: rest => sent rest

/-- What `caller` has copied in since its last `pipe_write` started. -/
def copiedSinceStart (caller : ℕ) (trace : List Event) : List UInt8 :=
  trace.foldl (fun done event ↦ match event with
    | .writeStarted c => if c = caller then [] else done
    | .copied c chunk => if c = caller then done ++ chunk else done
    | _ => done) []

theorem received_append (first second : List Event) :
    received (first ++ second) = received first ++ received second := by
  induction first with
  | nil => rfl
  | cons event rest ih => cases event <;> simp [received, ih]

theorem sent_append (first second : List Event) :
    sent (first ++ second) = sent first ++ sent second := by
  induction first with
  | nil => rfl
  | cons event rest ih => cases event <;> simp [sent, ih]

/-- The queue invariant, relating the ring and the calls in progress to the trace. -/
structure Inv (s : System) (trace : List Event) : Prop where
  range : s.pipe.InRange
  fifo : received trace ++ s.pipe.buffered = sent trace
  progress : ∀ caller call, s.writers caller = some call →
    copiedSinceStart caller trace = call.buf.take call.total

theorem inv_start : Inv (run []).1 (run []).2 where
  range := ⟨by simp [run, Pipe.fresh], by simp [run, Pipe.fresh, pipeBufSize]⟩
  fifo := rfl
  progress := by simp [run]

variable {s : System} {trace : List Event} {action : Action} {caller : ℕ}

theorem inv_step (hinv : Inv s trace) (action : Action) :
    Inv (step s action).1 (trace ++ (step s action).2.toList) := by
  cases action with
  | startWrite caller buf =>
    cases hcall : s.writers caller with
    | some call => simpa [step, hcall] using hinv
    | none =>
      simp only [step, hcall]
      refine ⟨hinv.range, ?_, ?_⟩
      · simpa [received_append, sent_append, received, sent] using hinv.fifo
      · intro other call hother
        by_cases hsame : other = caller
        · subst hsame
          simp only [update_self, some.injEq] at hother
          subst hother
          simp [copiedSinceStart]
        · simp only [update_of_ne hsame] at hother
          simpa [copiedSinceStart, Ne.symm hsame] using hinv.progress other call hother
  | writePass caller =>
    cases hcall : s.writers caller with
    | none => simpa [step, hcall] using hinv
    | some call =>
      cases hpass : pipeWritePass s.pipe call.buf call.total with
      | wait => simpa [step, hcall, hpass] using hinv
      | returned result =>
        simp only [step, hcall, hpass]
        refine ⟨hinv.range, ?_, ?_⟩
        · simpa [received_append, sent_append, received, sent] using hinv.fifo
        · intro other call' hother
          by_cases hsame : other = caller
          · subst hsame
            simp at hother
          · simp only [update_of_ne hsame] at hother
            simpa [copiedSinceStart] using hinv.progress other call' hother
      | copied chunk pipe =>
        obtain ⟨hqueue, hrange, hdigits, -⟩ := pipeWritePass_copied hinv.range hpass
        simp only [step, hcall, hpass]
        refine ⟨hrange, ?_, ?_⟩
        · simp only [toList_some, received_append, sent_append, received, sent,
            append_nil, hqueue]
          rw [← hinv.fifo, append_assoc]
        · intro other call' hother
          by_cases hsame : other = caller
          · subst hsame
            simp only [update_self, some.injEq] at hother
            subst hother
            have hsofar := hinv.progress other call hcall
            simp only [copiedSinceStart] at hsofar ⊢
            simp [hsofar, hdigits]
          · simp only [update_of_ne hsame] at hother
            simpa [copiedSinceStart, Ne.symm hsame] using hinv.progress other call' hother
  | startRead caller count =>
    cases hcall : s.readers caller with
    | some _ => simpa [step, hcall] using hinv
    | none =>
      simp only [step, hcall, toList_none, append_nil]
      exact ⟨hinv.range, hinv.fifo, hinv.progress⟩
  | readPass caller =>
    cases hcall : s.readers caller with
    | none => simpa [step, hcall] using hinv
    | some count =>
      cases hpass : pipeReadPass s.pipe count with
      | wait => simpa [step, hcall, hpass] using hinv
      | eof =>
        simp only [step, hcall, hpass]
        refine ⟨hinv.range, ?_, ?_⟩
        · simpa [received_append, sent_append, received, sent] using hinv.fifo
        · intro other call hother
          simpa [copiedSinceStart] using hinv.progress other call hother
      | copied bytes pipe =>
        obtain ⟨hqueue, hrange, -, -⟩ := pipeReadPass_copied hinv.range hpass
        simp only [step, hcall, hpass]
        refine ⟨hrange, ?_, ?_⟩
        · simp only [toList_some, received_append, sent_append, received, sent, append_nil]
          rw [append_assoc, ← hqueue]
          exact hinv.fifo
        · intro other call hother
          simpa [copiedSinceStart] using hinv.progress other call hother
  | setRefs refsR refsW =>
    simp only [step, toList_none, append_nil]
    exact ⟨⟨hinv.range.count_le, hinv.range.head_lt⟩, hinv.fifo, hinv.progress⟩

theorem inv_run (actions : List Action) : Inv (run actions).1 (run actions).2 := by
  induction actions with
  | nil => exact inv_start
  | cons action earlier ih => exact inv_step ih action

/-- The calls that a step reports to have returned. -/
theorem step_returned {event : Event} (h : (step s action).2 = some event) :
    (∀ caller count bytes, event = .readReturned caller count bytes →
      pipeReadPass s.pipe count = .eof ∨ ∃ pipe, pipeReadPass s.pipe count = .copied bytes pipe) ∧
    ∀ caller result, event = .writeReturned caller result → ∃ call,
      s.writers caller = some call ∧ pipeWritePass s.pipe call.buf call.total = .returned result := by
  cases action with
  | startWrite other buf =>
    cases hcall : s.writers other <;> simp [step, hcall] at h
    simp [← h]
  | writePass other =>
    cases hcall : s.writers other with
    | none => simp [step, hcall] at h
    | some call =>
      cases hpass : pipeWritePass s.pipe call.buf call.total <;>
        simp [step, hcall, hpass] at h <;> simp [← h]
      exact ⟨call, hcall, hpass⟩
  | startRead other n => cases hcall : s.readers other <;> simp [step, hcall] at h
  | readPass other =>
    cases hcall : s.readers other with
    | none => simp [step, hcall] at h
    | some n =>
      cases hpass : pipeReadPass s.pipe n <;> simp [step, hcall, hpass] at h <;> simp [← h]
      · rintro _ _ _ rfl rfl rfl
        exact .inl hpass
      · exact .inr ⟨_, hpass⟩
  | setRefs refsR refsW => simp [step] at h

/-- A read returns nothing for a non-zero request only on an empty ring without write ends. -/
theorem step_readReturned_nil {count : ℕ} (hrange : s.pipe.InRange) (hcount : count ≠ 0)
    (h : (step s action).2 = some (.readReturned caller count [])) :
    s.pipe.count = 0 ∧ s.pipe.refsW = 0 := by
  rcases (step_returned h).1 caller count [] rfl with hpass | ⟨pipe, hpass⟩
  · exact pipeReadPass_eof hpass
  · obtain ⟨-, -, hlength, hpos⟩ := pipeReadPass_copied hrange hpass
    simp only [length_nil] at hlength
    omega

/-- A write returns `-EPIPE` only without read ends and having copied nothing. -/
theorem step_writeReturned_epipe (hinv : Inv s trace)
    (h : (step s action).2 = some (.writeReturned caller (-EPIPE))) :
    s.pipe.refsR = 0 ∧ copiedSinceStart caller trace = [] := by
  obtain ⟨call, hcall, hpass⟩ := (step_returned h).2 caller (-EPIPE) rfl
  obtain ⟨hrefs, htotal⟩ := pipeWritePass_epipe hpass
  have hsofar := hinv.progress caller call hcall
  rw [htotal, take_zero] at hsofar
  exact ⟨hrefs, hsofar⟩

/-- Pipes are lossless queues, for any interleaving of the passes of any number of writers and
readers: the ring indices stay in range, no byte is lost, duplicated or reordered, and the two
special results are returned only in the situations they report. -/
theorem pipe_lossless_fifo (actions : List Action) :
    let s := (run actions).1
    let trace := (run actions).2
    s.pipe.count ≤ 4096 ∧ s.pipe.head < 4096 ∧
      received trace ++ (List.range s.pipe.count).map
        (fun i ↦ s.pipe.buf ((s.pipe.head + i) % 4096)) = sent trace ∧
      (∀ action caller count, count ≠ 0 → (step s action).2 = some (.readReturned caller count []) →
          s.pipe.count = 0 ∧ s.pipe.refsW = 0) ∧
      (∀ action caller, (step s action).2 = some (.writeReturned caller (-EPIPE)) →
        s.pipe.refsR = 0 ∧ copiedSinceStart caller trace = []) ∧
      ∀ caller call, s.writers caller = some call →
        copiedSinceStart caller trace = call.buf.take call.total := by
  have hinv := inv_run actions
  exact ⟨hinv.range.count_le, hinv.range.head_lt, hinv.fifo,
    fun _ _ _ hcount h ↦ step_readReturned_nil hinv.range hcount h,
    fun _ _ h ↦ step_writeReturned_epipe hinv h, hinv.progress⟩

end PipeSystem

end ToastyUnix.Vfs
