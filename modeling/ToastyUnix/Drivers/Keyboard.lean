import ToastyUnix.Lib.Runs

/-!
# The keyboard and the terminal

`kernel/drivers/keyboard.c` queues key events in a ring, and `tty_read` of `kernel/vfs/devices.c`
turns them into bytes. A task that reads the terminal claims the console when it is free, and takes
events from the queue only while it owns the console. A special key becomes an escape sequence: its
first byte is returned at once and the others wait in a buffer that all tasks share.

A read is cut where it halts: `ttyReadStart` is the part before the loop and `ttyReadRound` one
round of the loop, so any number of tasks can be inside a read. The main result says which schedules
hand every byte to the task that owned the console when its key was taken from the queue.
-/

namespace ToastyUnix.Tty

open Function List

/-- A process id. The value zero of `g_kbd_owner` stands for a free console. -/
abbrev Pid := ℕ+

/-- `struct kbd_event`. -/
inductive Event
  | char (c : UInt8)
  | special (code : ℤ)
deriving DecidableEq

/-- `KBD_BUFFER_SIZE`. -/
def KBD_BUFFER_SIZE : ℕ := 256

/-- The ring of `keyboard.c` and `g_kbd_owner`. -/
structure Keyboard where
  buffer : ℕ → Event
  head : ℕ
  tail : ℕ
  owner : ℕ

namespace Keyboard

/-- `kbd_push_event`. -/
def kbdPushEvent (k : Keyboard) (ev : Event) : Keyboard :=
  let next := (k.head + 1) % KBD_BUFFER_SIZE
  if next ≠ k.tail then { k with buffer := update k.buffer k.head ev, head := next } else k

/-- The event at the tail, and the queue without it. -/
def take (k : Keyboard) : Option (Event × Keyboard) :=
  if k.head = k.tail then none
  else some (k.buffer k.tail, { k with tail := (k.tail + 1) % KBD_BUFFER_SIZE })

/-- `kbd_input_release`. -/
def kbdInputRelease (k : Keyboard) (pid : ℕ) : Keyboard :=
  if k.owner = pid then { k with owner := 0 } else k

/-- One round of `kbd_get_event_owned`: the console is claimed even without an event. -/
def kbdGetEventOwned (k : Keyboard) (pid : Pid) : Option Event × Keyboard :=
  let k := if k.owner = 0 then { k with owner := pid } else k
  if k.owner ≠ pid then (none, k)
  else
    match k.take with
    | none => (none, k)
    | some (ev, k) => (some ev, k)

/-- One round of `kbd_get_event_shell`, which claims nothing. -/
def kbdGetEventShell (k : Keyboard) (pid : Pid) : Option Event × Keyboard :=
  if k.owner ≠ 0 ∧ k.owner ≠ pid then (none, k)
  else
    match k.take with
    | none => (none, k)
    | some (ev, k) => (some ev, k)

end Keyboard

/-- The state behind `/dev/tty0`: the flag words of `g_termios`, the pending bytes and the echo.
`reading` holds the flags of the tasks in the loop of `tty_read`. -/
structure State where
  kbd : Keyboard
  iflag : BitVec 32
  lflag : BitVec 32
  pend : ℕ → UInt8
  pendN : ℕ
  pendI : ℕ
  reading : Pid → Option (Bool × Bool)
  console : List UInt8

/-- `TUS_ICRNL`, `TUS_ICANON` and `TUS_ECHO`. -/
def ICRNL : BitVec 32 := 0x0100
def ICANON : BitVec 32 := 0x0002
def ECHO : BitVec 32 := 0x0008

/-- The table of `tty_special_byte`, indexed by key codes from `KBD_KEY_UP` on. -/
def sequences : List (List UInt8) :=
  [[0x1b, 0x5b, 0x41], [0x1b, 0x5b, 0x42], [0x1b, 0x5b, 0x44], [0x1b, 0x5b, 0x43],
    [0x1b, 0x5b, 0x48], [0x1b, 0x5b, 0x46], [0x1b, 0x5b, 0x33, 0x7e], [0x1b, 0x5b, 0x32, 0x7e],
    [0x1b, 0x5b, 0x35, 0x7e], [0x1b, 0x5b, 0x36, 0x7e]]

/-- The escape sequence of a key code. -/
def sequenceOf (code : ℤ) : Option (List UInt8) :=
  if code < 1 then none else sequences[(code - 1).toNat]?

/-- `tty_special_byte`. -/
def ttySpecialByte (t : State) (code : ℤ) : UInt8 × State :=
  match sequenceOf code with
  | none => (0, t)
  | some seq =>
    let pend := fun i ↦ seq.getD i (t.pend i)
    (pend 0, { t with pend := pend, pendN := seq.length, pendI := 1 })

/-- How a part of `tty_read` ends: with the bytes of its result, or not yet. -/
inductive Outcome
  | waits
  | returns (bytes : List UInt8)
deriving DecidableEq

/-- `tty_read` up to its loop. -/
def ttyReadStart (t : State) (pid : Pid) (count : ℕ) : Outcome × State :=
  if count = 0 then (.returns [], t)
  else if t.pendI < t.pendN then
    let byte := t.pend t.pendI
    let t := { t with pendI := t.pendI + 1 }
    (.returns [byte], if t.pendI = t.pendN then { t with pendI := 0, pendN := 0 } else t)
  else
    let canon := t.lflag &&& ICANON ≠ 0
    let echo := t.lflag &&& ECHO ≠ 0
    (.waits, { t with reading := update t.reading pid (some (canon, echo)) })

/-- The echo of a printable byte; `char` is signed. -/
def echoChar (t : State) (echo : Bool) (c : UInt8) : State :=
  if echo ∧ 0x20 ≤ c ∧ c < 0x7f then { t with console := t.console ++ [c] } else t

/-- The byte of an event, for a read in canonical mode or not, with echo or not. -/
def deliver (t : State) (canon echo : Bool) : Event → Outcome × State
  | .special code =>
    match ttySpecialByte t code with
    | (b, t) => if b = 0 then (.waits, t) else (.returns [b], t)
  | .char c =>
    if c = 0x1b then if canon then (.returns [], t) else (.returns [c], t)
    else
      let c := if c = 10 ∧ t.iflag &&& ICRNL = 0 then 13 else c
      (.returns [c], echoChar t echo c)

/-- One round of the loop of `tty_read` in the task `pid`. -/
def ttyReadRound (t : State) (pid : Pid) : Outcome × State :=
  match t.reading pid with
  | none => (.waits, t)
  | some (canon, echo) =>
    match t.kbd.kbdGetEventOwned pid with
    | (none, kbd) => (.waits, { t with kbd := kbd })
    | (some ev, kbd) =>
      match deliver { t with kbd := kbd } canon echo ev with
      | (.waits, t) => (.waits, t)
      | (.returns bytes, t) =>
        (.returns bytes, { t with reading := update t.reading pid none })

/-- `task_exit`, as far as the console is concerned. -/
def taskExit (t : State) (pid : Pid) : State :=
  { t with kbd := t.kbd.kbdInputRelease pid, reading := update t.reading pid none }

/-- A byte that a read returned: who got it, and who owned the console when its key was taken. -/
structure Delivery where
  reader : Pid
  owner : ℕ
  byte : UInt8
deriving DecidableEq

/-- The terminal with its history. -/
structure Traced where
  tty : State
  /-- The owner of the console when the key of the pending bytes was taken. -/
  pendOwner : ℕ
  log : List Delivery

inductive Action
  | read (pid : Pid) (count : ℕ)
  | round (pid : Pid)
  | key (ev : Event)
  | exit (pid : Pid)

/-- The event that a round of the loop takes from the queue. -/
def taken (t : State) (pid : Pid) : Option Event :=
  (t.reading pid).bind fun _ ↦ (t.kbd.kbdGetEventOwned pid).1

/-- A key with an escape sequence. -/
def IsSequence : Event → Bool
  | .special code => (sequenceOf code).isSome
  | .char _ => false

/-- The bytes of an outcome, in the log. -/
def Outcome.deliveries (pid : Pid) (owner : ℕ) : Outcome → List Delivery
  | .waits => []
  | .returns bytes => bytes.map (⟨pid, owner, ·⟩)

def step (s : Traced) : Action → Traced
  | .read pid count =>
    match ttyReadStart s.tty pid count with
    | (outcome, t) => { s with tty := t, log := s.log ++ outcome.deliveries pid s.pendOwner }
  | .round pid =>
    match ttyReadRound s.tty pid with
    | (outcome, t) =>
      { tty := t
        pendOwner := if (taken s.tty pid).any IsSequence then t.kbd.owner else s.pendOwner
        log := s.log ++ outcome.deliveries pid t.kbd.owner }
  | .key ev => { s with tty := { s.tty with kbd := s.tty.kbd.kbdPushEvent ev } }
  | .exit pid => { s with tty := taskExit s.tty pid }

/-- Bytes of an escape sequence wait for a read. -/
def State.Pending (t : State) : Prop := t.pendI < t.pendN

/-- Nobody reads the bytes that wait but the owner of the console, who does not exit before. -/
def Undisturbed (s : Traced) : Action → Prop
  | .read pid count => count ≠ 0 → s.tty.Pending → s.tty.kbd.owner = pid
  | .exit pid => s.tty.Pending → s.tty.kbd.owner ≠ pid
  | .round _ | .key _ => True

instance (t : State) : Decidable t.Pending := inferInstanceAs (Decidable (t.pendI < t.pendN))

instance (s : Traced) : (a : Action) → Decidable (Undisturbed s a)
  | .read pid count =>
    inferInstanceAs (Decidable (count ≠ 0 → s.tty.Pending → s.tty.kbd.owner = pid))
  | .exit pid => inferInstanceAs (Decidable (s.tty.Pending → s.tty.kbd.owner ≠ pid))
  | .round _ | .key _ => .isTrue trivial

/-- The state at boot, with any flags. -/
def boot (iflag lflag : BitVec 32) : Traced where
  tty :=
    { kbd := ⟨fun _ ↦ .char 0, 0, 0, 0⟩
      iflag := iflag
      lflag := lflag
      pend := fun _ ↦ 0
      pendN := 0
      pendI := 0
      reading := fun _ ↦ none
      console := [] }
  pendOwner := 0
  log := []

/-- Every byte went to the owner of the console. -/
def ToOwner (s : Traced) : Prop := ∀ d ∈ s.log, d.owner = d.reader

/-- What a round leaves of the console: its owner, and an event only for the owner. -/
theorem kbdGetEventOwned_spec (k : Keyboard) (pid : Pid) :
    (k.kbdGetEventOwned pid).2.owner = (if k.owner = 0 then (pid : ℕ) else k.owner) ∧
      ((k.kbdGetEventOwned pid).1.isSome → (k.kbdGetEventOwned pid).2.owner = pid) := by
  unfold Keyboard.kbdGetEventOwned Keyboard.take
  by_cases hfree : k.owner = 0
  · simp only [hfree, if_true]
    by_cases hempty : k.head = k.tail <;> simp [hempty]
  · simp only [hfree, if_false]
    by_cases hmine : k.owner = pid
    · by_cases hempty : k.head = k.tail <;> simp [hempty, hmine]
    · simp [hmine]

@[simp]
theorem ttySpecialByte_kbd (t : State) (code : ℤ) : (ttySpecialByte t code).2.kbd = t.kbd := by
  unfold ttySpecialByte
  split <;> rfl

theorem deliver_kbd (t : State) (canon echo : Bool) (ev : Event) :
    (deliver t canon echo ev).2.kbd = t.kbd := by
  cases ev with
  | special code =>
    simp only [deliver]
    split_ifs <;> simp
  | char c =>
    simp only [deliver, echoChar]
    split_ifs <;> rfl

theorem deliver_pending {t : State} {canon echo : Bool} {ev : Event} (h : IsSequence ev = false) :
    (deliver t canon echo ev).2.Pending ↔ t.Pending := by
  cases ev with
  | special code =>
    have hnone : sequenceOf code = none := by simpa [IsSequence] using h
    simp [deliver, ttySpecialByte, hnone]
  | char c =>
    simp only [deliver, echoChar]
    split_ifs <;> rfl

variable {t : State} {pid : Pid} {s : Traced} {count : ℕ}

/-- A round without an event leaves the pending bytes and claims at most a free console. -/
theorem ttyReadRound_of_not_taken (h : taken t pid = none) :
    (ttyReadRound t pid).1 = .waits ∧ ((ttyReadRound t pid).2.Pending ↔ t.Pending) ∧
      (t.kbd.owner ≠ 0 → (ttyReadRound t pid).2.kbd.owner = t.kbd.owner) := by
  unfold taken at h
  unfold ttyReadRound
  cases hreading : t.reading pid with
  | none => exact ⟨rfl, Iff.rfl, fun _ ↦ rfl⟩
  | some flags =>
    rw [hreading, Option.bind_some] at h
    obtain ⟨howner, -⟩ := kbdGetEventOwned_spec t.kbd pid
    rcases hget : t.kbd.kbdGetEventOwned pid with ⟨ev, kbd⟩
    rw [hget] at h howner
    cases h
    exact ⟨rfl, Iff.rfl, fun hbusy ↦ howner.trans (if_neg hbusy)⟩

/-- A round that takes an event is one of the owner of the console. -/
theorem ttyReadRound_of_taken {ev : Event} (h : taken t pid = some ev) :
    (t.kbd.owner = 0 ∨ t.kbd.owner = pid) ∧ (ttyReadRound t pid).2.kbd.owner = pid ∧
      (IsSequence ev = false → ((ttyReadRound t pid).2.Pending ↔ t.Pending)) := by
  unfold taken at h
  obtain ⟨flags, hreading, h⟩ := Option.bind_eq_some_iff.mp h
  obtain ⟨howner, hmine⟩ := kbdGetEventOwned_spec t.kbd pid
  rcases hget : t.kbd.kbdGetEventOwned pid with ⟨ev', kbd⟩
  simp only [hget] at h howner hmine
  subst h
  have hpid : kbd.owner = pid := hmine rfl
  refine ⟨?_, ?_, ?_⟩
  · by_cases hfree : t.kbd.owner = 0
    · exact .inl hfree
    · rw [if_neg hfree] at howner
      exact .inr (howner.symm.trans hpid)
  all_goals
    have hkbd := deliver_kbd { t with kbd := kbd } flags.1 flags.2 ev
    have hpend := @deliver_pending { t with kbd := kbd } flags.1 flags.2 ev
    unfold ttyReadRound
    simp only [hreading, hget]
    rcases hdeliver : deliver { t with kbd := kbd } flags.1 flags.2 ev with ⟨outcome, t'⟩
    rw [hdeliver] at hkbd hpend
    cases outcome
  · exact (congrArg Keyboard.owner hkbd).trans hpid
  · exact (congrArg Keyboard.owner hkbd).trans hpid
  · exact hpend
  · exact hpend

/-- All bytes went where they should, and waiting ones belong to the console's owner. -/
structure Inv (s : Traced) : Prop where
  toOwner : ToOwner s
  pending : s.tty.Pending → s.tty.kbd.owner = s.pendOwner ∧ s.pendOwner ≠ 0

theorem Inv.boot (iflag lflag : BitVec 32) : Inv (boot iflag lflag) where
  toOwner := fun _ hd ↦ absurd hd not_mem_nil
  pending := fun h ↦ absurd h (lt_irrefl 0)

theorem Inv.step_round (h : Inv s) (pid : Pid) : Inv (step s (.round pid)) := by
  cases htaken : taken s.tty pid with
  | none =>
    obtain ⟨hwaits, hpend, howner⟩ := ttyReadRound_of_not_taken htaken
    refine ⟨?_, ?_⟩
    · simpa [step, ToOwner, hwaits, Outcome.deliveries] using h.toOwner
    · intro hpending
      obtain ⟨hmine, hpos⟩ := h.pending (hpend.mp hpending)
      simp only [step, htaken, Option.any_none, Bool.false_eq_true, if_false]
      exact ⟨(howner (hmine ▸ hpos)).trans hmine, hpos⟩
  | some ev =>
    obtain ⟨hbefore, hafter, hpend⟩ := ttyReadRound_of_taken htaken
    refine ⟨?_, ?_⟩
    · intro d hd
      rw [step, mem_append] at hd
      obtain hd | hd := hd
      · exact h.toOwner d hd
      · cases houtcome : (ttyReadRound s.tty pid).1 with
        | waits => simp [houtcome, Outcome.deliveries] at hd
        | returns bytes =>
          simp only [houtcome, Outcome.deliveries, mem_map] at hd
          obtain ⟨b, -, rfl⟩ := hd
          exact hafter
    · intro hpending
      simp only [step, htaken, Option.any_some]
      split
      case isTrue => exact ⟨rfl, hafter ▸ pid.ne_zero⟩
      case isFalse hseq =>
        obtain ⟨hmine, hpos⟩ := h.pending ((hpend (Bool.eq_false_iff.mpr hseq)).mp hpending)
        have hpid : s.tty.kbd.owner = pid := hbefore.resolve_left (hmine ▸ hpos)
        exact ⟨hafter.trans (hpid.symm.trans hmine), hpos⟩

theorem ttyReadStart_of_pending (pid : Pid) (hcount : count ≠ 0) (hpend : t.Pending) :
    (ttyReadStart t pid count).1 = .returns [t.pend t.pendI] ∧
      (ttyReadStart t pid count).2.kbd = t.kbd := by
  have hlt : t.pendI < t.pendN := hpend
  unfold ttyReadStart
  rw [if_neg hcount, if_pos hlt]
  refine ⟨rfl, ?_⟩
  simp only
  split_ifs <;> rfl

theorem ttyReadStart_of_not_pending (h : ¬(count ≠ 0 ∧ t.Pending)) (pid : Pid) (owner : ℕ) :
    (ttyReadStart t pid count).1.deliveries pid owner = [] ∧
      (ttyReadStart t pid count).2.kbd = t.kbd ∧
        ((ttyReadStart t pid count).2.Pending ↔ t.Pending) := by
  unfold ttyReadStart
  by_cases hcount : count = 0
  · rw [if_pos hcount]
    exact ⟨rfl, rfl, Iff.rfl⟩
  · have hpend : ¬t.pendI < t.pendN := fun hp ↦ h ⟨hcount, hp⟩
    rw [if_neg hcount, if_neg hpend]
    exact ⟨rfl, rfl, Iff.rfl⟩

theorem Inv.step_read (h : Inv s) (hcond : count ≠ 0 → s.tty.Pending → s.tty.kbd.owner = pid) :
    Inv (step s (.read pid count)) := by
  by_cases hread : count ≠ 0 ∧ s.tty.Pending
  · obtain ⟨hbyte, hkbd⟩ := ttyReadStart_of_pending pid hread.1 hread.2
    obtain ⟨hmine, hpos⟩ := h.pending hread.2
    refine ⟨?_, fun _ ↦ ?_⟩
    · intro d hd
      simp only [step, hbyte, Outcome.deliveries, map_cons, map_nil, mem_append,
        mem_singleton] at hd
      obtain hd | rfl := hd
      · exact h.toOwner d hd
      · exact hmine.symm.trans (hcond hread.1 hread.2)
    · rw [step, hkbd]
      exact ⟨hmine, hpos⟩
  · obtain ⟨hnone, hkbd, hpend⟩ := ttyReadStart_of_not_pending hread pid s.pendOwner
    have hlog : (step s (.read pid count)).log = s.log := by
      simp only [step, hnone, append_nil]
    refine ⟨?_, ?_⟩
    · rw [ToOwner, hlog]
      exact h.toOwner
    · intro hpending
      rw [step, hkbd]
      exact h.pending (hpend.mp hpending)

theorem Inv.step_exit (h : Inv s) (hcond : s.tty.Pending → s.tty.kbd.owner ≠ pid) :
    Inv (step s (.exit pid)) where
  toOwner := h.toOwner
  pending hpending := by
    have hkbd : s.tty.kbd.kbdInputRelease pid = s.tty.kbd := if_neg (hcond hpending)
    simp only [step, taskExit, hkbd]
    exact h.pending hpending

theorem Inv.step_key (h : Inv s) (ev : Event) : Inv (step s (.key ev)) where
  toOwner := h.toOwner
  pending hpending := by
    have howner : (s.tty.kbd.kbdPushEvent ev).owner = s.tty.kbd.owner := by
      simp only [Keyboard.kbdPushEvent]
      split_ifs <;> rfl
    simp only [step, howner]
    exact h.pending hpending

theorem Inv.next {s : Traced} (h : Inv s) {a : Action} (hcond : Undisturbed s a) :
    Inv (step s a) := by
  cases a with
  | read pid count => exact h.step_read hcond
  | round pid => exact h.step_round pid
  | key ev => exact h.step_key ev
  | exit pid => exact h.step_exit hcond

/-- A read by another task than the owner takes a byte that belongs to the owner. -/
theorem Inv.misdelivers (h : Inv s) (hcond : ¬Undisturbed s (.read pid count)) :
    ¬ToOwner (step s (.read pid count)) := by
  simp only [Undisturbed, not_forall] at hcond
  obtain ⟨hcount, hpend, hother⟩ := hcond
  intro hto
  refine hother ((h.pending hpend).1.trans (hto ⟨pid, s.pendOwner, s.tty.pend s.tty.pendI⟩ ?_))
  simp [step, (ttyReadStart_of_pending pid hcount hpend).1, Outcome.deliveries]

/-- In an undisturbed run every byte goes to the task that owned the console when its key was taken,
and the first read that disturbs such a run hands a byte to another task. -/
theorem keys_reach_their_owner (iflag lflag : BitVec 32) {actions : List Action}
    (h : Runs.Meets step Undisturbed (boot iflag lflag) actions) :
    Runs.Always step ToOwner (boot iflag lflag) actions ∧
      ∀ pid count, ¬Undisturbed (Runs.run step (boot iflag lflag) actions) (.read pid count) →
        ¬ToOwner (step (Runs.run step (boot iflag lflag) actions) (.read pid count)) := by
  have hinv : Runs.Always step Inv (boot iflag lflag) actions :=
    h.always (Inv.boot iflag lflag) fun s a hcond hs ↦ hs.next hcond
  exact ⟨hinv.mono fun s hs ↦ hs.toOwner, fun pid count ↦ hinv.last.misdelivers⟩

/-- A task reads the three bytes of an arrow key. -/
def arrowKey : List Action :=
  [.read 2 1, .key (.special 1), .round 2, .read 2 1, .read 2 1, .exit 2]

theorem keys_reach_their_owner_arrowKey :
    Runs.Always step ToOwner (boot 0x302 0x803b) arrowKey :=
  (@keys_reach_their_owner 0x302 0x803b arrowKey (by decide)).1

/-- Task 2 gets the first byte of an arrow key, and task 3 the second one, although task 2 owns the
console. -/
theorem second_byte_goes_astray :
    (Runs.run step (boot 0x302 0x803b) [.key (.special 1), .read 2 1, .round 2, .read 3 1]).log =
      [⟨2, 2, 0x1b⟩, ⟨3, 2, 0x5b⟩] := by
  decide

end ToastyUnix.Tty
