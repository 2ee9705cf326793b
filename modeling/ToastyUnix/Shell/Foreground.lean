import ToastyUnix.Drivers.Keyboard

/-!
# The shell and the keyboard

The shell reads its command lines without claiming the console, but a builtin that reads `/dev/tty0`
claims it like any other reader, and only `task_exit` and the builtin `exec` give it back. While the
shell waits in `exec_pipeline` for the programs that it has started, a program that wants the
keyboard needs a console that the shell does not own.

A step is one of the shell, of another task or of the keyboard. The main result says for which
sequences of commands the shell never waits with the console in its hands.
-/

namespace ToastyUnix.Foreground

open Tty Function

/-- The process id that `sched_init` gives the shell. -/
def shellPid : Pid := 1

/-- The tasks and the terminal. -/
structure Session where
  tty : State
  alive : Pid → Bool
  /-- `g_next_pid`. -/
  nextPid : Pid
  /-- The process ids that the pipeline has started and not yet waited for. -/
  pids : List Pid
  /-- The shell is in the wait loop of `exec_pipeline`. -/
  waits : Bool
  /-- A builtin has read `/dev/tty0` past its pending bytes, and no `exec` has followed. -/
  readTerminal : Bool

inductive Action
  | key (ev : Event)
  /-- The shell takes an event for its command line. -/
  | prompt
  /-- A builtin such as `cat` reads `/dev/tty0`. -/
  | builtinRead (count : ℕ)
  /-- The builtin `exec`, whose program is started or not. -/
  | exec (started : Bool)
  /-- `exec_pipeline` starts the program of a stage. -/
  | spawn
  | startWait
  | checkWait
  | read (pid : Pid) (count : ℕ)
  | round (pid : Pid)
  | exit (pid : Pid)

namespace Session

/-- The shell is neither in a read nor in the wait loop. -/
def shellRuns (s : Session) : Bool := !s.waits && (s.tty.reading shellPid).isNone

/-- `task_create_user`. -/
def newTask (s : Session) : Session :=
  { s with alive := update s.alive s.nextPid true, nextPid := s.nextPid + 1 }

def setKbd (s : Session) (kbd : Keyboard) : Session := { s with tty := { s.tty with kbd := kbd } }

/-- `cmd_exec`. -/
def cmdExec (s : Session) (started : Bool) : Session :=
  let s := s.setKbd (s.tty.kbd.kbdInputRelease s.tty.kbd.owner)
  let s := { s with readTerminal := false }
  if started then s.newTask else s

/-- One look at the tasks in the wait loop. -/
def waitRound (s : Session) : Session :=
  match s.pids with
  | [] => { s with waits := false }
  | pid :: pids => if s.alive pid then s else { s with pids := pids }

/-- The shell starts to read `/dev/tty0` in a builtin. -/
def builtinRead (s : Session) (count : ℕ) : Session :=
  match ttyReadStart s.tty shellPid count with
  | (outcome, t) => { s with tty := t, readTerminal := s.readTerminal || outcome = .waits }

/-- A step, which does nothing when its task cannot take it now. -/
def step (s : Session) : Action → Session
  | .key ev => s.setKbd (s.tty.kbd.kbdPushEvent ev)
  | .prompt => if s.shellRuns then s.setKbd (s.tty.kbd.kbdGetEventShell shellPid).2 else s
  | .builtinRead count => if s.shellRuns then s.builtinRead count else s
  | .exec started => if s.shellRuns then s.cmdExec started else s
  | .spawn =>
    if s.shellRuns then { s.newTask with pids := s.pids ++ [s.nextPid] } else s
  | .startWait => if s.shellRuns then { s with waits := true } else s
  | .checkWait => if s.waits then s.waitRound else s
  | .read pid count =>
    if s.alive pid ∧ pid ≠ shellPid ∧ s.tty.reading pid = none then
      { s with tty := (ttyReadStart s.tty pid count).2 }
    else s
  | .round pid => if s.alive pid then { s with tty := (ttyReadRound s.tty pid).2 } else s
  | .exit pid =>
    if s.alive pid ∧ pid ≠ shellPid then
      { s with alive := update s.alive pid false, tty := taskExit s.tty pid }
    else s

/-- The shell is in the wait loop for a program that is alive. -/
def WaitsForProgram (s : Session) : Prop := s.waits = true ∧ ∃ pid ∈ s.pids, s.alive pid = true

/-- The console is free or owned by a live task other than the shell. -/
def ConsoleAvailable (s : Session) : Prop :=
  s.tty.kbd.owner = 0 ∨ ∃ pid : Pid, s.tty.kbd.owner = pid ∧ pid ≠ shellPid ∧ s.alive pid = true

/-- The shell does not keep a program that it waits for from the keyboard. -/
def NotStarved (s : Session) : Prop := s.WaitsForProgram → s.ConsoleAvailable

/-- The shell never waits for a live program after a builtin read the terminal, unless `exec` came
in between. -/
def HandsOver (s : Session) : Action → Prop
  | .startWait =>
    s.shellRuns = true → (∃ pid ∈ s.pids, s.alive pid = true) → s.readTerminal = false
  | _ => True

/-- The session at boot: the shell is the only task. -/
def boot (iflag lflag : BitVec 32) : Session where
  tty := (Tty.boot iflag lflag).tty
  alive := fun pid ↦ pid = shellPid
  nextPid := Nat.succPNat 1
  pids := []
  waits := false
  readTerminal := false

/-- The owner is alive, and it is the shell exactly when a builtin has read the terminal. -/
structure Inv (s : Session) : Prop where
  shellAlive : s.alive shellPid = true
  ownerAlive : s.tty.kbd.owner = 0 ∨ ∃ pid : Pid, s.tty.kbd.owner = pid ∧ s.alive pid = true
  ofOwner : s.tty.kbd.owner = shellPid → s.readTerminal = true
  ofReading : s.tty.reading shellPid ≠ none → s.readTerminal = true ∧ s.waits = false
  ofRead : s.readTerminal = true → s.tty.reading shellPid = none → s.tty.kbd.owner = shellPid

theorem Inv.boot (iflag lflag : BitVec 32) : Inv (boot iflag lflag) where
  shellAlive := rfl
  ownerAlive := .inl rfl
  ofOwner h := absurd h (Nat.zero_ne_one)
  ofReading h := absurd rfl h
  ofRead h := absurd h Bool.false_ne_true

variable {s s' : Session} {pid : Pid}

/-- Changes that keep the owner, the live tasks and what the shell reads. -/
theorem Inv.congr (h : Inv s) (howner : s'.tty.kbd.owner = s.tty.kbd.owner)
    (halive : ∀ pid, s.alive pid = true → s'.alive pid = true)
    (hreading : s'.tty.reading shellPid = s.tty.reading shellPid)
    (hread : s'.readTerminal = s.readTerminal)
    (hwaits : s.tty.reading shellPid ≠ none → s'.waits = s.waits) : Inv s' where
  shellAlive := halive _ h.shellAlive
  ownerAlive := by
    rw [howner]
    exact h.ownerAlive.imp_right fun ⟨pid, hpid, hlive⟩ ↦ ⟨pid, hpid, halive pid hlive⟩
  ofOwner := by
    rw [howner, hread]
    exact h.ofOwner
  ofReading hne := by
    rw [hreading] at hne
    rw [hread, hwaits hne]
    exact h.ofReading hne
  ofRead := by
    rw [hread, hreading, howner]
    exact h.ofRead

theorem notStarved_iff (h : Inv s) :
    s.NotStarved ↔ (s.WaitsForProgram → s.tty.kbd.owner ≠ shellPid) := by
  refine forall_congr' fun _ ↦ ⟨?_, ?_⟩
  · rintro (hfree | ⟨pid, howner, hne, -⟩) hshell
    · exact absurd (hfree.symm.trans hshell) (by decide)
    · exact hne (PNat.coe_injective (howner.symm.trans hshell))
  · intro hne
    refine h.ownerAlive.imp_right fun ⟨pid, howner, hlive⟩ ↦ ⟨pid, howner, ?_, hlive⟩
    rintro rfl
    exact hne howner

theorem shellRuns_iff : s.shellRuns = true ↔ s.waits = false ∧ s.tty.reading shellPid = none := by
  simp [shellRuns]

theorem kbdGetEventShell_owner (k : Keyboard) (pid : Pid) :
    (k.kbdGetEventShell pid).2.owner = k.owner := by
  unfold Keyboard.kbdGetEventShell Keyboard.take
  by_cases hbusy : k.owner ≠ 0 ∧ k.owner ≠ pid
  · rw [if_pos hbusy]
  · by_cases hempty : k.head = k.tail <;> simp [hbusy, hempty]

theorem kbdPushEvent_owner (k : Keyboard) (ev : Event) : (k.kbdPushEvent ev).owner = k.owner := by
  simp only [Keyboard.kbdPushEvent]
  split_ifs <;> rfl

theorem ttyReadStart_kbd (t : State) (pid : Pid) (count : ℕ) :
    (ttyReadStart t pid count).2.kbd = t.kbd := by
  by_cases h : count ≠ 0 ∧ t.Pending
  · exact (ttyReadStart_of_pending pid h.1 h.2).2
  · exact (ttyReadStart_of_not_pending h pid 0).2.1

/-- The part of a read before the loop enters it or leaves the readers alone. -/
theorem ttyReadStart_cases (t : State) (pid : Pid) (count : ℕ) :
    (∃ flags, (ttyReadStart t pid count).1 = .waits ∧
      (ttyReadStart t pid count).2.reading = update t.reading pid (some flags)) ∨
    (ttyReadStart t pid count).1 ≠ .waits ∧ (ttyReadStart t pid count).2.reading = t.reading := by
  unfold ttyReadStart
  by_cases hcount : count = 0
  · rw [if_pos hcount]
    exact .inr ⟨Outcome.noConfusion, rfl⟩
  by_cases hpend : t.pendI < t.pendN
  · rw [if_neg hcount, if_pos hpend]
    refine .inr ⟨Outcome.noConfusion, ?_⟩
    simp only
    split_ifs <;> rfl
  · rw [if_neg hcount, if_neg hpend]
    exact .inl ⟨_, rfl, rfl⟩

theorem deliver_reading (t : State) (canon echo : Bool) (ev : Event) :
    (deliver t canon echo ev).2.reading = t.reading := by
  cases ev with
  | special code =>
    have hspecial : (ttySpecialByte t code).2.reading = t.reading := by
      unfold ttySpecialByte
      split <;> rfl
    simp only [deliver]
    split_ifs <;> exact hspecial
  | char c =>
    simp only [deliver, echoChar]
    split_ifs <;> rfl

theorem ttyReadRound_reading_of_ne {t : State} {q : Pid} (hne : q ≠ pid) :
    (ttyReadRound t pid).2.reading q = t.reading q := by
  unfold ttyReadRound
  cases t.reading pid with
  | none => rfl
  | some flags =>
    rcases t.kbd.kbdGetEventOwned pid with ⟨_ | ev, kbd⟩
    · rfl
    · have hreading := deliver_reading { t with kbd := kbd } flags.1 flags.2 ev
      simp only
      rcases hd : deliver { t with kbd := kbd } flags.1 flags.2 ev with ⟨_ | bytes, t'⟩ <;>
        rw [hd] at hreading
      · exact congrFun hreading q
      · exact (update_of_ne hne _ _).trans (congrFun hreading q)

/-- A round of the loop ends the read, or leaves it there, or was none at all. -/
theorem ttyReadRound_cases (t : State) (pid : Pid) :
    ((ttyReadRound t pid).2.kbd.owner = t.kbd.owner ∨
      t.kbd.owner = 0 ∧ t.reading pid ≠ none ∧ (ttyReadRound t pid).2.kbd.owner = pid) ∧
    ((ttyReadRound t pid).2.reading pid = t.reading pid ∨
      t.reading pid ≠ none ∧ (ttyReadRound t pid).2.kbd.owner = pid) := by
  cases htaken : taken t pid with
  | none =>
    unfold taken at htaken
    obtain ⟨howner, -⟩ := kbdGetEventOwned_spec t.kbd pid
    unfold ttyReadRound
    cases hreading : t.reading pid with
    | none => exact ⟨.inl rfl, .inl hreading⟩
    | some flags =>
      rw [hreading, Option.bind_some] at htaken
      rcases hget : t.kbd.kbdGetEventOwned pid with ⟨ev, kbd⟩
      rw [hget] at htaken howner
      cases htaken
      refine ⟨?_, .inl hreading⟩
      by_cases hfree : t.kbd.owner = 0
      · exact .inr ⟨hfree, Option.some_ne_none _, howner.trans (if_pos hfree)⟩
      · exact .inl (howner.trans (if_neg hfree))
  | some ev =>
    obtain ⟨hbefore, hafter, -⟩ := ttyReadRound_of_taken htaken
    have hreading : t.reading pid ≠ none := by
      intro hnone
      simp [taken, hnone] at htaken
    refine ⟨?_, .inr ⟨hreading, hafter⟩⟩
    exact hbefore.symm.imp (fun hmine ↦ hafter.trans hmine.symm) fun hfree ↦
      ⟨hfree, hreading, hafter⟩

section

variable (h : Inv s)
include h

theorem Inv.setKbd {kbd : Keyboard} (howner : kbd.owner = s.tty.kbd.owner) :
    Inv (s.setKbd kbd) :=
  h.congr howner (fun _ hlive ↦ hlive) rfl rfl fun _ ↦ rfl

theorem Inv.newTask (pids : List Pid) : Inv { s.newTask with pids := pids } := by
  refine h.congr rfl (fun pid hlive ↦ ?_) rfl rfl fun _ ↦ rfl
  simp only [Session.newTask]
  by_cases hpid : pid = s.nextPid
  · rw [hpid, update_self]
  · rw [update_of_ne hpid, hlive]

theorem Inv.builtinRead (hruns : s.shellRuns = true) (count : ℕ) :
    Inv (s.builtinRead count) := by
  obtain ⟨hwaits, hreading⟩ := shellRuns_iff.mp hruns
  have hkbd := ttyReadStart_kbd s.tty shellPid count
  obtain ⟨flags, houtcome, hloop⟩ | ⟨houtcome, hsame⟩ := ttyReadStart_cases s.tty shellPid count
  · have hin : (s.builtinRead count).tty.reading shellPid = some flags := by
      rw [Session.builtinRead, hloop, update_self]
    have hread : (s.builtinRead count).readTerminal = true := by
      simp [Session.builtinRead, houtcome]
    refine ⟨h.shellAlive, ?_, fun _ ↦ hread, fun _ ↦ ⟨hread, hwaits⟩, fun _ hnone ↦ ?_⟩
    · rw [Session.builtinRead, hkbd]
      exact h.ownerAlive
    · rw [hin] at hnone
      cases hnone
  · refine h.congr (congrArg Keyboard.owner hkbd) (fun _ hlive ↦ hlive)
      (congrFun hsame shellPid) ?_ fun _ ↦ rfl
    simp [Session.builtinRead, houtcome]

theorem Inv.cmdExec (hruns : s.shellRuns = true) (started : Bool) :
    Inv (s.cmdExec started) := by
  obtain ⟨hwaits, hreading⟩ := shellRuns_iff.mp hruns
  have hfree : (s.tty.kbd.kbdInputRelease s.tty.kbd.owner).owner = 0 := by
    simp [Keyboard.kbdInputRelease]
  have hbase : Inv { s.setKbd (s.tty.kbd.kbdInputRelease s.tty.kbd.owner) with
      readTerminal := false } :=
    ⟨h.shellAlive, .inl hfree, fun howner ↦ absurd (hfree.symm.trans howner) (by decide),
      fun hne ↦ absurd hreading hne, fun hread ↦ absurd hread Bool.false_ne_true⟩
  cases started with
  | false => exact hbase
  | true => exact hbase.newTask s.pids

theorem Inv.waitRound (hwaits : s.waits = true) : Inv s.waitRound := by
  have hout : s.tty.reading shellPid = none := by
    by_contra hne
    rw [(h.ofReading hne).2] at hwaits
    cases hwaits
  unfold Session.waitRound
  split
  · exact h.congr rfl (fun _ hlive ↦ hlive) rfl rfl fun hne ↦ absurd hout hne
  · split_ifs
    · exact h
    · exact h.congr rfl (fun _ hlive ↦ hlive) rfl rfl fun _ ↦ rfl

theorem Inv.round (hlive : s.alive pid = true) :
    Inv { s with tty := (ttyReadRound s.tty pid).2 } := by
  obtain ⟨howner, hself⟩ := ttyReadRound_cases s.tty pid
  refine ⟨h.shellAlive, ?_, ?_, ?_, ?_⟩
  · obtain hsame | ⟨-, -, hclaim⟩ := howner
    · rw [hsame]
      exact h.ownerAlive
    · exact .inr ⟨pid, hclaim, hlive⟩
  · intro hshell
    obtain hsame | ⟨-, hreading, hclaim⟩ := howner
    · exact h.ofOwner (hsame.symm.trans hshell)
    · obtain rfl : pid = shellPid := PNat.coe_injective (hclaim.symm.trans hshell)
      exact (h.ofReading hreading).1
  · intro hne
    refine h.ofReading fun hnone ↦ hne ?_
    by_cases hpid : shellPid = pid
    · subst hpid
      exact (hself.resolve_right fun hin ↦ hin.1 hnone).trans hnone
    · exact (ttyReadRound_reading_of_ne hpid).trans hnone
  · intro hread hnone
    -- once the shell is the owner no round of another task changes that
    have hkeep (hbefore : s.tty.reading shellPid = none) :
        (ttyReadRound s.tty pid).2.kbd.owner = shellPid := by
      have hmine := h.ofRead hread hbefore
      refine (howner.resolve_right fun hclaim ↦ ?_).trans hmine
      exact absurd (hclaim.1.symm.trans hmine) (by decide)
    by_cases hpid : shellPid = pid
    · subst hpid
      exact hself.elim (fun hsame ↦ hkeep (hsame.symm.trans hnone)) And.right
    · exact hkeep ((ttyReadRound_reading_of_ne hpid).symm.trans hnone)

theorem Inv.read (hne : pid ≠ shellPid) (count : ℕ) :
    Inv { s with tty := (ttyReadStart s.tty pid count).2 } := by
  refine h.congr (congrArg Keyboard.owner (ttyReadStart_kbd s.tty pid count))
    (fun _ hlive ↦ hlive) ?_ rfl fun _ ↦ rfl
  obtain ⟨flags, -, hloop⟩ | ⟨-, hsame⟩ := ttyReadStart_cases s.tty pid count
  · simp only [hloop, update_of_ne hne.symm]
  · simp only [hsame]

theorem Inv.exit (hne : pid ≠ shellPid) :
    Inv { s with alive := update s.alive pid false, tty := taskExit s.tty pid } := by
  have hreading : (taskExit s.tty pid).reading shellPid = s.tty.reading shellPid :=
    update_of_ne hne.symm _ _
  have hshell : update s.alive pid false shellPid = true :=
    (update_of_ne hne.symm _ _).trans h.shellAlive
  by_cases hmine : s.tty.kbd.owner = pid
  · have hfree : (taskExit s.tty pid).kbd.owner = 0 := by
      simp [taskExit, Keyboard.kbdInputRelease, hmine]
    refine ⟨hshell, .inl hfree, fun howner ↦ absurd (hfree.symm.trans howner) (by decide), ?_, ?_⟩
    · simp only [hreading]
      exact h.ofReading
    · intro hread hnone
      have howner := h.ofRead hread (hreading.symm.trans hnone)
      exact absurd (PNat.coe_injective (hmine.symm.trans howner)) hne
  · have hkbd : (taskExit s.tty pid).kbd = s.tty.kbd := if_neg hmine
    refine ⟨hshell, ?_, ?_, ?_, ?_⟩
    · rw [hkbd]
      refine h.ownerAlive.imp_right ?_
      rintro ⟨q, howner, hlive⟩
      refine ⟨q, howner, ?_⟩
      have hq : q ≠ pid := by
        rintro rfl
        exact hmine howner
      exact (update_of_ne hq _ _).trans hlive
    · rw [hkbd]
      exact h.ofOwner
    · simp only [hreading]
      exact h.ofReading
    · simp only [hreading, hkbd]
      exact h.ofRead

end

theorem Inv.next {s : Session} (h : Inv s) (a : Action) : Inv (s.step a) := by
  cases a with
  | key ev => exact h.setKbd (kbdPushEvent_owner _ ev)
  | prompt =>
    simp only [step]
    split_ifs
    · exact h.setKbd (kbdGetEventShell_owner _ _)
    · exact h
  | builtinRead count =>
    simp only [step]
    split_ifs with hruns
    · exact h.builtinRead hruns count
    · exact h
  | exec started =>
    simp only [step]
    split_ifs with hruns
    · exact h.cmdExec hruns started
    · exact h
  | spawn =>
    simp only [step]
    split_ifs
    · exact h.newTask _
    · exact h
  | startWait =>
    simp only [step]
    split_ifs with hruns
    · exact h.congr rfl (fun _ hlive ↦ hlive) rfl rfl fun hne ↦
        absurd (shellRuns_iff.mp hruns).2 hne
    · exact h
  | checkWait =>
    simp only [step]
    split_ifs with hwaits
    · exact h.waitRound hwaits
    · exact h
  | read pid count =>
    simp only [step]
    split_ifs with henabled
    · exact h.read henabled.2.1 count
    · exact h
  | round pid =>
    simp only [step]
    split_ifs with hlive
    · exact h.round hlive
    · exact h
  | exit pid =>
    simp only [step]
    split_ifs with henabled
    · exact h.exit henabled.2
    · exact h

theorem notStarved_of_runs (h : s.waits = false) : s.NotStarved := by
  intro hwaits
  rw [hwaits.1] at h
  cases h

/-- A step that neither begins a wait nor makes the shell the owner starves no program. -/
theorem NotStarved.of_step (hs : s.NotStarved) (h : Inv s) (h' : Inv s')
    (hwaits : s'.WaitsForProgram → s.WaitsForProgram)
    (howner : s.waits = true → s'.tty.kbd.owner = shellPid → s.tty.kbd.owner = shellPid) :
    s'.NotStarved :=
  (notStarved_iff h').mpr fun hw hshell ↦
    (notStarved_iff h).mp hs (hwaits hw) (howner (hwaits hw).1 hshell)

/-- A step of the running shell leaves it outside the wait loop. -/
theorem notStarved_shell (hs : s.NotStarved) (hwaits : s'.waits = s.waits) :
    (if s.shellRuns then s' else s).NotStarved := by
  split_ifs with hruns
  · exact notStarved_of_runs (hwaits.trans (shellRuns_iff.mp hruns).1)
  · exact hs

theorem notStarved_startWait (h : Inv s) (hs : s.NotStarved) :
    (s.step .startWait).NotStarved ↔ s.HandsOver .startWait := by
  simp only [step, HandsOver]
  split_ifs with hruns
  · have hreading := (shellRuns_iff.mp hruns).2
    have h' : Inv { s with waits := true } := by
      have := h.next .startWait
      rwa [step, if_pos hruns] at this
    rw [notStarved_iff h']
    constructor
    · intro hne _ hlive
      by_contra hread
      exact hne ⟨rfl, hlive⟩ (h.ofRead (Bool.eq_true_of_not_eq_false hread) hreading)
    · intro hread hw howner
      have := h.ofOwner howner
      rw [hread hruns hw.2] at this
      cases this
  · exact ⟨fun _ hcontra ↦ absurd hcontra hruns, fun _ ↦ hs⟩

theorem notStarved_waitRound (hs : s.NotStarved) : s.waitRound.NotStarved := by
  unfold waitRound
  split
  · exact notStarved_of_runs rfl
  case h_2 pid pids hpids =>
    split_ifs
    · exact hs
    · rintro ⟨hwaits, q, hq, hlive⟩
      exact hs ⟨hwaits, q, hpids ▸ List.mem_cons_of_mem pid hq, hlive⟩

theorem notStarved_step_iff (h : Inv s) (hs : s.NotStarved) (a : Action) :
    (s.step a).NotStarved ↔ s.HandsOver a := by
  cases a with
  | startWait => exact notStarved_startWait h hs
  | key ev =>
    exact iff_of_true (hs.of_step h (h.next _) (fun hw ↦ hw) fun _ howner ↦
      (kbdPushEvent_owner _ ev).symm.trans howner) trivial
  | prompt => exact iff_of_true (notStarved_shell hs rfl) trivial
  | builtinRead count => exact iff_of_true (notStarved_shell hs rfl) trivial
  | exec started =>
    refine iff_of_true (notStarved_shell hs ?_) trivial
    cases started <;> rfl
  | spawn => exact iff_of_true (notStarved_shell hs rfl) trivial
  | checkWait =>
    refine iff_of_true ?_ trivial
    simp only [step]
    split_ifs
    · exact notStarved_waitRound hs
    · exact hs
  | read pid count =>
    refine iff_of_true (hs.of_step h (h.next _) ?_ ?_) trivial
    · simp only [step]
      split_ifs <;> exact fun hw ↦ hw
    · intro _ howner
      simp only [step] at howner
      split_ifs at howner
      · rwa [ttyReadStart_kbd] at howner
      · exact howner
  | round pid =>
    refine iff_of_true (hs.of_step h (h.next _) ?_ ?_) trivial
    · simp only [step]
      split_ifs <;> exact fun hw ↦ hw
    · intro hwaits howner
      simp only [step] at howner
      split_ifs at howner
      · obtain hsame | ⟨-, hreading, hclaim⟩ := (ttyReadRound_cases s.tty pid).1
        · exact hsame.symm.trans howner
        · -- the shell is in no read while it waits
          obtain rfl : pid = shellPid := PNat.coe_injective (hclaim.symm.trans howner)
          rw [(h.ofReading hreading).2] at hwaits
          cases hwaits
      · exact howner
  | exit pid =>
    refine iff_of_true (hs.of_step h (h.next _) ?_ ?_) trivial
    · simp only [step]
      split_ifs
      · rintro ⟨hwaits, q, hq, hlive⟩
        refine ⟨hwaits, q, hq, ?_⟩
        simp only [update_apply] at hlive
        split_ifs at hlive
        exact hlive
      · exact fun hw ↦ hw
    · intro _ howner
      simp only [step] at howner
      split_ifs at howner
      · by_contra hne
        simp only [taskExit, Keyboard.kbdInputRelease] at howner
        split_ifs at howner
        · exact Nat.zero_ne_one howner
        · exact hne howner
      · exact howner

/-- No program that the shell waits for is ever starved of the keyboard exactly when the shell never
starts to wait for a live program after a builtin has read the terminal, unless the builtin `exec`
has given the console back in between. -/
theorem shell_starves_nobody_iff (iflag lflag : BitVec 32) (actions : List Action) :
    Runs.Always step NotStarved (boot iflag lflag) actions ↔
      Runs.Meets step HandsOver (boot iflag lflag) actions :=
  Runs.always_iff_meets (Inv.boot iflag lflag) (notStarved_of_runs rfl) (fun _ a hs ↦ hs.next a)
    fun _ a hI hs ↦ notStarved_step_iff hI hs a

/-- `cat /dev/tty0`, ended by Escape, and then a program. -/
def catThenProgram : List Action :=
  [.builtinRead 256, .key (.char 0x1b), .round 1, .spawn, .startWait]

/-- The shell waits for program 2, which is alive, and owns the console itself. -/
theorem shell_keeps_console :
    (Runs.run step (boot 0x302 0x803b) catThenProgram).tty.kbd.owner = shellPid ∧
      ¬(Runs.run step (boot 0x302 0x803b) catThenProgram).NotStarved := by
  have howner : (Runs.run step (boot 0x302 0x803b) catThenProgram).tty.kbd.owner = shellPid := by
    decide
  refine ⟨howner, fun hs ↦ ?_⟩
  obtain hfree | ⟨pid, hpid, hne, -⟩ := hs ⟨by decide, 2, by decide, by decide⟩
  · exact absurd (hfree.symm.trans howner) (by decide)
  · exact hne (PNat.coe_injective (hpid.symm.trans howner))

end Session

end ToastyUnix.Foreground
