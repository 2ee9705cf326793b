import ToastyUnix.Lib.Ctype
import ToastyUnix.Lib.Lines

/-!
# The configuration of doas

`parse_conf` of `userspace/doas.c`: the file is read through a buffer of 512 bytes, each piece is
cut into at most 16 words, and every piece of two words or more becomes a rule, before it is
checked. The model notes with each rule the text that it was read from.

`Statement` is the grammar of the header comment, as the syntax that a line stands for. The rules
that are left are the ones that the lines of the file state, exactly when the file is `Clean`
(`rules_of_lines_iff`); `unknown_action_permits` is a line that is not.
-/

namespace ToastyUnix.Doas

open Lines List

/-- A byte string. -/
abbrev Text := List UInt8

/-- The C string that a buffer holds. -/
def cString (buffer : Text) : Text := buffer.takeWhile (· ≠ 0)

def newline : UInt8 := 10

/-- The separators of `parse_conf`: blank and tab. -/
def isBlank (c : UInt8) : Bool := c = 32 || c = 9

inductive Action
  | permit
  | deny
deriving DecidableEq

def NOPASS : BitVec 32 := 1

def KEEPENV : BitVec 32 := 2

def MAX_RULES : ℕ := 64

/-- The bytes of a line that fit the buffer of `parse_conf` and `is_member`. -/
def LINE_MAX : ℕ := 511

/-- `struct rule`. -/
structure Rule where
  action : Action
  options : BitVec 32
  ident : Text
  target : Text
  cmd : Text
  cmdargs : Text
deriving DecidableEq

/-- An element of `g_rules` with its text and the offset of that text. -/
structure Entry where
  source : ℕ × Text
  rule : Rule
deriving DecidableEq

/-- `g_rules` and `g_parse_errors`. -/
structure Conf where
  entries : List Entry
  parseErrors : ℕ

/-- `g_rules`. -/
def Conf.rules (c : Conf) : List Rule := c.entries.map Entry.rule

def isOption (t : Text) : Bool := t = ascii "nopass" || t = ascii "keepenv"

/-- The loop over the option words. -/
def takeOptions (toks : List Text) : BitVec 32 :=
  (toks.takeWhile isOption).foldl
    (fun options t ↦ options ||| if t = ascii "nopass" then NOPASS else KEEPENV) 0

/-- The loop that collects the command's arguments; one without room is skipped. -/
def appendArgs (cmdargs : Text) (toks : List Text) : Text :=
  toks.foldl
    (fun acc t ↦ if acc.length + t.length + 2 < 128 then acc ++ ascii " " ++ t else acc) cmdargs

/-- The command of a rule and its arguments. -/
def parseCommand (r : Rule) : List Text → Rule
  | [] => r
  | cmd :: args => { r with cmd := cmd.take 63, cmdargs := appendArgs [] args }

/-- The words after the user; the flag is false for a parse error. -/
def parseTarget (r : Rule) : List Text → Bool × Rule
  | [] => (true, r)
  | t :: rest =>
    if t = ascii "as" then
      match rest with
      | [] => (false, r)
      | target :: rest => (true, parseCommand { r with target := target.take 63 } rest)
    else (true, parseCommand r (t :: rest))

/-- The body of the loop of `parse_conf` from the first word on. -/
def parseRule (first : Text) (toks : List Text) : Bool × Rule :=
  let r : Rule :=
    { action := if first = ascii "deny" then .deny else .permit
      options := takeOptions toks
      ident := []
      target := []
      cmd := []
      cmdargs := [] }
  match toks.dropWhile isOption with
  | [] => (false, r)
  | ident :: rest => parseTarget { r with ident := ident.take 63 } rest

/-- The text of a piece without its line end. -/
def sourceOf (piece : ℕ × Text) : ℕ × Text := (piece.1, piece.2.takeWhile (· ≠ newline))

/-- The body of the loop of `parse_conf`; `none` is the `break` for a full table. -/
def parseLine (piece : ℕ × Text) (c : Conf) : Option Conf :=
  let p := (cString piece.2).dropWhile isBlank
  if p.head? = some 35 ∨ p.head? = some newline ∨ p = [] then some c
  else
    match tokenLoop isBlank 16 (p.takeWhile (· ≠ newline)) with
    | first :: second :: toks =>
      if MAX_RULES ≤ c.entries.length then none
      else
        let (ok, r) := parseRule first (second :: toks)
        some
          { entries := c.entries ++ [⟨sourceOf piece, r⟩]
            parseErrors := if ok then c.parseErrors else c.parseErrors + 1 }
    | _ => some { c with parseErrors := c.parseErrors + 1 }

/-- The loop of `parse_conf`. -/
def parseLines : List (ℕ × Text) → Conf → Conf
  | [], c => c
  | piece :: pieces, c =>
    match parseLine piece c with
    | none => c
    | some c => parseLines pieces c

/-- `parse_conf` of a file, or of a path that cannot be opened. -/
def parseConf : Option Text → Conf
  | none => ⟨[], 0⟩
  | some content => parseLines (withOffsets 0 0 (readAll newline LINE_MAX content)) ⟨[], 0⟩

/-! ## Which pieces become rules -/

/-- The part of a piece that is cut into words. -/
def body (text : Text) : Text := ((cString text).dropWhile isBlank).takeWhile (· ≠ newline)

variable {c : UInt8} {line : Text} {o n : ℕ}

/-- The rule that a piece becomes, if any. -/
def entriesOf (piece : ℕ × Text) : List Entry :=
  if (body piece.2).head? = some 35 then []
  else
    match (words isBlank (body piece.2)).take 16 with
    | first :: second :: toks => [⟨sourceOf piece, (parseRule first (second :: toks)).2⟩]
    | _ => []

theorem head?_takeWhile_newline (p : Text) (hc : c ≠ newline) :
    (p.takeWhile (· ≠ newline)).head? = some c ↔ p.head? = some c := by
  cases p with
  | nil => simp
  | cons d p =>
    by_cases hd : d = newline
    · subst hd
      simpa using hc.symm
    · simp [hd]

/-- What the body of the loop does: nothing to the rules, one rule more, or `break`. -/
theorem parseLine_cases (piece : ℕ × Text) (c : Conf) :
    (entriesOf piece = [] ∧ ∃ c', parseLine piece c = some c' ∧ c'.entries = c.entries) ∨
    (∃ e, entriesOf piece = [e] ∧ c.entries.length < MAX_RULES ∧
      ∃ c', parseLine piece c = some c' ∧ c'.entries = c.entries ++ [e]) ∨
    (∃ e, entriesOf piece = [e] ∧ MAX_RULES ≤ c.entries.length ∧ parseLine piece c = none) := by
  unfold entriesOf parseLine body
  generalize (cString piece.2).dropWhile isBlank = p
  simp only [head?_takeWhile_newline p (c := 35) (by decide), tokenLoop_eq]
  by_cases hcomment : p.head? = some 35
  · simp [hcomment]
  by_cases hblank : p.head? = some newline ∨ p = []
  · have hnone : p.takeWhile (· ≠ newline) = [] := by
      rcases hblank with hhead | rfl
      · obtain ⟨rest, rfl⟩ := head?_eq_some_iff.mp hhead
        simp
      · rfl
    rw [if_neg hcomment, if_pos (Or.inr hblank), hnone]
    exact .inl ⟨by simp, c, rfl, rfl⟩
  rw [if_neg hcomment, if_neg (not_or.mpr ⟨hcomment, hblank⟩)]
  rcases (words isBlank (p.takeWhile (· ≠ newline))).take 16 with - | ⟨first, - | ⟨second, toks⟩⟩
  · exact .inl ⟨rfl, _, rfl, rfl⟩
  · exact .inl ⟨rfl, _, rfl, rfl⟩
  · by_cases hfull : MAX_RULES ≤ c.entries.length
    · exact .inr (.inr ⟨_, rfl, hfull, if_pos hfull⟩)
    · exact .inr (.inl ⟨_, rfl, by omega, _, if_neg hfull, rfl⟩)

/-- The rules are those of the first pieces that become one, up to the table's size. -/
theorem entries_parseLines (pieces : List (ℕ × Text)) (c : Conf)
    (hc : c.entries.length ≤ MAX_RULES) :
    (parseLines pieces c).entries =
      c.entries ++ (pieces.flatMap entriesOf).take (MAX_RULES - c.entries.length) := by
  induction pieces generalizing c with
  | nil => simp [parseLines]
  | cons piece pieces ih =>
    rw [parseLines, flatMap_cons]
    rcases parseLine_cases piece c with
      ⟨hnone, c', heq, hentries⟩ | ⟨e, hone, hroom, c', heq, hentries⟩ | ⟨e, hone, hfull, heq⟩
    · rw [heq, hnone, nil_append]
      simp only
      rw [ih c' (hentries ▸ hc), hentries]
    · rw [heq, hone]
      simp only
      have hlength : c'.entries.length = c.entries.length + 1 := by simp [hentries]
      rw [ih c' (by omega), hlength, hentries, append_assoc]
      have hsucc : MAX_RULES - c.entries.length = MAX_RULES - (c.entries.length + 1) + 1 := by omega
      rw [hsucc, singleton_append, singleton_append, take_succ_cons]
    · have hzero : MAX_RULES - c.entries.length = 0 := by omega
      simp [heq, hzero]

theorem takeWhile_append_newline (p : Text) :
    (p ++ [newline]).takeWhile (· ≠ newline) = p.takeWhile (· ≠ newline) := by
  rw [takeWhile_append]
  split_ifs with hall
  · rw [( takeWhile_prefix _).eq_of_length hall]
    simp
  · rfl

theorem body_append_newline (line : Text) : body (line ++ [newline]) = body line := by
  simp only [body, cString]
  rw [takeWhile_append]
  split_ifs with hall
  · rw [( takeWhile_prefix _).eq_of_length hall, dropWhile_append]
    split_ifs with hblank
    · rw [isEmpty_iff.mp hblank]
      decide
    · exact takeWhile_append_newline _
  · rfl

theorem entriesOf_append_newline (o : ℕ) (line : Text) :
    entriesOf (o, line ++ [newline]) = entriesOf (o, line) := by
  simp only [entriesOf, sourceOf, body_append_newline, takeWhile_append_newline]

/-- The lines of a file with their offsets. -/
def linesOf (o : ℕ) (content : Text) : List (ℕ × Text) :=
  withOffsets 1 o (content.splitOn newline)

/-- What becomes a rule out of a line. -/
def lineEntries (line : ℕ × Text) : List Entry :=
  (pieces LINE_MAX line.1 line.2).flatMap entriesOf

theorem entries_parseConf (content : Text) :
    (parseConf (some content)).entries =
      ((linesOf 0 content).flatMap lineEntries).take MAX_RULES := by
  have hread := flatMap_readAll newline (n := LINE_MAX) (by decide) entriesOf
    (fun _ ↦ rfl) (fun o line _ ↦ entriesOf_append_newline o line) 0 content
  rw [parseConf, entries_parseLines _ _ (by simp), hread]
  rfl

/-! ## The grammar -/

/-- A rule as the header comment of the source writes it:
`permit|deny [nopass] [keepenv] user [as target] [cmd [args...]]`. -/
structure Statement where
  action : Action
  nopass : Bool
  keepenv : Bool
  user : Text
  target : Option Text
  command : Option (Text × List Text)
  /-- An option word is not a user. -/
  user_ne : isOption user = false
  /-- The word `as` after the user introduces a target. -/
  command_ne : target = none → ∀ c ∈ command, c.1 ≠ ascii "as"

namespace Statement

/-- The words after the user. -/
def tail (target : Option Text) (command : Option (Text × List Text)) : List Text :=
  (match target with
    | none => []
    | some t => [ascii "as", t]) ++
  match command with
  | none => []
  | some (cmd, args) => cmd :: args

/-- The words of a rule. -/
def words (a : Statement) : List Text :=
  (match a.action with
    | .permit => ascii "permit"
    | .deny => ascii "deny") ::
  ((if a.nopass then [ascii "nopass"] else []) ++ (if a.keepenv then [ascii "keepenv"] else []) ++
    a.user :: tail a.target a.command)

/-- The rule that is stated. -/
def rule (a : Statement) : Rule where
  action := a.action
  options := (if a.nopass then NOPASS else 0) ||| (if a.keepenv then KEEPENV else 0)
  ident := a.user
  target := a.target.getD []
  cmd := (a.command.map Prod.fst).getD []
  cmdargs := ((a.command.map Prod.snd).getD []).flatMap (ascii " " ++ ·)

/-- The rule fits the fixed sizes of the parser and of `struct rule`. -/
def Fits (a : Statement) : Prop :=
  a.words.length ≤ 16 ∧ a.rule.ident.length ≤ 63 ∧ a.rule.target.length ≤ 63 ∧
    a.rule.cmd.length ≤ 63 ∧ a.rule.cmdargs.length ≤ 126

/-! ### What the parser stores -/

/-- The arguments of the command. -/
def args (a : Statement) : List Text := (a.command.map Prod.snd).getD []

/-- The same rule with fewer arguments. -/
def withArgs (a : Statement) (args : List Text) : Statement :=
  { a with
    command := a.command.map fun c ↦ (c.1, args)
    command_ne := by
      intro hnone c hc
      obtain ⟨c', hc', rfl⟩ := Option.map_eq_some_iff.mp hc
      exact a.command_ne hnone c' hc' }

/-- The rule as the parser stores it when it has seen all the words. -/
def stored (a : Statement) : Rule :=
  { a.rule with
    ident := a.user.take 63
    target := (a.target.getD []).take 63
    cmd := ((a.command.map Prod.fst).getD []).take 63
    cmdargs := appendArgs [] a.args }

theorem parseCommand_stored (r : Rule) (command : Option (Text × List Text))
    (hcmd : r.cmd = []) (hargs : r.cmdargs = []) :
    parseCommand r (match command with
      | none => []
      | some (cmd, args) => cmd :: args) =
    { r with
      cmd := ((command.map Prod.fst).getD []).take 63
      cmdargs := appendArgs [] ((command.map Prod.snd).getD []) } := by
  cases command with
  | none =>
    cases r
    simp_all [parseCommand, appendArgs]
  | some c => rfl

theorem parseTarget_stored (r : Rule) (target : Option Text) (command : Option (Text × List Text))
    (hne : target = none → ∀ c ∈ command, c.1 ≠ ascii "as") (htarget : r.target = [])
    (hcmd : r.cmd = []) (hargs : r.cmdargs = []) :
    parseTarget r (tail target command) =
      (true, { r with
        target := (target.getD []).take 63
        cmd := ((command.map Prod.fst).getD []).take 63
        cmdargs := appendArgs [] ((command.map Prod.snd).getD []) }) := by
  cases target with
  | some t =>
    have hrest := parseCommand_stored { r with target := t.take 63 } command hcmd hargs
    simp [tail, parseTarget, hrest]
  | none =>
    cases command with
    | none =>
      cases r
      simp_all [tail, parseTarget, appendArgs]
    | some c =>
      have hc : c.1 ≠ ascii "as" := hne rfl c rfl
      cases r
      simp_all [tail, parseTarget, parseCommand]

/-- The parser stores a rule whose words it has seen, up to the field sizes. -/
theorem parseRule_words (a : Statement) :
    ∃ first rest, a.words = first :: rest ∧ parseRule first rest = (true, a.stored) := by
  refine ⟨_, _, rfl, ?_⟩
  have haction : (if (match a.action with
      | .permit => ascii "permit"
      | .deny => ascii "deny") = ascii "deny" then Action.deny else Action.permit) = a.action := by
    cases a.action <;> decide
  have hdrop : ((if a.nopass then [ascii "nopass"] else []) ++
      (if a.keepenv then [ascii "keepenv"] else []) ++
        a.user :: tail a.target a.command).dropWhile isOption =
      a.user :: tail a.target a.command := by
    have huser := a.user_ne
    have hnopass : isOption (ascii "nopass") = true := by decide
    have hkeepenv : isOption (ascii "keepenv") = true := by decide
    cases a.nopass <;> cases a.keepenv <;> simp [huser, hnopass, hkeepenv]
  have hoptions : takeOptions ((if a.nopass then [ascii "nopass"] else []) ++
      (if a.keepenv then [ascii "keepenv"] else []) ++ a.user :: tail a.target a.command) =
      (if a.nopass then NOPASS else 0) ||| (if a.keepenv then KEEPENV else 0) := by
    have huser := a.user_ne
    have hnopass : isOption (ascii "nopass") = true := by decide
    have hkeepenv : isOption (ascii "keepenv") = true := by decide
    have hne : ascii "keepenv" ≠ ascii "nopass" := by decide
    cases a.nopass <;> cases a.keepenv <;>
      simp [takeOptions, huser, hnopass, hkeepenv, hne]
  rw [parseRule, hdrop, hoptions, haction]
  exact parseTarget_stored _ a.target a.command a.command_ne rfl rfl rfl

/-- The arguments as they are joined. -/
def joined (args : List Text) : Text := args.flatMap (ascii " " ++ ·)

theorem joined_cons (t : Text) (args : List Text) :
    joined (t :: args) = ascii " " ++ t ++ joined args := rfl

theorem length_joined_cons (t : Text) (args : List Text) :
    (joined (t :: args)).length = 1 + t.length + (joined args).length := by
  rw [joined_cons, length_append, length_append]
  rfl

theorem appendArgs_cons (acc t : Text) (args : List Text) :
    appendArgs acc (t :: args) =
      appendArgs (if acc.length + t.length + 2 < 128 then acc ++ ascii " " ++ t else acc) args :=
  rfl

theorem appendArgs_of_fits {acc : Text} {args : List Text}
    (h : acc.length + (joined args).length ≤ 126) : appendArgs acc args = acc ++ joined args := by
  induction args generalizing acc with
  | nil => simp [appendArgs, joined]
  | cons t args ih =>
    rw [length_joined_cons] at h
    have hlength : (acc ++ ascii " " ++ t).length = acc.length + 1 + t.length := by
      rw [length_append, length_append]
      rfl
    rw [appendArgs_cons, if_pos (by omega), ih (by omega), joined_cons]
    simp only [append_assoc]

theorem length_appendArgs (acc : Text) (args : List Text) (h : acc.length ≤ 126) :
    (appendArgs acc args).length ≤ 126 ∧
      (appendArgs acc args).length ≤ acc.length + (joined args).length := by
  induction args generalizing acc with
  | nil => simpa [appendArgs] using h
  | cons t args ih =>
    rw [appendArgs_cons, length_joined_cons]
    have hlength : (acc ++ ascii " " ++ t).length = acc.length + 1 + t.length := by
      rw [length_append, length_append]
      rfl
    split_ifs with hroom
    · obtain ⟨hmax, hle⟩ := ih (acc ++ ascii " " ++ t) (by omega)
      exact ⟨hmax, by omega⟩
    · obtain ⟨hmax, hle⟩ := ih acc h
      exact ⟨hmax, by omega⟩

/-- The arguments that are kept are all of them when none is cut off and they fit. -/
theorem appendArgs_take_iff (args : List Text) (k : ℕ) :
    appendArgs [] (args.take k) = joined args ↔
      args.length ≤ k ∧ (joined args).length ≤ 126 := by
  constructor
  · intro heq
    obtain ⟨hmax, hle⟩ := length_appendArgs [] (args.take k) (by simp)
    rw [heq] at hmax hle
    have hsplit : joined args = joined (args.take k) ++ joined (args.drop k) := by
      rw [joined, joined, joined, ← flatMap_append, take_append_drop]
    rw [hsplit, length_append, length_nil, Nat.zero_add] at hle
    refine ⟨?_, hmax⟩
    by_contra hlong
    obtain ⟨t, rest, hdrop⟩ := exists_cons_of_length_pos
      (by rw [length_drop]; omega : 0 < (args.drop k).length)
    rw [hdrop, length_joined_cons] at hle
    omega
  · rintro ⟨hlength, hfits⟩
    rw [take_of_length_le hlength, appendArgs_of_fits (by simpa using hfits), nil_append]

variable {a : Statement}

theorem words_withArgs (hcommand : a.command ≠ none) (xs : List Text) :
    (a.withArgs xs).words = (a.withArgs []).words ++ xs := by
  obtain ⟨c, hc⟩ := Option.ne_none_iff_exists'.mp hcommand
  simp [words, withArgs, tail, hc]

theorem length_words_withArgs_nil (a : Statement) : (a.withArgs []).words.length ≤ 7 := by
  obtain ⟨action, nopass, keepenv, user, target, command, huser, hcommand⟩ := a
  cases nopass <;> cases keepenv <;> cases target <;> cases command <;>
    simp [words, withArgs, tail]

/-- The first 16 words of a rule are those of the rule without the arguments behind them. -/
theorem words_take (a : Statement) :
    ∃ k, a.words.take 16 = (a.withArgs (a.args.take k)).words ∧
      (a.words.length ≤ 16 ↔ a.args.length ≤ k) := by
  have hfront := a.length_words_withArgs_nil
  by_cases hcommand : a.command = none
  · have hsame : ∀ xs, (a.withArgs xs).words = a.words := fun xs ↦ by
      simp [words, withArgs, hcommand]
    have hlength : a.words.length ≤ 16 := by
      rw [hsame] at hfront
      omega
    exact ⟨0, by rw [hsame, take_of_length_le hlength], by simpa [args, hcommand] using hlength⟩
  · have hwords : a.words = (a.withArgs []).words ++ a.args := by
      rw [← words_withArgs hcommand]
      obtain ⟨c, hc⟩ := Option.ne_none_iff_exists'.mp hcommand
      simp [words, withArgs, args, hc]
    refine ⟨16 - (a.withArgs []).words.length, ?_, ?_⟩
    · rw [words_withArgs hcommand, hwords, take_append,
        take_of_length_le (by omega : (a.withArgs []).words.length ≤ 16)]
    · rw [hwords, length_append]
      omega

/-- Exactly the rules that fit are stored as they are stated. -/
theorem stored_eq_rule_iff {k : ℕ} (hk : a.words.length ≤ 16 ↔ a.args.length ≤ k) :
    (a.withArgs (a.args.take k)).stored = a.rule ↔ a.Fits := by
  have hstored : (a.withArgs (a.args.take k)).stored =
      { a.rule with
        ident := a.user.take 63
        target := (a.target.getD []).take 63
        cmd := ((a.command.map Prod.fst).getD []).take 63
        cmdargs := appendArgs [] (a.args.take k) } := by
    cases hcommand : a.command <;> simp [stored, rule, withArgs, args, hcommand]
  have hjoined : ((a.command.map Prod.snd).getD []).flatMap (ascii " " ++ ·) = joined a.args := rfl
  rw [Fits, hk, hstored]
  simp only [rule, Rule.mk.injEq, true_and, hjoined, appendArgs_take_iff, take_eq_self_iff]
  tauto

end Statement

/-- The line states the rule: these are its words, and it is text. -/
def Writes (line : Text) (a : Statement) : Prop :=
  0 ∉ line ∧ words isBlank line = a.words

/-! ## The lines of the file and the rules -/

theorem takeWhile_ne_self {p : Text} (h : c ∉ p) : p.takeWhile (· ≠ c) = p :=
  takeWhile_eq_self_iff.mpr fun d hd ↦ by simpa using fun heq : d = c ↦ h (heq ▸ hd)

theorem body_of_text (hzero : 0 ∉ line) (hline : newline ∉ line) :
    body line = line.dropWhile isBlank := by
  rw [body, cString, takeWhile_ne_self hzero, takeWhile_ne_self]
  exact fun hmem ↦ hline ((dropWhile_suffix isBlank).subset hmem)

variable {a : Statement}

/-- A line that states a rule and fits the buffer becomes one rule. -/
theorem entriesOf_writes (h : Writes line a) (hline : newline ∉ line) :
    ∃ k, entriesOf (o, line) = [⟨(o, line), (a.withArgs (a.args.take k)).stored⟩] ∧
      (a.words.length ≤ 16 ↔ a.args.length ≤ k) := by
  obtain ⟨k, htake, hk⟩ := a.words_take
  obtain ⟨first, rest, hwords, hparse⟩ := (a.withArgs (a.args.take k)).parseRule_words
  refine ⟨k, ?_, hk⟩
  have hbody := body_of_text h.1 hline
  have hcomment : (body line).head? ≠ some 35 := by
    intro hhead
    obtain ⟨text, htext⟩ := head?_eq_some_iff.mp hhead
    obtain ⟨w, ws, hcons⟩ := exists_words_cons text (by decide : isBlank 35 = false)
    rw [← htext, hbody, words_dropWhile, h.2] at hcons
    have hfirst := congrArg (fun ws : List Text ↦ ws.head?.bind List.head?) hcons
    cases haction : a.action <;> simp [Statement.words, haction, ascii] at hfirst
  have hsource : sourceOf (o, line) = (o, line) := by
    rw [sourceOf, takeWhile_ne_self hline]
  obtain ⟨second, toks, rfl⟩ : ∃ second toks, rest = second :: toks := by
    rcases rest with - | ⟨second, toks⟩
    · have hlength := congrArg List.length hwords
      simp [Statement.words] at hlength
    · exact ⟨second, toks, rfl⟩
  rw [entriesOf, if_neg hcomment, hbody, words_dropWhile, h.2, htake, hwords]
  simp only [hsource, hparse]

/-- A piece of text that is a comment or has fewer than two words. -/
def Silent (text : Text) : Prop :=
  (body text).head? = some 35 ∨ (words isBlank (body text)).length < 2

/-- No piece of the line is taken for a rule. -/
def Quiet (line : Text) : Prop :=
  ∀ k, Silent ((line.drop (LINE_MAX * k)).take LINE_MAX)

theorem entriesOf_eq_nil_iff (piece : ℕ × Text) : entriesOf piece = [] ↔ Silent piece.2 := by
  unfold entriesOf Silent
  split_ifs with hcomment
  · simp [hcomment]
  · rcases words isBlank (body piece.2) with - | ⟨first, - | ⟨second, toks⟩⟩ <;> simp [hcomment]

theorem lineEntries_eq_nil_iff (line : ℕ × Text) : lineEntries line = [] ↔ Quiet line.2 := by
  simp only [lineEntries, flatMap_eq_nil_iff, pieces, forall_mem_map, mem_range,
    entriesOf_eq_nil_iff, Quiet]
  refine ⟨fun h k ↦ ?_, fun h k _ ↦ h k⟩
  by_cases hk : k < line.2.length / LINE_MAX + 1
  · exact h k hk
  · -- behind the end of the line
    have hend : line.2.length ≤ LINE_MAX * k := by
      have := Nat.lt_mul_div_succ line.2.length (by decide : 0 < LINE_MAX)
      have := Nat.mul_le_mul_left LINE_MAX (by omega : line.2.length / LINE_MAX + 1 ≤ k)
      omega
    rw [drop_of_length_le hend]
    exact .inr (by decide)

/-- A rule's text lies inside the line, and is the line only if that fits the buffer. -/
theorem source_of_mem_lineEntries {line : ℕ × Text} {e : Entry} (hline : newline ∉ line.2)
    (h : e ∈ lineEntries line) :
    line.1 ≤ e.source.1 ∧ e.source.1 ≤ line.1 + line.2.length ∧
      (e.source = line → line.2.length ≤ LINE_MAX) := by
  simp only [lineEntries, pieces, mem_flatMap, mem_map, mem_range] at h
  obtain ⟨_, ⟨k, hk, rfl⟩, he⟩ := h
  have hsource : e.source = (line.1 + LINE_MAX * k, (line.2.drop (LINE_MAX * k)).take LINE_MAX) := by
    unfold entriesOf at he
    split_ifs at he
    · simp at he
    · split at he
      · rw [mem_singleton.mp he, sourceOf, takeWhile_ne_self]
        exact fun hmem ↦ hline (mem_of_mem_drop (mem_of_mem_take hmem))
      · simp at he
  have hlength := Nat.div_mul_le_self line.2.length LINE_MAX
  have hle := Nat.mul_le_mul_left LINE_MAX (by omega : k ≤ line.2.length / LINE_MAX)
  rw [Nat.mul_comm] at hlength
  refine ⟨by rw [hsource]; omega, by rw [hsource]; simp only; omega, fun heq ↦ ?_⟩
  have htext := congrArg (fun src : ℕ × Text ↦ src.2.length) (hsource.symm.trans heq)
  simp only [length_take] at htext
  omega

theorem lineEntries_writes (h : Writes line a) (hline : newline ∉ line)
    (hlength : line.length ≤ LINE_MAX) :
    ∃ r, lineEntries (o, line) = [⟨(o, line), r⟩] ∧ (r = a.rule ↔ a.Fits) := by
  obtain ⟨k, hentry, hk⟩ := entriesOf_writes (o := o) h hline
  refine ⟨_, ?_, Statement.stored_eq_rule_iff hk⟩
  rcases hlength.lt_or_eq with hshort | hfull
  · simp [lineEntries, pieces_of_short hshort, hentry]
  · -- the line end of a line that fills the buffer is read by itself
    have htail : pieces LINE_MAX (o + LINE_MAX) ([] : Text) = [(o + LINE_MAX, [])] :=
      pieces_of_short (by decide)
    have hnone : entriesOf (o + LINE_MAX, []) = [] := rfl
    rw [lineEntries, pieces_of_long (by decide) hfull.ge, take_of_length_le hlength,
      drop_of_length_le hlength, htail, flatMap_cons, hentry, flatMap_cons, hnone]
    rfl

/-- With room for `n` more rules: every line that states a rule finds room and fits buffer and
fields; other lines are quiet, unless the table is full and no rule follows. -/
def Clean : ℕ → List Text → Prop
  | _, [] => True
  | n, line :: rest =>
    (∀ a, Writes line a → 0 < n ∧ line.length ≤ LINE_MAX ∧ a.Fits ∧ Clean (n - 1) rest) ∧
    ((∀ a, ¬Writes line a) →
      (Quiet line ∧ Clean n rest) ∨ (n = 0 ∧ ∀ line ∈ rest, ∀ a, ¬Writes line a))

/-- The rules that are left are those that the lines state. -/
structure RulesOfLines (lines : List (ℕ × Text)) (entries : List Entry) : Prop where
  /-- Every rule comes from a complete line, and it is the rule that the line states. -/
  sound : ∀ e ∈ entries, e.source ∈ lines ∧ ∃ a, Writes e.source.2 a ∧ e.rule = a.rule
  /-- No line that states a rule is dropped. -/
  complete : ∀ line ∈ lines, ∀ a, Writes line.2 a → ⟨line, a.rule⟩ ∈ entries

theorem RulesOfLines.tail {line : ℕ × Text} {lines : List (ℕ × Text)} (first : List Entry)
    {entries : List Entry} (hfirst : ∀ e ∈ first, ∀ l ∈ lines, e.source ≠ l) (hentries : ∀ e ∈ entries, e.source ≠ line)
    (h : RulesOfLines (line :: lines) (first ++ entries)) : RulesOfLines lines entries where
  sound e he := by
    obtain ⟨hmem, hstates⟩ := h.sound e (mem_append_right _ he)
    exact ⟨(mem_cons.mp hmem).resolve_left (hentries e he), hstates⟩
  complete l hl a ha := by
    have hmem := h.complete l (mem_cons_of_mem _ hl) a ha
    exact (mem_append.mp hmem).resolve_left fun hin ↦ hfirst _ hin l hl rfl

theorem rulesOfLines_nil_iff (lines : List (ℕ × Text)) :
    RulesOfLines lines [] ↔ ∀ line ∈ lines, ∀ a, ¬Writes line.2 a :=
  ⟨fun h line hline a ha ↦ by simpa using h.complete line hline a ha,
    fun h ↦ ⟨by simp, fun line hline a ha ↦ (h line hline a ha).elim⟩⟩

/-- One line states a rule and is stored as it is, or is quiet, or the table is full. -/
theorem rulesOfLines_cons {rest : List Text} (hline : newline ∉ line)
    (hrest : ∀ p ∈ rest, newline ∉ p) :
    let lines := withOffsets 1 (o + line.length + 1) rest
    RulesOfLines ((o, line) :: lines) ((lineEntries (o, line) ++ lines.flatMap lineEntries).take n) ↔
      (∀ a, Writes line a → 0 < n ∧ line.length ≤ LINE_MAX ∧ a.Fits ∧
        RulesOfLines lines ((lines.flatMap lineEntries).take (n - 1))) ∧
      ((∀ a, ¬Writes line a) →
        (Quiet line ∧ RulesOfLines lines ((lines.flatMap lineEntries).take n)) ∨
          (n = 0 ∧ ∀ line ∈ rest, ∀ a, ¬Writes line a)) := by
  intro lines
  have hafter : ∀ l ∈ lines, o + line.length < l.1 := fun l hl ↦ by
    have := le_of_mem_withOffsets hl
    omega
  have hkeep : ∀ e ∈ lines.flatMap lineEntries, o + line.length < e.source.1 := by
    intro e he
    obtain ⟨l, hl, hel⟩ := mem_flatMap.mp he
    have hsource := source_of_mem_lineEntries (hrest _ (mem_of_mem_withOffsets hl)) hel
    have := hafter l hl
    omega
  have hfirst : ∀ e ∈ lineEntries (o, line), ∀ l ∈ lines, e.source ≠ l := by
    intro e he l hl heq
    have hsource := source_of_mem_lineEntries hline he
    have := hafter l hl
    rw [heq] at hsource
    simp only at hsource
    omega
  have hother : ∀ k, ∀ e ∈ (lines.flatMap lineEntries).take k, e.source ≠ (o, line) := by
    intro k e he heq
    have := hkeep e (mem_of_mem_take he)
    rw [heq] at this
    simp only at this
    omega
  constructor
  · intro h
    refine ⟨fun a ha ↦ ?_, fun hnone ↦ ?_⟩
    · have hmem := h.complete _ mem_cons_self a ha
      have hpos : 0 < n := by
        by_contra hzero
        obtain rfl : n = 0 := by omega
        simp at hmem
      rcases mem_append.mp (mem_of_mem_take hmem) with hin | hin
      · have hlength := (source_of_mem_lineEntries hline hin).2.2 rfl
        obtain ⟨r, hentry, hfits⟩ := lineEntries_writes (o := o) ha hline hlength
        rw [hentry, mem_singleton] at hin
        have hr : r = a.rule := (congrArg Entry.rule hin).symm
        obtain ⟨m, rfl⟩ := Nat.exists_eq_succ_of_ne_zero hpos.ne'
        rw [hentry, singleton_append, take_succ_cons] at h
        refine ⟨hpos, hlength, hfits.mp hr, ?_⟩
        exact RulesOfLines.tail [_] (fun e he ↦ hfirst e (hentry ▸ he)) (hother _) h
      · have := hkeep _ hin
        simp only at this
        omega
    · by_cases hquiet : Quiet line
      · rw [(lineEntries_eq_nil_iff (o, line)).mpr hquiet, nil_append] at h
        exact .inl ⟨hquiet, RulesOfLines.tail [] (by simp) (hother _) h⟩
      · rcases n.eq_zero_or_pos with rfl | hpos
        · rw [take_zero, rulesOfLines_nil_iff] at h
          refine .inr ⟨rfl, fun text htext ↦ ?_⟩
          obtain ⟨k, hk⟩ := exists_mem_withOffsets 1 (o + line.length + 1) htext
          exact h _ (mem_cons_of_mem _ hk)
        · -- the first rule that the line becomes is not the rule of a line
          obtain ⟨e, es, hentries⟩ := exists_cons_of_ne_nil
            fun hnil ↦ hquiet ((lineEntries_eq_nil_iff (o, line)).mp hnil)
          have hin : e ∈ lineEntries (o, line) := hentries ▸ mem_cons_self
          obtain ⟨m, rfl⟩ := Nat.exists_eq_succ_of_ne_zero hpos.ne'
          rw [hentries, cons_append, take_succ_cons] at h
          obtain ⟨hmem, a, ha, _⟩ := h.sound e mem_cons_self
          rcases mem_cons.mp hmem with heq | hmem
          · rw [heq] at ha
            exact (hnone a ha).elim
          · exact (hfirst e hin _ hmem rfl).elim
  · rintro ⟨hstates, hnone⟩
    by_cases hwrites : ∃ a, Writes line a
    · obtain ⟨a, ha⟩ := hwrites
      obtain ⟨hpos, hlength, hfits, hlines⟩ := hstates a ha
      obtain ⟨r, hentry, hr⟩ := lineEntries_writes (o := o) ha hline hlength
      obtain ⟨m, rfl⟩ := Nat.exists_eq_succ_of_ne_zero hpos.ne'
      rw [hentry, singleton_append, take_succ_cons]
      refine ⟨fun e he ↦ ?_, fun l hl a' ha' ↦ ?_⟩
      · rcases mem_cons.mp he with rfl | he
        · exact ⟨mem_cons_self, a, ha, hr.mpr hfits⟩
        · obtain ⟨hmem, hrule⟩ := hlines.sound e he
          exact ⟨mem_cons_of_mem _ hmem, hrule⟩
      · rcases mem_cons.mp hl with rfl | hl
        · obtain ⟨r', hentry', hr'⟩ := lineEntries_writes (o := o) ha' hline hlength
          rw [hentry, singleton_inj, Entry.mk.injEq] at hentry'
          rw [← hr'.mpr (hstates a' ha').2.2.1, ← hentry'.2]
          exact mem_cons_self
        · exact mem_cons_of_mem _ (hlines.complete l hl a' ha')
    · have hnot : ∀ a, ¬Writes line a := fun a ha ↦ hwrites ⟨a, ha⟩
      rcases hnone hnot with ⟨hquiet, hlines⟩ | ⟨rfl, hlines⟩
      · rw [(lineEntries_eq_nil_iff (o, line)).mpr hquiet, nil_append]
        refine ⟨fun e he ↦ ?_, fun l hl a ha ↦ ?_⟩
        · obtain ⟨hmem, hrule⟩ := hlines.sound e he
          exact ⟨mem_cons_of_mem _ hmem, hrule⟩
        · rcases mem_cons.mp hl with rfl | hl
          · exact (hnot a ha).elim
          · exact hlines.complete l hl a ha
      · rw [take_zero, rulesOfLines_nil_iff]
        intro l hl
        rcases mem_cons.mp hl with rfl | hl
        · exact hnot
        · exact hlines _ (mem_of_mem_withOffsets hl)

theorem rulesOfLines_iff_clean {parts : List Text} (hparts : ∀ p ∈ parts, newline ∉ p) :
    RulesOfLines (withOffsets 1 o parts) (((withOffsets 1 o parts).flatMap lineEntries).take n) ↔
      Clean n parts := by
  induction parts generalizing n o with
  | nil => simp [withOffsets, Clean, rulesOfLines_nil_iff]
  | cons line rest ih =>
    obtain ⟨hline, hrest⟩ := forall_mem_cons.mp hparts
    have hcons := rulesOfLines_cons (n := n) (o := o) hline hrest
    simp only [ih hrest] at hcons
    exact hcons

/-- An unknown first word permits: the line is no rule of the grammar, yet it becomes one and is
not counted as an error. -/
theorem unknown_action_permits :
    let conf := parseConf (some (ascii "allow root\n"))
    conf.parseErrors = 0 ∧ ∃ e ∈ conf.entries,
      e.rule.action = .permit ∧ e.rule.ident = ascii "root" ∧ ∀ a, ¬Writes e.source.2 a := by
  refine ⟨by decide +kernel, ⟨(0, ascii "allow root"), (parseRule (ascii "allow") [ascii "root"]).2⟩,
    by decide +kernel, by decide +kernel, by decide +kernel, fun a ha ↦ ?_⟩
  have hfirst := congrArg List.head? ha.2
  have hwords : (words isBlank (ascii "allow root")).head? = some (ascii "allow") := by
    decide +kernel
  rw [hwords] at hfirst
  cases haction : a.action <;> simp [Statement.words, haction, ascii] at hfirst

/-- The rules of `g_rules` are those that the lines of the file state, each from one complete line
and none missing, exactly for the files that are clean. -/
theorem rules_of_lines_iff (content : Text) :
    RulesOfLines (linesOf 0 content) (parseConf (some content)).entries ↔
      Clean MAX_RULES (content.splitOn newline) := by
  rw [entries_parseConf]
  exact rulesOfLines_iff_clean fun p hp ↦ notMem_of_mem_splitOn hp

end ToastyUnix.Doas
