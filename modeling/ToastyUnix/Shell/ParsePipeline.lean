import ToastyUnix.Shell.Tokenize
import ToastyUnix.Shell.Pipeline

/-!
# The segments of a command line

`parse_pipeline` of `kernel/shell/commands.c` turns the tokens of a line into the segments of a
pipeline in one pass. It takes whatever token follows a redirection operator for the name of a file,
so that it also accepts a line like `a > > b`, and is right about all others
(`parsePipeline_exact_iff`).
-/

namespace ToastyUnix.Shell

open List

def MAX_ARGS : ℕ := 16

def MAX_PIPE_SEGS : ℕ := 8

abbrev Token := List UInt8

/-- The descriptor and the mode of a redirection operator. -/
def redirTarget (s : Token) : Option (Fin 3 × RMode) :=
  if s = [62] then some (1, .trunc)
  else if s = [62, 62] then some (1, .append)
  else if s = [60] then some (0, .input)
  else if s = [50, 62] then some (2, .trunc)
  else if s = [50, 62, 62] then some (2, .append)
  else none

/-- A segment after the `memset`. -/
def Seg.zero : Seg := ⟨[], fun _ ↦ none, none⟩

def Seg.setRedir (seg : Seg) (target : Fin 3) (mode : RMode) (file : Token) : Seg :=
  { seg with redir := Function.update seg.redir target (some (mode, file)) }

def Seg.addArg (seg : Seg) (arg : Token) : Seg := { seg with argv := seg.argv ++ [arg] }

/-- The loop of `parse_pipeline`, with the segments in front of `cur`. -/
def parseLoop : List Token → List Seg → Seg → Option (List Seg)
  | [], segs, cur => if cur.argv.length = 0 then none else some (segs ++ [cur])
  | s :: tok, segs, cur =>
    if s = [124] then
      if cur.argv.length = 0 then none
      else if MAX_PIPE_SEGS ≤ segs.length + 1 then none
      else parseLoop tok (segs ++ [cur]) .zero
    else
      match redirTarget s with
      | some (target, mode) =>
        match tok with
        | [] => none
        | file :: tok => parseLoop tok segs (cur.setRedir target mode file)
      | none => if MAX_ARGS ≤ cur.argv.length then none else parseLoop tok segs (cur.addArg s)

/-- `parse_pipeline`, with the segments that it fills; `none` for `-1`. -/
def parsePipeline (tok : List Token) : Option (List Seg) := parseLoop tok [] .zero

/-! ## The grammar -/

/-- The redirection operators `<`, `>`, `>>`, `2>` and `2>>`. -/
inductive Redirector
  | input
  | output
  | appendOutput
  | error
  | appendError
deriving DecidableEq

namespace Redirector

def token : Redirector → Token
  | input => [60]
  | output => [62]
  | appendOutput => [62, 62]
  | error => [50, 62]
  | appendError => [50, 62, 62]

def target : Redirector → Fin 3
  | input => 0
  | output => 1
  | appendOutput => 1
  | error => 2
  | appendError => 2

def mode : Redirector → RMode
  | input => .input
  | output => .trunc
  | appendOutput => .append
  | error => .trunc
  | appendError => .append

end Redirector

/-- What a command consists of. -/
inductive Item
  | word (text : Token)
  | redirection (op : Redirector) (file : Token)
deriving DecidableEq

namespace Item

def tokens : Item → List Token
  | word text => [text]
  | redirection op file => [op.token, file]

def word? : Item → Option Token
  | word text => some text
  | redirection .. => none

/-- The file for a descriptor. -/
def redir? (fd : Fin 3) : Item → Option (RMode × Token)
  | word _ => none
  | redirection op file => if op.target = fd then some (op.mode, file) else none

/-- Words are not operators, and files are as `file` asks for. -/
def Ok (file : Token → Prop) : Item → Prop
  | word text => text ∉ operators
  | redirection _ name => file name

end Item

abbrev Command := List Item

namespace Command

def words (c : Command) : List Token := c.filterMap Item.word?

/-- A command's segment: its words, and the last redirection for each descriptor. -/
def seg (c : Command) : Seg :=
  ⟨c.words, fun fd ↦ (c.filterMap (Item.redir? fd)).getLast?, none⟩

/-- At least one word, and not more than fit into `argv`. -/
def Fits (c : Command) : Prop := 0 < c.words.length ∧ c.words.length ≤ 16

end Command

/-- The tokens of commands, separated by `|`. -/
def pipelineTokens (cs : List Command) : List Token :=
  List.intercalate [[124]] (cs.map fun c ↦ c.flatMap Item.tokens)

/-- The tokens are those of one to eight commands. -/
structure IsPipeline (file : Token → Prop) (cs : List Command) (tok : List Token) : Prop where
  nonempty : 0 < cs.length
  atMost : cs.length ≤ 8
  items : ∀ c ∈ cs, ∀ item ∈ c, item.Ok file
  fits : ∀ c ∈ cs, c.Fits
  tokens : tok = pipelineTokens cs

/-! ## Reading tokens one by one -/

theorem Redirector.token_mem (op : Redirector) : op.token ∈ operators := by
  cases op <;> decide

theorem Redirector.token_ne_pipe (op : Redirector) : op.token ≠ [124] := by
  cases op <;> decide

theorem Redirector.token_injective : Function.Injective Redirector.token := by
  intro op op' h
  cases op <;> cases op' <;> first | rfl | cases h

variable {s : Token} {tok : List Token} {cs : List Command}

theorem mem_operators_iff : s ∈ operators ↔ s = [124] ∨ ∃ op : Redirector, s = op.token := by
  constructor
  · intro h
    simp only [operators, mem_cons, not_mem_nil, or_false] at h
    rcases h with h | h | h | h | h | h
    · exact .inl h
    · exact .inr ⟨.input, h⟩
    · exact .inr ⟨.output, h⟩
    · exact .inr ⟨.appendOutput, h⟩
    · exact .inr ⟨.error, h⟩
    · exact .inr ⟨.appendError, h⟩
  · rintro (rfl | ⟨op, rfl⟩)
    · decide
    · exact op.token_mem

theorem redirTarget_token (op : Redirector) : redirTarget op.token = some (op.target, op.mode) := by
  cases op <;> rfl

theorem redirTarget_eq_none (hs : s ∉ operators) : redirTarget s = none := by
  simp only [operators, mem_cons, not_mem_nil, or_false, not_or] at hs
  obtain ⟨-, hin, hout, happend, herror, herrors⟩ := hs
  rw [redirTarget, if_neg hout, if_neg happend, if_neg hin, if_neg herror, if_neg herrors]

/-- A reading of tokens: the first command's items, and the commands behind it. -/
inductive Reads (file : Token → Prop) : List Token → Command → List Command → Prop
  | done : Reads file [] [] []
  | pipe {tok : List Token} {c : Command} {cs : List Command} :
      Reads file tok c cs → Reads file ([124] :: tok) [] (c :: cs)
  | redirection {op : Redirector} {name : Token} {tok : List Token} {c : Command}
      {cs : List Command} : file name → Reads file tok c cs →
      Reads file (op.token :: name :: tok) (.redirection op name :: c) cs
  | word {text : Token} {tok : List Token} {c : Command} {cs : List Command} :
      text ∉ operators → Reads file tok c cs → Reads file (text :: tok) (.word text :: c) cs

section Reads

variable {file : Token → Prop} {tok : List Token} {c : Command} {cs : List Command}

theorem pipelineTokens_singleton (c : Command) : pipelineTokens [c] = c.flatMap Item.tokens := by
  simp [pipelineTokens]

theorem pipelineTokens_cons_cons (c d : Command) (cs : List Command) :
    pipelineTokens (c :: d :: cs) = c.flatMap Item.tokens ++ [124] :: pipelineTokens (d :: cs) := by
  simp [pipelineTokens, List.intercalate]

theorem pipelineTokens_item (item : Item) (c : Command) (cs : List Command) :
    pipelineTokens ((item :: c) :: cs) = item.tokens ++ pipelineTokens (c :: cs) := by
  cases cs with
  | nil => rw [pipelineTokens_singleton, pipelineTokens_singleton, flatMap_cons]
  | cons d cs =>
    rw [pipelineTokens_cons_cons, pipelineTokens_cons_cons, flatMap_cons, append_assoc]

theorem reads_iff :
    Reads file tok c cs ↔ (∀ d ∈ c :: cs, ∀ item ∈ d, item.Ok file) ∧
      tok = pipelineTokens (c :: cs) := by
  constructor
  · intro h
    induction h with
    | done => simp [pipelineTokens_singleton]
    | pipe _ ih =>
      obtain ⟨hok, rfl⟩ := ih
      refine ⟨?_, by rw [pipelineTokens_cons_cons]; rfl⟩
      intro d hd item hitem
      rcases mem_cons.mp hd with rfl | hd
      · cases hitem
      · exact hok d hd item hitem
    | redirection hname _ ih =>
      obtain ⟨hok, rfl⟩ := ih
      refine ⟨?_, by rw [pipelineTokens_item]; rfl⟩
      simp only [forall_mem_cons] at hok ⊢
      exact ⟨⟨hname, hok.1⟩, hok.2⟩
    | word htext _ ih =>
      obtain ⟨hok, rfl⟩ := ih
      refine ⟨?_, by rw [pipelineTokens_item]; rfl⟩
      simp only [forall_mem_cons] at hok ⊢
      exact ⟨⟨htext, hok.1⟩, hok.2⟩
  · rintro ⟨hok, rfl⟩
    induction cs generalizing c with
    | nil =>
      simp only [forall_mem_cons] at hok
      have hitems := hok.1
      clear hok
      induction c with
      | nil => exact .done
      | cons item c ih =>
        simp only [forall_mem_cons] at hitems
        rw [pipelineTokens_item]
        cases item with
        | word text => exact .word hitems.1 (ih hitems.2)
        | redirection op name => exact .redirection hitems.1 (ih hitems.2)
    | cons d cs ihcs =>
      rw [forall_mem_cons] at hok
      have hitems := hok.1
      have hnext := ihcs hok.2
      clear hok
      induction c with
      | nil =>
        rw [pipelineTokens_cons_cons]
        exact .pipe hnext
      | cons item c ih =>
        simp only [forall_mem_cons] at hitems
        rw [pipelineTokens_item]
        cases item with
        | word text => exact .word hitems.1 (ih hitems.2)
        | redirection op name => exact .redirection hitems.1 (ih hitems.2)

theorem reads_nil_iff : Reads file [] c cs ↔ c = [] ∧ cs = [] := by
  constructor
  · rintro ⟨⟩
    exact ⟨rfl, rfl⟩
  · rintro ⟨rfl, rfl⟩
    exact .done

theorem reads_pipe_iff :
    Reads file ([124] :: tok) c cs ↔ c = [] ∧ ∃ d ds, cs = d :: ds ∧ Reads file tok d ds := by
  constructor
  · intro h
    generalize htok : ([124] : Token) :: tok = all at h
    cases h with
    | done => cases htok
    | pipe h =>
      cases htok
      exact ⟨rfl, _, _, rfl, h⟩
    | @redirection op =>
      injection htok with hhead
      exact absurd hhead.symm op.token_ne_pipe
    | word htext =>
      injection htok with hhead
      exact absurd (hhead ▸ by decide) htext
  · rintro ⟨rfl, d, ds, rfl, h⟩
    exact .pipe h

theorem reads_redirection_iff {op : Redirector} :
    Reads file (op.token :: tok) c cs ↔ ∃ name tok' c', tok = name :: tok' ∧
      c = .redirection op name :: c' ∧ file name ∧ Reads file tok' c' cs := by
  constructor
  · intro h
    generalize htok : op.token :: tok = all at h
    cases h with
    | done => cases htok
    | pipe =>
      injection htok with hhead
      exact absurd hhead op.token_ne_pipe
    | @redirection op' name tok' c' _ hname h =>
      injection htok with hhead hrest
      obtain rfl := Redirector.token_injective hhead
      exact ⟨name, tok', c', hrest, rfl, hname, h⟩
    | word htext =>
      injection htok with hhead
      exact absurd (hhead ▸ op.token_mem) htext
  · rintro ⟨name, tok', c', rfl, rfl, hname, h⟩
    exact .redirection hname h

theorem reads_word_iff {text : Token} (htext : text ∉ operators) :
    Reads file (text :: tok) c cs ↔ ∃ c', c = .word text :: c' ∧ Reads file tok c' cs := by
  constructor
  · intro h
    cases h with
    | pipe => exact absurd (by decide) htext
    | @redirection op => exact absurd op.token_mem htext
    | word _ h => exact ⟨_, rfl, h⟩
  · rintro ⟨c', rfl, h⟩
    exact .word htext h

end Reads

/-! ## What the loop accepts -/

namespace Seg

def addItem (seg : Seg) : Item → Seg
  | .word text => seg.addArg text
  | .redirection op file => seg.setRedir op.target op.mode file

/-- The segment after the items of a command. -/
def addItems (seg : Seg) (c : Command) : Seg := c.foldl addItem seg

theorem addItems_eq (seg : Seg) (c : Command) :
    seg.addItems c = ⟨seg.argv ++ c.words,
      fun fd ↦ ((c.filterMap (Item.redir? fd)).getLast?).or (seg.redir fd), seg.builtin⟩ := by
  induction c generalizing seg with
  | nil => simp [addItems, Command.words]
  | cons item c ih =>
    have hstep : seg.addItems (item :: c) = (seg.addItem item).addItems c := rfl
    rw [hstep, ih]
    cases item with
    | word text =>
      have hredir (fd : Fin 3) : Item.redir? fd (.word text) = none := rfl
      simp [addItem, addArg, Command.words, Item.word?, hredir]
    | redirection op file =>
      refine Seg.mk.injEq .. ▸ ⟨?_, ?_, rfl⟩
      · have hword : Item.word? (.redirection op file) = none := rfl
        simp [addItem, setRedir, Command.words, hword]
      · funext fd
        by_cases hfd : op.target = fd
        · subst hfd
          simp only [addItem, setRedir, Function.update_self, filterMap_cons, Item.redir?,
            if_true, getLast?_cons]
          cases (c.filterMap (Item.redir? op.target)).getLast? <;> rfl
        · simp [addItem, setRedir, Function.update_of_ne (Ne.symm hfd), Item.redir?, hfd]

theorem zero_addItems (c : Command) : zero.addItems c = c.seg := by
  rw [addItems_eq, Command.seg]
  simp [zero]

end Seg

section Steps

variable (tok : List Token) (segs : List Seg) (cur : Seg)

theorem parseLoop_pipe :
    parseLoop ([124] :: tok) segs cur =
      if cur.argv.length = 0 then none
      else if MAX_PIPE_SEGS ≤ segs.length + 1 then none
      else parseLoop tok (segs ++ [cur]) .zero := by
  rw [parseLoop.eq_def]
  rfl

theorem parseLoop_redirection_nil (op : Redirector) : parseLoop [op.token] segs cur = none := by
  rw [parseLoop.eq_def]
  simp only [if_neg op.token_ne_pipe, redirTarget_token]

theorem parseLoop_redirection (op : Redirector) (name : Token) :
    parseLoop (op.token :: name :: tok) segs cur =
      parseLoop tok segs (cur.addItem (.redirection op name)) := by
  rw [parseLoop.eq_def]
  simp only [if_neg op.token_ne_pipe, redirTarget_token]
  rfl

theorem parseLoop_word {text : Token} (htext : text ∉ operators) :
    parseLoop (text :: tok) segs cur =
      if MAX_ARGS ≤ cur.argv.length then none
      else parseLoop tok segs (cur.addItem (.word text)) := by
  have hpipe : text ≠ [124] := fun h ↦ htext (h ▸ by decide)
  rw [parseLoop.eq_def]
  simp only [if_neg hpipe, redirTarget_eq_none htext]
  rfl

end Steps

/-- The segments are those of a reading in which any token serves as a file; `segs` and `cur` hold
what was read before. -/
def Accepts (tok : List Token) (segs : List Seg) (cur : Seg) (result : List Seg) : Prop :=
  ∃ c cs, Reads (fun _ ↦ True) tok c cs ∧ 0 < (cur.addItems c).argv.length ∧
    (cur.addItems c).argv.length ≤ MAX_ARGS ∧ segs.length + 1 + cs.length ≤ MAX_PIPE_SEGS ∧
    (∀ d ∈ cs, d.Fits) ∧ result = segs ++ cur.addItems c :: cs.map Command.seg

section Accepts

variable {tok : List Token} {segs : List Seg} {cur : Seg} {result : List Seg}

theorem Accepts.argv_le (h : Accepts tok segs cur result) : cur.argv.length ≤ MAX_ARGS := by
  obtain ⟨c, cs, -, -, hle, -⟩ := h
  rw [Seg.addItems_eq, length_append] at hle
  omega

theorem Accepts.room (h : Accepts tok segs cur result) : segs.length < MAX_PIPE_SEGS := by
  obtain ⟨c, cs, -, -, -, hlen, -⟩ := h
  omega

theorem accepts_nil_iff (hsegs : segs.length < MAX_PIPE_SEGS) (hcur : cur.argv.length ≤ MAX_ARGS) :
    Accepts [] segs cur result ↔ cur.argv.length ≠ 0 ∧ segs ++ [cur] = result := by
  constructor
  · rintro ⟨c, cs, hreads, hpos, -, -, -, rfl⟩
    obtain ⟨rfl, rfl⟩ := reads_nil_iff.mp hreads
    exact ⟨hpos.ne', rfl⟩
  · rintro ⟨hargs, rfl⟩
    exact ⟨[], [], .done, Nat.pos_of_ne_zero hargs, hcur, hsegs, by simp, rfl⟩

theorem accepts_pipe_iff (hcur : cur.argv.length ≤ MAX_ARGS) :
    Accepts ([124] :: tok) segs cur result ↔
      cur.argv.length ≠ 0 ∧ Accepts tok (segs ++ [cur]) .zero result := by
  have hlength : (segs ++ [cur]).length = segs.length + 1 := by simp
  constructor
  · rintro ⟨c, cs, hreads, hpos, -, hlen, hfits, rfl⟩
    obtain ⟨rfl, d, ds, rfl, hnext⟩ := reads_pipe_iff.mp hreads
    obtain ⟨hfit, hfits⟩ := forall_mem_cons.mp hfits
    rw [length_cons] at hlen
    refine ⟨hpos.ne', d, ds, hnext, ?_, ?_, by omega, hfits, ?_⟩
    · rw [Seg.zero_addItems]
      exact hfit.1
    · rw [Seg.zero_addItems]
      exact hfit.2
    · rw [Seg.zero_addItems, append_assoc]
      rfl
  · rintro ⟨hargs, c, cs, hreads, hpos, hle, hlen, hfits, rfl⟩
    rw [Seg.zero_addItems] at hpos hle ⊢
    refine ⟨[], c :: cs, .pipe hreads, Nat.pos_of_ne_zero hargs, hcur, ?_, ?_, ?_⟩
    · rw [length_cons]
      omega
    · exact forall_mem_cons.mpr ⟨⟨hpos, hle⟩, hfits⟩
    · rw [append_assoc]
      rfl

theorem not_accepts_redirection_nil (op : Redirector) : ¬Accepts [op.token] segs cur result := by
  rintro ⟨c, cs, hreads, -⟩
  obtain ⟨name, tok', c', hnil, -⟩ := reads_redirection_iff.mp hreads
  cases hnil

theorem accepts_redirection_iff (op : Redirector) (name : Token) :
    Accepts (op.token :: name :: tok) segs cur result ↔
      Accepts tok segs (cur.addItem (.redirection op name)) result := by
  constructor
  · rintro ⟨c, cs, hreads, hrest⟩
    obtain ⟨name', tok', c', htok, rfl, -, hnext⟩ := reads_redirection_iff.mp hreads
    cases htok
    exact ⟨c', cs, hnext, hrest⟩
  · rintro ⟨c, cs, hreads, hrest⟩
    exact ⟨.redirection op name :: c, cs, .redirection trivial hreads, hrest⟩

theorem accepts_word_iff {text : Token} (htext : text ∉ operators) :
    Accepts (text :: tok) segs cur result ↔ Accepts tok segs (cur.addItem (.word text)) result := by
  constructor
  · rintro ⟨c, cs, hreads, hrest⟩
    obtain ⟨c', rfl, hnext⟩ := (reads_word_iff htext).mp hreads
    exact ⟨c', cs, hnext, hrest⟩
  · rintro ⟨c, cs, hreads, hrest⟩
    exact ⟨.word text :: c, cs, .word htext hreads, hrest⟩

end Accepts

/-- The loop returns the segments of readings in which any token serves as a file. -/
theorem parseLoop_eq_some_iff (tok : List Token) (segs : List Seg) (cur : Seg)
    (result : List Seg) (hsegs : segs.length < MAX_PIPE_SEGS) (hcur : cur.argv.length ≤ MAX_ARGS) :
    parseLoop tok segs cur = some result ↔ Accepts tok segs cur result := by
  induction hn : tok.length using Nat.strong_induction_on generalizing tok segs cur with
  | _ n ih =>
    subst hn
    cases tok with
    | nil =>
      rw [accepts_nil_iff hsegs hcur, parseLoop]
      split_ifs with hargs
      · simp [hargs]
      · simp [hargs]
    | cons s tok =>
      by_cases hpipe : s = [124]
      · subst hpipe
        rw [accepts_pipe_iff hcur, parseLoop_pipe]
        split_ifs with hargs hfull
        · simp [hargs]
        · refine iff_of_false (fun h ↦ by cases h) fun h ↦ ?_
          have hroom := h.2.room
          rw [length_append, length_singleton] at hroom
          omega
        · have hroom : (segs ++ [cur]).length < MAX_PIPE_SEGS := by
            rw [length_append, length_singleton]
            omega
          rw [ih tok.length (Nat.lt_succ_self _) tok _ _ hroom (Nat.zero_le _) rfl,
            and_iff_right hargs]
      by_cases hop : ∃ op : Redirector, s = op.token
      · obtain ⟨op, rfl⟩ := hop
        cases tok with
        | nil =>
          rw [parseLoop_redirection_nil]
          exact iff_of_false (fun h ↦ by cases h) (not_accepts_redirection_nil op)
        | cons name tok =>
          have hlt : tok.length < (op.token :: name :: tok).length := by
            simp only [length_cons]
            omega
          rw [parseLoop_redirection, accepts_redirection_iff]
          exact ih tok.length hlt tok segs _ hsegs hcur rfl
      · have hword : s ∉ operators := fun h ↦ (mem_operators_iff.mp h).elim hpipe hop
        have hlength : (cur.addItem (.word s)).argv.length = cur.argv.length + 1 := by
          rw [Seg.addItem, Seg.addArg, length_append, length_singleton]
        rw [parseLoop_word _ _ _ hword, accepts_word_iff hword]
        split_ifs with hfull
        · refine iff_of_false (fun h ↦ by cases h) fun h ↦ ?_
          have hle := h.argv_le
          omega
        · exact ih tok.length (Nat.lt_succ_self _) tok segs _ hsegs (by omega) rfl

/-- `parse_pipeline` returns the segments of a pipeline with any tokens for files. -/
theorem parsePipeline_eq_some_iff (tok : List Token) (result : List Seg) :
    parsePipeline tok = some result ↔
      ∃ cs, IsPipeline (fun _ ↦ True) cs tok ∧ result = cs.map Command.seg := by
  rw [parsePipeline, parseLoop_eq_some_iff _ _ _ _ (by decide) (by decide)]
  constructor
  · rintro ⟨c, cs, hreads, hpos, hle, hlen, hfits, rfl⟩
    rw [Seg.zero_addItems] at hpos hle ⊢
    obtain ⟨hok, htok⟩ := reads_iff.mp hreads
    have hlen' : cs.length + 1 ≤ 8 := by
      have hmax : MAX_PIPE_SEGS = 8 := rfl
      rw [length_nil] at hlen
      omega
    exact ⟨c :: cs, ⟨Nat.succ_pos _, hlen', hok, forall_mem_cons.mpr ⟨⟨hpos, hle⟩, hfits⟩,
      htok⟩, rfl⟩
  · rintro ⟨cs, hcs, rfl⟩
    cases cs with
    | nil => exact absurd hcs.nonempty (lt_irrefl 0)
    | cons c cs =>
      obtain ⟨hfit, hfits⟩ := forall_mem_cons.mp hcs.fits
      have hlen := hcs.atMost
      rw [length_cons] at hlen
      refine ⟨c, cs, reads_iff.mpr ⟨hcs.items, hcs.tokens⟩, ?_, ?_, ?_, hfits, ?_⟩
      · rw [Seg.zero_addItems]
        exact hfit.1
      · rw [Seg.zero_addItems]
        exact hfit.2
      · rw [length_nil, MAX_PIPE_SEGS]
        omega
      · rw [Seg.zero_addItems]
        rfl

/-! ## Operators as files -/

/-- No redirection operator stands directly in front of an operator. -/
def Clean (tok : List Token) : Prop :=
  tok.IsChain fun s next ↦ (∃ op : Redirector, s = op.token) → next ∉ operators

theorem clean_cons_iff (hs : ¬∃ op : Redirector, s = op.token) : Clean (s :: tok) ↔ Clean tok := by
  rw [Clean, isChain_cons]
  exact and_iff_right fun _ _ h ↦ absurd h hs

theorem not_redirector (hs : s ∉ operators) : ¬∃ op : Redirector, s = op.token :=
  fun h ↦ hs (mem_operators_iff.mpr (.inr h))

/-- A reading has an operator for a file exactly when two operators are neighbours. -/
theorem Reads.clean_iff {c : Command} (h : Reads (fun _ ↦ True) tok c cs) :
    Clean tok ↔ Reads (· ∉ operators) tok c cs := by
  induction h with
  | done => exact iff_of_true .nil .done
  | @pipe tok c cs _ ih =>
    have hpipe : ¬∃ op : Redirector, [124] = op.token := fun ⟨op, h⟩ ↦ op.token_ne_pipe h.symm
    rw [clean_cons_iff hpipe, ih, reads_pipe_iff]
    simp
  | @redirection op name tok c cs _ _ ih =>
    rw [reads_redirection_iff]
    constructor
    · intro h
      rw [Clean, isChain_cons_cons] at h
      have hname : name ∉ operators := h.1 ⟨op, rfl⟩
      have htok : Clean tok := (clean_cons_iff (not_redirector hname)).mp h.2
      exact ⟨name, tok, c, rfl, rfl, hname, ih.mp htok⟩
    · rintro ⟨name', tok', c', htok, hitem, hname, hreads⟩
      cases htok
      cases hitem
      rw [Clean, isChain_cons_cons]
      exact ⟨fun _ ↦ hname, (clean_cons_iff (not_redirector hname)).mpr (ih.mpr hreads)⟩
  | word htext _ ih =>
    rw [clean_cons_iff (not_redirector htext), ih, reads_word_iff htext]
    simp

theorem IsPipeline.loose {file : Token → Prop} (h : IsPipeline file cs tok) :
    IsPipeline (fun _ ↦ True) cs tok := by
  refine ⟨h.nonempty, h.atMost, fun c hc item hitem ↦ ?_, h.fits, h.tokens⟩
  have hok := h.items c hc item hitem
  cases item with
  | word => exact hok
  | redirection => trivial

theorem IsPipeline.clean_iff (h : IsPipeline (fun _ ↦ True) cs tok) :
    Clean tok ↔ IsPipeline (· ∉ operators) cs tok := by
  cases cs with
  | nil => exact absurd h.nonempty (lt_irrefl 0)
  | cons c cs =>
    rw [(reads_iff.mpr ⟨h.items, h.tokens⟩).clean_iff, reads_iff]
    constructor
    · exact fun hreads ↦ ⟨h.nonempty, h.atMost, hreads.1, h.fits, h.tokens⟩
    · exact fun hstrict ↦ ⟨hstrict.items, hstrict.tokens⟩

/-- `parse_pipeline` is right about the tokens exactly when no operator stands for the file of a
redirection, or when they are no pipeline even with operators for files. -/
theorem parsePipeline_exact_iff (tok : List Token) :
    (∀ result, parsePipeline tok = some result ↔
        ∃ cs, IsPipeline (· ∉ operators) cs tok ∧ result = cs.map Command.seg) ↔
      Clean tok ∨ ¬∃ cs, IsPipeline (fun _ ↦ True) cs tok := by
  simp only [parsePipeline_eq_some_iff]
  constructor
  · intro hclaim
    by_contra hcond
    rw [not_or, not_not] at hcond
    obtain ⟨hnot, cs, hcs⟩ := hcond
    obtain ⟨cs', hstrict, -⟩ := (hclaim _).mp ⟨cs, hcs, rfl⟩
    exact hnot (hstrict.loose.clean_iff.mpr hstrict)
  · rintro (hclean | hnone) result
    · refine exists_congr fun cs ↦ and_congr_left fun _ ↦ ?_
      exact ⟨fun h ↦ h.clean_iff.mp hclean, IsPipeline.loose⟩
    · exact iff_of_false (fun ⟨cs, hcs, _⟩ ↦ hnone ⟨cs, hcs⟩)
        fun ⟨cs, hcs, _⟩ ↦ hnone ⟨cs, hcs.loose⟩

/-- The line `a > > b` is taken for a command that writes into the file `>`. -/
theorem operator_taken_for_file :
    tokenStrings [97, 32, 62, 32, 62, 32, 98] MAX_TOKENS = some [[97], [62], [62], [98]] ∧
      (parsePipeline [[97], [62], [62], [98]]).isSome ∧
      ¬∃ cs, IsPipeline (· ∉ operators) cs [[97], [62], [62], [98]] := by
  refine ⟨by decide, by decide, ?_⟩
  rintro ⟨cs, hcs⟩
  have hclean := hcs.loose.clean_iff.mpr hcs
  rw [Clean, isChain_cons_cons, isChain_cons_cons] at hclean
  exact hclean.2.1 ⟨.output, rfl⟩ (by decide)

end ToastyUnix.Shell
