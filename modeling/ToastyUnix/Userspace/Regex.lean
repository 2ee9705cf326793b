import ToastyUnix.Lib.Ctype

/-!
# The regular expression engines of grep and sed

`userspace/grep.c` and `userspace/sed.c` carry two copies of one backtracking engine. `m_seq` splits
off the alternatives, then an atom with its quantifier, and matches the rest in a continuation that
is called for every way to repeat the atom. The functions whose text is the same in both files are
written once, over a record `Engine` of those that have drifted apart: `re_atom_len`,
`re_atom_char`, `re_group_end`, the end of a group and the test at the end of `q_cont`.

A string is the list of its bytes up to the terminator, and a pointer into it is the rest of the
list; reading at its end gives the terminator `0`. A continuation returns whether its C function
returns a value other than zero, and the new value of the flags in its context.
-/

namespace ToastyUnix.Regex

abbrev Str := List UInt8

/-- `p[i]`. -/
def peek (p : Str) (i : ℕ) : UInt8 := p.getD i 0

/-- `tolower`. -/
def tolower (c : UInt8) : UInt8 := if 65 ≤ c ∧ c ≤ 90 then c + 32 else c

/-- `mchar`. -/
def mchar (icase : Bool) (c : UInt8) : UInt8 := if icase then tolower c else c

/-- A continuation `int (*)(void *ctx, const char *s)`. -/
abbrev Cb (σ : Type) := σ → Str → Bool × σ

/-- The functions in which the two engines differ. -/
structure Engine where
  /-- `re_atom_len`. -/
  atomLen : Bool → Str → ℕ
  /-- `re_atom_char`. -/
  atomChar : Bool → Bool → Str → UInt8 → Bool
  /-- `re_group_end`, as an offset. -/
  groupEnd : Bool → Str → Option ℕ
  /-- `gparen`, as an offset. -/
  groupParen : Bool → Str → ℕ → ℕ
  /-- The test of `q_cont` on the value that `final_cb` returned. -/
  tailFound : Bool → Bool

/-- The escape `\c` of a basic expression, as an atom. -/
def escapeChar (icase : Bool) (e c : UInt8) : Bool :=
  if e = 110 then c = 10
  else if e = 116 then c = 9
  else if e = 114 then c = 13
  else if e = 48 then c = 0
  else mchar icase c = mchar icase e

/-- `re_group_end` from the depth at which the source starts to count. -/
def groupEndLoop (ere : Bool) : ℕ → ℤ → ℕ → Str → Option ℕ
  | 0, _, _, _ => none
  | fuel + 1, depth, offset, p =>
    if peek p 0 = 0 then none
    else if !ere && peek p 0 = 92 && (peek p 1 = 40 || peek p 1 = 41) then
      let depth := if peek p 1 = 40 then depth + 1 else depth - 1
      if depth = 0 then some (offset + 1) else groupEndLoop ere fuel depth (offset + 2) (p.drop 2)
    else if ere && (peek p 0 = 40 || peek p 0 = 41) then
      let depth := if peek p 0 = 40 then depth + 1 else depth - 1
      if depth = 0 then some offset else groupEndLoop ere fuel depth (offset + 1) (p.drop 1)
    else
      let n := if !ere && peek p 0 = 92 && peek p 1 ≠ 0 then 2 else 1
      groupEndLoop ere fuel depth (offset + n) (p.drop n)

/-- A range `lo-hi` of a bracket holds a byte. -/
def inRange (lo hi c : UInt8) : Bool := decide (lo ≤ c ∧ c ≤ hi)

namespace Sed

/-- The loop that looks for the end of a bracket. -/
def bracketEnd : ℕ → Bool → Str → Str
  | 0, _, p => p
  | fuel + 1, first, p =>
    if peek p 0 ≠ 0 ∧ (peek p 0 ≠ 93 ∨ first = true) then
      if peek p 0 = 92 ∧ peek p 1 ≠ 0 then bracketEnd fuel false (p.drop 2)
      else bracketEnd fuel false (p.drop 1)
    else p

/-- `re_atom_len`. -/
def reAtomLen (ere : Bool) (re : Str) : ℕ :=
  let c := peek re 0
  if c = 0 ∨ c = 41 ∨ c = 124 then 0
  else if ere = false ∧ c = 92 then
    let e := peek re 1
    if e = 40 ∨ e = 41 ∨ e = 124 ∨ e = 123 ∨ e = 125 then 0 else 2
  else if ere = true ∧ c = 40 then 0
  else if c = 91 then
    let p := bracketEnd re.length true (re.drop 1)
    if peek p 0 = 93 then re.length - p.length + 1 else 0
  else 1

/-- The loop over the members of a bracket, up to the rest of length `stop`. -/
def members (c : UInt8) (stop : ℕ) : ℕ → Str → Bool → Bool
  | 0, _, found => found
  | fuel + 1, q, found =>
    if stop < q.length then
      if stop + 2 < q.length ∧ peek q 1 = 45 then
        members c stop fuel (q.drop 3) (found || inRange (peek q 0) (peek q 2) c)
      else members c stop fuel (q.drop 1) (found || inRange (peek q 0) (peek q 0) c)
    else found

/-- `re_atom_char`. -/
def reAtomChar (ere icase : Bool) (re : Str) (c : UInt8) : Bool :=
  let ch := peek re 0
  if ere = false ∧ ch = 92 then escapeChar icase (peek re 1) c
  else if ch = 46 then c ≠ 0
  else if ch = 91 then
    let neg := decide (peek re 1 = 94)
    let p := if neg then re.drop 2 else re.drop 1
    let stop := bracketEnd re.length true p
    if peek stop 0 ≠ 93 then false
    else
      let found := members c stop.length re.length p false
      if neg then !found else found
  else mchar icase c = mchar icase ch

/-- `re_group_end`: the opening parenthesis is counted on top of the depth one. -/
def reGroupEnd (ere : Bool) (re : Str) : Option ℕ := groupEndLoop ere re.length 1 0 re

/-- The engine of `sed.c`. -/
def engine : Engine where
  atomLen := reAtomLen
  atomChar := reAtomChar
  groupEnd := reGroupEnd
  groupParen ere re gend := if ere = false ∧ peek re (gend - 1) = 41 then gend - 1 else gend
  tailFound returned := returned

end Sed

namespace Grep

/-- `strchr`, as the rest of the string from the byte on. -/
def strchr : Str → UInt8 → Option Str
  | [], _ => none
  | a :: p, c => if a = 0 then none else if a = c then some (a :: p) else strchr p c

/-- The rest behind a class name `[:name:]`, if one starts here. -/
def classEnd (p : Str) : Option Str :=
  if peek p 0 = 91 ∧ peek p 1 = 58 then
    match strchr (p.drop 2) 58 with
    | some close => if peek close 1 = 93 then some (close.drop 2) else none
    | none => none
  else none

/-- The loop that looks for the end of a bracket. -/
def bracketEnd : ℕ → Bool → Str → Str
  | 0, _, p => p
  | fuel + 1, first, p =>
    if peek p 0 ≠ 0 ∧ (peek p 0 ≠ 93 ∨ first = true) then
      match classEnd p with
      | some rest => bracketEnd fuel false rest
      | none =>
        if peek p 0 = 92 ∧ peek p 1 ≠ 0 then bracketEnd fuel false (p.drop 2)
        else bracketEnd fuel false (p.drop 1)
    else p

/-- `re_group_end`. -/
def reGroupEnd (ere : Bool) (re : Str) : Option ℕ := groupEndLoop ere re.length 0 0 re

/-- The length of a group with its closing parenthesis. -/
def groupLen (ere : Bool) (re : Str) : ℕ :=
  match reGroupEnd ere re with
  | some gend => gend + 1
  | none => 0

/-- `re_atom_len`. -/
def reAtomLen (ere : Bool) (re : Str) : ℕ :=
  let c := peek re 0
  if c = 0 ∨ c = 41 ∨ c = 124 then 0
  else if ere = false ∧ c = 92 then
    let e := peek re 1
    if e = 40 then groupLen ere re
    else if e = 41 ∨ e = 124 ∨ e = 123 ∨ e = 125 then 0
    else 2
  else if ere = true ∧ c = 40 then groupLen ere re
  else if c = 91 then
    let p := bracketEnd re.length true (re.drop 1)
    if peek p 0 = 93 then re.length - p.length + 1 else 0
  else 1

def isupper (c : UInt8) : Bool := decide (65 ≤ c ∧ c ≤ 90)
def islower (c : UInt8) : Bool := decide (97 ≤ c ∧ c ≤ 122)
def isalpha (c : UInt8) : Bool := isupper c || islower c
def isalnum (c : UInt8) : Bool := isalpha c || isdigit c
def isgraph (c : UInt8) : Bool := decide (33 ≤ c ∧ c ≤ 126)
def isprint (c : UInt8) : Bool := decide (32 ≤ c ∧ c ≤ 126)
def ispunct (c : UInt8) : Bool := isgraph c && !isalnum c
def iscntrl (c : UInt8) : Bool := decide (c < 32 ∨ c = 127)
def isblank (c : UInt8) : Bool := decide (c = 32 ∨ c = 9)
def isxdigit (c : UInt8) : Bool := isdigit c || decide (97 ≤ c ∧ c ≤ 102 ∨ 65 ≤ c ∧ c ≤ 70)

/-- The names that `re_atom_char` compares, with the lengths it compares. -/
def classes : List (Str × (UInt8 → Bool)) :=
  [(ascii "alpha", isalpha), (ascii "digit", isdigit),
    (ascii "space", isspace), (ascii "upper", isupper),
    (ascii "lower", islower), (ascii "punct", ispunct),
    (ascii "alnu", isalnum), (ascii "cnt", iscntrl),
    (ascii "xdigit", isxdigit), (ascii "graph", isgraph),
    (ascii "print", isprint), (ascii "blan", isblank)]

/-- The class of a name holds a byte; an unknown name holds none. -/
def inClass (name : Str) (c : UInt8) : Bool :=
  match classes.find? fun entry ↦ entry.1 = name with
  | some entry => entry.2 c
  | none => false

/-- The class name at the position of a member, with the rest behind it. -/
def classAt (stop : ℕ) (q : Str) : Option (Str × Str) :=
  if peek q 0 = 91 ∧ stop + 1 < q.length ∧ peek q 1 = 58 then
    match strchr (q.drop 2) 58 with
    | some nn =>
      let name := (q.drop 2).take (q.length - 2 - nn.length)
      if 0 < name.length ∧ peek nn 1 = 93 then some (name, nn.drop 2) else none
    | none => none
  else none

/-- The loop over the members of a bracket, up to the rest of length `stop`. -/
def members (c : UInt8) (stop : ℕ) : ℕ → Str → Bool → Bool
  | 0, _, found => found
  | fuel + 1, q, found =>
    if stop < q.length then
      match classAt stop q with
      | some (name, rest) => members c stop fuel rest (found || inClass name c)
      | none =>
        if stop + 2 < q.length ∧ peek q 1 = 45 then
          members c stop fuel (q.drop 3) (found || inRange (peek q 0) (peek q 2) c)
        else members c stop fuel (q.drop 1) (found || inRange (peek q 0) (peek q 0) c)
    else found

/-- `re_atom_char`. -/
def reAtomChar (ere icase : Bool) (re : Str) (c : UInt8) : Bool :=
  let ch := peek re 0
  if ere = false ∧ ch = 92 then escapeChar icase (peek re 1) c
  else if ch = 46 then c ≠ 0
  else if ch = 91 then
    let neg := decide (peek re 1 = 94)
    let p := if neg then re.drop 2 else re.drop 1
    let stop := bracketEnd re.length true p
    if peek stop 0 ≠ 93 then false
    else
      let found := members c stop.length re.length p false
      if neg then !found else found
  else mchar icase c = mchar icase ch

/-- The engine of `grep.c`. -/
def engine : Engine where
  atomLen := reAtomLen
  atomChar := reAtomChar
  groupEnd := reGroupEnd
  groupParen ere _ gend := if ere = false then gend - 1 else gend
  tailFound returned := !returned

end Grep

/-- The offset of the first separator of alternatives at depth zero. -/
def findAlt (ere : Bool) : ℕ → ℤ → ℕ → Str → Option ℕ
  | 0, _, _, _ => none
  | fuel + 1, depth, offset, p =>
    if peek p 0 = 0 then none
    else if !ere && peek p 0 = 92 && (peek p 1 = 40 || peek p 1 = 41) then
      findAlt ere fuel (if peek p 1 = 40 then depth + 1 else depth - 1) (offset + 2) (p.drop 2)
    else if ere && (peek p 0 = 40 || peek p 0 = 41) then
      findAlt ere fuel (if peek p 0 = 40 then depth + 1 else depth - 1) (offset + 1) (p.drop 1)
    else if peek p 0 = 124 || (!ere && peek p 0 = 92 && peek p 1 = 124) then
      if depth = 0 then some offset
      else
        let n := if !ere && peek p 0 = 92 then 2 else 1
        findAlt ere fuel depth (offset + n) (p.drop n)
    else
      let n := if !ere && peek p 0 = 92 && peek p 1 ≠ 0 then 2 else 1
      findAlt ere fuel depth (offset + n) (p.drop n)

/-- The separator of alternatives in a pattern. -/
def altEnd (ere : Bool) (re : Str) : Option ℕ := findAlt ere re.length 0 0 re

/-- The alternatives, in the order of the loop of `m_seq`. -/
def branches (ere : Bool) : ℕ → Str → List Str
  | 0, _ => []
  | fuel + 1, start =>
    match altEnd ere start with
    | some n =>
      start.take n :: branches ere fuel
        (start.drop (n + if !ere && peek start n = 92 then 2 else 1))
    | none => [start]

/-- A decimal number, and the rest behind it. -/
def number (value : ℕ) : Str → ℕ × Str
  | [] => (value, [])
  | c :: b => if isdigit c then number (value * 10 + (c.toNat - 48)) b else (value, c :: b)

/-- A quantifier: the least and the greatest number of repetitions, and its length. -/
structure Quantifier where
  min : ℕ
  max : Option ℕ
  len : ℕ
deriving DecidableEq

/-- The pattern does not continue with a quantifier. -/
def Quantifier.once : Quantifier := ⟨1, some 1, 0⟩

/-- The bounds behind an opening brace. -/
def bounds (ere : Bool) (after : Str) : Quantifier :=
  let b := after.drop (if ere then 1 else 2)
  if isdigit (peek b 0) then
    let (lo, b) := number 0 b
    let (hi, b) :=
      if peek b 0 = 44 then
        let b := b.drop 1
        if isdigit (peek b 0) then
          let (hi, b) := number 0 b
          (some hi, b)
        else (none, b)
      else (some lo, b)
    if peek b 0 = 125 || (!ere && peek b 0 = 92 && peek b 1 = 125) then
      ⟨lo, hi, after.length - b.length + if ere then 1 else 2⟩
    else .once
  else .once

/-- The quantifier behind an atom. -/
def quantifier (ere : Bool) (after : Str) : Quantifier :=
  let escaped := fun c ↦ !ere && peek after 0 = 92 && peek after 1 = c
  if peek after 0 = 42 || escaped 42 then ⟨0, none, if peek after 0 = 42 then 1 else 2⟩
  else if peek after 0 = 43 || escaped 43 then ⟨1, none, if peek after 0 = 43 then 1 else 2⟩
  else if peek after 0 = 63 || escaped 63 then ⟨0, some 1, if peek after 0 = 63 then 1 else 2⟩
  else if peek after 0 = 123 || escaped 123 then bounds ere after
  else .once

section Matching

variable (engine : Engine) (ere icase : Bool) (mseq : Str → Str → Bool) {σ : Type}

/-- The loop over the lengths that a group may consume. -/
def groupLoop (group s : Str) (cb : Cb σ) : List ℕ → σ → Bool × σ
  | [], ctx => (false, ctx)
  | l :: lengths, ctx =>
    if 512 ≤ l then (false, ctx)
    else if mseq group (s.take l) then
      match cb ctx (s.drop l) with
      | (true, ctx) => groupLoop group s cb lengths ctx
      | (false, ctx) => (true, ctx)
    else groupLoop group s cb lengths ctx

/-- The text of the group at `re`, if `atom_each` finds one that fits its buffer. -/
def groupText (re : Str) : Option Str :=
  match engine.groupEnd ere re with
  | none => none
  | some gend =>
    let gstart := if peek re 0 = 40 then 1 else 2
    let glen := engine.groupParen ere re gend - gstart
    if 512 ≤ glen then none else some ((re.drop gstart).take glen)

/-- The atom at `re` is a group for `atom_each`. -/
def isGroup (re : Str) : Bool :=
  peek re 0 = 40 || (!ere && peek re 0 = 92 && peek re 1 = 40)

/-- `atom_each`. -/
def atomEach (re : Str) (cb : Cb σ) (ctx : σ) (s : Str) : Bool × σ :=
  if isGroup ere re then
    match groupText engine ere re with
    | none => (false, ctx)
    | some group => groupLoop mseq group s cb (List.range (s.length + 1)) ctx
  else if peek s 0 = 0 then (false, ctx)
  else if engine.atomChar ere icase re (peek s 0) then
    match cb ctx (s.drop 1) with
    | (returned, ctx) => (!returned, ctx)
  else (false, ctx)

/-- `q_cont`, with the count of its context; the flag is `ok`. -/
def qCont (re : Str) (finalCb : Cb σ) : ℕ → Cb (Bool × σ)
  | count + 2, (ok, ctx), s =>
    match atomEach engine ere icase mseq re (qCont re finalCb (count + 1)) (false, ctx) s with
    | (_, (true, ctx)) => (false, (true, ctx))
    | (_, (false, ctx)) => (true, (ok, ctx))
  | _, (ok, ctx), s =>
    match finalCb ctx s with
    | (returned, ctx) =>
      if engine.tailFound returned then (false, (true, ctx)) else (true, (ok, ctx))

/-- `reps_match`. -/
def repsMatch (re s : Str) (count : ℕ) (finalCb : Cb σ) (ctx : σ) : Bool × σ :=
  if count = 0 then finalCb ctx s
  else
    match atomEach engine ere icase mseq re (qCont engine ere icase mseq re finalCb count)
      (false, ctx) s with
    | (_, (ok, ctx)) => (ok, ctx)

/-- `mseq_cont`, whose context is the flag `ok`. -/
def mseqCont (rest : Str) : Cb Bool :=
  fun ok s ↦ if mseq rest s then (false, true) else (true, ok)

/-- The loop over the numbers of repetitions. -/
def countLoop (re s rest : Str) : List ℕ → Bool → Bool
  | [], _ => false
  | count :: counts, ok =>
    match repsMatch engine ere icase mseq re s count (mseqCont mseq rest) ok with
    | (true, _) => true
    | (false, true) => true
    | (false, false) => countLoop re s rest counts false

/-- The numbers of repetitions from `max` down to `min`. -/
def counts (q : Quantifier) (s : Str) : List ℕ :=
  let max := q.max.getD (s.length + 1)
  ((List.range (max + 1)).filter fun count ↦ q.min ≤ count).reverse

/-- The loop over the alternatives. -/
def branchLoop (s : Str) : List Str → Bool
  | [] => false
  | b :: bs => if 512 ≤ b.length then false else if mseq b s then true else branchLoop s bs

/-- The atom at the start of a pattern, its quantifier and the rest. -/
def pieceMatch (re s : Str) : Bool :=
  let alen := engine.atomLen ere re
  if alen = 0 then false
  else
    let q := quantifier ere (re.drop alen)
    countLoop engine ere icase mseq re s (re.drop (alen + q.len)) (counts q s) false

/-- The body of `m_seq`. -/
def mSeqBody (re s : Str) : Bool :=
  if peek re 0 = 0 then true
  else if peek re 0 = 94 then mseq (re.drop 1) s
  else if peek re 0 = 36 ∧ peek re 1 = 0 then peek s 0 = 0
  else if (altEnd ere re).isSome then branchLoop mseq s (branches ere (re.length + 1) re)
  else pieceMatch engine ere icase mseq re s

end Matching

/-- `m_seq`, which calls itself on shorter patterns only. -/
def mSeqFuel (engine : Engine) (ere icase : Bool) : ℕ → Str → Str → Bool
  | 0, _, _ => false
  | fuel + 1, re, s => mSeqBody engine ere icase (mSeqFuel engine ere icase fuel) re s

def mSeq (engine : Engine) (ere icase : Bool) (re s : Str) : Bool :=
  mSeqFuel engine ere icase (re.length + 1) re s

/-- `m_seq` of `sed.c`. -/
def Sed.mSeq (re s : Str) (ere icase : Bool) : Bool := Regex.mSeq Sed.engine ere icase re s

/-- `m_seq` of `grep.c`. -/
def Grep.mSeq (re s : Str) (ere icase : Bool) : Bool := Regex.mSeq Grep.engine ere icase re s

end ToastyUnix.Regex
