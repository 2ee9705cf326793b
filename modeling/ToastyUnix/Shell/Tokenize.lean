import Mathlib

/-!
# The tokens of a command line

`tokenize` of `kernel/shell/commands.c` splits a line in place: it ends a token by overwriting the
byte behind it. When this byte is not a blank, a character of the line is lost, so `a|b` loses its
operator (`glued_pipe_is_lost`). The words and operators of a line are found exactly when each of
them is followed by a blank or by the end of the line (`tokenize_spaced_iff`).
-/

namespace ToastyUnix.Shell

open List

def TSH_LINE_MAX : ℕ := 128

def MAX_TOKENS : ℕ := TSH_LINE_MAX / 2 + 8

/-- `|`, `<` or `>`. -/
def isOperator (c : UInt8) : Bool := c = 124 ∨ c = 60 ∨ c = 62

/-- A character that does not end a word. -/
def isWordChar (c : UInt8) : Bool := c ≠ 32 ∧ !isOperator c

/-- How far `p` moves over the token at the start: an operator, a word, or `2>` and `2>>`. -/
def tokenLength : List UInt8 → ℕ
  | [] => 0
  | c :: rest =>
    if isOperator c then if c = 62 ∧ rest.head? = some 62 then 2 else 1
    else
      let len := ((c :: rest).takeWhile isWordChar).length
      if (c :: rest)[len]? = some 62 ∧ len = 1 ∧ c = 50 then
        if (c :: rest)[len + 1]? = some 62 then len + 2 else len + 1
      else len

/-- The loop of `tokenize`. The buffer is `before` up to `p` and `rest` up to the terminator; tokens
are positions in it. The result is `none` for `-1`. -/
def tokenizeLoop (max : ℕ) :
    ℕ → List UInt8 → List UInt8 → List ℕ → Option (List ℕ × List UInt8)
  | 0, before, rest, tok => some (tok, before ++ rest)
  | fuel + 1, before, rest, tok =>
    let before := before ++ rest.takeWhile (· = 32)
    let rest := rest.dropWhile (· = 32)
    if rest = [] then some (tok, before)
    else if max ≤ tok.length then none
    else
      let start := before.length
      let before := before ++ rest.take (tokenLength rest)
      match rest.drop (tokenLength rest) with
      | [] => tokenizeLoop max fuel before [] (tok ++ [start])
      -- The byte behind the token is overwritten, whatever it is.
      | _ :: rest => tokenizeLoop max fuel (before ++ [0]) rest (tok ++ [start])

/-- `tokenize`. A pass moves `p` forward, so the length of the line bounds the passes. -/
def tokenize (line : List UInt8) (max : ℕ) : Option (List ℕ × List UInt8) :=
  tokenizeLoop max line.length [] line []

/-- The string at a position of a buffer. -/
def stringAt (buf : List UInt8) (i : ℕ) : List UInt8 := (buf.drop i).takeWhile (· ≠ 0)

/-- The tokens as strings. -/
def tokenStrings (line : List UInt8) (max : ℕ) : Option (List (List UInt8)) :=
  (tokenize line max).map fun result ↦ result.1.map (stringAt result.2)

/-! ## Words and operators -/

/-- What a line consists of. -/
inductive Piece
  | space
  | word (text : List UInt8)
  | operator (text : List UInt8)
  deriving DecidableEq, Repr

/-- The word collected so far, if there is one. -/
def collected (word : List UInt8) : List Piece := if word = [] then [] else [.word word]

/-- The pieces of a text behind the start of a word. An operator is as long as possible; `2>` and
`2>>` are operators when the `2` is a whole word. -/
def piecesFrom (word : List UInt8) : List UInt8 → List Piece
  | [] => collected word
  | 62 :: 62 :: rest =>
    if word = [50] then .operator [50, 62, 62] :: piecesFrom [] rest
    else collected word ++ .operator [62, 62] :: piecesFrom [] rest
  | 62 :: rest =>
    if word = [50] then .operator [50, 62] :: piecesFrom [] rest
    else collected word ++ .operator [62] :: piecesFrom [] rest
  | c :: rest =>
    if c = 32 then collected word ++ .space :: piecesFrom [] rest
    else if isOperator c then collected word ++ .operator [c] :: piecesFrom [] rest
    else piecesFrom (word ++ [c]) rest

def pieces (line : List UInt8) : List Piece := piecesFrom [] line

def Piece.lexeme : Piece → Option (List UInt8)
  | .space => none
  | .word text | .operator text => some text

/-- The words and operators of a line. -/
def lexemes (line : List UInt8) : List (List UInt8) := (pieces line).filterMap Piece.lexeme

/-- A piece, with blanks around it if it is an operator. -/
def Piece.spaced : Piece → List UInt8
  | .space => [32]
  | .word text => text
  | .operator text => 32 :: (text ++ [32])

/-- The line with a blank before and after every operator. -/
def spaced (line : List UInt8) : List UInt8 := (pieces line).flatMap Piece.spaced

/-- Of two neighbouring pieces one is a blank. -/
def Separated (line : List UInt8) : Prop :=
  (pieces line).IsChain fun a b ↦ a = .space ∨ b = .space

instance (line : List UInt8) : Decidable (Separated line) :=
  inferInstanceAs (Decidable (List.IsChain _ _))

/-! ## The first piece -/

section Equations

variable (word rest : List UInt8)

theorem piecesFrom_space :
    piecesFrom word (32 :: rest) = collected word ++ .space :: pieces rest := by
  simp [piecesFrom, pieces]

variable {c : UInt8}

theorem piecesFrom_operator (hc : c = 124 ∨ c = 60) :
    piecesFrom word (c :: rest) = collected word ++ .operator [c] :: pieces rest := by
  rcases hc with rfl | rfl <;> simp [piecesFrom, pieces, isOperator]

theorem piecesFrom_greater_greater :
    piecesFrom word (62 :: 62 :: rest) =
      if word = [50] then .operator [50, 62, 62] :: pieces rest
      else collected word ++ .operator [62, 62] :: pieces rest := by
  rw [piecesFrom]
  rfl

theorem piecesFrom_greater {rest : List UInt8} (hrest : rest.head? ≠ some 62) :
    piecesFrom word (62 :: rest) =
      if word = [50] then .operator [50, 62] :: pieces rest
      else collected word ++ .operator [62] :: pieces rest := by
  rw [piecesFrom]
  · rfl
  · rintro rest' rfl
    exact hrest rfl

theorem piecesFrom_wordChar (hc : isWordChar c = true) :
    piecesFrom word (c :: rest) = piecesFrom (word ++ [c]) rest := by
  have hchar : c ≠ 32 ∧ isOperator c = false := by simpa [isWordChar] using hc
  have hgreater : c ≠ 62 := by
    rintro rfl
    exact absurd hc (by decide)
  rw [piecesFrom, if_neg hchar.1, if_neg (by simp [hchar.2])]
  · exact fun _ heq _ ↦ hgreater heq
  · exact hgreater

theorem pieces_space : pieces (32 :: rest) = .space :: pieces rest := piecesFrom_space [] rest

theorem pieces_operator (hc : c = 124 ∨ c = 60) :
    pieces (c :: rest) = .operator [c] :: pieces rest := piecesFrom_operator [] rest hc

theorem pieces_greater_greater : pieces (62 :: 62 :: rest) = .operator [62, 62] :: pieces rest :=
  piecesFrom_greater_greater [] rest

theorem pieces_greater {rest : List UInt8} (hrest : rest.head? ≠ some 62) :
    pieces (62 :: rest) = .operator [62] :: pieces rest := piecesFrom_greater [] hrest

end Equations

variable {word rest line before token : List UInt8} {c : UInt8}

theorem piecesFrom_append {text : List UInt8} (htext : ∀ c ∈ text, isWordChar c = true)
    (rest : List UInt8) : piecesFrom word (text ++ rest) = piecesFrom (word ++ text) rest := by
  induction text generalizing word with
  | nil => simp
  | cons c text ih =>
    obtain ⟨hc, htext⟩ := forall_mem_cons.mp htext
    rw [cons_append, piecesFrom_wordChar _ _ hc, ih htext, append_assoc, singleton_append]

theorem boundary_cases (hc : isWordChar c = false) : c = 32 ∨ (c = 124 ∨ c = 60) ∨ c = 62 := by
  simp only [isWordChar, isOperator] at hc
  by_contra h
  simp_all

/-- A word ends in front of a blank, an operator or the end of the line. -/
theorem piecesFrom_boundary (hne : word ≠ []) (hrest : ∀ c ∈ rest.head?, isWordChar c = false)
    (hglued : ¬ (word = [50] ∧ rest.head? = some 62)) :
    piecesFrom word rest = .word word :: pieces rest := by
  have hcollected : collected word = [.word word] := if_neg hne
  cases rest with
  | nil => exact hcollected
  | cons c rest =>
    rcases boundary_cases (hrest c rfl) with rfl | hc | rfl
    · rw [piecesFrom_space, hcollected, pieces_space]
      rfl
    · rw [piecesFrom_operator _ _ hc, hcollected, pieces_operator _ hc]
      rfl
    · have hword : word ≠ [50] := fun h ↦ hglued ⟨h, rfl⟩
      by_cases hsecond : rest.head? = some 62
      · obtain ⟨rest', rfl⟩ := head?_eq_some_iff.mp hsecond
        rw [piecesFrom_greater_greater, if_neg hword, hcollected, pieces_greater_greater]
        rfl
      · rw [piecesFrom_greater _ hsecond, if_neg hword, hcollected, pieces_greater hsecond]
        rfl

/-- The operators of a line. -/
def operators : List (List UInt8) := [[124], [60], [62], [62, 62], [50, 62], [50, 62, 62]]

/-- An operator at the start of a text. -/
theorem pieces_token_of_operator (hop : isOperator c = true) (rest : List UInt8) :
    let token := (c :: rest).take (tokenLength (c :: rest))
    pieces (c :: rest) = .operator token :: pieces ((c :: rest).drop (tokenLength (c :: rest))) ∧
      token ∈ operators := by
  rw [tokenLength, if_pos hop]
  have hc : (c = 124 ∨ c = 60) ∨ c = 62 := by
    simpa [isOperator, or_assoc] using hop
  rcases hc with hc | rfl
  · have hgreater : c ≠ 62 := by rcases hc with rfl | rfl <;> decide
    have hmem : [c] ∈ operators := by rcases hc with rfl | rfl <;> decide
    rw [if_neg fun h ↦ hgreater h.1]
    exact ⟨pieces_operator rest hc, hmem⟩
  · by_cases hsecond : rest.head? = some 62
    · obtain ⟨rest', rfl⟩ := head?_eq_some_iff.mp hsecond
      rw [if_pos ⟨rfl, hsecond⟩]
      exact ⟨pieces_greater_greater rest', by simp [operators]⟩
    · rw [if_neg fun h ↦ hsecond h.2]
      exact ⟨pieces_greater hsecond, by simp [operators]⟩

theorem piecesFrom_two {tail : List UInt8} (hhead : tail.head? = some 62) :
    let len := if tail[1]? = some 62 then 3 else 2
    piecesFrom [50] tail = .operator ((50 :: tail).take len) :: pieces ((50 :: tail).drop len) ∧
      (50 :: tail).take len ∈ operators := by
  obtain ⟨tail', rfl⟩ := head?_eq_some_iff.mp hhead
  by_cases hsecond : tail'.head? = some 62
  · obtain ⟨tail'', rfl⟩ := head?_eq_some_iff.mp hsecond
    rw [piecesFrom_greater_greater, if_pos rfl]
    exact ⟨rfl, by simp [operators]⟩
  · have hone : (62 :: tail')[1]? ≠ some 62 := by
      rwa [getElem?_cons_succ, ← head?_eq_getElem?]
    rw [piecesFrom_greater _ hsecond, if_pos rfl, if_neg hone]
    exact ⟨rfl, by simp [operators]⟩

section

variable (hne : line ≠ []) (hline : line.head? ≠ some 32)
include hne hline

/-- The token at the start of a text is its first piece: a word up to a blank or an operator, or an
operator. -/
theorem pieces_token :
    let token := line.take (tokenLength line)
    let rest := line.drop (tokenLength line)
    (pieces line = .word token :: pieces rest ∧ token ≠ [] ∧ (∀ c ∈ token, isWordChar c = true) ∧
        ∀ c ∈ rest.head?, isWordChar c = false) ∨
      (pieces line = .operator token :: pieces rest ∧ token ∈ operators) := by
  obtain ⟨c, rest, rfl⟩ := exists_cons_of_ne_nil hne
  have hspace : c ≠ 32 := fun h ↦ hline (by rw [h]; rfl)
  by_cases hop : isOperator c = true
  · exact .inr (pieces_token_of_operator hop rest)
  have hchar : isWordChar c = true := by simp [isWordChar, hspace, hop]
  rw [tokenLength, if_neg hop]
  obtain ⟨word, hword⟩ : ∃ word, (c :: rest).takeWhile isWordChar = c :: word :=
    ⟨rest.takeWhile isWordChar, takeWhile_cons_of_pos hchar⟩
  obtain ⟨tail, htail⟩ : ∃ tail, (c :: rest).dropWhile isWordChar = tail := ⟨_, rfl⟩
  have hsplit : c :: rest = (c :: word) ++ tail := by
    rw [← hword, ← htail, takeWhile_append_dropWhile]
  have hall : ∀ d ∈ c :: word, isWordChar d = true := by
    rw [← hword]
    exact fun d hd ↦ mem_takeWhile_imp hd
  have hstop : ∀ d ∈ tail.head?, isWordChar d = false := by
    intro d hd
    have hfirst := head?_dropWhile_not isWordChar (c :: rest)
    rw [htail, Option.mem_def.mp hd] at hfirst
    exact hfirst
  have hnext (k : ℕ) : (c :: rest)[(c :: word).length + k]? = tail[k]? := by
    rw [hsplit, getElem?_append_right (Nat.le_add_right _ _), Nat.add_sub_cancel_left]
  have hpieces : pieces (c :: rest) = piecesFrom (c :: word) tail := by
    rw [hsplit, pieces, piecesFrom_append hall, nil_append]
  have hzero := hnext 0
  rw [Nat.add_zero, ← head?_eq_getElem?] at hzero
  simp only [hword, hzero, hnext 1, hpieces]
  by_cases hglued : tail.head? = some 62 ∧ (c :: word).length = 1 ∧ c = 50
  · right
    rw [if_pos hglued]
    obtain ⟨hhead, hlength, rfl⟩ := hglued
    obtain rfl : word = [] := length_eq_zero_iff.mp (Nat.succ.inj hlength)
    rw [hsplit]
    exact piecesFrom_two hhead
  · left
    rw [if_neg hglued, hsplit, take_left, drop_left]
    refine ⟨piecesFrom_boundary (cons_ne_nil c word) hstop ?_, cons_ne_nil c word, hall, hstop⟩
    rintro ⟨heq, hhead⟩
    obtain ⟨rfl, rfl⟩ : c = 50 ∧ word = [] := by simpa using heq
    exact hglued ⟨hhead, rfl, rfl⟩

theorem pieces_lexeme :
    ∃ piece : Piece, piece.lexeme = some (line.take (tokenLength line)) ∧
      pieces line = piece :: pieces (line.drop (tokenLength line)) := by
  rcases pieces_token hne hline with ⟨hword, -⟩ | ⟨hop, -⟩
  · exact ⟨.word _, rfl, hword⟩
  · exact ⟨.operator _, rfl, hop⟩

theorem tokenLength_pos :
    0 < tokenLength line := by
  rw [Nat.pos_iff_ne_zero]
  intro hzero
  rcases pieces_token hne hline with ⟨-, htoken, -⟩ | ⟨-, hmem⟩
  · exact htoken (by rw [hzero, take_zero])
  · rw [hzero, take_zero] at hmem
    exact absurd hmem (by decide)

end

/-! ## The tokens without the buffer -/

/-- The tokens that the loop finds: the character behind a token is skipped. -/
def cutTokens : ℕ → List UInt8 → List (List UInt8)
  | 0, _ => []
  | fuel + 1, rest =>
    let rest := rest.dropWhile (· = 32)
    if rest = [] then []
    else rest.take (tokenLength rest) :: cutTokens fuel (rest.drop (tokenLength rest + 1))

theorem stringAt_token (htoken : 0 ∉ token) (hrest : ∀ c ∈ rest.head?, c = 0) :
    stringAt (before ++ token ++ rest) before.length = token := by
  rw [stringAt, append_assoc, drop_left, takeWhile_append_of_pos]
  · cases rest with
    | nil => simp
    | cons c rest =>
      obtain rfl := hrest c rfl
      simp
  · intro c hc
    simpa using fun heq : c = 0 ↦ htoken (heq ▸ hc)

/-- One more token in front of those that follow it in the buffer. -/
theorem strings_cons {spaces : List UInt8} (htoken : 0 ∉ token) (hrest : ∀ c ∈ rest.head?, c = 0)
    {new : List ℕ} {tokens : List (List UInt8)}
    (hnew : new.map (stringAt (before ++ spaces ++ token ++ rest)) = tokens) :
    ((before ++ spaces).length :: new).map (stringAt (before ++ (spaces ++ (token ++ rest)))) =
      token :: tokens := by
  have hbuf : before ++ (spaces ++ (token ++ rest)) = before ++ spaces ++ token ++ rest := by simp
  rw [map_cons, hbuf, stringAt_token htoken hrest, hnew]

/-- What the loop leaves in the buffer are the tokens, as long as they have room. -/
theorem tokenizeLoop_spec (max fuel : ℕ) (before rest : List UInt8) (tok : List ℕ)
    (hzero : 0 ∉ rest) (hmax : tok.length ≤ max) :
    if tok.length + (cutTokens fuel rest).length ≤ max then
      ∃ new buf, tokenizeLoop max fuel before rest tok = some (tok ++ new, before ++ buf) ∧
        buf.length = rest.length ∧ new.map (stringAt (before ++ buf)) = cutTokens fuel rest
    else tokenizeLoop max fuel before rest tok = none := by
  induction fuel generalizing before rest tok with
  | zero =>
    rw [cutTokens, length_nil, Nat.add_zero, if_pos hmax]
    exact ⟨[], rest, by rw [tokenizeLoop, append_nil], rfl, rfl⟩
  | succ fuel ih =>
    rw [tokenizeLoop, cutTokens]
    have hsplit := takeWhile_append_dropWhile (p := (· = 32)) (l := rest)
    generalize rest.takeWhile (· = 32) = spaces at hsplit
    generalize rest.dropWhile (· = 32) = line at hsplit
    subst hsplit
    rw [mem_append, not_or] at hzero
    dsimp only
    by_cases hnil : line = []
    · rw [if_pos hnil, if_pos hnil, length_nil, Nat.add_zero, if_pos hmax]
      exact ⟨[], spaces, by rw [append_nil], by simp [hnil], rfl⟩
    rw [if_neg hnil, if_neg hnil, length_cons]
    by_cases hfull : max ≤ tok.length
    · rw [if_pos hfull, if_neg (by omega)]
    rw [if_neg hfull, ← drop_drop]
    have hline := take_append_drop (tokenLength line) line
    generalize line.take (tokenLength line) = token at hline
    generalize line.drop (tokenLength line) = line' at hline
    subst hline
    rw [mem_append, not_or] at hzero
    have hroom : (tok ++ [(before ++ spaces).length]).length ≤ max := by
      rw [length_append, length_singleton]
      omega
    cases line' with
    | nil =>
      have hrun := ih (before ++ spaces ++ token) [] (tok ++ [(before ++ spaces).length])
        not_mem_nil hroom
      rw [length_append, length_singleton, Nat.add_assoc, Nat.add_comm 1] at hrun
      rw [drop_nil]
      split_ifs at hrun ⊢
      · obtain ⟨new, buf, hloop, hlength, hstrings⟩ := hrun
        obtain rfl : buf = [] := length_eq_zero_iff.mp hlength
        exact ⟨(before ++ spaces).length :: new, spaces ++ (token ++ []), hloop.trans (by simp),
          by simp, strings_cons hzero.2.1 (by simp) hstrings⟩
      · exact hrun
    | cons c line' =>
      have hrun := ih (before ++ spaces ++ token ++ [0]) line' (tok ++ [(before ++ spaces).length])
        (fun h ↦ hzero.2.2 (mem_cons_of_mem c h)) hroom
      rw [length_append, length_singleton, Nat.add_assoc, Nat.add_comm 1] at hrun
      rw [drop_succ_cons, drop_zero]
      split_ifs at hrun ⊢
      · obtain ⟨new, buf, hloop, hlength, hstrings⟩ := hrun
        rw [append_assoc _ [0], singleton_append] at hstrings
        exact ⟨(before ++ spaces).length :: new, spaces ++ (token ++ 0 :: buf),
          hloop.trans (by simp), by simp [hlength], strings_cons hzero.2.1 (by simp) hstrings⟩
      · exact hrun

theorem tokenStrings_eq (hzero : 0 ∉ line) (max : ℕ) :
    tokenStrings line max =
      if (cutTokens line.length line).length ≤ max then some (cutTokens line.length line)
      else none := by
  have hspec := tokenizeLoop_spec max line.length [] line [] hzero (Nat.zero_le max)
  rw [length_nil, Nat.zero_add] at hspec
  rw [tokenStrings, tokenize]
  split_ifs at hspec ⊢
  · obtain ⟨new, buf, hloop, -, hstrings⟩ := hspec
    rw [hloop, Option.map_some]
    exact congrArg some hstrings
  · rw [hspec, Option.map_none]

/-! ## No character lost -/

theorem flatten_collected (word : List UInt8) :
    ((collected word).filterMap Piece.lexeme).flatten = word := by
  by_cases hword : word = [] <;> simp [collected, hword, Piece.lexeme]

theorem flatten_piecesFrom (word line : List UInt8) :
    ((piecesFrom word line).filterMap Piece.lexeme).flatten = word ++ line.filter (· ≠ 32) := by
  fun_induction piecesFrom word line with
  | case1 word => simpa using flatten_collected word
  | case2 rest ih => simp [Piece.lexeme, ih]
  | case3 word rest hword ih => simp [flatten_collected, Piece.lexeme, ih]
  | case4 rest hrest ih => simp [Piece.lexeme, ih]
  | case5 word rest hrest hword ih => simp [flatten_collected, Piece.lexeme, ih]
  | case6 word rest _ _ ih => simp [flatten_collected, filterMap_cons, Piece.lexeme, ih]
  | case7 word c rest _ _ hc hop ih => simp [flatten_collected, Piece.lexeme, ih, hc]
  | case8 word c rest _ _ hc hop ih => simp [ih, hc]

/-- The lexemes are all of the line but its blanks. -/
theorem flatten_lexemes (line : List UInt8) : (lexemes line).flatten = line.filter (· ≠ 32) :=
  flatten_piecesFrom [] line

theorem lexemes_dropWhile (line : List UInt8) :
    lexemes (line.dropWhile (· = 32)) = lexemes line := by
  induction line with
  | nil => rfl
  | cons c line ih =>
    by_cases hc : c = 32
    · rw [dropWhile_cons_of_pos (by simpa using hc), ih, hc, lexemes, lexemes, pieces_space]
      rfl
    · rw [dropWhile_cons_of_neg (by simpa using hc)]

theorem separated_space_cons (line : List UInt8) : Separated (32 :: line) ↔ Separated line := by
  rw [Separated, pieces_space, isChain_cons]
  simp [Separated]

theorem separated_dropWhile (line : List UInt8) :
    Separated (line.dropWhile (· = 32)) ↔ Separated line := by
  induction line with
  | nil => rfl
  | cons c line ih =>
    by_cases hc : c = 32
    · rw [dropWhile_cons_of_pos (by simpa using hc), ih, hc, separated_space_cons]
    · rw [dropWhile_cons_of_neg (by simpa using hc)]

section Token

variable {line : List UInt8}

section

variable (hne : line ≠ []) (hline : line.head? ≠ some 32)
include hne hline

theorem lexemes_token :
    lexemes line = line.take (tokenLength line) :: lexemes (line.drop (tokenLength line)) := by
  obtain ⟨piece, hpiece, hpieces⟩ := pieces_lexeme hne hline
  rw [lexemes, hpieces, filterMap_cons_some hpiece]
  rfl

theorem length_filter_token :
    (line.filter (· ≠ 32)).length = (line.take (tokenLength line)).length +
      ((line.drop (tokenLength line)).filter (· ≠ 32)).length := by
  rw [← flatten_lexemes line, lexemes_token hne hline, flatten_cons, length_append, flatten_lexemes]

/-- A line is separated when a blank or the end follows its first token and the rest is separated.
-/
theorem separated_token :
    Separated line ↔ (∀ c ∈ (line.drop (tokenLength line)).head?, c = 32) ∧
      Separated (line.drop (tokenLength line)) := by
  obtain ⟨piece, hpiece, hpieces⟩ := pieces_lexeme hne hline
  have hspace : piece ≠ .space := by
    rintro rfl
    cases hpiece
  rw [Separated, hpieces, isChain_cons]
  refine and_congr ?_ Iff.rfl
  generalize line.drop (tokenLength line) = rest
  cases rest with
  | nil => simp [pieces, piecesFrom, collected]
  | cons c rest =>
    by_cases hc : c = 32
    · simp [hc, pieces_space]
    · obtain ⟨piece', hpiece', hpieces'⟩ :=
        pieces_lexeme (cons_ne_nil c rest) (by simpa using hc)
      have hspace' : piece' ≠ .space := by
        rintro rfl
        cases hpiece'
      simp [hpieces', hspace, hspace', hc]

end

end Token

theorem head?_dropWhile_ne (line : List UInt8) : (line.dropWhile (· = 32)).head? ≠ some 32 := by
  intro h
  have hfirst := head?_dropWhile_not (· = 32) line
  rw [h] at hfirst
  simp at hfirst

theorem length_flatten_cutTokens_le (fuel : ℕ) (line : List UInt8) :
    (cutTokens fuel line).flatten.length ≤ (line.filter (· ≠ 32)).length := by
  induction fuel generalizing line with
  | zero => simp [cutTokens]
  | succ fuel ih =>
    have hspaces : (line.filter (· ≠ 32)).length =
        ((line.dropWhile (· = 32)).filter (· ≠ 32)).length := by
      rw [← flatten_lexemes, ← flatten_lexemes, lexemes_dropWhile]
    rw [cutTokens, hspaces]
    have hhead := head?_dropWhile_ne line
    generalize line.dropWhile (· = 32) = rest at hhead
    by_cases hnil : rest = []
    · simp [hnil]
    rw [if_neg hnil, flatten_cons, length_append, length_filter_token hnil hhead]
    have hskip : ((rest.drop (tokenLength rest + 1)).filter (· ≠ 32)).length ≤
        ((rest.drop (tokenLength rest)).filter (· ≠ 32)).length := by
      rw [← drop_drop]
      exact ((drop_sublist 1 _).filter _).length_le
    have hrest := ih (rest.drop (tokenLength rest + 1))
    omega

theorem cutTokens_eq_lexemes_iff {fuel : ℕ} (hfuel : line.length ≤ fuel) :
    cutTokens fuel line = lexemes line ↔ Separated line := by
  induction fuel generalizing line with
  | zero =>
    obtain rfl := length_eq_zero_iff.mp (Nat.le_zero.mp hfuel)
    decide
  | succ fuel ih =>
    rw [← lexemes_dropWhile, ← separated_dropWhile, cutTokens]
    have hhead := head?_dropWhile_ne line
    have hlength : (line.dropWhile (· = 32)).length ≤ fuel + 1 :=
      (dropWhile_sublist _).length_le.trans hfuel
    generalize line.dropWhile (· = 32) = rest at hhead hlength
    by_cases hnil : rest = []
    · rw [if_pos hnil, hnil]
      decide
    have hpos := tokenLength_pos hnil hhead
    rw [if_neg hnil, lexemes_token hnil hhead, cons.injEq, and_iff_right rfl,
      separated_token hnil hhead, ← drop_drop]
    have hshort : (rest.drop (tokenLength rest)).length ≤ fuel := by
      rw [length_drop]
      omega
    generalize rest.drop (tokenLength rest) = tail at hshort
    cases tail with
    | nil =>
      rw [drop_nil, ih hshort]
      simp
    | cons c tail =>
      rw [drop_succ_cons, drop_zero]
      rw [length_cons] at hshort
      by_cases hc : c = 32
      · have hlexemes : lexemes (c :: tail) = lexemes tail := by
          rw [hc, lexemes, pieces_space]
          rfl
        rw [hlexemes, ih (by omega), hc, separated_space_cons]
        simp
      · -- The skipped character is missing in the tokens.
        refine iff_of_false (fun heq ↦ ?_) fun h ↦ hc (h.1 c rfl)
        have hcount := length_flatten_cutTokens_le fuel tail
        rw [heq, flatten_lexemes, filter_cons_of_pos (by simpa using hc), length_cons] at hcount
        omega

theorem length_cutTokens_le (fuel : ℕ) (line : List UInt8) :
    2 * (cutTokens fuel line).length ≤ line.length + 1 := by
  induction fuel generalizing line with
  | zero => simp [cutTokens]
  | succ fuel ih =>
    rw [cutTokens]
    have hhead := head?_dropWhile_ne line
    have hlength : (line.dropWhile (· = 32)).length ≤ line.length :=
      (dropWhile_sublist _).length_le
    generalize line.dropWhile (· = 32) = rest at hhead hlength
    by_cases hnil : rest = []
    · simp [hnil]
    have hpos := tokenLength_pos hnil hhead
    have hrest := ih (rest.drop (tokenLength rest + 1))
    have hne := length_pos_iff.mpr hnil
    rw [length_drop] at hrest
    rw [if_neg hnil, length_cons]
    omega

/-! ## The spaced line -/

theorem pieces_word_append (hne : token ≠ []) (htoken : ∀ c ∈ token, isWordChar c = true)
    (hrest : ∀ c ∈ rest.head?, c = 32) : pieces (token ++ rest) = .word token :: pieces rest := by
  rw [pieces, piecesFrom_append htoken, nil_append]
  apply piecesFrom_boundary hne
  · intro c hc
    rw [hrest c hc]
    decide
  · rintro ⟨-, hhead⟩
    exact absurd (hrest 62 hhead) (by decide)

theorem pieces_operator_append (htoken : token ∈ operators) (rest : List UInt8) :
    pieces (token ++ 32 :: rest) = .operator token :: .space :: pieces rest := by
  simp only [operators, mem_cons, not_mem_nil, or_false] at htoken
  rcases htoken with rfl | rfl | rfl | rfl | rfl | rfl <;>
    simp [pieces, piecesFrom, isOperator, collected]

theorem spaced_space (line : List UInt8) : spaced (32 :: line) = 32 :: spaced line := by
  rw [spaced, pieces_space]
  rfl

theorem head?_spaced (hrest : ∀ c ∈ rest.head?, isWordChar c = false) :
    ∀ c ∈ (spaced rest).head?, c = 32 := by
  by_cases hnil : rest = []
  · simp [hnil, spaced, pieces, piecesFrom, collected]
  by_cases hspace : rest.head? = some 32
  · obtain ⟨tail, rfl⟩ := head?_eq_some_iff.mp hspace
    simp [spaced_space]
  rcases pieces_token hnil hspace with ⟨-, hne, htoken, -⟩ | ⟨hop, -⟩
  · obtain ⟨c, tail, rfl⟩ := exists_cons_of_ne_nil hnil
    obtain ⟨k, hk⟩ := Nat.exists_eq_succ_of_ne_zero (tokenLength_pos hnil hspace).ne'
    have hword := htoken c (by rw [hk]; exact mem_cons_self)
    rw [hrest c rfl] at hword
    cases hword
  · rw [spaced, hop]
    simp [Piece.spaced]

/-- The blanks separate the lexemes of a line and leave them as they are. -/
theorem spaced_spec (n : ℕ) (hn : line.length ≤ n) :
    lexemes (spaced line) = lexemes line ∧ Separated (spaced line) := by
  induction n generalizing line with
  | zero =>
    obtain rfl := length_eq_zero_iff.mp (Nat.le_zero.mp hn)
    decide
  | succ n ih =>
    by_cases hnil : line = []
    · subst hnil
      decide
    by_cases hspace : line.head? = some 32
    · obtain ⟨rest, rfl⟩ := head?_eq_some_iff.mp hspace
      obtain ⟨hlexemes, hseparated⟩ := ih (Nat.le_of_succ_le_succ hn)
      rw [spaced_space, separated_space_cons, lexemes, lexemes, pieces_space, pieces_space]
      exact ⟨hlexemes, hseparated⟩
    have hlength : (line.drop (tokenLength line)).length ≤ n := by
      have := tokenLength_pos hnil hspace
      rw [length_drop]
      omega
    obtain ⟨hlexemes, hseparated⟩ := ih hlength
    rw [lexemes_token hnil hspace]
    rcases pieces_token hnil hspace with ⟨hword, hne, htoken, hstop⟩ | ⟨hop, htoken⟩
    · have hsplit : spaced line =
          line.take (tokenLength line) ++ spaced (line.drop (tokenLength line)) := by
        rw [spaced, hword]
        rfl
      have hhead := head?_spaced hstop
      have hnext : ∀ b ∈ (pieces (spaced (line.drop (tokenLength line)))).head?, b = .space := by
        cases hrest : spaced (line.drop (tokenLength line)) with
        | nil => simp [pieces, piecesFrom, collected]
        | cons c rest =>
          obtain rfl := hhead c (by rw [hrest]; rfl)
          simp [pieces_space]
      rw [hsplit, lexemes, Separated, pieces_word_append hne htoken hhead, ← hlexemes, isChain_cons]
      exact ⟨filterMap_cons_some rfl, fun b hb ↦ .inr (hnext b hb), hseparated⟩
    · have hsplit : spaced line = 32 :: (line.take (tokenLength line) ++
          32 :: spaced (line.drop (tokenLength line))) := by
        rw [spaced, hop]
        simp [Piece.spaced, spaced]
      rw [hsplit, separated_space_cons, lexemes, pieces_space, Separated,
        pieces_operator_append htoken, ← hlexemes, isChain_cons, isChain_cons]
      exact ⟨rfl, by simp, by simp, hseparated⟩

/-! ## Glued operators -/

/-- The code finds the words and operators of a line, and the same ones when the operators are
spaced, exactly when all of them are separated by blanks already. -/
theorem tokenize_spaced_iff {line : List UInt8} (hzero : 0 ∉ line)
    (hlength : line.length < TSH_LINE_MAX) :
    (tokenStrings line MAX_TOKENS = tokenStrings (spaced line) MAX_TOKENS ∧
        tokenStrings line MAX_TOKENS = some (lexemes line)) ↔
      Separated line := by
  rw [TSH_LINE_MAX] at hlength
  have hcount := length_cutTokens_le line.length line
  have hroom : (cutTokens line.length line).length ≤ MAX_TOKENS := by
    rw [MAX_TOKENS, TSH_LINE_MAX]
    omega
  have hiff : cutTokens line.length line = lexemes line ↔ Separated line :=
    cutTokens_eq_lexemes_iff le_rfl
  rw [tokenStrings_eq hzero, if_pos hroom, Option.some.injEq, hiff, and_iff_right_iff_imp]
  intro hseparated
  obtain ⟨hlexemes, hspaced⟩ := spaced_spec _ (le_refl line.length)
  have hsame : cutTokens (spaced line).length (spaced line) = lexemes line :=
    ((cutTokens_eq_lexemes_iff le_rfl).mpr hspaced).trans hlexemes
  have hzero' : 0 ∉ spaced line := by
    intro hmem
    have hfilter : 0 ∈ (spaced line).filter (· ≠ 32) := mem_filter.mpr ⟨hmem, by decide⟩
    rw [← flatten_lexemes, hlexemes, flatten_lexemes] at hfilter
    exact hzero (mem_of_mem_filter hfilter)
  rw [tokenStrings_eq hzero', hsame, ← hiff.mpr hseparated, if_pos hroom]

/-- The line `a | b`. -/
theorem tokenize_spaced_iff_spaces :
    tokenStrings [97, 32, 124, 32, 98] MAX_TOKENS =
        tokenStrings (spaced [97, 32, 124, 32, 98]) MAX_TOKENS ∧
      tokenStrings [97, 32, 124, 32, 98] MAX_TOKENS = some (lexemes [97, 32, 124, 32, 98]) :=
  (tokenize_spaced_iff (by decide) (by decide)).mpr (by decide)

/-- **A lost operator.** The line `a|b` has the tokens `a` and `b` only. -/
theorem glued_pipe_is_lost :
    tokenStrings [97, 124, 98] MAX_TOKENS = some [[97], [98]] ∧
      lexemes [97, 124, 98] = [[97], [124], [98]] ∧
      spaced [97, 124, 98] = [97, 32, 124, 32, 98] ∧
      tokenStrings (spaced [97, 124, 98]) MAX_TOKENS = some [[97], [124], [98]] := by
  decide

end ToastyUnix.Shell
