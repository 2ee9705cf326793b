import ToastyUnix.Userspace.GrepBracket

/-!
# Text in the patterns of grep

What `m_seq` of `grep.c` makes of literals and dots, alone, repeated and in a group. It accepts a
text exactly when the subject starts with it, since the end of the pattern accepts whatever is left
of the subject.
-/

namespace ToastyUnix.Regex

open List

/-- The bytes with a meaning of their own in a pattern: `. [ \ * + ? { | ( ) ^ $`. -/
def metacharacters : List UInt8 := [46, 91, 92, 42, 43, 63, 123, 124, 40, 41, 94, 36]

/-- A byte that stands for itself. -/
def IsLiteral (c : UInt8) : Prop := c ≠ 0 ∧ c ∉ metacharacters

instance (c : UInt8) : Decidable (IsLiteral c) := inferInstanceAs (Decidable (_ ∧ _))

/-- A literal or a dot. -/
def IsTextChar (c : UInt8) : Prop := IsLiteral c ∨ c = 46

instance (c : UInt8) : Decidable (IsTextChar c) := inferInstanceAs (Decidable (_ ∨ _))

/-- A sequence of literals and dots. -/
def IsText (p : Str) : Prop := ∀ c ∈ p, IsTextChar c

instance (p : Str) : Decidable (IsText p) := inferInstanceAs (Decidable (∀ c ∈ p, _))

/-- A byte of the subject matches a literal or a dot. -/
def matchesChar (icase : Bool) (p c : UInt8) : Bool :=
  if p = 46 then c ≠ 0 else mchar icase c = mchar icase p

section Scanning

variable {ere icase : Bool} {c : UInt8} {p t : Str} {fuel offset : ℕ} {depth : ℤ}

/-- Text has none of the bytes that the scanners look for. -/
theorem IsTextChar.plain (hc : IsTextChar c) :
    c ≠ 0 ∧ c ≠ 92 ∧ c ≠ 40 ∧ c ≠ 41 ∧ c ≠ 124 ∧ c ≠ 91 ∧ c ≠ 42 ∧ c ≠ 43 ∧ c ≠ 63 ∧ c ≠ 123 ∧
      c ≠ 94 ∧ c ≠ 36 := by
  rcases hc with ⟨hzero, hmeta⟩ | rfl
  · simp only [metacharacters, mem_cons, not_mem_nil, or_false, not_or] at hmeta
    tauto
  · decide

theorem peek_cons_zero (c : UInt8) (p : Str) : peek (c :: p) 0 = c := rfl

/-- A scan that steps over each byte of a text passes over the text. -/
theorem scan_text {f : ℕ → ℕ → Str → Option ℕ} (hp : IsText p)
    (hstep : ∀ {fuel offset c t}, IsTextChar c → f (fuel + 1) offset (c :: t) = f fuel (offset + 1) t) :
    f (p.length + fuel) offset (p ++ t) = f fuel (offset + p.length) t := by
  induction p generalizing offset with
  | nil => simp
  | cons c p ih =>
    obtain ⟨hc, hrest⟩ := forall_mem_cons.mp hp
    have hfuel : (c :: p).length + fuel = p.length + fuel + 1 := Nat.succ_add p.length fuel
    have hoffset : offset + (c :: p).length = offset + 1 + p.length := by
      rw [length_cons]
      omega
    rw [hfuel, hoffset, cons_append, hstep hc, ih hrest]

theorem findAlt_text (hp : IsText p) :
    findAlt ere (p.length + fuel) depth offset (p ++ t) =
      findAlt ere fuel depth (offset + p.length) t := by
  refine scan_text (f := fun fuel ↦ findAlt ere fuel depth) hp fun {_ _ c _} hc ↦ ?_
  simp [findAlt, peek_cons_zero, hc.plain]

theorem groupEndLoop_text (hp : IsText p) :
    groupEndLoop ere (p.length + fuel) depth offset (p ++ t) =
      groupEndLoop ere fuel depth (offset + p.length) t := by
  refine scan_text (f := fun fuel ↦ groupEndLoop ere fuel depth) hp fun {_ _ c _} hc ↦ ?_
  simp [groupEndLoop, peek_cons_zero, hc.plain]

theorem findAlt_nil : findAlt ere fuel depth offset [] = none := by
  cases fuel <;> rfl

theorem altEnd_text (hp : IsText p) : altEnd ere p = none := by
  have hscan : findAlt ere (p.length + 0) 0 0 (p ++ []) = findAlt ere 0 0 (0 + p.length) [] :=
    findAlt_text hp
  rw [append_nil, Nat.add_zero, findAlt_nil] at hscan
  exact hscan

theorem quantifier_text (hp : IsText p) : quantifier ere p = .once := by
  cases p with
  | nil => cases ere <;> rfl
  | cons c p =>
    have hc : IsTextChar c := hp c mem_cons_self
    simp [quantifier, peek_cons_zero, hc.plain]

theorem counts_once (s : Str) : counts .once s = [1] := rfl

end Scanning

namespace Grep

variable {ere icase : Bool} {c : UInt8} {p re : Str} {s : Str}

theorem reAtomLen_textChar (hc : IsTextChar c) : reAtomLen ere (c :: p) = 1 := by
  simp [reAtomLen, peek_cons_zero, hc.plain]

theorem reAtomChar_textChar (hc : IsTextChar c) (d : UInt8) :
    reAtomChar ere icase (c :: p) d = matchesChar icase c d := by
  by_cases hdot : c = 46
  · simp [reAtomChar, peek_cons_zero, hdot, matchesChar]
  · simp only [reAtomChar, peek_cons_zero, hdot, hc.plain, matchesChar, and_false, if_false]
    exact decide_eq_decide.mpr Iff.rfl

theorem isGroup_textChar (hc : IsTextChar c) : isGroup ere (c :: p) = false := by
  simp [isGroup, peek_cons_zero, hc.plain]

/-- Every byte matches its place in the text. -/
def MatchesText (icase : Bool) (p s : Str) : Prop :=
  List.Forall₂ (fun c d ↦ matchesChar icase c d = true) p s

theorem mSeq_text (hp : IsText p) (hs : 0 ∉ s) :
    mSeq p s ere icase = true ↔ MatchesText icase p (s.take p.length) := by
  induction p generalizing s with
  | nil => simp [mSeq, Regex.mSeq_eq, mSeqBody, peek, MatchesText]
  | cons c p ih =>
    have hc : IsTextChar c := hp c mem_cons_self
    have hrest : IsText p := fun d hd ↦ hp d (mem_cons_of_mem _ hd)
    have hlen : reAtomLen ere (c :: p) = 1 := reAtomLen_textChar hc
    have hquantifier : pieceQuantifier ere (c :: p) = .once := by
      rw [pieceQuantifier, hlen]
      exact quantifier_text hrest
    have hpiece : IsPiece ere (c :: p) := by
      constructor <;> simp [peek_cons_zero, hc.plain, altEnd_text hp]
    have htail : pieceRest ere (c :: p) = p := by
      rw [pieceRest, hlen, hquantifier]
      rfl
    rw [mSeq, hpiece.mSeq_eq, pieceMatch_mandatory grep_atomLen (by rw [hlen]; decide)
      (by rw [hquantifier]; decide) (isGroup_textChar hc), hquantifier, htail, counts_once]
    cases s with
    | nil => simp [takes, peek, MatchesText]
    | cons d s =>
      rw [mem_cons, not_or] at hs
      have hd : d ≠ 0 := Ne.symm hs.1
      have hstep := ih hrest hs.2
      have hfound (b : Bool) : (Grep.engine.tailFound (!b) || b) = b := by cases b <;> rfl
      have hchar : Grep.engine.atomChar ere icase (c :: p) d = matchesChar icase c d :=
        reAtomChar_textChar hc d
      have htakes : takes Grep.engine ere icase (c :: p) 1 (d :: s) = matchesChar icase c d := by
        simp [takes, peek_cons_zero, hd, hchar]
      rw [any_cons, any_nil, Bool.or_false, hfound, htakes, Bool.and_eq_true,
        length_cons, take_succ_cons, MatchesText, forall₂_cons]
      exact and_congr_right fun _ ↦ hstep

end Grep

end ToastyUnix.Regex
