import ToastyUnix.Userspace.Regex

/-!
# How the engines work

`m_seq` calls itself on shorter patterns only, so it has the equation that its body gives. The loops
over the numbers of repetitions ask whether some number leads to a match.
-/

namespace ToastyUnix.Regex

open List

section Congruence

variable {engine : Engine} {ere icase : Bool} {mseq mseq' : Str → Str → Bool} {σ : Type}

theorem groupLoop_congr {group : Str} (h : ∀ s, mseq group s = mseq' group s) (s : Str) (cb : Cb σ)
    (lengths : List ℕ) (ctx : σ) :
    groupLoop mseq group s cb lengths ctx = groupLoop mseq' group s cb lengths ctx := by
  induction lengths generalizing ctx with
  | nil => rfl
  | cons l lengths ih =>
    rw [groupLoop, groupLoop, h]
    simp only [ih]

variable {re : Str}

section

variable (h : ∀ group s, groupText engine ere re = some group → mseq group s = mseq' group s)
include h

theorem atomEach_congr (cb : Cb σ) (ctx : σ) (s : Str) :
    atomEach engine ere icase mseq re cb ctx s = atomEach engine ere icase mseq' re cb ctx s := by
  unfold atomEach
  cases hgroup : groupText engine ere re with
  | none => rfl
  | some group => simp only [groupLoop_congr (h group · hgroup)]

theorem qCont_congr (finalCb : Cb σ) (count : ℕ) :
    qCont engine ere icase mseq re finalCb count =
      qCont engine ere icase mseq' re finalCb count := by
  induction count with
  | zero => rfl
  | succ count ih =>
    cases count with
    | zero => rfl
    | succ count =>
      funext ⟨ok, ctx⟩ s
      rw [qCont, qCont, ih, atomEach_congr h]

theorem countLoop_congr {rest : Str} (hrest : ∀ s, mseq rest s = mseq' rest s) (s : Str)
    (counts : List ℕ) (ok : Bool) :
    countLoop engine ere icase mseq re s rest counts ok =
      countLoop engine ere icase mseq' re s rest counts ok := by
  have hcont : mseqCont mseq rest = mseqCont mseq' rest := by
    funext ok s
    rw [mseqCont, mseqCont, hrest]
  induction counts generalizing ok with
  | nil => rfl
  | cons count counts ih =>
    rw [countLoop, countLoop, repsMatch, repsMatch, hcont, qCont_congr h, atomEach_congr h]
    simp only [ih]

end

theorem branchLoop_congr {s : Str} {bs : List Str} (h : ∀ b ∈ bs, mseq b s = mseq' b s) :
    branchLoop mseq s bs = branchLoop mseq' s bs := by
  induction bs with
  | nil => rfl
  | cons b bs ih =>
    rw [forall_mem_cons] at h
    rw [branchLoop, branchLoop, h.1, ih h.2]

end Congruence

variable {p re b q : Str} {n fuel stop : ℕ} {ere icase : Bool} {engine : Engine}

theorem lt_length_of_peek {i : ℕ} (h : peek p i ≠ 0) : i < p.length := by
  by_contra hle
  exact h (getD_eq_default _ _ (not_lt.mp hle))

theorem length_drop_lt (hre : peek re 0 ≠ 0) (hn : n ≠ 0) : (re.drop n).length < re.length := by
  have hpos := lt_length_of_peek hre
  rw [length_drop]
  omega

theorem findAlt_lt {offset : ℕ} {depth : ℤ} (h : findAlt ere fuel depth offset p = some n) :
    n < offset + p.length := by
  induction fuel generalizing depth offset p with
  | zero => cases h
  | succ fuel ih =>
    -- a step of one or two bytes stays inside the pattern
    have hstep {depth : ℤ} {k : ℕ} (hk : k ≤ p.length)
        (h : findAlt ere fuel depth (offset + k) (p.drop k) = some n) :
        n < offset + p.length := by
      have hnext := ih h
      rw [length_drop] at hnext
      omega
    have htwo {c : UInt8} (h : peek p 1 = c) (hc : c ≠ 0) : 2 ≤ p.length :=
      lt_length_of_peek (h ▸ hc)
    rw [findAlt] at h
    by_cases hnul : peek p 0 = 0
    · rw [if_pos hnul] at h
      cases h
    have hone : 1 ≤ p.length := lt_length_of_peek hnul
    rw [if_neg hnul] at h
    split at h
    case isTrue hparen =>
      have hlen : 2 ≤ p.length := by
        simp only [Bool.and_eq_true, Bool.or_eq_true, decide_eq_true_eq] at hparen
        exact hparen.2.elim (htwo · (by decide)) (htwo · (by decide))
      exact hstep hlen h
    split at h
    case isTrue => exact hstep hone h
    split at h
    case isTrue hbar =>
      split at h
      · cases h
        omega
      · refine hstep ?_ h
        split
        case isTrue hesc =>
          have hnext : peek p 1 = 124 := by
            simp only [Bool.and_eq_true, Bool.or_eq_true, decide_eq_true_eq] at hbar hesc
            refine hbar.elim (fun h ↦ ?_) And.right
            rw [hesc.2] at h
            cases h
          exact htwo hnext (by decide)
        case isFalse => exact hone
    case isFalse =>
      refine hstep ?_ h
      split
      case isTrue hesc =>
        simp only [ne_eq, Bool.and_eq_true, decide_eq_true_eq] at hesc
        exact lt_length_of_peek (by simpa using hesc.2)
      case isFalse => exact hone

theorem length_le_of_mem_branches (h : b ∈ branches ere fuel re) : b.length ≤ re.length := by
  induction fuel generalizing re with
  | zero => cases h
  | succ fuel ih =>
    rw [branches] at h
    split at h
    · obtain rfl | h := mem_cons.mp h
      · exact length_take_le' _ _
      · exact (ih h).trans (drop_sublist _ _).length_le
    · rw [mem_singleton.mp h]

theorem length_lt_of_mem_branches (halt : (altEnd ere re).isSome) (h : b ∈ branches ere fuel re) :
    b.length < re.length := by
  obtain ⟨n, hn⟩ := Option.isSome_iff_exists.mp halt
  have hlt := findAlt_lt hn
  cases fuel with
  | zero => cases h
  | succ fuel =>
    simp only [branches, hn] at h
    obtain rfl | h := mem_cons.mp h
    · rw [length_take]
      omega
    · have hle := length_le_of_mem_branches h
      rw [length_drop] at hle
      split at hle <;> omega

theorem groupText_length_lt {group : Str} (hre : peek re 0 ≠ 0)
    (h : groupText engine ere re = some group) : group.length < re.length := by
  unfold groupText at h
  split at h
  · cases h
  · simp only at h
    split_ifs at h <;>
    · cases h
      exact (length_take_le' _ _).trans_lt (length_drop_lt hre (by decide))

/-- `m_seq` calls itself on shorter patterns only. -/
theorem mSeqBody_congr {mseq mseq' : Str → Str → Bool}
    (h : ∀ r s, r.length < re.length → mseq r s = mseq' r s) (s : Str) :
    mSeqBody engine ere icase mseq re s = mSeqBody engine ere icase mseq' re s := by
  unfold mSeqBody
  split_ifs with hnul hcaret hdollar halt
  · rfl
  · exact h _ _ (length_drop_lt hnul one_ne_zero)
  · rfl
  · exact branchLoop_congr fun b hb ↦ h _ _ (length_lt_of_mem_branches halt hb)
  · unfold pieceMatch
    simp only
    split_ifs with halen
    · rfl
    · exact countLoop_congr (fun _ _ hgroup ↦ h _ _ (groupText_length_lt hnul hgroup))
        (fun _ ↦ h _ _ (length_drop_lt hnul (by omega))) _ _ _

theorem mSeqFuel_eq {fuel' : ℕ} {s : Str} (h : re.length < fuel) (h' : re.length < fuel') :
    mSeqFuel engine ere icase fuel re s = mSeqFuel engine ere icase fuel' re s := by
  induction fuel generalizing fuel' re s with
  | zero => omega
  | succ fuel ih =>
    cases fuel' with
    | zero => omega
    | succ fuel' =>
      rw [mSeqFuel, mSeqFuel]
      exact mSeqBody_congr (fun r s hr ↦ ih (by omega) (by omega)) s

theorem mSeq_eq (engine : Engine) (ere icase : Bool) (re s : Str) :
    mSeq engine ere icase re s = mSeqBody engine ere icase (mSeq engine ere icase) re s := by
  rw [mSeq, mSeqFuel]
  exact mSeqBody_congr (fun r s hr ↦ mSeqFuel_eq hr (Nat.lt_succ_self _)) s

section Repetition

variable {engine : Engine} {ere icase : Bool} {mseq : Str → Str → Bool} {re rest : Str}

/-- The first `count` bytes of a string match an atom. -/
def takes (engine : Engine) (ere icase : Bool) (re : Str) : ℕ → Str → Bool
  | 0, _ => true
  | count + 1, s =>
    peek s 0 ≠ 0 && engine.atomChar ere icase re (peek s 0) &&
      takes engine ere icase re count (s.drop 1)

/-- What `m_seq` makes of the two flags that a call of `reps_match` leaves. -/
def found : Bool × Bool → Bool
  | (ok, flag) => ok || flag

theorem countLoop_eq_any (s : Str) (counts : List ℕ) :
    countLoop engine ere icase mseq re s rest counts false =
      counts.any fun count ↦
        found (repsMatch engine ere icase mseq re s count (mseqCont mseq rest) false) := by
  induction counts with
  | nil => rfl
  | cons count counts ih =>
    rw [countLoop, any_cons, ← ih]
    split <;> simp_all [found]

variable {σ : Type}

/-- An atom that is not a group takes one byte. -/
theorem atomEach_plain (hplain : isGroup ere re = false) (cb : Cb σ) (ctx : σ) (s : Str) :
    atomEach engine ere icase mseq re cb ctx s =
      if peek s 0 ≠ 0 && engine.atomChar ere icase re (peek s 0) then
        (!(cb ctx (s.drop 1)).1, (cb ctx (s.drop 1)).2)
      else (false, ctx) := by
  unfold atomEach
  rw [hplain, if_neg Bool.false_ne_true]
  by_cases hnul : peek s 0 = 0 <;> by_cases hchar : engine.atomChar ere icase re (peek s 0) <;>
    simp [hnul, hchar]

theorem qCont_one (finalCb : Cb σ) (ok : Bool) (ctx : σ) (s : Str) :
    qCont engine ere icase mseq re finalCb 1 (ok, ctx) s =
      if engine.tailFound (finalCb ctx s).1 then (false, (true, (finalCb ctx s).2))
      else (true, (ok, (finalCb ctx s).2)) := rfl

/-- Repeating a plain atom takes its bytes one by one and then asks for the tail. -/
theorem qCont_plain (hplain : isGroup ere re = false) (finalCb : Cb σ) (count : ℕ) (ok : Bool)
    (ctx : σ) (s : Str) :
    qCont engine ere icase mseq re finalCb (count + 1) (ok, ctx) s =
      if takes engine ere icase re count s then
        qCont engine ere icase mseq re finalCb 1 (ok, ctx) (s.drop count)
      else (true, (ok, ctx)) := by
  induction count generalizing ok s with
  | zero => rfl
  | succ count ih =>
    rw [qCont, atomEach_plain hplain, takes, ih, drop_drop]
    by_cases hbyte : peek s 0 ≠ 0 && engine.atomChar ere icase re (peek s 0)
    · rw [if_pos hbyte, hbyte, Bool.true_and, Nat.add_comm 1 count]
      cases takes engine ere icase re count (s.drop 1) with
      | false => rfl
      | true =>
        rw [if_pos rfl, if_pos rfl, qCont_one, qCont_one]
        by_cases htail : engine.tailFound (finalCb ctx (s.drop (count + 1))).1 <;> simp [htail]
    · rw [if_neg hbyte, Bool.eq_false_iff.mpr hbyte]
      rfl

theorem found_repsMatch_succ (hplain : isGroup ere re = false) (count : ℕ) (s : Str) :
    found (repsMatch engine ere icase mseq re s (count + 1) (mseqCont mseq rest) false) =
      (takes engine ere icase re (count + 1) s &&
        (engine.tailFound (!mseq rest (s.drop (count + 1))) ||
          mseq rest (s.drop (count + 1)))) := by
  rw [repsMatch, if_neg (Nat.succ_ne_zero _), atomEach_plain hplain, takes,
    qCont_plain hplain, drop_drop, Nat.add_comm 1 count]
  by_cases hbyte : peek s 0 ≠ 0 && engine.atomChar ere icase re (peek s 0)
  · rw [if_pos hbyte, hbyte, Bool.true_and]
    cases takes engine ere icase re count (s.drop 1) with
    | false => rfl
    | true =>
      rw [if_pos rfl, qCont_one, mseqCont]
      cases mseq rest (s.drop (count + 1)) <;>
        by_cases htail : engine.tailFound true <;> by_cases htail' : engine.tailFound false <;>
        simp [found, htail, htail']
  · rw [if_neg hbyte, Bool.eq_false_iff.mpr hbyte]
    rfl

end Repetition

/-- `m_seq` reads the pattern as an atom with a quantifier and a rest. -/
structure IsPiece (ere : Bool) (re : Str) : Prop where
  notEmpty : peek re 0 ≠ 0
  notCaret : peek re 0 ≠ 94
  notDollar : ¬(peek re 0 = 36 ∧ peek re 1 = 0)
  noAlternative : (altEnd ere re).isSome = false

/-- The quantifier of the first piece. -/
def pieceQuantifier (ere : Bool) (re : Str) : Quantifier :=
  quantifier ere (re.drop (Grep.reAtomLen ere re))

/-- The pattern behind the first piece. -/
def pieceRest (ere : Bool) (re : Str) : Str :=
  re.drop (Grep.reAtomLen ere re + (pieceQuantifier ere re).len)

section Pieces

variable {ere icase : Bool} {re : Str}

theorem IsPiece.mSeq_eq (engine : Engine) (h : IsPiece ere re) (s : Str) :
    mSeq engine ere icase re s = pieceMatch engine ere icase (mSeq engine ere icase) re s := by
  rw [Regex.mSeq_eq, mSeqBody, if_neg h.notEmpty, if_neg h.notCaret, if_neg h.notDollar,
    h.noAlternative, if_neg Bool.false_ne_true]

theorem grep_atomLen : Grep.engine.atomLen ere re = Grep.reAtomLen ere re := rfl

variable {engine : Engine} {count : ℕ} {s : Str}

section

variable (hlen : engine.atomLen ere re = Grep.reAtomLen ere re)
include hlen

theorem pieceMatch_eq (halen : Grep.reAtomLen ere re ≠ 0) (mseq : Str → Str → Bool) (s : Str) :
    pieceMatch engine ere icase mseq re s =
      (counts (pieceQuantifier ere re) s).any fun count ↦
        found (repsMatch engine ere icase mseq re s count (mseqCont mseq (pieceRest ere re))
          false) := by
  unfold pieceMatch
  simp only
  rw [hlen, if_neg halen, countLoop_eq_any]
  rfl

/-- A mandatory plain piece matches when some number of repetitions does and the tail is found. -/
theorem pieceMatch_mandatory (halen : Grep.reAtomLen ere re ≠ 0)
    (hmin : (pieceQuantifier ere re).min ≠ 0) (hplain : isGroup ere re = false)
    (mseq : Str → Str → Bool) (s : Str) :
    pieceMatch engine ere icase mseq re s =
      (counts (pieceQuantifier ere re) s).any fun count ↦ takes engine ere icase re count s &&
        (engine.tailFound (!mseq (pieceRest ere re) (s.drop count)) ||
          mseq (pieceRest ere re) (s.drop count)) := by
  rw [pieceMatch_eq hlen halen, Bool.eq_iff_iff, any_eq_true, any_eq_true]
  refine exists_congr fun count ↦ and_congr_right fun hcount ↦ ?_
  have hpos : count ≠ 0 := by
    rintro rfl
    simp [counts] at hcount
    omega
  obtain ⟨count, rfl⟩ := Nat.exists_eq_succ_of_ne_zero hpos
  rw [found_repsMatch_succ hplain count s]

end

end Pieces

end ToastyUnix.Regex
