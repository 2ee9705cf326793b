import ToastyUnix.Userspace.RegexEngine

/-!
# Brackets in grep

Two loops of `grep.c` look for the end of a bracket: `re_atom_len` starts behind the `[`, and
`re_atom_char` behind the `[^` of a negated set, where a first `]` is a member again. They agree
exactly when the pattern does not start with `[^]`.
-/

namespace ToastyUnix.Regex

open List

theorem peek_drop (p : Str) (n i : ℕ) : peek (p.drop n) i = peek p (n + i) := by
  rw [peek, peek, getD_eq_getElem?_getD, getElem?_drop, getD_eq_getElem?_getD]

namespace Grep

variable {ere icase first : Bool} {re p : Str} {fuel fuel' : ℕ}

variable {rest : Str}

theorem strchr_length_le {c : UInt8} (h : strchr p c = some rest) : rest.length ≤ p.length := by
  induction p with
  | nil => cases h
  | cons a p ih =>
    rw [strchr] at h
    split_ifs at h with hnul hfound
    · cases h
      exact le_rfl
    · exact (ih h).trans (Nat.le_succ _)

theorem classEnd_length_lt (h : classEnd p = some rest) : rest.length < p.length := by
  unfold classEnd at h
  split_ifs at h with hmark
  split at h
  · rename_i close hclose
    split_ifs at h with hend
    cases h
    have hle := strchr_length_le hclose
    have hpos : 0 < p.length := lt_length_of_peek (by rw [hmark.1]; decide)
    rw [length_drop] at hle ⊢
    omega
  · cases h

theorem bracketEnd_length_le (fuel : ℕ) (first : Bool) (p : Str) :
    (bracketEnd fuel first p).length ≤ p.length := by
  induction fuel generalizing first p with
  | zero => exact le_rfl
  | succ fuel ih =>
    have hdrop (n : ℕ) : (bracketEnd fuel false (p.drop n)).length ≤ p.length :=
      (ih false _).trans (drop_sublist n p).length_le
    rw [bracketEnd]
    by_cases hinside : peek p 0 ≠ 0 ∧ (peek p 0 ≠ 93 ∨ first = true)
    · rw [if_pos hinside]
      split
      · rename_i rest hrest
        exact (ih false rest).trans (classEnd_length_lt hrest).le
      · split
        · exact hdrop 2
        · exact hdrop 1
    · rw [if_neg hinside]

/-- The loop runs at most once for every byte. -/
theorem bracketEnd_fuel (h : p.length ≤ fuel) (h' : p.length ≤ fuel') :
    bracketEnd fuel first p = bracketEnd fuel' first p := by
  induction fuel generalizing fuel' first p with
  | zero =>
    obtain rfl : p = [] := length_eq_zero_iff.mp (Nat.le_zero.mp h)
    cases fuel' with
    | zero => rfl
    | succ fuel' => simp [bracketEnd, peek]
  | succ fuel ih =>
    cases fuel' with
    | zero =>
      obtain rfl : p = [] := length_eq_zero_iff.mp (Nat.le_zero.mp h')
      simp [bracketEnd, peek]
    | succ fuel' =>
      rw [bracketEnd, bracketEnd]
      refine if_congr Iff.rfl ?_ rfl
      split
      · rename_i rest hrest
        have hlt := classEnd_length_lt hrest
        exact ih (by omega) (by omega)
      · refine if_congr Iff.rfl (ih ?_ ?_) (ih ?_ ?_) <;>
        · rw [length_drop]
          omega

/-- Only a `]` at the start makes a difference to the flag `first`. -/
theorem bracketEnd_first (h : peek p 0 ≠ 93) :
    bracketEnd fuel first p = bracketEnd fuel true p := by
  cases fuel with
  | zero => rfl
  | succ fuel =>
    rw [bracketEnd, bracketEnd]
    exact if_congr (by simp [h]) rfl rfl

/-- Where the loop of `re_atom_char` stops. -/
def setEnd (re : Str) : Str :=
  bracketEnd re.length true (if decide (peek re 1 = 94) then re.drop 2 else re.drop 1)

/-- The index of the `]` that `re_atom_char` takes for the end of the set. -/
def setClose (re : Str) : Option ℕ :=
  if peek (setEnd re) 0 = 93 then some (re.length - (setEnd re).length) else none

section

variable (hbracket : peek re 0 = 91)
include hbracket

theorem reAtomChar_bracket (c : UInt8) :
    reAtomChar ere icase re c =
      if peek (setEnd re) 0 ≠ 93 then false
      else
        let neg := decide (peek re 1 = 94)
        let found := members c (setEnd re).length re.length
          (if neg then re.drop 2 else re.drop 1) false
        if neg then !found else found := by
  unfold reAtomChar
  simp only [hbracket]
  rw [if_neg (by simp), if_neg (by decide), if_pos trivial]
  rfl

/-- Without a closing `]` the bracket matches nothing. -/
theorem reAtomChar_of_setClose (hclose : setClose re = none)
    (icase : Bool) (c : UInt8) : reAtomChar ere icase re c = false := by
  have hend : peek (setEnd re) 0 ≠ 93 := by
    intro h
    simp [setClose, h] at hclose
  rw [reAtomChar_bracket hbracket, if_pos hend]

theorem reAtomLen_bracket :
    reAtomLen ere re =
      if peek (bracketEnd re.length true (re.drop 1)) 0 = 93 then
        re.length - (bracketEnd re.length true (re.drop 1)).length + 1
      else 0 := by
  unfold reAtomLen
  simp only [hbracket]
  rw [if_neg (by decide), if_neg (by simp), if_neg (by simp), if_pos trivial]

/-- When the two loops stop at the same place, the two functions agree. -/
theorem agree_of_setEnd (hend : setEnd re = bracketEnd re.length true (re.drop 1)) :
    (0 < reAtomLen ere re → setClose re = some (reAtomLen ere re - 1)) ∧
      (reAtomLen ere re = 0 →
        setClose re = none ∧ ∀ icase c, reAtomChar ere icase re c = false) := by
  have hlen : reAtomLen ere re = _ := reAtomLen_bracket hbracket
  rw [← hend] at hlen
  by_cases hclose : peek (setEnd re) 0 = 93
  · rw [if_pos hclose] at hlen
    refine ⟨fun _ ↦ ?_, fun hzero ↦ by omega⟩
    rw [setClose, if_pos hclose, hlen, Nat.add_sub_cancel]
  · rw [if_neg hclose] at hlen
    have hset : setClose re = none := if_neg hclose
    refine ⟨fun h ↦ by omega, fun _ ↦ ⟨hset, fun icase c ↦ ?_⟩⟩
    exact reAtomChar_of_setClose hbracket hset icase c

end

/-- The loop of `re_atom_len` passes over the `^` of a negated set. -/
theorem bracketEnd_caret (hneg : peek re 1 = 94) :
    bracketEnd re.length true (re.drop 1) = bracketEnd (re.length - 1) false (re.drop 2) := by
  have hlen : 1 < re.length := lt_length_of_peek (by rw [hneg]; decide)
  have hhead : peek (re.drop 1) 0 = 94 := (peek_drop re 1 0).trans hneg
  obtain ⟨n, hn⟩ : ∃ n, re.length = n + 1 := ⟨re.length - 1, by omega⟩
  have hclass : classEnd (re.drop 1) = none := by
    rw [classEnd, hhead, if_neg (by simp)]
  rw [hn, Nat.add_sub_cancel, bracketEnd, hhead, if_pos (by decide), hclass, if_neg (by simp),
    drop_drop]

/-- Behind `[^` a `]` ends the bracket for `re_atom_len` and is a member for `re_atom_char`. -/
theorem setClose_of_negated (hneg : peek re 1 = 94) (hfirst : peek re 2 = 93) :
    setClose re ≠ some 2 := by
  have hlen : 2 < re.length := lt_length_of_peek (by rw [hfirst]; decide)
  have hhead : peek (re.drop 2) 0 = 93 := (peek_drop re 2 0).trans hfirst
  obtain ⟨n, hn⟩ : ∃ n, re.length = n + 1 := ⟨re.length - 1, by omega⟩
  have hclass : classEnd (re.drop 2) = none := by
    rw [classEnd, hhead, if_neg (by simp)]
  have hend : setEnd re = bracketEnd n false (re.drop 3) := by
    rw [setEnd, if_pos (by simpa using hneg), hn, bracketEnd, hhead, if_pos (by decide), hclass,
      if_neg (by simp), drop_drop]
  have hshort : (setEnd re).length ≤ re.length - 3 := by
    rw [hend, ← length_drop]
    exact bracketEnd_length_le _ _ _
  unfold setClose
  split_ifs
  · rw [Ne, Option.some.injEq]
    omega
  · simp

/-- The two loops agree on where a bracket ends exactly when it does not start with `[^]`. -/
theorem bracket_scanners_agree_iff (ere : Bool) (re : Str) (hbracket : peek re 0 = 91) :
    ((0 < reAtomLen ere re → setClose re = some (reAtomLen ere re - 1)) ∧ (reAtomLen ere re = 0 →
        setClose re = none ∧ ∀ icase c, reAtomChar ere icase re c = false)) ↔
      ¬(peek re 1 = 94 ∧ peek re 2 = 93) := by
  have hhead : peek (re.drop 2) 0 = peek re 2 := peek_drop re 2 0
  by_cases hneg : peek re 1 = 94
  · have hlen : 1 < re.length := lt_length_of_peek (by rw [hneg]; decide)
    by_cases hfirst : peek re 2 = 93
    · refine iff_of_false (fun hagree ↦ ?_) fun h ↦ h ⟨hneg, hfirst⟩
      have hstop : bracketEnd (re.length - 1) false (re.drop 2) = re.drop 2 := by
        obtain ⟨n, hn⟩ : ∃ n, re.length - 1 = n + 1 := ⟨re.length - 2, by omega⟩
        rw [hn, bracketEnd, hhead, hfirst, if_neg (by decide)]
      have hthree : reAtomLen ere re = 3 := by
        rw [reAtomLen_bracket hbracket, bracketEnd_caret hneg, hstop, hhead, if_pos hfirst,
          length_drop]
        omega
      have hset := hagree.1 (by omega)
      rw [hthree] at hset
      exact setClose_of_negated hneg hfirst hset
    · refine iff_of_true (agree_of_setEnd hbracket ?_) fun h ↦ hfirst h.2
      have hdrop : (re.drop 2).length ≤ re.length - 1 := by
        rw [length_drop]
        omega
      rw [setEnd, if_pos (by simpa using hneg), bracketEnd_caret hneg]
      exact (bracketEnd_fuel (by omega) hdrop).trans (bracketEnd_first (hhead ▸ hfirst)).symm
  · refine iff_of_true (agree_of_setEnd hbracket ?_) fun h ↦ hneg h.1
    rw [setEnd, if_neg (by simpa using hneg)]

theorem bracket_scanners_agree_iff_negated :
    peek (ascii "[^[:alpha:]x]y") 0 = 91 ∧
      (0 < reAtomLen true (ascii "[^[:alpha:]x]y") →
        setClose (ascii "[^[:alpha:]x]y") = some (reAtomLen true (ascii "[^[:alpha:]x]y") - 1)) :=
  ⟨by decide, ((bracket_scanners_agree_iff true (ascii "[^[:alpha:]x]y") (by decide)).mpr
    (by decide)).1⟩

/-- In `[^]a]b` one loop ends the bracket at the first `]`, the other at the second. -/
theorem bracket_scanners_differ :
    reAtomLen true (ascii "[^]a]b") = 3 ∧ setClose (ascii "[^]a]b") = some 4 := by
  decide

end Grep

end ToastyUnix.Regex
