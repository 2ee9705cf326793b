import ToastyUnix.Userspace.GrepText

/-!
# Groups in grep

A group is matched by `m_seq` on every start of the subject, and `m_seq` accepts a start that is
longer than what the body of the group asks for. A group of text therefore takes its text or any
longer start (`mSeq_group_iff`).
-/

namespace ToastyUnix.Regex.Grep

open List

variable {ere icase : Bool} {group rest re s : Str} {mseq : Str → Str → Bool}

/-- The loop over the lengths of a group finds one that leaves a tail for the rest. -/
theorem groupLoop_once (s : Str) (lengths : List ℕ) (hshort : ∀ l ∈ lengths, l < 512) :
    groupLoop mseq group s (qCont engine ere icase mseq re (mseqCont mseq rest) 1) lengths
        (false, false) =
      if lengths.any fun l ↦ mseq group (s.take l) && mseq rest (s.drop l) then (true, (true, true))
      else (false, (false, false)) := by
  induction lengths with
  | nil => rfl
  | cons l lengths ih =>
    have hl : ¬512 ≤ l := not_le.mpr (hshort l mem_cons_self)
    have hnext := ih fun m hm ↦ hshort m (mem_cons_of_mem _ hm)
    rw [groupLoop, if_neg hl, qCont_one, mseqCont, any_cons]
    cases mseq group (s.take l) with
    | false => exact hnext
    | true =>
      cases mseq rest (s.drop l) with
      | false => exact hnext
      | true => rfl

theorem found_repsMatch_group (hgroup : isGroup ere re = true)
    (htext : groupText engine ere re = some group) (hs : s.length < 512) :
    found (repsMatch engine ere icase mseq re s 1 (mseqCont mseq rest) false) =
      (List.range (s.length + 1)).any fun l ↦ mseq group (s.take l) && mseq rest (s.drop l) := by
  have hshort : ∀ l ∈ List.range (s.length + 1), l < 512 := by
    intro l hl
    rw [mem_range] at hl
    omega
  rw [repsMatch, if_neg one_ne_zero, atomEach, if_pos hgroup, htext]
  simp only
  rw [groupLoop_once s _ hshort]
  cases (List.range (s.length + 1)).any fun l ↦ mseq group (s.take l) && mseq rest (s.drop l) <;>
    rfl

/-- The pattern of a group: `(X)`, or `\(X\)` in a basic expression. -/
def groupPattern (ere : Bool) (body : Str) : Str :=
  if ere then 40 :: (body ++ [41]) else 92 :: 40 :: (body ++ [92, 41])

section Group

variable {body : Str}

theorem isGroup_groupPattern : isGroup ere (groupPattern ere body ++ rest) = true := by
  cases ere <;> rfl

theorem groupPattern_ere_append : groupPattern true body ++ rest = 40 :: (body ++ 41 :: rest) := by
  simp [groupPattern]

theorem groupPattern_basic_append :
    groupPattern false body ++ rest = 92 :: 40 :: (body ++ 92 :: 41 :: rest) := by
  simp [groupPattern]

theorem length_groupPattern_append :
    (groupPattern ere body ++ rest).length = body.length + (rest.length + if ere then 1 else 3) + 1 := by
  cases ere
  · simp [groupPattern]
    omega
  · simp [groupPattern]

section

variable (hbody : IsText body)
include hbody

theorem reGroupEnd_groupPattern :
    reGroupEnd ere (groupPattern ere body ++ rest) =
      some (body.length + if ere then 1 else 3) := by
  cases ere with
  | true =>
    have hscan : groupEndLoop true (body.length + (rest.length + 1)) 1 1 (body ++ 41 :: rest) =
        groupEndLoop true (rest.length + 1) 1 (1 + body.length) (41 :: rest) :=
      groupEndLoop_text hbody
    rw [reGroupEnd, length_groupPattern_append, groupPattern_ere_append]
    refine hscan.trans ?_
    rw [Nat.add_comm 1]
    rfl
  | false =>
    have hscan : groupEndLoop false (body.length + (rest.length + 3)) 1 2
          (body ++ 92 :: 41 :: rest) =
        groupEndLoop false (rest.length + 3) 1 (2 + body.length) (92 :: 41 :: rest) :=
      groupEndLoop_text hbody
    rw [reGroupEnd, length_groupPattern_append, groupPattern_basic_append]
    refine hscan.trans ?_
    rw [Nat.add_comm 2]
    rfl

theorem reAtomLen_groupPattern :
    reAtomLen ere (groupPattern ere body ++ rest) = (groupPattern ere body).length := by
  have hend : reGroupEnd ere (groupPattern ere body ++ rest) = _ := reGroupEnd_groupPattern hbody
  have hlen : groupLen ere (groupPattern ere body ++ rest) = (groupPattern ere body).length := by
    rw [groupLen, hend]
    cases ere <;> simp [groupPattern]
  rw [← hlen]
  cases ere <;> rfl

theorem groupText_groupPattern (hlen : body.length < 512) :
    groupText engine ere (groupPattern ere body ++ rest) = some body := by
  have hend : engine.groupEnd ere (groupPattern ere body ++ rest) = _ :=
    reGroupEnd_groupPattern hbody
  rw [groupText, hend]
  cases ere with
  | true =>
    simp [engine, groupPattern, peek, hlen]
  | false =>
    simp [engine, groupPattern, peek, hlen]

theorem altEnd_groupPattern (hrest : IsText rest) :
    altEnd ere (groupPattern ere body ++ rest) = none := by
  cases ere with
  | true =>
    have hscan : findAlt true (body.length + (rest.length + 1)) 1 1 (body ++ 41 :: rest) =
        findAlt true (rest.length + 1) 1 (1 + body.length) (41 :: rest) := findAlt_text hbody
    have htail : findAlt true (rest.length + 0) 0 (1 + body.length + 1) (rest ++ []) =
        findAlt true 0 0 (1 + body.length + 1 + rest.length) [] := findAlt_text hrest
    rw [append_nil] at htail
    rw [altEnd, length_groupPattern_append, groupPattern_ere_append]
    exact hscan.trans htail
  | false =>
    have hscan : findAlt false (body.length + (rest.length + 3)) 1 2 (body ++ 92 :: 41 :: rest) =
        findAlt false (rest.length + 3) 1 (2 + body.length) (92 :: 41 :: rest) :=
      findAlt_text hbody
    have htail : findAlt false (rest.length + 2) 0 (2 + body.length + 2) (rest ++ []) =
        findAlt false 2 0 (2 + body.length + 2 + rest.length) [] := findAlt_text hrest
    rw [append_nil] at htail
    rw [altEnd, length_groupPattern_append, groupPattern_basic_append]
    exact hscan.trans htail

/-- A group of text takes its text or any longer start of the subject. -/
theorem mSeq_group_iff (hrest : IsText rest) (hs : 0 ∉ s) (hshort : s.length < 512) :
    mSeq (groupPattern ere body ++ rest) s ere icase = true ↔
      MatchesText icase body (s.take body.length) ∧
        ∃ l, body.length ≤ l ∧ l ≤ s.length ∧
          MatchesText icase rest ((s.drop l).take rest.length) := by
  have hlen : reAtomLen ere (groupPattern ere body ++ rest) = (groupPattern ere body).length :=
    reAtomLen_groupPattern hbody
  have halen : reAtomLen ere (groupPattern ere body ++ rest) ≠ 0 := by
    rw [hlen]
    cases ere <;> simp [groupPattern]
  have hpiece : IsPiece ere (groupPattern ere body ++ rest) := by
    refine ⟨?_, ?_, ?_, by rw [altEnd_groupPattern hbody hrest]; rfl⟩
    all_goals cases ere <;> simp [groupPattern, peek]
  have hquantifier : pieceQuantifier ere (groupPattern ere body ++ rest) = .once := by
    rw [pieceQuantifier, hlen, drop_left, quantifier_text hrest]
  have htail : pieceRest ere (groupPattern ere body ++ rest) = rest := by
    rw [pieceRest, hlen, hquantifier]
    exact drop_left
  rw [mSeq, hpiece.mSeq_eq, pieceMatch_eq grep_atomLen halen, hquantifier, counts_once, htail,
    any_cons, any_nil, Bool.or_false]
  by_cases hfits : body.length < 512
  · rw [found_repsMatch_group isGroup_groupPattern (groupText_groupPattern hbody hfits) hshort,
      any_eq_true]
    constructor
    · rintro ⟨l, hl, hboth⟩
      rw [Bool.and_eq_true] at hboth
      have hfirst := (mSeq_text hbody fun h ↦ hs (mem_of_mem_take h)).mp hboth.1
      have hsecond := (mSeq_text hrest fun h ↦ hs (mem_of_mem_drop h)).mp hboth.2
      have hsplit := hfirst.length_eq
      rw [length_take, length_take] at hsplit
      rw [mem_range] at hl
      rw [take_take, min_eq_left (by omega)] at hfirst
      exact ⟨hfirst, l, by omega, by omega, hsecond⟩
    · rintro ⟨hfirst, l, hge, hle, hsecond⟩
      refine ⟨l, mem_range.mpr (by omega), Bool.and_eq_true_iff.mpr ⟨?_, ?_⟩⟩
      · refine (mSeq_text hbody fun h ↦ hs (mem_of_mem_take h)).mpr ?_
        rwa [take_take, min_eq_left hge]
      · exact (mSeq_text hrest fun h ↦ hs (mem_of_mem_drop h)).mpr hsecond
  · -- a group that does not fit the buffer is longer than the subject
    have hend : engine.groupEnd ere (groupPattern ere body ++ rest) = _ :=
      reGroupEnd_groupPattern hbody
    have hnone : groupText engine ere (groupPattern ere body ++ rest) = none := by
      rw [groupText, hend]
      cases ere <;> simp [engine, groupPattern, peek, not_lt.mp hfits]
    refine iff_of_false ?_ fun h ↦ ?_
    · rw [repsMatch, if_neg one_ne_zero, atomEach, if_pos isGroup_groupPattern, hnone]
      simp [found]
    · have hsplit := h.1.length_eq
      rw [length_take] at hsplit
      omega

end

/-- A group of text consumes its text exactly for subjects in which the rest occurs right behind the
text whenever it occurs further on. -/
theorem group_consumes_iff (hbody : IsText body) (hrest : IsText rest) (hs : 0 ∉ s)
    (hshort : s.length < 512) :
    (mSeq (groupPattern ere body ++ rest) s ere icase = true ↔
        body.length ≤ s.length ∧ MatchesText icase body (s.take body.length) ∧
          mSeq rest (s.drop body.length) ere icase = true) ↔
      (MatchesText icase body (s.take body.length) → ∀ l, body.length < l → l ≤ s.length →
          MatchesText icase rest ((s.drop l).take rest.length) →
          MatchesText icase rest ((s.drop body.length).take rest.length)) := by
  have hlength : MatchesText icase body (s.take body.length) → body.length ≤ s.length := by
    intro hfirst
    have hsplit := hfirst.length_eq
    rw [length_take] at hsplit
    omega
  rw [mSeq_group_iff hbody hrest hs hshort, mSeq_text hrest fun h ↦ hs (mem_of_mem_drop h)]
  constructor
  · intro hclaim hfirst l hl hle hfurther
    exact (hclaim.mp ⟨hfirst, l, hl.le, hle, hfurther⟩).2.2
  · intro hfurther
    constructor
    · rintro ⟨hfirst, l, hge, hle, hsecond⟩
      refine ⟨hlength hfirst, hfirst, ?_⟩
      rcases hge.eq_or_lt with heq | hlt
      · exact heq ▸ hsecond
      · exact hfurther hfirst l hlt hle hsecond
    · rintro ⟨hle, hfirst, hsecond⟩
      exact ⟨hfirst, _, le_rfl, hle, hsecond⟩

theorem group_consumes_iff_dot :
    mSeq (groupPattern true (ascii "a.") ++ ascii "c") (ascii "abd") true false = true ↔
      (ascii "a.").length ≤ (ascii "abd").length ∧
        MatchesText false (ascii "a.") ((ascii "abd").take (ascii "a.").length) ∧
        mSeq (ascii "c") ((ascii "abd").drop (ascii "a.").length) true false = true := by
  refine (group_consumes_iff (by decide +kernel) (by decide +kernel) (by decide +kernel)
    (by decide +kernel)).mpr fun _ l hl hle hfurther ↦ ?_
  obtain rfl : l = 3 := le_antisymm hle hl
  cases hfurther.length_eq

/-- `(a)b` matches `axb`: the group takes `ax`. -/
theorem group_consumes_more :
    mSeq (groupPattern true (ascii "a") ++ ascii "b") (ascii "axb") true false = true ∧
      mSeq (ascii "b") ((ascii "axb").drop 1) true false = false := by
  decide

end Group

end ToastyUnix.Regex.Grep
