import ToastyUnix.Userspace.GrepText

/-!
# Searching lines

`re_search` of `grep.c` strips the anchors off the pattern and tries `m_seq` at the positions of the
line. Without anchors a pattern of plain text finds what the option `-F` finds. The anchor at the
end is checked by a second call of `m_seq` on the same tail, which again accepts any text behind the
pattern: `p$` is found wherever `p` occurs.
-/

namespace ToastyUnix.Regex.Grep

open List

def PAT_MAX : ℕ := 512

def LINE_MAX : ℕ := 4096

/-- A line as `main` passes it to `re_search`: it fits the buffer of `fgets`. -/
structure Line where
  text : Str
  noNul : 0 ∉ text
  short : text.length < LINE_MAX

/-- The `while` loop of the fixed search that ignores case reaches the end of the pattern. -/
def foldedPrefix : Str → Str → Bool
  | [], _ => true
  | _ :: _, [] => false
  | p :: pat, c :: s => tolower c = tolower p && foldedPrefix pat s

/-- `strstr` finds the pattern. -/
def strstr (line pat : Str) : Bool :=
  (range (line.length + 1)).any fun i ↦ pat.isPrefixOf (line.drop i)

/-- The loop of `re_search` over the positions of the line. -/
def searchLoop (anchored anchoredEnd : Bool) (buf line : Str) (ere icase : Bool) : List ℕ → Bool
  | [] => false
  | i :: positions =>
    if anchored ∧ i ≠ 0 then false
    else if mSeq buf (line.drop i) ere icase then
      if anchoredEnd then
        if LINE_MAX ≤ (line.drop i).length then false
        else if mSeq buf (line.drop i) ere icase then true
        else if anchored then false
        else searchLoop anchored anchoredEnd buf line ere icase positions
      else true
    else if anchored then false
    else searchLoop anchored anchoredEnd buf line ere icase positions

/-- `re_search`, with the option `-F` as `fixed`. -/
def reSearch (fixed : Bool) (pat line : Str) (ere icase : Bool) : Bool :=
  if fixed then
    if icase then (range (line.length + 1)).any fun i ↦ foldedPrefix pat (line.drop i)
    else strstr line pat
  else
    let anchored := decide (peek pat 0 = 94)
    let anchoredEnd := decide (0 < pat.length ∧ peek pat (pat.length - 1) = 36)
    let blen := pat.length - (if anchored then 1 else 0) - (if anchoredEnd then 1 else 0)
    if PAT_MAX ≤ blen then false
    else
      searchLoop anchored anchoredEnd ((pat.drop (if anchored then 1 else 0)).take blen) line ere
        icase (range (line.length + 1))

/-- A string without metacharacters. -/
def IsPlain (p : Str) : Prop := ∀ c ∈ p, IsLiteral c

instance (p : Str) : Decidable (IsPlain p) := inferInstanceAs (Decidable (∀ c ∈ p, _))

/-- The string as it is compared. -/
def fold (icase : Bool) (p : Str) : Str := p.map (mchar icase)

variable {ere icase : Bool} {p s : Str}

theorem fold_cons (c : UInt8) (p : Str) : fold icase (c :: p) = mchar icase c :: fold icase p := rfl

theorem IsPlain.isText (hp : IsPlain p) : IsText p := fun c hc ↦ .inl (hp c hc)

theorem matchesText_iff (hp : IsPlain p) :
    MatchesText icase p (s.take p.length) ↔ fold icase p <+: fold icase s := by
  induction p generalizing s with
  | nil => simp [MatchesText, fold]
  | cons c p ih =>
    have hc : c ≠ 46 := by
      rintro rfl
      exact (hp 46 mem_cons_self).2 (by decide)
    have hrest : IsPlain p := fun d hd ↦ hp d (mem_cons_of_mem _ hd)
    cases s with
    | nil => simp [MatchesText, fold]
    | cons d s =>
      rw [length_cons, take_succ_cons, MatchesText, forall₂_cons, fold_cons,
        fold_cons, cons_prefix_cons]
      refine and_congr ?_ (ih hrest)
      rw [matchesChar, if_neg hc, decide_eq_true_eq]
      exact eq_comm

/-- `m_seq` finds plain text at the start of the subject. -/
theorem mSeq_plain (hp : IsPlain p) (hs : 0 ∉ s) :
    mSeq p s ere icase = true ↔ fold icase p <+: fold icase s :=
  (mSeq_text hp.isText hs).trans (matchesText_iff hp)

theorem occurs_iff : p <:+: s ↔ ∃ i ∈ range (s.length + 1), p <+: s.drop i := by
  constructor
  · rintro ⟨before, behind, rfl⟩
    refine ⟨before.length, ?_, behind, ?_⟩
    · simp only [mem_range, length_append]
      omega
    · rw [append_assoc, drop_left]
  · rintro ⟨i, -, hi⟩
    exact hi.isInfix.trans (drop_suffix i s).isInfix

/-- Without a start anchor the loop finds the pattern at any position; an end anchor makes no
difference. -/
theorem searchLoop_free (anchoredEnd : Bool) (buf : Str) (line : Line) (positions : List ℕ) :
    searchLoop false anchoredEnd buf line.text ere icase positions =
      positions.any fun i ↦ mSeq buf (line.text.drop i) ere icase := by
  induction positions with
  | nil => rfl
  | cons i positions ih =>
    have htail : ¬LINE_MAX ≤ (line.text.drop i).length := by
      have hshort := line.short
      rw [length_drop]
      omega
    rw [searchLoop, any_cons, ih, if_neg (by simp), if_neg htail]
    cases mSeq buf (line.text.drop i) ere icase with
    | false => simp
    | true => simp

/-- An anchor at the start leaves the first position only. -/
theorem searchLoop_anchored (anchoredEnd : Bool) (buf : Str) (line : Line) (n : ℕ) :
    searchLoop true anchoredEnd buf line.text ere icase (range (n + 1)) =
      mSeq buf line.text ere icase := by
  have htail : ¬LINE_MAX ≤ (line.text.drop 0).length := not_le.mpr line.short
  rw [range_succ_eq_map, searchLoop, if_neg (by simp), if_neg htail, drop_zero]
  cases mSeq buf line.text ere icase with
  | false => simp
  | true => simp

theorem foldedPrefix_iff : foldedPrefix p s = true ↔ fold true p <+: fold true s := by
  induction p generalizing s with
  | nil => simp [foldedPrefix, fold]
  | cons c p ih =>
    cases s with
    | nil => simp [foldedPrefix, fold]
    | cons d s =>
      rw [foldedPrefix, Bool.and_eq_true, decide_eq_true_eq, ih, fold_cons, fold_cons,
        cons_prefix_cons]
      exact and_congr_left fun _ ↦ eq_comm

theorem fold_drop (i : ℕ) : fold icase (s.drop i) = (fold icase s).drop i := map_drop

theorem reSearch_fixed_iff (p line : Str) (ere icase : Bool) :
    reSearch true p line ere icase = true ↔ fold icase p <:+: fold icase line := by
  have hlength : (fold icase line).length = line.length := length_map _
  rw [occurs_iff, hlength, reSearch, if_pos rfl]
  cases icase with
  | true =>
    rw [if_pos rfl, any_eq_true]
    refine exists_congr fun i ↦ and_congr_right fun _ ↦ ?_
    rw [foldedPrefix_iff, fold_drop]
  | false =>
    have hfold (q : Str) : fold false q = q := map_id q
    rw [if_neg (by simp), strstr, any_eq_true]
    refine exists_congr fun i ↦ and_congr_right fun _ ↦ ?_
    rw [ isPrefixOf_iff_prefix, hfold, hfold]

/-- At some position `m_seq` finds plain text exactly when it occurs there. -/
theorem any_mSeq_iff (hp : IsPlain p) (line : Line) :
    ((range (line.text.length + 1)).any fun i ↦ mSeq p (line.text.drop i) ere icase) = true ↔
      fold icase p <:+: fold icase line.text := by
  have hlength : (fold icase line.text).length = line.text.length := length_map _
  rw [occurs_iff, hlength, any_eq_true]
  refine exists_congr fun i ↦ and_congr_right fun _ ↦ ?_
  have hnul : 0 ∉ line.text.drop i := fun h ↦ line.noNul (mem_of_mem_drop h)
  rw [mSeq_plain hp hnul, fold_drop]

theorem IsPlain.peek_ne (hp : IsPlain p) {m : UInt8} (hm : m ∈ metacharacters) (i : ℕ) :
    peek p i ≠ m := by
  rintro rfl
  by_cases hi : i < p.length
  · have hmem : peek p i ∈ p := by
      rw [peek, getD_eq_getElem _ _ hi]
      exact getElem_mem hi
    exact (hp _ hmem).2 hm
  · rw [peek, getD_eq_default _ _ (not_lt.mp hi)] at hm
    exact absurd hm (by decide)

/-- The search for a pattern from which the anchors have been taken off. -/
theorem reSearch_eq {pat buf : Str} {anchored anchoredEnd : Bool}
    (hstart : decide (peek pat 0 = 94) = anchored)
    (hend : decide (0 < pat.length ∧ peek pat (pat.length - 1) = 36) = anchoredEnd)
    (hbuf : (pat.drop (if anchored then 1 else 0)).take
      (pat.length - (if anchored then 1 else 0) - (if anchoredEnd then 1 else 0)) = buf)
    (hlen : pat.length - (if anchored then 1 else 0) - (if anchoredEnd then 1 else 0) < PAT_MAX)
    (line : Str) (ere icase : Bool) :
    reSearch false pat line ere icase =
      searchLoop anchored anchoredEnd buf line ere icase (range (line.length + 1)) := by
  subst hstart hend hbuf
  rw [reSearch, if_neg Bool.false_ne_true]
  exact if_neg (not_le.mpr hlen)

/-- A pattern of plain text finds what a fixed string finds: its occurrences. -/
theorem plain_search_agrees (hp : IsPlain p) (hlen : p.length ≤ 510) (line : Line)
    (ere icase : Bool) :
    reSearch false p line.text ere icase = reSearch true p line.text ere icase ∧
      (reSearch false p line.text ere icase = true ↔ fold icase p <:+: fold icase line.text) := by
  have hstart : decide (peek p 0 = 94) = false := decide_eq_false (hp.peek_ne (by decide) 0)
  have hend : decide (0 < p.length ∧ peek p (p.length - 1) = 36) = false :=
    decide_eq_false fun h ↦ hp.peek_ne (by decide) _ h.2
  have hregex : reSearch false p line.text ere icase = true ↔
      fold icase p <:+: fold icase line.text := by
    have hbuf : (p.drop 0).take (p.length - 0 - 0) = p := by simp
    have hshort : p.length - 0 - 0 < PAT_MAX := by
      rw [PAT_MAX]
      omega
    rw [reSearch_eq hstart hend hbuf hshort, searchLoop_free, any_mSeq_iff hp line]
  refine ⟨?_, hregex⟩
  rw [Bool.eq_iff_iff, hregex, reSearch_fixed_iff]

theorem plain_search_agrees_folded :
    IsPlain (ascii "ELL") ∧
      reSearch false (ascii "ELL") (ascii "Hello") true true =
        reSearch true (ascii "ELL") (ascii "Hello") true true :=
  ⟨by decide +kernel, (plain_search_agrees (p := ascii "ELL") (by decide +kernel) (by decide)
    ⟨ascii "Hello", by decide, by decide⟩ true true).1⟩

theorem reSearch_start (hp : IsPlain p) (hlen : p.length ≤ 500) (line : Line) :
    reSearch false (94 :: p) line.text ere icase = mSeq p line.text ere icase := by
  have hstart : decide (peek (94 :: p) 0 = 94) = true := rfl
  have hlast : peek (94 :: p) p.length ≠ 36 := by
    cases p with
    | nil => decide
    | cons c p => exact hp.peek_ne (by decide) p.length
  have hend : decide (0 < (94 :: p).length ∧ peek (94 :: p) ((94 :: p).length - 1) = 36) = false :=
    decide_eq_false fun h ↦ hlast h.2
  have hbuf : ((94 :: p).drop 1).take ((94 :: p).length - 1 - 0) = p := by simp
  have hshort : (94 :: p).length - 1 - 0 < PAT_MAX := by
    rw [length_cons, PAT_MAX]
    omega
  rw [reSearch_eq hstart hend hbuf hshort, searchLoop_anchored]

theorem peek_append_last (p : Str) (c : UInt8) : peek (p ++ [c]) p.length = c := by
  simp [peek]

theorem reSearch_end (hp : IsPlain p) (hlen : p.length ≤ 500) (line : Line) :
    reSearch false (p ++ [36]) line.text ere icase =
      (range (line.text.length + 1)).any fun i ↦ mSeq p (line.text.drop i) ere icase := by
  have hstart : decide (peek (p ++ [36]) 0 = 94) = false := by
    cases p with
    | nil => rfl
    | cons c p => exact decide_eq_false (hp.peek_ne (by decide) 0)
  have hlength : (p ++ [36]).length = p.length + 1 := length_append
  have hend : decide (0 < (p ++ [36]).length ∧ peek (p ++ [36]) ((p ++ [36]).length - 1) = 36) =
      true := by
    rw [hlength, Nat.add_sub_cancel, peek_append_last]
    simp
  have hbuf : ((p ++ [36]).drop 0).take ((p ++ [36]).length - 0 - 1) = p := by simp
  have hshort : (p ++ [36]).length - 0 - 1 < PAT_MAX := by
    rw [hlength, PAT_MAX]
    omega
  rw [reSearch_eq hstart hend hbuf hshort, searchLoop_free]

theorem reSearch_both (hlen : p.length ≤ 500) (line : Line) :
    reSearch false (94 :: (p ++ [36])) line.text ere icase = mSeq p line.text ere icase := by
  have hstart : decide (peek (94 :: (p ++ [36])) 0 = 94) = true := rfl
  have hlength : (94 :: (p ++ [36])).length = p.length + 2 := by simp
  have hend : decide (0 < (94 :: (p ++ [36])).length ∧
      peek (94 :: (p ++ [36])) ((94 :: (p ++ [36])).length - 1) = 36) = true := by
    rw [hlength]
    exact decide_eq_true ⟨by omega, peek_append_last p 36⟩
  have hbuf : ((94 :: (p ++ [36])).drop 1).take ((94 :: (p ++ [36])).length - 1 - 1) = p := by simp
  have hshort : (94 :: (p ++ [36])).length - 1 - 1 < PAT_MAX := by
    rw [hlength, PAT_MAX]
    omega
  rw [reSearch_eq hstart hend hbuf hshort, searchLoop_anchored]

/-- The anchors of a pattern with plain text between them hold exactly for texts that occur in the
line only where the anchors ask for them. -/
theorem anchors_hold_iff (hp : IsPlain p) (hlen : p.length ≤ 500) (line : Line) (ere icase : Bool) :
    ((reSearch false (94 :: p) line.text ere icase = true ↔ fold icase p <+: fold icase line.text) ∧
        (reSearch false (p ++ [36]) line.text ere icase = true ↔
          fold icase p <:+ fold icase line.text) ∧
        (reSearch false (94 :: (p ++ [36])) line.text ere icase = true ↔
          fold icase line.text = fold icase p)) ↔
      (fold icase p <:+: fold icase line.text → fold icase p <:+ fold icase line.text) ∧
        (fold icase p <+: fold icase line.text → fold icase line.text = fold icase p) := by
  rw [reSearch_start hp hlen, reSearch_end hp hlen, reSearch_both hlen, any_mSeq_iff hp line,
    mSeq_plain hp line.noNul]
  refine ⟨fun ⟨_, hend, hboth⟩ ↦ ⟨hend.mp, hboth.mp⟩, fun ⟨hend, hboth⟩ ↦ ⟨Iff.rfl, ?_, ?_⟩⟩
  · exact ⟨hend, fun h ↦ h.isInfix⟩
  · exact ⟨hboth, fun h ↦ h ▸ prefix_rfl⟩

theorem anchors_hold_iff_word :
    reSearch false (ascii "lo$") (ascii "hello") false false = true ↔
      fold false (ascii "lo") <:+ fold false (ascii "hello") :=
  ((anchors_hold_iff (p := ascii "lo") (by decide +kernel) (by decide)
    ⟨ascii "hello", by decide, by decide⟩ false false).mpr ⟨by decide, by decide⟩).2.1

/-- `a$` and `^a$` are found in `ab`. -/
theorem anchored_end_ignored :
    reSearch false (ascii "a$") (ascii "ab") false false = true ∧
      ¬ascii "a" <:+ ascii "ab" ∧
      reSearch false (ascii "^a$") (ascii "ab") false false = true ∧ ascii "ab" ≠ ascii "a" := by
  decide

end ToastyUnix.Regex.Grep
