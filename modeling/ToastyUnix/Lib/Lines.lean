import Mathlib

/-!
# Reading text through a bounded buffer

A reader that takes at most `n` symbols at a time and stops after a line end, as `fgets` does, and
a tokeniser that skips separators and cuts the text at the next one, as `strtok_r` does.

`flatMap_readAll` compares the pieces that the reader delivers with the lines of the text: a line
arrives as its pieces of `n` symbols, in order. `tokenLoop_eq` says that the tokeniser finds the
words of the text, the non-empty parts between separators. `readAll_flatten` is the converse for a
text that is written piece by piece: the reader delivers the pieces that were written.
-/

namespace ToastyUnix.Lines

open List

variable {α : Type*}

/-- Read up to `n` symbols, none after a line end: what was read and what is left. -/
def readLine [DecidableEq α] (nl : α) : ℕ → List α → List α × List α
  | 0, s => ([], s)
  | _ + 1, [] => ([], [])
  | n + 1, c :: s =>
    if c = nl then ([c], s)
    else ((c :: (readLine nl n s).1), (readLine nl n s).2)

/-- At most `fuel` calls of the reader. -/
def readLoop [DecidableEq α] (nl : α) (n : ℕ) : ℕ → List α → List (List α)
  | 0, _ => []
  | fuel + 1, s =>
    if s = [] then [] else (readLine nl n s).1 :: readLoop nl n fuel (readLine nl n s).2

/-- All pieces that the reader delivers until the end of the text; each takes a symbol at least. -/
def readAll [DecidableEq α] (nl : α) (n : ℕ) (s : List α) : List (List α) :=
  readLoop nl n s.length s

variable {gap o n : ℕ} {parts : List (List α)} {part : ℕ × List α} {line : List α}

/-- Parts of a text with their offsets, where `gap` symbols stand between two parts. -/
def withOffsets (gap : ℕ) : ℕ → List (List α) → List (ℕ × List α)
  | _, [] => []
  | o, part :: parts => (o, part) :: withOffsets gap (o + part.length + gap) parts

theorem mem_of_mem_withOffsets (h : part ∈ withOffsets gap o parts) : part.2 ∈ parts := by
  induction parts generalizing o with
  | nil => simp [withOffsets] at h
  | cons p parts ih =>
    rcases mem_cons.mp h with rfl | h
    · exact mem_cons_self
    · exact mem_cons_of_mem _ (ih h)

theorem exists_mem_withOffsets (gap o : ℕ) {part : List α} (h : part ∈ parts) :
    ∃ k, (k, part) ∈ withOffsets gap o parts := by
  induction parts generalizing o with
  | nil => simp at h
  | cons p parts ih =>
    rcases mem_cons.mp h with rfl | h
    · exact ⟨o, mem_cons_self⟩
    · obtain ⟨k, hk⟩ := ih (o + p.length + gap) h
      exact ⟨k, mem_cons_of_mem _ hk⟩

theorem le_of_mem_withOffsets (h : part ∈ withOffsets gap o parts) : o ≤ part.1 := by
  induction parts generalizing o with
  | nil => simp [withOffsets] at h
  | cons p parts ih =>
    rcases mem_cons.mp h with rfl | h
    · exact le_rfl
    · have := ih h
      omega

/-- The pieces of `n` symbols of a line at offset `o`; the last one is shorter. -/
def pieces (n o : ℕ) (line : List α) : List (ℕ × List α) :=
  (List.range (line.length / n + 1)).map fun k ↦ (o + n * k, (line.drop (n * k)).take n)

theorem pieces_of_short (hn : line.length < n) : pieces n o line = [(o, line)] := by
  simp [pieces, Nat.div_eq_of_lt hn, take_of_length_le hn.le]

theorem pieces_of_long (hpos : 0 < n) (hn : n ≤ line.length) :
    pieces n o line = (o, line.take n) :: pieces n (o + n) (line.drop n) := by
  have hcount : line.length / n = (line.drop n).length / n + 1 := by
    rw [length_drop, Nat.div_eq_sub_div hpos hn]
  rw [pieces, hcount, range_succ_eq_map, map_cons, map_map, Nat.mul_zero,
    Nat.add_zero, drop_zero, pieces]
  congr 1
  refine map_congr_left fun k _ ↦ ?_
  simp only [Function.comp_apply, Nat.succ_eq_add_one, drop_drop, Nat.mul_add, Nat.mul_one,
    Nat.add_assoc, Nat.add_comm n]

/-- What one call takes from a text that goes on: a line with its end, or a full buffer. -/
def IsPiece (nl : α) (n : ℕ) (p : List α) : Prop :=
  (∃ line, nl ∉ line ∧ line.length < n ∧ p = line ++ [nl]) ∨ nl ∉ p ∧ p.length = n

section Piece

variable {nl : α} {n : ℕ} {p : List α}

theorem IsPiece.length_le (hp : IsPiece nl n p) : p.length ≤ n := by
  rcases hp with ⟨line, -, hshort, rfl⟩ | ⟨-, hfull⟩
  · simpa using hshort
  · exact hfull.le

theorem IsPiece.ne_nil (hn : 0 < n) (hp : IsPiece nl n p) : p ≠ [] := by
  rcases hp with ⟨line, -, -, rfl⟩ | ⟨-, hfull⟩
  · simp
  · exact ne_nil_of_length_pos (by omega)

end Piece

section Reader

variable [DecidableEq α] {nl : α} {n : ℕ} {line : List α}

/-- Symbols that fit the buffer and hold no line end are read before all others. -/
theorem readLine_append {u : List α} (hu : nl ∉ u) (hn : u.length ≤ n) (v : List α) :
    readLine nl n (u ++ v) =
      (u ++ (readLine nl (n - u.length) v).1, (readLine nl (n - u.length) v).2) := by
  induction u generalizing n with
  | nil => rfl
  | cons c u ih =>
    obtain ⟨n, rfl⟩ := Nat.exists_eq_succ_of_ne_zero (by rw [length_cons] at hn; omega : n ≠ 0)
    rw [mem_cons, not_or] at hu
    rw [length_cons, Nat.succ_le_succ_iff] at hn
    rw [cons_append, Nat.succ_eq_add_one, readLine, if_neg (Ne.symm hu.1), length_cons,
      Nat.add_sub_add_right, ih hu.2 hn]
    rfl

theorem readLine_of_long (rest : List α) (hnl : nl ∉ line)
    (hn : n ≤ line.length) : readLine nl n (line ++ rest) = (line.take n, line.drop n ++ rest) := by
  have hlength : (line.take n).length = n := length_take_of_le hn
  have hread := readLine_append (fun h ↦ hnl (mem_of_mem_take h)) hlength.le (line.drop n ++ rest)
  rwa [← append_assoc, take_append_drop, hlength, Nat.sub_self, readLine, append_nil] at hread

theorem readLine_of_short (rest : List α) (hnl : nl ∉ line)
    (hn : line.length < n) : readLine nl n (line ++ nl :: rest) = (line ++ [nl], rest) := by
  obtain ⟨k, hk⟩ := Nat.exists_eq_succ_of_ne_zero (by omega : n - line.length ≠ 0)
  rw [readLine_append hnl hn.le, hk, Nat.succ_eq_add_one, readLine, if_pos rfl]

theorem readLine_of_last (hnl : nl ∉ line)
    (hn : line.length < n) : readLine nl n line = (line, []) := by
  obtain ⟨k, hk⟩ := Nat.exists_eq_succ_of_ne_zero (by omega : n - line.length ≠ 0)
  have hread := readLine_append hnl hn.le []
  rwa [append_nil, hk, Nat.succ_eq_add_one, readLine, append_nil] at hread

theorem splitOn_append_cons (rest : List α) (hnl : nl ∉ line) :
    (line ++ nl :: rest).splitOn nl = line :: rest.splitOn nl := by
  apply splitOnP_append_cons_of_forall_mem
  · intro x hx
    simpa using fun heq : x = nl ↦ hnl (heq ▸ hx)
  · simp

variable {s p : List α}

theorem notMem_of_mem_splitOn (h : line ∈ s.splitOn nl) : nl ∉ line := by
  induction hlength : s.length using Nat.strong_induction_on generalizing s with
  | _ length ih =>
    by_cases hmem : nl ∈ s
    · obtain ⟨first, rest, rfl, hfirst⟩ := eq_append_cons_of_mem hmem
      rw [splitOn_append_cons rest hfirst] at h
      rcases mem_cons.mp h with rfl | h
      · exact hfirst
      · refine ih rest.length ?_ h rfl
        rw [← hlength, length_append, length_cons]
        omega
    · rw [splitOn_eq_singleton hmem, mem_singleton] at h
      exact h ▸ hmem

theorem readLoop_nil (fuel : ℕ) : readLoop nl n fuel [] = [] := by
  cases fuel <;> simp [readLoop]

theorem IsPiece.readLine_append (hp : IsPiece nl n p) (rest : List α) :
    readLine nl n (p ++ rest) = (p, rest) := by
  rcases hp with ⟨line, hline, hshort, rfl⟩ | ⟨hfree, hfull⟩
  · rw [append_assoc]
    exact readLine_of_short rest hline hshort
  · rw [readLine_of_long rest hfree hfull.ge, ← hfull, take_length, drop_length, nil_append]

theorem readLine_append_self (n : ℕ) (s : List α) :
    (readLine nl n s).1 ++ (readLine nl n s).2 = s := by
  induction n generalizing s with
  | zero => rfl
  | succ n ih =>
    cases s with
    | nil => rfl
    | cons c s =>
      rw [readLine]
      split
      · rfl
      · exact congrArg (c :: ·) (ih s)

theorem length_readLine_lt (hn : 0 < n) (hs : s ≠ []) : (readLine nl n s).2.length < s.length := by
  obtain ⟨n, rfl⟩ := Nat.exists_eq_succ_of_ne_zero hn.ne'
  obtain ⟨c, s, rfl⟩ := exists_cons_of_ne_nil hs
  have hlength := congrArg length (@readLine_append_self _ _ nl (n + 1) (c :: s))
  have htaken : (readLine nl (n + 1) (c :: s)).1 ≠ [] := by
    rw [readLine]
    split <;> simp
  have hpos := length_pos_iff.mpr htaken
  rw [length_append] at hlength
  rw [Nat.succ_eq_add_one]
  omega

/-- Any number of calls that is enough delivers the same pieces. -/
theorem readLoop_of_le (hn : 0 < n) {fuel : ℕ} (hs : s.length ≤ fuel) :
    readLoop nl n fuel s = readAll nl n s := by
  suffices hloop : ∀ fuel fuel' (s : List α), s.length ≤ fuel → s.length ≤ fuel' →
      readLoop nl n fuel s = readLoop nl n fuel' s from hloop fuel s.length s hs le_rfl
  intro fuel
  induction fuel with
  | zero =>
    intro fuel' s hs _
    obtain rfl : s = [] := length_eq_zero_iff.mp (by omega)
    rw [readLoop_nil, readLoop_nil]
  | succ fuel ih =>
    intro fuel' s hs hs'
    by_cases hnil : s = []
    · rw [hnil, readLoop_nil, readLoop_nil]
    have hpos := length_pos_iff.mpr hnil
    have hlt : (readLine nl n s).2.length < s.length := length_readLine_lt hn hnil
    obtain ⟨fuel', rfl⟩ := Nat.exists_eq_succ_of_ne_zero (by omega : fuel' ≠ 0)
    rw [readLoop, readLoop, ih fuel' _ (by omega) (by omega)]

theorem readAll_of_ne_nil (hn : 0 < n) (hs : s ≠ []) :
    readAll nl n s = (readLine nl n s).1 :: readAll nl n (readLine nl n s).2 := by
  have hlt : (readLine nl n s).2.length < s.length := length_readLine_lt hn hs
  obtain ⟨fuel, hlength⟩ := Nat.exists_eq_succ_of_ne_zero (by omega : s.length ≠ 0)
  rw [readAll, hlength, readLoop, if_neg hs, readLoop_of_le hn (by omega)]

theorem flatten_readAll (hn : 0 < n) (s : List α) : (readAll nl n s).flatten = s := by
  induction hlength : s.length using Nat.strong_induction_on generalizing s with
  | _ length ih =>
    by_cases hs : s = []
    · rw [hs]
      rfl
    · rw [readAll_of_ne_nil hn hs, flatten_cons, ih _ (hlength ▸ length_readLine_lt hn hs) _ rfl,
        readLine_append_self]

theorem readAll_append (hn : 0 < n) (hp : IsPiece nl n p) (rest : List α) :
    readAll nl n (p ++ rest) = p :: readAll nl n rest := by
  rw [readAll_of_ne_nil hn (by simp [hp.ne_nil hn]), hp.readLine_append]

theorem readAll_flatten {ps : List (List α)} (hn : 0 < n) (hps : ∀ p ∈ ps, IsPiece nl n p) :
    readAll nl n ps.flatten = ps := by
  induction ps with
  | nil => rfl
  | cons p ps ih =>
    rw [flatten_cons, readAll_append hn (hps p mem_cons_self),
      ih fun q hq ↦ hps q (mem_cons_of_mem p hq)]

/-- What is collected from the pieces, none of it from empty ones or the line end, is collected line
by line. -/
theorem flatMap_readAll {β : Type*} (nl : α) (hn : 0 < n) (f : ℕ × List α → List β)
    (hempty : ∀ o, f (o, []) = []) (hend : ∀ o line, nl ∉ line → f (o, line ++ [nl]) = f (o, line))
    (o : ℕ) (s : List α) :
    (withOffsets 0 o (readAll nl n s)).flatMap f =
      (withOffsets 1 o (s.splitOn nl)).flatMap fun line ↦ (pieces n line.1 line.2).flatMap f := by
  suffices hloop : ∀ fuel s o, s.length ≤ fuel →
      (withOffsets 0 o (readLoop nl n fuel s)).flatMap f =
        (withOffsets 1 o (s.splitOn nl)).flatMap fun line ↦ (pieces n line.1 line.2).flatMap f from
    hloop s.length s o le_rfl
  intro fuel
  induction fuel with
  | zero =>
    intro s o hs
    obtain rfl : s = [] := length_eq_zero_iff.mp (by omega)
    have hpieces : pieces n o ([] : List α) = [(o, [])] := pieces_of_short hn
    simp [readLoop, withOffsets, hpieces, hempty]
  | succ fuel ih =>
    intro s o hs
    by_cases hnil : s = []
    · subst hnil
      have hpieces : pieces n o ([] : List α) = [(o, [])] := pieces_of_short hn
      simp [readLoop, withOffsets, hpieces, hempty]
    rw [readLoop, if_neg hnil]
    by_cases hmem : nl ∈ s
    · obtain ⟨line, rest, rfl, hline⟩ := eq_append_cons_of_mem hmem
      rw [length_append, length_cons] at hs
      rw [splitOn_append_cons rest hline]
      by_cases hlong : n ≤ line.length
      · -- the buffer is full before the line ends: the rest of the line comes next
        have hrest := ih (line.drop n ++ nl :: rest) (o + n) (by
          rw [length_append, length_drop, length_cons]
          omega)
        rw [splitOn_append_cons rest fun h ↦ hline (mem_of_mem_drop h)] at hrest
        have hlength : (line.take n).length = n := by simpa using hlong
        have hoffset : o + n + (line.drop n).length = o + line.length := by
          rw [length_drop]
          omega
        simp only [readLine_of_long _ hline hlong, withOffsets, flatMap_cons, hlength,
          Nat.add_zero, hrest, hoffset, pieces_of_long hn hlong, append_assoc]
      · have hshort : line.length < n := by omega
        have hrest := ih rest (o + line.length + 1) (by omega)
        simp only [readLine_of_short _ hline hshort, withOffsets, flatMap_cons,
          length_append, length_singleton, Nat.add_zero, ← Nat.add_assoc, hrest,
          pieces_of_short hshort, flatMap_nil, append_nil, hend o line hline]
    · rw [splitOn_eq_singleton hmem]
      by_cases hlong : n ≤ s.length
      · have hrest := ih (s.drop n) (o + n) (by
          rw [length_drop]
          omega)
        rw [splitOn_eq_singleton fun h ↦ hmem (mem_of_mem_drop h)] at hrest
        have hlength : (s.take n).length = n := by simpa using hlong
        have hread := readLine_of_long [] hmem hlong
        rw [append_nil, append_nil] at hread
        simp only [withOffsets, flatMap_cons, flatMap_nil, append_nil] at hrest
        simp only [hread, withOffsets, flatMap_cons, hlength, Nat.add_zero, hrest,
          pieces_of_long hn hlong, flatMap_nil, append_nil]
      · have hshort : s.length < n := by omega
        simp [readLine_of_last hmem hshort, withOffsets, readLoop_nil, pieces_of_short hshort]

end Reader

section Fields

variable {c x : α} {l : List (List α)} {f : List α}

theorem mem_of_mem_intercalate (h : x ∈ [c].intercalate l) : x = c ∨ ∃ f ∈ l, x ∈ f := by
  induction l with
  | nil => simp at h
  | cons f l ih =>
    cases l with
    | nil => exact .inr ⟨f, by simp, by simpa using h⟩
    | cons g l =>
      rw [intercalate_cons_cons, mem_append, mem_append, mem_singleton] at h
      rcases h with (h | h) | h
      · exact .inr ⟨f, by simp, h⟩
      · exact .inl h
      · rcases ih h with h | ⟨k, hk, hx⟩
        · exact .inl h
        · exact .inr ⟨k, mem_cons_of_mem f hk, hx⟩

theorem mem_intercalate_of_mem (hf : f ∈ l) (hx : x ∈ f) : x ∈ [c].intercalate l := by
  induction l with
  | nil => simp at hf
  | cons g l ih =>
    cases l with
    | nil =>
      obtain rfl : f = g := by simpa using hf
      simpa using hx
    | cons k l =>
      rw [intercalate_cons_cons, mem_append, mem_append]
      rcases mem_cons.mp hf with rfl | hf
      · exact .inl (.inl hx)
      · exact .inr (ih hf)

theorem mem_of_mem_splitOn [DecidableEq α] {s : List α} (hf : f ∈ s.splitOn c) (hx : x ∈ f) :
    x ∈ s := by
  have hjoin : [c].intercalate (s.splitOn c) = s := intercalate_splitOn c
  exact hjoin ▸ mem_intercalate_of_mem hf hx

theorem intercalate_append (c : α) {k : List (List α)} (hl : l ≠ []) (hk : k ≠ []) :
    [c].intercalate (l ++ k) = [c].intercalate l ++ c :: [c].intercalate k := by
  induction l with
  | nil => exact absurd rfl hl
  | cons f l ih =>
    cases l with
    | nil =>
      obtain ⟨g, k, rfl⟩ := exists_cons_of_ne_nil hk
      simp [intercalate_cons_cons]
    | cons g l =>
      have := ih (by simp)
      simp only [cons_append, intercalate_cons_cons] at this ⊢
      simp only [this, append_assoc]

theorem intercalate_concat_append (c : α) (l : List (List α)) (f rest : List α) :
    [c].intercalate (l ++ [f ++ rest]) = [c].intercalate (l ++ [f]) ++ rest := by
  induction l with
  | nil => simp
  | cons g l ih =>
    cases l with
    | nil => simp [intercalate_cons_cons]
    | cons k l =>
      simp only [cons_append, intercalate_cons_cons] at ih ⊢
      simp only [ih, append_assoc]

end Fields

/-- Skip separators and cut the text at the next one. -/
def token (sep : α → Bool) (s : List α) : Option (List α × List α) :=
  match s.dropWhile sep with
  | [] => none
  | c :: s => some ((c :: s).takeWhile (!sep ·), ((c :: s).dropWhile (!sep ·)).drop 1)

/-- At most `n` tokens. -/
def tokenLoop (sep : α → Bool) : ℕ → List α → List (List α)
  | 0, _ => []
  | n + 1, s =>
    match token sep s with
    | none => []
    | some (t, rest) => t :: tokenLoop sep n rest

/-- The words of a text: the non-empty parts between separators. -/
def words (sep : α → Bool) (s : List α) : List (List α) :=
  (s.splitOnP sep).filter fun w ↦ !w.isEmpty

section Tokeniser

variable {sep : α → Bool} {s : List α}

@[simp]
theorem words_nil : words sep [] = [] := by
  simp [words, splitOnP_nil]

variable {c : α} {w : List α}

theorem words_cons_sep (hc : sep c = true) : words sep (c :: s) = words sep s := by
  simp [words, splitOnP_cons_eq_if_modifyHead, hc]

theorem words_dropWhile : words sep (s.dropWhile sep) = words sep s := by
  induction s with
  | nil => rfl
  | cons c s ih =>
    by_cases hc : sep c = true
    · rw [dropWhile_cons_of_pos hc, ih, words_cons_sep hc]
    · rw [dropWhile_cons_of_neg hc]

theorem words_append_cons (hw : ∀ c ∈ w, sep c = false) (hne : w ≠ []) (hc : sep c = true)
    (rest : List α) : words sep (w ++ c :: rest) = w :: words sep rest := by
  rw [words, splitOnP_append_cons_of_forall_mem hw c hc]
  simp [words, hne]

theorem words_of_forall (hw : ∀ c ∈ w, sep c = false) (hne : w ≠ []) : words sep w = [w] := by
  rw [words, splitOnP_eq_singleton hw]
  simp [hne]

/-- The tokeniser delivers the first word. -/
theorem words_eq_token :
    words sep s = match token sep s with
      | none => []
      | some (t, rest) => t :: words sep rest := by
  rw [← words_dropWhile, token]
  rcases hdrop : s.dropWhile sep with - | ⟨c, text⟩
  · rfl
  · have hc : sep c = false := by
      have := head?_dropWhile_not sep s
      simpa [hdrop] using this
    have hword : ∀ x ∈ (c :: text).takeWhile (!sep ·), sep x = false := fun x hx ↦ by
      simpa using mem_takeWhile_imp hx
    have hne : (c :: text).takeWhile (!sep ·) ≠ [] := by simp [hc]
    have hsplit := (c :: text).takeWhile_append_dropWhile (p := (!sep ·))
    simp only
    rcases hrest : (c :: text).dropWhile (!sep ·) with - | ⟨d, rest⟩
    · rw [hrest, append_nil] at hsplit
      rw [hsplit] at hword hne ⊢
      exact words_of_forall hword hne
    · have hd : sep d = true := by
        have := head?_dropWhile_not (!sep ·) (c :: text)
        simpa [hrest] using this
      rw [hrest] at hsplit
      conv_lhs => rw [← hsplit]
      rw [words_append_cons hword hne hd]
      rfl

theorem exists_words_cons (s : List α) (hc : sep c = false) :
    ∃ w ws, words sep (c :: s) = (c :: w) :: ws := by
  rw [words_eq_token, token, dropWhile_cons_of_neg (by simp [hc])]
  simp [hc]

theorem tokenLoop_eq (n : ℕ) : tokenLoop sep n s = (words sep s).take n := by
  induction n generalizing s with
  | zero => rfl
  | succ n ih =>
    rw [tokenLoop, words_eq_token]
    split
    · rfl
    · rw [ih, take_succ_cons]

end Tokeniser

end ToastyUnix.Lines
