import ToastyUnix.Userspace.Regex

/-!
# The substitution command of sed

`script_add` of `userspace/sed.c` parses a command `s` into a pattern, a replacement and four flags,
and prints them into the 512 bytes of the command's field `data`; `do_subst` takes them apart again
each time the command runs.
-/

namespace ToastyUnix.Sed

open Regex List

/-- What `script_add` parses. -/
structure Subst where
  pat : Str
  rep : Str
  g : Bool
  p : Bool
  i : Bool
  w : Bool
deriving DecidableEq

/-- The loop of `script_add` over one part: at most 255 bytes, which the delimiter has to end. -/
def parsePart (delim : UInt8) (text : Str) : Option (Str × Str) :=
  let part := (text.take 255).takeWhile (· ≠ delim)
  match text.drop part.length with
  | [] => none
  | c :: rest => if c = delim then some (part, rest) else none

/-- The text behind the letter `s`. -/
def parseSubst : Str → Option Subst
  | [] => none
  | delim :: text => do
    let (pat, text) ← parsePart delim text
    let (rep, text) ← parsePart delim text
    let flags := text.takeWhile (· ∈ ascii "gpiw")
    some ⟨pat, rep, 103 ∈ flags, 112 ∈ flags, 105 ∈ flags, 119 ∈ flags⟩

/-- The conversion `%d` of a flag. -/
def flagByte (b : Bool) : UInt8 := if b then 49 else 48

/-- The text that `snprintf` prints. -/
def Subst.packed (c : Subst) : Str :=
  c.pat ++ 1 :: (c.rep ++ 1 :: [flagByte c.g, flagByte c.p, flagByte c.i, flagByte c.w])

/-- The memory from `data` on: 511 bytes of text, the terminator, and what follows the field. -/
def Subst.data (c : Subst) (beyond : ℕ → UInt8) (k : ℕ) : UInt8 :=
  if k < 511 then c.packed.getD k 0 else if k = 511 then 0 else beyond (k - 512)

/-- The loop of `do_subst` over one part, for at most `n` bytes. -/
def readPart (data : ℕ → UInt8) : ℕ → ℕ → Str
  | 0, _ => []
  | n + 1, k => if data k = 1 then [] else data k :: readPart data n (k + 1)

/-- The unpacking of `do_subst`: the parts and the flags `g`, `p` and `i`. -/
def unpack (data : ℕ → UInt8) : Str × Str × Bool × Bool × Bool :=
  let pat := readPart data 255 0
  let rep := readPart data 255 (pat.length + 1)
  let k := pat.length + 1 + rep.length + 1
  (pat, rep, data k = 49, data (k + 1) = 49, data (k + 2) = 49)

variable {c : Subst} {beyond : ℕ → UInt8}

theorem parsePart_length {delim : UInt8} {text part rest : Str}
    (h : parsePart delim text = some (part, rest)) : part.length ≤ 255 := by
  unfold parsePart at h
  dsimp only at h
  split at h
  · cases h
  · obtain ⟨-, h⟩ := Option.ite_none_right_eq_some.1 h
    cases h
    exact (( takeWhile_prefix _).length_le).trans (length_take_le _ _)

theorem parseSubst_length {text : Str} (h : parseSubst text = some c) :
    c.pat.length ≤ 255 ∧ c.rep.length ≤ 255 := by
  cases text with
  | nil => cases h
  | cons delim text =>
    obtain ⟨⟨pat, text₁⟩, hpat, h⟩ := Option.bind_eq_some_iff.1 h
    obtain ⟨⟨rep, text₂⟩, hrep, h⟩ := Option.bind_eq_some_iff.1 h
    cases h
    exact ⟨parsePart_length hpat, parsePart_length hrep⟩

/-- A part is read back if the byte 1 or the limit ends it. -/
theorem readPart_eq {data : ℕ → UInt8} {part : Str} {n k : ℕ} (hone : 1 ∉ part)
    (hpart : ∀ j (hj : j < part.length), data (k + j) = part[j])
    (hend : part.length = n ∨ part.length < n ∧ data (k + part.length) = 1) :
    readPart data n k = part := by
  induction part generalizing n k with
  | nil =>
    obtain rfl | ⟨hn, hdata⟩ := hend
    · rfl
    · obtain ⟨n, rfl⟩ := Nat.exists_eq_succ_of_ne_zero hn.ne'
      exact if_pos hdata
  | cons a part ih =>
    obtain ⟨n, rfl⟩ : ∃ m, n = m + 1 := ⟨n - 1, by simp only [length_cons] at hend; omega⟩
    have hhead : data k = a := hpart 0 (by simp)
    have hne : a ≠ 1 := fun h ↦ hone (h ▸ mem_cons_self)
    rw [readPart, hhead, if_neg hne, ih (fun h ↦ hone (mem_cons_of_mem _ h))]
    · intro j hj
      rw [Nat.add_right_comm]
      exact hpart (j + 1) (by simpa using hj)
    · rw [Nat.add_right_comm]
      simpa [Nat.add_assoc] using hend

theorem getD_append_add (a b : Str) (k : ℕ) : (a ++ b).getD (a.length + k) 0 = b.getD k 0 := by
  rw [getD_append_right _ _ _ _ (Nat.le_add_right _ _), Nat.add_sub_cancel_left]

/-- The three flags that `do_subst` reads. -/
def Subst.flag (c : Subst) : Fin 3 → Bool := ![c.g, c.p, c.i]

/-- Where the flags start in the field. -/
def Subst.flagsAt (c : Subst) : ℕ := c.pat.length + 1 + c.rep.length + 1

theorem packed_flag (c : Subst) (k : Fin 3) :
    c.packed.getD (c.flagsAt + k) 0 = flagByte (c.flag k) := by
  have hsplit : c.packed = c.pat ++ [1] ++ (c.rep ++ [1]) ++
      [flagByte c.g, flagByte c.p, flagByte c.i, flagByte c.w] := by simp [Subst.packed]
  have hlen : c.flagsAt = (c.pat ++ [1] ++ (c.rep ++ [1])).length := by
    simp only [Subst.flagsAt, length_append, length_singleton, Nat.add_assoc]
  rw [hsplit, hlen, getD_append_add]
  fin_cases k <;> rfl

/-- A flag is read where it has been printed, if the field reaches so far. -/
theorem data_flag_iff (k : Fin 3) : (decide (c.data beyond (c.flagsAt + k) = 49) = c.flag k) ↔
    c.flagsAt + k < 511 ∨
      (c.flag k = true ↔ c.flagsAt + k ≠ 511 ∧ beyond (c.flagsAt + k - 512) = 49) := by
  have hbyte : (flagByte (c.flag k) = 49) = (c.flag k = true) := by cases c.flag k <;> decide
  have hdecide {P : Prop} [Decidable P] : decide P = c.flag k ↔ (c.flag k = true ↔ P) := by
    cases c.flag k <;> simp
  rw [hdecide, Subst.data]
  split
  case isTrue hfits => simp only [packed_flag, hbyte, hfits, true_or]
  case isFalse hfits =>
    split
    case isTrue hend => simp [hend]
    case isFalse hend => simp [hfits, hend]

/-- The parts survive the packing, and the flags are read behind them. -/
theorem unpack_data (hpat : c.pat.length ≤ 255) (hrep : c.rep.length ≤ 255) (hone : 1 ∉ c.pat)
    (hone' : 1 ∉ c.rep) : unpack (c.data beyond) =
      (c.pat, c.rep, decide (c.data beyond c.flagsAt = 49),
        decide (c.data beyond (c.flagsAt + 1) = 49),
        decide (c.data beyond (c.flagsAt + 2) = 49)) := by
  have hread : readPart (c.data beyond) 255 0 = c.pat := by
    apply readPart_eq hone
    · intro j hj
      rw [Nat.zero_add, Subst.data, if_pos (by omega), Subst.packed, getD_append _ _ _ _ hj,
        getD_eq_getElem _ _ hj]
    · refine (eq_or_lt_of_le hpat).imp_right fun hlt ↦ ⟨hlt, ?_⟩
      rw [Nat.zero_add, Subst.data, if_pos (by omega), Subst.packed]
      exact getD_append_add c.pat _ 0
  have hread' : readPart (c.data beyond) 255 (c.pat.length + 1) = c.rep := by
    have hdata (j : ℕ) (hj : c.pat.length + 1 + j < 511) :
        c.data beyond (c.pat.length + 1 + j) = (c.rep ++ 1 ::
          [flagByte c.g, flagByte c.p, flagByte c.i, flagByte c.w]).getD j 0 := by
      rw [Subst.data, if_pos hj, Subst.packed, Nat.add_assoc, getD_append_add, Nat.add_comm 1]
      rfl
    apply readPart_eq hone'
    · intro j hj
      rw [hdata j (by omega), getD_append _ _ _ _ hj, getD_eq_getElem _ _ hj]
    · refine (eq_or_lt_of_le hrep).imp_right fun hlt ↦ ⟨hlt, ?_⟩
      rw [hdata _ (by omega)]
      exact getD_append_add c.rep _ 0
  rw [unpack, hread, hread']
  rfl

/-- A command survives the packing exactly if every flag that does not fit into the field is the one
found in its place: off at the terminator, and behind it what stands there. -/
theorem packing_survives_iff {text : Str} (h : parseSubst text = some c) (hone : 1 ∉ c.pat)
    (hone' : 1 ∉ c.rep) (beyond : ℕ → UInt8) :
    unpack (c.data beyond) = (c.pat, c.rep, c.g, c.p, c.i) ↔
      ∀ k : Fin 3, c.flagsAt + k < 511 ∨
        (c.flag k = true ↔ c.flagsAt + k ≠ 511 ∧ beyond (c.flagsAt + k - 512) = 49) := by
  obtain ⟨hpat, hrep⟩ := parseSubst_length h
  simp only [← data_flag_iff, Fin.forall_fin_succ, unpack_data hpat hrep hone hone', Prod.mk.injEq,
    true_and]
  simp [Subst.flag]

theorem packing_survives_iff_short :
    unpack ((⟨ascii "a", ascii "b", true, false, false, false⟩ : Subst).data 0) =
      (ascii "a", ascii "b", true, false, false) :=
  (packing_survives_iff (show parseSubst (ascii "/a/b/g") = some _ by decide) (by decide)
    (by decide) 0).2 (by decide)

/-- With a pattern of 255 bytes and a replacement of 254, `g` is lost: its place is the
terminator's. -/
theorem flag_lost_in_packing : ∃ text c, parseSubst text = some c ∧ 1 ∉ c.pat ∧ 1 ∉ c.rep ∧
    c.g = true ∧ ∀ beyond, (unpack (c.data beyond)).2.2.1 = false := by
  refine ⟨47 :: (List.replicate 255 97 ++ 47 :: (List.replicate 254 98 ++ [47, 103])),
    ⟨List.replicate 255 97, List.replicate 254 98, true, false, false, false⟩, by decide +kernel,
    by decide +kernel, by decide +kernel, rfl, fun beyond ↦ ?_⟩
  rw [unpack_data (by decide +kernel) (by decide +kernel) (by decide +kernel) (by decide +kernel)]
  have hplace {c : Subst} (hat : c.flagsAt = 511) : c.data beyond c.flagsAt = 0 := by
    rw [hat, Subst.data, if_neg (lt_irrefl _), if_pos rfl]
  dsimp only
  rw [hplace (by decide +kernel)]
  rfl

end ToastyUnix.Sed
