import ToastyUnix.Drivers.ConsoleGrid
import ToastyUnix.Lib.Runs

/-!
# Control sequences

A control sequence is ESC, an open bracket, its parameters and a final byte. Every missing parameter
counts as 1, for every final byte: `omitted_parameter_iff` says which sequences then do what is
documented for them. The sequences of the alternate screen save a part of the state;
`restored_iff` says when all of it comes back.
-/

namespace ToastyUnix.Fb

open Checked Function List

variable (font : Font) {s s' t : Console} {fuel : ℕ} {c final : UInt8} {ps w : List UInt8}

/-- Bytes that are printed one after the other. -/
def feed (fuel : ℕ) (s : Console) (bytes : List UInt8) : Option Console :=
  bytes.foldlM (fbPutchar font fuel) s

/-- A control sequence, of a private mode or not. -/
def csi (mode : Bool) (params : List UInt8) (final : UInt8) : List UInt8 :=
  0x1B :: 91 :: ((if mode then [63] else []) ++ (params ++ [final]))

/-- The bytes of parameters. -/
def IsParams (ps : List UInt8) : Prop := ps.length ≤ 31 ∧ ∀ c ∈ ps, (48 ≤ c ∧ c ≤ 57) ∨ c = 59

/-- The buffer with the bytes of the parameters. -/
def stored (buf : Fin 32 → UInt8) (ps : List UInt8) : Fin 32 → UInt8 :=
  fun k ↦ (ps[k.val]?).getD (buf k)

theorem fbPutchar_consumed (h : ansiConsume font s c = some (true, s')) :
    fbPutchar font (fuel + 1) s c = some s' := by
  rw [fbPutchar, h]
  rfl

theorem feed_append_of (bytes : List UInt8) (h : feed font fuel s ps = some s') :
    feed font fuel s (ps ++ bytes) = feed font fuel s' bytes := by
  rw [feed, foldlM_append, ← feed, h]
  rfl

theorem feed_singleton (h : ansiConsume font s c = some (true, s')) :
    feed font (fuel + 1) s [c] = some s' := by
  rw [feed, foldlM_cons, fbPutchar_consumed font h]
  rfl

theorem feed_params (hcsi : s.ansi = .csi) (hempty : s.csiLen = 0) (hps : IsParams ps) :
    feed font (fuel + 1) s ps =
      some { s with csiBuf := stored s.csiBuf ps, csiLen := ps.length } := by
  induction ps using List.reverseRecOn with
  | nil =>
    rw [length_nil, Nat.cast_zero, ← hempty]
    rfl
  | append_singleton ps c ih =>
    obtain ⟨hlen, hbytes⟩ := hps
    rw [forall_mem_append, forall_mem_singleton] at hbytes
    rw [length_append, length_singleton] at hlen
    rw [feed_append_of font [c] (ih ⟨by omega, hbytes.1⟩)]
    apply feed_singleton
    have hc : ¬(0x40 ≤ c ∧ c ≤ 0x7E) ∧ c ≠ 63 := by
      have := hbytes.2
      grind
    have hroom : (ps.length : ℤ) < 31 := by omega
    simp only [ansiConsume, hcsi, hc.1, hc.2, if_pos hbytes.2, hroom, if_true, if_false, and_false]
    rw [index_of_mem (by omega) (by omega)]
    simp only [Option.bind_eq_bind, Option.bind_some, length_append, length_singleton,
      Nat.cast_add, Nat.cast_one]
    congr 3
    funext k
    rw [update_apply, stored, stored]
    split
    case isTrue heq => simp [heq]
    case isFalse hne =>
      have hk : k.val ≠ ps.length := by simpa [Fin.ext_iff] using hne
      grind

/-- A sequence is executed with its parameters in the buffer. -/
theorem feed_csi (mode : Bool) (hrest : s.ansi = .normal) (hfinal : 0x40 ≤ final ∧ final ≤ 0x7E)
    (hps : IsParams ps) :
    feed font (fuel + 1) s (csi mode ps final) = ansiExec font
      { s with
        csiBuf := stored s.csiBuf ps
        csiLen := ps.length
        csiPrivate := mode
        ansi := .normal } final := by
  have hesc : ansiConsume font s 0x1B = some (true, { s with ansi := .esc }) := by
    rw [ansiConsume, hrest]
    rfl
  have hopen : feed font (fuel + 1) s [0x1B, 91] =
      some { s with ansi := .csi, csiLen := 0, csiPrivate := false } := by
    rw [feed, foldlM_cons, fbPutchar_consumed font hesc]
    rfl
  have hmark : feed font (fuel + 1) { s with ansi := .csi, csiLen := 0, csiPrivate := false }
      (if mode then [63] else []) =
        some { s with ansi := .csi, csiLen := 0, csiPrivate := mode } := by
    cases mode <;> rfl
  have hparams := @feed_params font { s with ansi := .csi, csiLen := 0, csiPrivate := mode } fuel
    ps rfl rfl hps
  have hbytes : csi mode ps final =
      [0x1B, 91] ++ ((if mode then [63] else []) ++ (ps ++ [final])) := rfl
  rw [hbytes, feed_append_of font _ hopen, feed_append_of font _ hmark,
    feed_append_of font _ hparams, feed, foldlM_cons, fbPutchar, ansiConsume]
  dsimp only
  rw [if_pos hfinal]
  cases ansiExec font _ final <;> rfl

/-! ## Omitted parameters -/

/-- The final bytes H, A, B, C, D, G, d and X, with the default 1. -/
def unitFinals : List UInt8 := [72, 65, 66, 67, 68, 71, 100, 88]

/-- The final bytes J, K and m, with the default 0. -/
def zeroFinals : List UInt8 := [74, 75, 109]

/-- The parameters that are documented for a sequence without parameters. -/
def documented (final : UInt8) : List UInt8 :=
  if final = 72 then [49, 59, 49] else if final ∈ zeroFinals then [48] else [49]

/-- The state without the parameter buffer, which the next sequence starts afresh. -/
def settled (s : Console) : Console := { s with csiBuf := fun _ ↦ 0, csiLen := 0 }

theorem fbPaintCell_settled (row col : ℤ) (cell : Cell) (showCursor : Bool) :
    fbPaintCell font (settled s) row col cell showCursor =
      settled (fbPaintCell font s row col cell showCursor) := by
  rw [fbPaintCell, fbPaintCell, apply_ite settled]
  rfl

theorem fbDrawCell_settled (row col : ℤ) (showCursor : Bool) :
    fbDrawCell font (settled s) row col showCursor =
      (fbDrawCell font s row col showCursor).map settled := by
  have htext : (settled s).text = s.text := rfl
  rw [fbDrawCell, fbDrawCell, htext]
  cases cellAt s.text row col with
  | none => rfl
  | some cell => exact congrArg some (fbPaintCell_settled font row col cell showCursor)

theorem fbRepaintCursor_settled :
    fbRepaintCursor font (settled s) = (fbRepaintCursor font s).map settled := by
  rw [fbRepaintCursor, fbRepaintCursor, apply_ite (Option.map settled), ← fbDrawCell_settled]
  rfl

theorem ansiEraseCells_settled (row col0 col1 : ℤ) :
    ansiEraseCells font (settled s) row col0 col1 =
      (ansiEraseCells font s row col0 col1).map settled := by
  have hloop (l : List ℤ) (s : Console) (cell : Cell) :
      l.foldlM (fun s c ↦ if c < 0 then some s else do
        let text ← setCellAt s.text row c cell
        return fbPaintCell font { s with text := text } row c cell false) (settled s) =
      (l.foldlM (fun s c ↦ if c < 0 then some s else do
        let text ← setCellAt s.text row c cell
        return fbPaintCell font { s with text := text } row c cell false) s).map settled := by
    induction l generalizing s with
    | nil => rfl
    | cons c l ih =>
      rw [foldlM_cons, foldlM_cons]
      split
      · exact ih s
      · have htext : (settled s).text = s.text := rfl
        rw [htext]
        cases setCellAt s.text row c cell with
        | none => rfl
        | some text =>
          have hpaint := fbPaintCell_settled font (s := { s with text := text }) row c cell false
          exact (congrArg (foldlM _ · l) hpaint).trans (ih _)
  rw [ansiEraseCells, ansiEraseCells, apply_ite (Option.map settled), ← hloop]
  rfl

theorem ansiSwitch_settled {p0 p1 : ℤ} {params : List ℤ} (hfinal : final ∈ unitFinals) :
    ansiSwitch font (settled s) final p0 p1 params =
      (ansiSwitch font s final p0 p1 params).map settled := by
  simp only [unitFinals, mem_cons, not_mem_nil, or_false] at hfinal
  rcases hfinal with rfl | rfl | rfl | rfl | rfl | rfl | rfl | rfl
  case inr.inr.inr.inr.inr.inr.inr => exact ansiEraseCells_settled font _ _ _
  all_goals rfl

theorem ansiExec_settled (hfinal : final ∈ unitFinals) (hpublic : s.csiPrivate = false)
    (hparams : ansiParseParams s.csiBuf s.csiLen 8 1 = some (replicate 8 1)) :
    (ansiExec font s final).map settled = ansiExec font (settled s) final := by
  have hbind {m : Option Console} {f : Console → Option Console}
      (hf : ∀ s, f (settled s) = (f s).map settled) :
      (m >>= f).map settled = m.map settled >>= f := by
    cases m with
    | none => rfl
    | some s => exact (hf s).symm
  rw [ansiExec, ansiExec, hparams]
  change Option.map settled (if s.csiPrivate = true then _ else _) =
    if s.csiPrivate = true then _ else _
  rw [hpublic, if_neg (by decide), if_neg (by decide), hbind fun s ↦ ?_, ← fbDrawCell_settled]
  · rfl
  · rw [hbind fun s ↦ fbRepaintCursor_settled font, ← ansiSwitch_settled font hfinal]

/-- Bytes that are printed on a fresh screen of three cells. -/
def printed (bytes : List UInt8) : Option Console :=
  (fbInit (some ⟨fun _ ↦ 0, 1, 32, 96, 24, 16⟩) initial).bind fun r ↦
    feed blankFont 9 r.2 bytes

theorem printed_append {bytes : List UInt8} (h : printed ps = some s) :
    printed (ps ++ bytes) = feed blankFont 9 s bytes := by
  obtain ⟨r, hinit, hfeed⟩ := Option.bind_eq_some_iff.mp h
  rw [printed, hinit, Option.bind_some, feed_append_of _ bytes hfeed]

theorem printed_grid (bytes : List UInt8) : Succeeds (printed bytes) Grid := by
  obtain ⟨⟨_, s⟩, hinit, -, hgrid⟩ := @fbInit_grid ⟨fun _ ↦ 0, 1, 32, 96, 24, 16⟩
    ⟨rfl, rfl⟩ ⟨by decide, by decide⟩
  rw [printed, hinit]
  exact Succeeds.foldlM hgrid fun s c _ hs ↦
    (fbPutchar_grid _ hs c le_rfl).mono fun s' hs' ↦ hs'.1

/-- What is behind the cursor is erased only with the parameter. -/
theorem erase_needs_parameter :
    (printed ([97, 98, 13] ++ csi false [] 74)).map (cellAt ·.text 0 1) = some (some ⟨98, 0⟩) ∧
      (printed ([97, 98, 13] ++ csi false [48] 74)).map (cellAt ·.text 0 1) =
        some (some ⟨32, 0⟩) := by
  decide +kernel

/-- A sequence without parameters has its documented effect exactly when the documented parameter
is 1. -/
theorem omitted_parameter_iff (hfinal : final ∈ unitFinals ++ zeroFinals) :
    (∀ font fuel s, Grid s → s.ansi = .normal →
      (feed font (fuel + 1) s (csi false [] final)).map settled =
        (feed font (fuel + 1) s (csi false (documented final) final)).map settled) ↔
      final ∈ unitFinals := by
  have hrange : ∀ c ∈ unitFinals ++ zeroFinals, 0x40 ≤ c ∧ c ≤ 0x7E := by decide +kernel
  constructor
  · intro h
    refine (mem_append.mp hfinal).resolve_right fun hzero ↦ ?_
    -- two letters, the cursor back on the first one, and red as the colour
    obtain ⟨s, hs, hgrid⟩ := printed_grid ([97, 98, 13] ++ csi false [51, 49] 109)
    have hrest : some s.ansi = some .normal := by
      rw [← Option.map_some (f := Console.ansi), ← hs]
      decide +kernel
    have hsame := congrArg (Option.map fun s ↦ (cellAt s.text 0 1, s.fg))
      (h blankFont 8 s hgrid (Option.some.inj hrest))
    rw [← printed_append hs, ← printed_append hs] at hsame
    simp only [zeroFinals, mem_cons, not_mem_nil, or_false] at hzero
    rcases hzero with rfl | rfl | rfl <;> revert hsame <;> decide +kernel
  · intro hunit font fuel s hgrid hrest
    have hexec (ps : List UInt8) (hps : IsParams ps)
        (hparse : ∀ buf, ansiParseParams (stored buf ps) ps.length 8 1 = some (replicate 8 1)) :
        (feed font (fuel + 1) s (csi false ps final)).map settled =
          ansiExec font { settled s with csiPrivate := false, ansi := .normal } final := by
      rw [feed_csi font false hrest (hrange final hfinal) hps,
        ansiExec_settled font hunit rfl (hparse _)]
      rfl
    have hdocumented : ∀ c ∈ unitFinals, documented c = [49, 59, 49] ∨ documented c = [49] := by
      decide +kernel
    rw [hexec [] (by simp [IsParams]) fun _ ↦ rfl]
    rcases hdocumented final hunit with heq | heq
    · rw [heq, hexec _ (by simp [IsParams]) fun _ ↦ rfl]
    · rw [heq, hexec _ (by simp [IsParams]) fun _ ↦ rfl]

theorem omitted_parameter_iff_home : 72 ∈ unitFinals ∧ ∀ font fuel s, Grid s → s.ansi = .normal →
    (feed font (fuel + 1) s (csi false [] 72)).map settled =
      (feed font (fuel + 1) s (csi false [49, 59, 49] 72)).map settled :=
  ⟨by decide, (@omitted_parameter_iff 72 (by decide)).mpr (by decide)⟩

/-! ## The alternate screen -/

/-- The number 1049. -/
def altMode : List UInt8 := [49, 48, 52, 57]

def enterAlt : List UInt8 := csi true altMode 104

def exitAlt : List UInt8 := csi true altMode 108

/-- The first parameter of the sequence in the buffer. -/
def modeOf (s : Console) : Option ℤ :=
  (ansiParseParams s.csiBuf s.csiLen 8 1).bind (·.head?)

/-- The byte ends a sequence that enters or leaves the alternate screen. -/
def Switches (s : Console) (c : UInt8) : Prop :=
  s.ansi = .csi ∧ s.csiPrivate = true ∧ (c = 104 ∨ c = 108) ∧
    (modeOf s = some 47 ∨ modeOf s = some 1049)

/-- The place of the cursor, if the byte ends the sequence that saves it. -/
def savedBy (s : Console) (c : UInt8) : Option (ℤ × ℤ) :=
  if s.ansi = .csi ∧ s.csiPrivate = true ∧ c = 104 ∧ modeOf s = some 1048 then
    some (s.cursorX, s.cursorY)
  else none

/-- The reverse attribute, if the byte ends an SGR sequence that sets it. -/
def reversedBy (s : Console) (c : UInt8) : Option Bool :=
  if s.ansi = .csi ∧ s.csiPrivate = false ∧ c = 109 then
    (ansiParseParams s.csiBuf s.csiLen 8 1).bind sgrReverse
  else none

/-- The byte is text and completes a line. -/
def Completes (s : Console) (c : UInt8) : Prop := s.ansi = .normal ∧ Fills s c

instance : Decidable (Switches s c) := inferInstanceAs (Decidable (_ ∧ _))

instance : Decidable (Completes s c) := inferInstanceAs (Decidable (_ ∧ (_ ∨ _)))

/-- Every byte meets a condition when it is printed. -/
abbrev Each (fuel : ℕ) (cond : Console → UInt8 → Prop) : Option Console → List UInt8 → Prop :=
  Runs.Meets (Runs.lift (fbPutchar font fuel)) fun s c ↦ ∀ s' ∈ s, cond s' c

/-- What the last byte sets that sets anything. -/
def lastOf {α : Type} (fuel : ℕ) (event : Console → UInt8 → Option α) :
    Option Console → List UInt8 → Option α
  | _, [] => none
  | s, c :: w => (lastOf fuel event (Runs.lift (fbPutchar font fuel) s c) w).or
      (s.bind (event · c))

/-- The lines of the history, the latest first. -/
def scrollback (s : Console) : List (Fin FB_MAX_COLS → Cell) :=
  (range s.histCount.toNat).map fun k : ℕ ↦
    s.history (Fin.ofNat 2048 ((s.histHead - 1 - k) % 2048).toNat)

/-- What the alternate screen should leave as it was. -/
def Restored (s s' : Console) : Prop :=
  s'.text = s.text ∧ s'.fg = s.fg ∧ s'.bg = s.bg ∧ s'.curColor = s.curColor ∧
    s'.cursorX = s.cursorX ∧ s'.cursorY = s.cursorY ∧ s'.reverse = s.reverse ∧
    scrollback s' = scrollback s

/-- The history is lost. -/
theorem alternate_screen_drops_history : (printed [97, 10]).map (·.histCount) = some 1 ∧
    (printed ([97, 10] ++ enterAlt ++ exitAlt)).map (·.histCount) = some 0 := by
  decide +kernel

/-- The saved screen with another place of the cursor. -/
def AltScreen.placed (alt : AltScreen) (p : ℤ × ℤ) : AltScreen :=
  { alt with cursorX := p.1, cursorY := p.2 }

/-- What bytes that do not switch the screen do to the saved screen, the reverse attribute and the
history, which stays while no line is completed. -/
structure Effects (s : Console) (saved : Option (ℤ × ℤ)) (reverse : Option Bool) (quiet : Prop)
    (s' : Console) : Prop where
  saved : s'.alt = s.alt.placed (saved.getD (s.alt.cursorX, s.alt.cursorY))
  reverse : s'.reverse = reverse.getD s.reverse
  history : quiet ∧ SameHistory s s' ∨ ¬quiet ∧ 0 < s'.histCount

theorem Effects.trans {saved saved' : Option (ℤ × ℤ)} {reverse reverse' : Option Bool}
    {quiet quiet' : Prop} (h : Effects s saved reverse quiet s')
    (h' : Effects s' saved' reverse' quiet' t) :
    Effects s (saved'.or saved) (reverse'.or reverse) (quiet ∧ quiet') t where
  saved := by
    rw [h'.saved, h.saved]
    cases saved' <;> rfl
  reverse := by
    rw [h'.reverse, h.reverse]
    cases reverse' <;> rfl
  history := by
    rcases h'.history with ⟨hquiet', hsame'⟩ | ⟨hline', hcount⟩
    · refine h.history.imp (fun hfirst ↦ ⟨⟨hfirst.1, hquiet'⟩, hfirst.2.trans hsame'⟩)
        fun hfirst ↦ ⟨fun hboth ↦ hfirst.1 hboth.1, ?_⟩
      rw [hsame'.2.2.1]
      exact hfirst.2
    · exact .inr ⟨fun hboth ↦ hline' hboth.2, hcount⟩

theorem ansiSwitch_effects (h : Grid s) (final : UInt8) {p0 p1 : ℤ} {params : List ℤ}
    (hp0 : 0 ≤ p0) : Succeeds (ansiSwitch font s final p0 p1 params) fun s' ↦
      (Grid s' ∧ s'.reverse = (if final = 109 then sgrReverse params else none).getD s.reverse) ∧
        SameScreen s s' := by
  by_cases hfinal : final = 109
  · subst hfinal
    have hsgr : ansiSwitch font s 109 p0 p1 params =
        params.foldlM sgrParam s >>= fbUpdateColor := rfl
    rw [hsgr]
    apply (sgr_grid h params).mono
    rintro s' ⟨h', fg, bg, color, palette, -, rfl⟩
    exact ⟨⟨h', rfl⟩, rfl, rfl, rfl, rfl, rfl, rfl, rfl, rfl, rfl, rfl, rfl, rfl⟩
  · rw [if_neg hfinal]
    refine ansiSwitch_keeps font h final hp0 ⟨h, rfl⟩ (fun s₁ h₁ row col0 col1 ↦ ?_)
      (fun x y hx hy ↦ ⟨{ h with cursorX := hx, cursorY := hy }, rfl⟩)
      fun hsgr ↦ absurd hsgr hfinal
    apply (ansiEraseCells_grid font h₁.1 row col0 col1).mono
    rintro s₂ ⟨h₂, text, pixels, rfl⟩
    exact ⟨⟨h₂, h₁.2⟩, text, pixels, rfl⟩

theorem ansiPrivate_effects {m : ℤ} (hm : c = 104 ∨ c = 108 → ¬(m = 47 ∨ m = 1049)) :
    Succeeds (ansiPrivate font s c m) (Effects s
      (if c = 104 ∧ m = 1048 then some (s.cursorX, s.cursorY) else none) none True) := by
  have hsame : SameHistory s s := ⟨rfl, rfl, rfl, rfl⟩
  unfold ansiPrivate
  refine .ite (fun hset ↦ .ite (fun hmode ↦ ?_) fun _ ↦
    .ite (fun halt ↦ absurd halt (hm (.inl hset))) fun _ ↦ .ite (fun hmode ↦ ?_) fun hmode ↦ ?_)
    fun hset ↦ .ite (fun hreset ↦ .ite (fun _ ↦ ?_) fun _ ↦
      .ite (fun halt ↦ absurd halt (hm (.inr hreset))) fun _ ↦ .ite (fun _ ↦ ?_) fun _ ↦ ?_)
      fun _ ↦ ?_
  all_goals simp only [hset, true_and, false_and, if_false]
  · rw [hmode, if_neg (by decide)]
    exact .of_some ⟨rfl, rfl, .inl ⟨trivial, hsame⟩⟩
  · rw [if_pos hmode]
    exact .of_some ⟨rfl, rfl, .inl ⟨trivial, hsame⟩⟩
  · rw [if_neg hmode]
    exact .of_some ⟨rfl, rfl, .inl ⟨trivial, hsame⟩⟩
  all_goals exact .of_some ⟨rfl, rfl, .inl ⟨trivial, hsame⟩⟩

theorem ansiConsume_effects (h : Grid s) (hc : ¬Switches s c) :
    Succeeds (ansiConsume font s c) fun r ↦ r.1 = true →
      Effects s (savedBy s c) (reversedBy s c) (¬Completes s c) r.2 := by
  refine ansiConsume_keeps font h.toStore (fun _ _ ↦ by simp)
    (fun htext hfinal ansi buf len mark _ _ ↦ ?_) fun hcsi _ ↦ ?_
  · have hsaved : savedBy s c = none := by
      refine if_neg fun hsaves ↦ hfinal hsaves.1 ?_
      rw [hsaves.2.2.1]
      decide
    have hreversed : reversedBy s c = none := by
      refine if_neg fun hsets ↦ hfinal hsets.1 ?_
      rw [hsets.2.2]
      decide
    have hquiet : ¬Completes s c := by
      rintro ⟨hnormal, hfills⟩
      rw [htext hnormal] at hfills
      exact absurd hfills (by simp [Fills, FONT_FIRST])
    rw [hsaved, hreversed]
    exact ⟨rfl, rfl, .inl ⟨hquiet, rfl, rfl, rfl, rfl⟩⟩
  have hrest : Grid { s with ansi := .normal } := { h with }
  have hquiet : ¬Completes s c ↔ True := by simp [Completes, hcsi]
  obtain ⟨params, hparams, p0, p1, rest, rfl, hnonneg⟩ := ansiParseParams_grid h.toStore
  have hmode : modeOf s = some p0 := by rw [modeOf, hparams]; rfl
  rw [ansiExec, hparams, hquiet]
  refine .ite (fun hprivate ↦ ?_) fun hpublic ↦ ?_
  · have hm : c = 104 ∨ c = 108 → ¬(p0 = 47 ∨ p0 = 1049) := fun hfinal hm ↦
      hc ⟨hcsi, hprivate, hfinal, by simpa [hmode] using hm⟩
    have hprivate' : s.csiPrivate = true := hprivate
    have hsaved : savedBy s c =
        if c = 104 ∧ p0 = 1048 then some (s.cursorX, s.cursorY) else none := by
      simp [savedBy, hcsi, hprivate', hmode]
    have hreversed : reversedBy s c = none := by simp [reversedBy, hprivate']
    rw [hsaved, hreversed]
    apply (ansiPrivate_effects font hm).mono
    exact fun s' heffects _ ↦ ⟨heffects.saved, heffects.reverse, heffects.history⟩
  · have hpublic' : s.csiPrivate = false := Bool.eq_false_iff.mpr hpublic
    apply (fbDrawCursor_grid font hrest).bind
    intro s₁ hpaint
    apply (ansiSwitch_effects font (hrest.repaint hpaint) c hnonneg).bind
    rintro s₂ ⟨⟨h₂, hreverse⟩, hscreen⟩
    apply (fbRepaintCursor_grid font h₂).mono
    rintro s₃ ⟨pixels₃, rfl⟩ -
    obtain ⟨pixels, rfl⟩ := hpaint
    refine ⟨?_, ?_, .inl ⟨trivial, hscreen.history⟩⟩
    · simpa [savedBy, hpublic', AltScreen.placed] using hscreen.alt
    · simpa [reversedBy, hcsi, hpublic', hparams] using hreverse

theorem fbPutchar_effects (h : Grid s) (hc : ¬Switches s c) (hfuel : 9 ≤ fuel) :
    Succeeds (fbPutchar font fuel s c) fun s' ↦ Grid s' ∧
      Effects s (savedBy s c) (reversedBy s c) (¬Completes s c) s' := by
  apply (fbPutchar_grid font h c hfuel).mono
  rintro s' ⟨h', hconsumed | ⟨hrest, hmoved, hpushes⟩⟩
  · exact ⟨h', (ansiConsume_effects font h hc).of_eq_some hconsumed rfl⟩
  · have hcompletes : Completes s c ↔ Fills s c := and_iff_right hrest
    have hhistory : ¬Completes s c ∧ SameHistory s s' ∨ ¬¬Completes s c ∧ 0 < s'.histCount := by
      rw [hcompletes, not_not]
      exact hpushes.symm
    obtain ⟨_, _, _, _, _, _, _, _, rfl⟩ := hmoved
    refine ⟨h', ?_, ?_, hhistory⟩
    · simp [savedBy, hrest, AltScreen.placed]
    · simp [reversedBy, hrest]

/-- What bytes do one after the other. -/
theorem feed_effects (h : Grid s) (hfuel : 9 ≤ fuel)
    (hw : Each font fuel (fun s c ↦ ¬Switches s c) (some s) w) :
    Succeeds (feed font fuel s w) fun t ↦ Grid t ∧
      Effects s (lastOf font fuel savedBy (some s) w) (lastOf font fuel reversedBy (some s) w)
        (Each font fuel (fun s c ↦ ¬Completes s c) (some s) w) t := by
  induction w generalizing s with
  | nil => exact .of_some ⟨h, rfl, rfl, .inl ⟨trivial, rfl, rfl, rfl, rfl⟩⟩
  | cons c w ih =>
    obtain ⟨hfirst, hrest⟩ := hw
    obtain ⟨s', hput, h', heffects⟩ := fbPutchar_effects font h (hfirst s rfl) hfuel
    have hnext : Runs.lift (fbPutchar font fuel) (some s) c = some s' := hput
    have hquiet : (∀ s' ∈ some s, ¬Completes s' c) ↔ ¬Completes s c := by simp
    rw [hnext] at hrest
    rw [feed, foldlM_cons, hput, lastOf, lastOf, Each, Runs.Meets, hnext, hquiet]
    exact (ih h' hrest).mono fun t ht ↦ ⟨ht.1, heffects.trans ht.2⟩

/-- The two sequences are executed with nothing but the parser changed. -/
theorem feed_alt (h : Grid s) (hrest : s.ansi = .normal) (hfinal : 0x40 ≤ final ∧ final ≤ 0x7E) :
    ∃ buf len, Grid { s with csiBuf := buf, csiLen := len, csiPrivate := true } ∧
      feed font (fuel + 1) s (csi true altMode final) = ansiPrivate font
        { s with csiBuf := buf, csiLen := len, csiPrivate := true } final 1049 := by
  refine ⟨stored s.csiBuf altMode, altMode.length, { h with csiLen := by simp [altMode] }, ?_⟩
  have hdigits : digitLoop (stored s.csiBuf altMode) altMode.length 33 0 0 false =
      some (4, 1049, true) := by
    simp [digitLoop, index, stored, altMode]
  have hparams : ansiParseParams (stored s.csiBuf altMode) altMode.length 8 1 =
      some (1049 :: replicate 7 1) := by
    rw [ansiParseParams, paramLoop, if_pos (by decide), hdigits]
    rfl
  rw [feed_csi font true hrest hfinal (by simp [IsParams, altMode]), ← hrest, ansiExec, hparams]
  rfl

theorem scrollback_eq_nil (h : Grid s) : scrollback s = [] ↔ s.histCount = 0 := by
  have hcount := h.histCount
  rw [scrollback, map_eq_nil_iff, range_eq_nil]
  omega

theorem SameHistory.scrollback_eq (h : SameHistory s t) : scrollback t = scrollback s := by
  rw [scrollback, h.1, h.2.1, h.2.2.1, ← scrollback]

/-- The alternate screen gives everything back exactly when it was not active with another screen,
the last sequence in it that saves the cursor saves the same place, the last one that sets the
reverse attribute sets the same, the history was empty, unless the screen was active, and no line
is completed. A history with lines that is followed by completed ones is lost, and not covered. -/
theorem restored_iff (hgrid : Grid s) (hrest : s.ansi = .normal) (hfuel : 9 ≤ fuel)
    (hrun : feed font fuel s (enterAlt ++ w) = some t) (hend : t.ansi = .normal)
    (hw : Each font fuel (fun s c ↦ ¬Switches s c) (feed font fuel s enterAlt) w)
    (hlines : s.histCount = 0 ∨
      Each font fuel (fun s c ↦ ¬Completes s c) (feed font fuel s enterAlt) w) :
    Succeeds (feed font fuel t exitAlt) fun s' ↦ (Restored s s' ↔
      (s.alt.active = true → s.alt.text = s.text ∧ s.alt.fg = s.fg ∧ s.alt.bg = s.bg ∧
        s.alt.curColor = s.curColor) ∧
      (lastOf font fuel savedBy (feed font fuel s enterAlt) w).getD
        (if s.alt.active then (s.alt.cursorX, s.alt.cursorY) else (s.cursorX, s.cursorY)) =
          (s.cursorX, s.cursorY) ∧
      (lastOf font fuel reversedBy (feed font fuel s enterAlt) w).getD s.reverse = s.reverse ∧
      (s.alt.active = true ∨ s.histCount = 0) ∧
      Each font fuel (fun s c ↦ ¬Completes s c) (feed font fuel s enterAlt) w) := by
  obtain ⟨n, rfl⟩ : ∃ n, fuel = n + 1 := ⟨fuel - 1, by omega⟩
  -- the screen that is saved when the bytes begin
  obtain ⟨s₁, henter, h₁, hreverse, hsaved⟩ : Succeeds (feed font (n + 1) s enterAlt) fun s₁ ↦
      Grid s₁ ∧ s₁.reverse = s.reverse ∧ (s.alt.active = true ∧ s₁.alt = s.alt ∧
        SameHistory s s₁ ∨ s.alt.active = false ∧ s₁.alt = (saveScreen s).alt ∧
          s₁.histCount = 0) := by
    obtain ⟨buf, len, hgrid', heq⟩ := @feed_alt font s n 104 hgrid hrest (by decide)
    rw [enterAlt, heq]
    apply (ansiAltEnter_grid hgrid').mono
    rintro s₁ ⟨h₁, ⟨hactive, rfl⟩ | ⟨hactive, halt, hcount, hreverse⟩⟩
    · exact ⟨h₁, rfl, .inl ⟨hactive, rfl, rfl, rfl, rfl, rfl⟩⟩
    · exact ⟨h₁, hreverse, .inr ⟨hactive, halt, hcount⟩⟩
  rw [henter] at hw hlines ⊢
  rw [feed_append_of font w henter] at hrun
  obtain ⟨ht, hkept, hreverse', hhistory⟩ := (feed_effects font h₁ hfuel hw).of_eq_some hrun
  generalize lastOf font (n + 1) savedBy (some s₁) w = saved at hkept ⊢
  generalize lastOf font (n + 1) reversedBy (some s₁) w = reverse at hreverse' ⊢
  generalize Each font (n + 1) (fun s c ↦ ¬Completes s c) (some s₁) w = quiet at hlines hhistory ⊢
  have hscrollback : scrollback t = scrollback s ↔
      (s.alt.active = true ∨ s.histCount = 0) ∧ quiet := by
    rcases hhistory with ⟨hquiet, hsame⟩ | ⟨hline, hcount⟩
    · rcases hsaved with ⟨hactive, -, hentry⟩ | ⟨hactive, -, hempty⟩
      · simp [hactive, hquiet, (hentry.trans hsame).scrollback_eq]
      · rw [(scrollback_eq_nil ht).mpr (hsame.2.2.1.trans hempty), eq_comm,
          scrollback_eq_nil hgrid]
        simp [hactive, hquiet]
    · rw [(scrollback_eq_nil hgrid).mpr (hlines.resolve_right hline), scrollback_eq_nil ht]
      simp [hline, hcount.ne']
  obtain ⟨buf, len, ht', heq⟩ := @feed_alt font t n 108 ht hend (by decide)
  have hactive : t.alt.active = true := by
    rw [hkept]
    rcases hsaved with ⟨hactive, halt, -⟩ | ⟨-, halt, -⟩
    · rw [halt]
      exact hactive
    · rw [halt]
      rfl
  rw [exitAlt, heq]
  apply (ansiAltExit_grid font ht').mono
  rintro s' ⟨-, hpaint⟩
  obtain ⟨pixels, rfl⟩ := hpaint hactive
  change t.alt.text = _ ∧ t.alt.fg = _ ∧ t.alt.bg = _ ∧ t.alt.curColor = _ ∧ t.alt.cursorX = _ ∧
    t.alt.cursorY = _ ∧ t.reverse = _ ∧ scrollback t = _ ↔ _
  rw [hscrollback, hreverse', hreverse, hkept]
  rcases hsaved with ⟨hactive, halt, -⟩ | ⟨hactive, halt, -⟩
  · simp [halt, hactive, AltScreen.placed, Prod.ext_iff, and_assoc]
  · simp [halt, hactive, AltScreen.placed, saveScreen, Prod.ext_iff, and_assoc]

/-- A letter, and in the alternate screen a reversed one. -/
theorem restored_iff_letter : ∃ s t, printed [97] = some s ∧
    feed blankFont 9 s (enterAlt ++ (csi false [55] 109 ++ 98 :: csi false [50, 55] 109)) = some t ∧
      cellAt t.text 0 0 ≠ cellAt s.text 0 0 ∧
      Succeeds (feed blankFont 9 t exitAlt) (Restored s) := by
  obtain ⟨s, hs, hgrid⟩ := printed_grid [97]
  obtain ⟨t, ht, -⟩ := printed_grid
    ([97] ++ (enterAlt ++ (csi false [55] 109 ++ 98 :: csi false [50, 55] 109)))
  have hentry : (s.ansi, s.alt.active, s.histCount, s.reverse, cellAt s.text 0 0) =
      (.normal, false, 0, false, some ⟨97, 0⟩) := by
    apply Option.some.inj
    rw [← Option.map_some (f := fun s : Console ↦ (s.ansi, s.alt.active, s.histCount, s.reverse,
      cellAt s.text 0 0)), ← hs]
    decide +kernel
  have hexit : (t.ansi, cellAt t.text 0 0) = (.normal, some ⟨98, 1⟩) := by
    apply Option.some.inj
    rw [← Option.map_some (f := fun t : Console ↦ (t.ansi, cellAt t.text 0 0)), ← ht]
    decide +kernel
  simp only [Prod.mk.injEq] at hentry hexit
  obtain ⟨hrest, hactive, hcount, hreverse, hcell⟩ := hentry
  rw [printed_append hs] at ht
  refine ⟨s, t, hs, ht, by simp [hcell, hexit.2], ?_⟩
  apply (restored_iff blankFont hgrid hrest le_rfl ht hexit.1 ?_ (.inl hcount)).mono
  · intro s' h
    refine h.mpr ⟨by simp [hactive], ?_, ?_, .inr hcount, ?_⟩
    · rw [if_neg (by simp [hactive]), ← printed_append hs]
      have hlast : lastOf blankFont 9 savedBy (printed ([97] ++ enterAlt))
        (csi false [55] 109 ++ 98 :: csi false [50, 55] 109) = none := by decide +kernel
      rw [hlast]
      rfl
    · rw [hreverse, ← printed_append hs]
      decide +kernel
    · rw [← printed_append hs]
      decide +kernel
  · rw [← printed_append hs]
    decide +kernel

end ToastyUnix.Fb
