import ToastyUnix.Drivers.ConsolePixels
import ToastyUnix.Lib.Runs

/-!
# Incremental painting against a full redraw

`fb_putchar` paints cell by cell, `fb_scroll_up` moves pixels and `fb_clear` blackens them. The
screen shows the text after every step that is clean: it does not scroll or clear in a background
that is not black, and it does not change or move the visible cursor by a private mode, which
repaints nothing. On such a screen `fb_redraw_live` changes nothing, so paging through the history
and back restores the pixels.
-/

namespace ToastyUnix.Fb

open Checked Tiles Option

variable {s s' : Console} (font : Font)

theorem SameScreen.fits (hsame : SameScreen s s') (h : Fits s) : Fits s' where
  top := hsame.textTop.trans h.top
  pitch := by
    unfold Console.pitchWords
    rw [hsame.pitchBytes]
    exact h.pitch
  width := by
    unfold Console.pitchWords
    rw [hsame.pitchBytes, hsame.cols]
    exact h.width
  height := by
    rw [hsame.rows, hsame.height]
    exact h.height

/-- Colours that the palette has keep their look when it grows. -/
theorem cellLook_grows {p q : Palette} (hgrows : Grows p q) (hcount : p.count ≤ 16) {cell : Cell}
    (hknown : Known p cell.color) (swap : Bool) :
    cellLook font q cell swap = cellLook font p cell swap := by
  have hindex : ((paletteIndex cell.color).val : ℤ) < p.count := by
    have hlt : (cell.color.toNat : ℤ) < p.count := hknown
    change ((cell.color.toNat % 16 : ℕ) : ℤ) < p.count
    omega
  unfold cellLook
  rw [hgrows.fg _ hindex, hgrows.bg _ hindex]

variable {block : Bool} {p0 p1 : ℤ} {params : List ℤ} {final c : UInt8} {s'' : Console} {fuel : ℕ}
  {ops : List Op}

theorem Drawn.grows (hstore : Store s) (h : Drawn font s block) {palette : Palette}
    (hgrows : Grows s.palette palette) (fg bg : BitVec 32) (reverse : Bool) (color : UInt8) :
    Drawn font { s with fg := fg, bg := bg, reverse := reverse, curColor := color,
                        palette := palette } block := by
  have hrows := hstore.rows
  have hcols := hstore.cols
  have hmax : (FB_MAX_ROWS : ℤ) = 256 := rfl
  apply Shows.mono h subset_rfl
  rintro i ⟨hrow, hcol⟩
  have hcell := cellAt_of_mem s.text (i := i.1) (j := i.2) (by omega) (by omega)
  apply cellLook_grows font hgrows hstore.count.2
  change Known s.palette (cellOf s i).color
  rw [cellOf_of_cellAt hcell]
  exact hstore.text _ _

theorem ansiSwitch_painted (h : Painted font s) (hgrid : Grid s) (final : UInt8) (hp0 : 0 ≤ p0) :
    Succeeds (ansiSwitch font s final p0 p1 params) fun s' ↦ Painted font s' ∧ SameScreen s s' :=
  ansiSwitch_keeps font hgrid final hp0 h (fun _ ↦ ansiEraseCells_painted font)
    (fun _ _ _ _ ↦ ⟨{ h.store with }, { h.fits with }, h.drawn⟩)
    fun _ fg bg reverse color _ hgrows h' ↦ ⟨h'.toStore, { h.fits with },
      h.drawn.grows font h.store hgrows fg bg reverse color⟩

/-- The console between two calls: on the live view the text is drawn, with or without the cursor.
-/
structure Shown (s : Console) (block : Bool) : Prop where
  grid : Grid s
  fits : Fits s
  drawn : s.viewBack = 0 → Drawn font s block
  hidden : s.cursorVisible = false → block = false

/-- A step keeps the block in accord with the visibility of the cursor. -/
def Keeps (s : Console) (block : Bool) (s' : Console) : Prop :=
  ∃ block', Shown font s' block' ∧ (block = s.cursorVisible → block' = s'.cursorVisible)

theorem Shown.keeps (h : Shown font s' s'.cursorVisible) : Keeps font s block s' :=
  ⟨s'.cursorVisible, h, fun _ ↦ rfl⟩

/-- A control function with the cursor repainted at its end. -/
theorem control_shown (h : Shown font s block) (final : UInt8) (hp0 : 0 ≤ p0) :
    Succeeds (do
        let s ← fbDrawCell font s s.cursorY s.cursorX false
        let s ← ansiSwitch font s final p0 p1 params
        fbRepaintCursor font s) fun s' ↦ Shown font s' s'.cursorVisible := by
  by_cases hlive : s.viewBack = 0
  · apply (fbDrawCursor_drawn font h.fits h.grid (h.drawn hlive) false).bind
    rintro s₁ ⟨⟨hpaint, -⟩, hdrawn⟩
    have hgrid₁ := h.grid.repaint hpaint
    have hpainted : Painted font s₁ := ⟨hgrid₁.toStore, h.fits.repaint hpaint, hdrawn⟩
    apply ((ansiSwitch_painted font hpainted hgrid₁ final hp0).and
      (ansiSwitch_grid font hgrid₁ final hp0)).bind
    rintro s₂ ⟨⟨hpainted₂, -⟩, hgrid₂, -⟩
    apply (fbRepaintCursor_drawn font hpainted₂.fits hgrid₂ hpainted₂.drawn).mono
    rintro s₃ ⟨⟨hpaint₃, -⟩, hdrawn₃⟩
    exact ⟨hgrid₂.repaint hpaint₃, hpainted₂.fits.repaint hpaint₃, fun _ ↦ hdrawn₃, id⟩
  · -- Away from the live view nothing has to be shown, and the view does not change.
    apply (control_grid font h.grid final hp0).mono
    rintro s' ⟨hgrid, hsame⟩
    refine ⟨hgrid, hsame.fits h.fits, fun hback ↦ ?_, id⟩
    exact absurd (hsame.viewBack.symm.trans hback) hlive

/-- A private mode that repaints what it changes: a visible cursor keeps its place and visibility,
and the alternate screen is entered with a hidden cursor on black. -/
def PrivateClean (s : Console) (final : UInt8) (m : ℤ) : Prop :=
  (final = 104 → m = 25 → s.viewBack ≠ 0 ∨ s.cursorVisible = true) ∧
    (final = 104 → m = 47 ∨ m = 1049 → s.alt.active = true ∨ s.cursorVisible = false ∧ Black s) ∧
    (final = 108 → m = 25 → s.viewBack ≠ 0 ∨ s.cursorVisible = false) ∧
    (final = 108 → m = 1048 → s.viewBack ≠ 0 ∨ s.cursorVisible = false ∨
      s.alt.cursorX = s.cursorX ∧ s.alt.cursorY = s.cursorY)

theorem fbClear_shown (hstore : Store s) (hfits : Fits s) (hblack : Black s)
    (hhidden : s.cursorVisible = false) :
    Succeeds (fbClear s) fun s' ↦ Shown font s' s'.cursorVisible := by
  have hpainted := fbClear_painted font hstore hfits.pitch hfits.width hfits.height hblack
  apply (hpainted.and (fbClear_grid hstore)).mono
  rintro s' ⟨hpainted', hgrid', text, rfl⟩
  refine ⟨hgrid', hpainted'.fits, fun _ ↦ ?_, id⟩
  rw [show _ = false from hhidden]
  exact hpainted'.drawn

theorem ansiAltExit_shown (hgrid : Grid s) (hfits : Fits s) (hactive : s.alt.active = true) :
    Succeeds (ansiAltExit font s) fun s' ↦ Shown font s' s'.cursorVisible := by
  rw [ansiAltExit, if_pos hactive]
  apply (cellAt_blankText hgrid.toStore).bind
  intro _ _
  have hrestored := restoreScreen_grid hgrid
  have hfits' : Fits (restoreScreen s) := { hfits with }
  apply (fbRedrawLive_drawn font hfits' hrestored).mono
  rintro s' ⟨hpaint, hdrawn⟩
  exact ⟨hrestored.repaint hpaint.1, hfits'.repaint hpaint.1, fun _ ↦ hdrawn, id⟩

/-- A clean private mode keeps the screen. -/
theorem ansiPrivate_shown (h : Shown font s block) {m : ℤ} (hclean : PrivateClean s final m) :
    Succeeds (ansiPrivate font s final m) (Keeps font s block) := by
  obtain ⟨hon, henter, hoff, hrestore⟩ := hclean
  have hself : Keeps font s block s := ⟨block, h, id⟩
  unfold ansiPrivate
  refine .ite
    (fun hset ↦ .ite (fun hm ↦ ?cursorOn) fun _ ↦ .ite (fun hm ↦ ?altEnter) fun _ ↦
      .ite (fun _ ↦ ?save) fun _ ↦ .of_some hself)
    fun _ ↦ .ite (fun hreset ↦ .ite (fun hm ↦ ?cursorOff) fun _ ↦ .ite (fun _ ↦ ?altExit) fun _ ↦
      .ite (fun hm ↦ ?restore) fun _ ↦ .of_some hself) fun _ ↦ .of_some hself
  case cursorOn =>
    apply Succeeds.of_some
    rcases hon hset hm with hback | hvisible
    · exact ⟨true, ⟨{ h.grid with }, { h.fits with }, fun hlive ↦ absurd hlive hback, by simp⟩,
        fun _ ↦ rfl⟩
    · exact ⟨block, ⟨{ h.grid with }, { h.fits with }, h.drawn, by simp⟩,
        fun hblock ↦ hblock.trans hvisible⟩
  case altEnter =>
    rcases henter hset hm with hactive | ⟨hhidden, hblack⟩
    · rw [ansiAltEnter, if_pos hactive]
      exact .of_some hself
    · by_cases hactive : s.alt.active = true
      · rw [ansiAltEnter, if_pos hactive]
        exact .of_some hself
      · rw [ansiAltEnter, if_neg hactive]
        exact (fbClear_shown font (saveScreen_grid h.grid).toStore { h.fits with } hblack
          hhidden).mono fun s' h' ↦ h'.keeps font
  case save =>
    apply Succeeds.of_some
    exact ⟨block, ⟨{ h.grid with altCursorX := h.grid.cursorX, altCursorY := h.grid.cursorY },
      { h.fits with }, h.drawn, h.hidden⟩, id⟩
  case cursorOff =>
    apply Succeeds.of_some
    rcases hoff hreset hm with hback | hhidden
    · exact ⟨false, ⟨{ h.grid with }, { h.fits with }, fun hlive ↦ absurd hlive hback,
        fun _ ↦ rfl⟩, fun _ ↦ rfl⟩
    · exact ⟨block, ⟨{ h.grid with }, { h.fits with }, h.drawn, fun _ ↦ h.hidden hhidden⟩,
        fun hblock ↦ hblock.trans hhidden⟩
  case altExit =>
    by_cases hactive : s.alt.active = true
    · exact (ansiAltExit_shown font h.grid h.fits hactive).mono fun s' h' ↦ h'.keeps font
    · rw [ansiAltExit, if_neg hactive]
      exact .of_some hself
  case restore =>
    apply Succeeds.of_some
    have hgrid : Grid { s with cursorX := s.alt.cursorX, cursorY := s.alt.cursorY } :=
      { h.grid with cursorX := h.grid.altCursorX, cursorY := h.grid.altCursorY }
    rcases hrestore hreset hm with hback | hhidden | ⟨hx, hy⟩
    · exact ⟨s.cursorVisible, ⟨hgrid, { h.fits with }, fun hlive ↦ absurd hlive hback, id⟩,
        fun _ ↦ rfl⟩
    · -- Without a block the screen does not depend on the place of the cursor.
      obtain rfl := h.hidden hhidden
      exact ⟨false, ⟨hgrid, { h.fits with }, h.drawn, fun _ ↦ rfl⟩, id⟩
    · rw [hx, hy]
      exact hself

theorem ansiExec_shown (h : Shown font s block) (hclean : s.csiPrivate = true → ∀ m rest,
      ansiParseParams s.csiBuf s.csiLen 8 1 = some (m :: rest) → PrivateClean s final m) :
    Succeeds (ansiExec font s final) (Keeps font s block) := by
  obtain ⟨params, hparams, p0, p1, rest, rfl, hnonneg⟩ := ansiParseParams_grid h.grid.toStore
  rw [ansiExec, hparams]
  change Succeeds (if _ then _ else _) _
  refine .ite (fun hprivate ↦ ?_) fun _ ↦ ?_
  · exact ansiPrivate_shown font h (hclean hprivate p0 _ hparams)
  · exact (control_shown font h final hnonneg).mono fun s' h' ↦ h'.keeps font

/-- A byte that scrolls in a black background only, or ends a clean private mode. -/
def ByteClean (s : Console) (c : UInt8) : Prop :=
  match s.ansi with
  | .normal => c ≠ 0x1B → Scrolls s c → Black s
  | .csi => 0x40 ≤ c ∧ c ≤ 0x7E → s.csiPrivate = true → ∀ m rest,
      ansiParseParams s.csiBuf s.csiLen 8 1 = some (m :: rest) → PrivateClean s c m
  | _ => True

/-- A byte of a sequence keeps the screen. -/
theorem ansiConsume_shown (h : Shown font s block) (hclean : ByteClean s c) :
    Succeeds (ansiConsume font s c) fun r ↦ r.1 = true → Keeps font s block r.2 := by
  refine ansiConsume_keeps font h.grid.toStore (fun _ _ ↦ by simp)
    (fun _ _ _ _ _ _ hlen _ ↦ ⟨block, ⟨{ h.grid with csiLen := hlen }, { h.fits with }, h.drawn,
      h.hidden⟩, id⟩) fun hcsi hfinal ↦ ?_
  have hrest : Shown font { s with ansi := .normal } block :=
    ⟨{ h.grid with }, { h.fits with }, h.drawn, h.hidden⟩
  unfold ByteClean at hclean
  rw [hcsi] at hclean
  exact (ansiExec_shown font hrest (hclean hfinal)).mono fun s' h' _ ↦ h'

theorem Moved.black (h : Moved s s') (hblack : Black s) : Black s' := by
  obtain ⟨_, _, _, _, _, _, _, _, rfl⟩ := h
  exact hblack

theorem keptByOutput_painted : KeptByOutput font (Painted font) where
  store _ h := h.store
  move _ _ _ h := ⟨{ h.store with }, { h.fits with }, h.drawn⟩
  push s h hy := by
    apply (historyPush_store h.store hy).mono
    rintro s' ⟨hstore, history, head, count, hcount, rfl⟩
    exact ⟨⟨hstore, { h.fits with }, h.drawn⟩, history, head, count, hcount, rfl⟩
  cell s c hgrid h := putCell_painted font h hgrid c

theorem scrollLine_painted (h : Painted font s) (hblack : s.rows ≤ s.cursorY → Black s) :
    Succeeds (scrollLine s) (Painted font) := by
  unfold scrollLine
  refine .ite (fun hbottom ↦ ?_) fun _ ↦ .of_some h
  apply (fbScrollUp_painted font h (hblack hbottom)).bind
  exact fun s' h' ↦ .of_some ⟨{ h'.store with }, { h'.fits with }, h'.drawn⟩

/-- The end of `fb_putchar` draws what the byte changed. -/
theorem putEnd_shown (h : Painted font s) (hgrid : Grid s) (hclean : Scrolls s c → Black s) :
    Succeeds (putEnd font s c) fun s' ↦ Shown font s' s'.cursorVisible ∧ Moved s s' ∧
      (c = 32 → s'.cursorX = s.cursorX + 1 ∧ s'.cursorY = s.cursorY ∨ s'.cursorX = 0) := by
  obtain ⟨s₁, h₁, hgrid₁, hmoved, hend, hplace, -⟩ := putEnd_keeps font (keptByOutput_painted font) h
    hgrid fun s' h' hmoved _ _ hscrolls ↦ scrollLine_painted font h' fun hbottom ↦
      hmoved.black (hclean (hscrolls hbottom))
  rw [hend]
  apply (fbRepaintCursor_drawn font h₁.fits hgrid₁ h₁.drawn).mono
  rintro s₂ ⟨⟨hpaint, -⟩, hdrawn⟩
  refine ⟨⟨hgrid₁.repaint hpaint, h₁.fits.repaint hpaint, fun _ ↦ hdrawn, id⟩,
    hmoved.trans hpaint.moved, ?_⟩
  obtain ⟨pixels, rfl⟩ := hpaint
  exact fun hc ↦ (hplace hc).imp_right And.right

/-- New output returns to the live view. -/
theorem snapView_shown (h : Shown font s block) :
    Succeeds (snapView font s) fun s' ↦ Grid s' ∧ Fits s' ∧ Moved s s' ∧
      (∃ block', Drawn font s' block') ∧ s'.cursorX = s.cursorX ∧ s'.cursorY = s.cursorY := by
  unfold snapView
  refine .ite (fun _ ↦ ?_) fun hlive ↦ ?_
  · have hgrid : Grid { s with viewBack := 0 } := { h.grid with viewBack := by dsimp only; omega }
    have hfits : Fits { s with viewBack := 0 } := { h.fits with }
    apply (fbRedrawLive_drawn font hfits hgrid).mono
    rintro s' ⟨hpaint, hdrawn⟩
    refine ⟨hgrid.repaint hpaint.1, hfits.repaint hpaint.1, ?_, ⟨_, hdrawn⟩, ?_⟩
    · obtain ⟨pixels, rfl⟩ := hpaint.1
      exact ⟨s.text, pixels, s.history, s.histHead, s.histCount, s.cursorX, s.cursorY, 0, rfl⟩
    · obtain ⟨pixels, rfl⟩ := hpaint.1
      exact ⟨rfl, rfl⟩
  · exact .of_some ⟨h.grid, h.fits, (Repaint.refl s).moved,
      ⟨block, h.drawn (not_not.1 hlive)⟩, rfl, rfl⟩

/-- The start of `fb_putchar` for text: the live view without the block. -/
theorem putStart_painted (h : Shown font s block) :
    Succeeds (putStart font s) fun s' ↦
      Painted font s' ∧ Grid s' ∧ Moved s s' ∧ s'.cursorX = s.cursorX ∧ s'.cursorY = s.cursorY := by
  apply (snapView_shown font h).bind
  rintro s₁ ⟨hgrid, hfits, hmoved, ⟨block', hdrawn⟩, hx, hy⟩
  apply (fbDrawCursor_drawn font hfits hgrid hdrawn false).mono
  rintro s₂ ⟨⟨hpaint, -⟩, hdrawn₂⟩
  refine ⟨⟨(hgrid.repaint hpaint).toStore, hfits.repaint hpaint, hdrawn₂⟩, hgrid.repaint hpaint,
    hmoved.trans hpaint.moved, ?_⟩
  obtain ⟨pixels, rfl⟩ := hpaint
  exact ⟨hx, hy⟩

/-- Moving on does not change whether a byte scrolls, if the cursor stays. -/
theorem Moved.scrolls (h : Moved s s') (hx : s'.cursorX = s.cursorX) (hy : s'.cursorY = s.cursorY)
    (hscrolls : Scrolls s' c) : Scrolls s c := by
  unfold Scrolls Fills at hscrolls
  rw [hx, hy] at hscrolls
  obtain ⟨_, _, _, _, _, _, _, _, rfl⟩ := h
  exact hscrolls

theorem fbPutchar_text (h : Shown font s block) (hrest : s.ansi = .normal) (hc : c ≠ 0x1B)
    (htab : c ≠ 9) (hclean : Scrolls s c → Black s) (fuel : ℕ) :
    Succeeds (fbPutchar font (fuel + 1) s c) fun s' ↦
      Shown font s' s'.cursorVisible ∧ Moved s s' ∧
        (c = 32 → s'.cursorX = s.cursorX + 1 ∧ s'.cursorY = s.cursorY ∨ s'.cursorX = 0) := by
  obtain ⟨s₁, hstart, hpainted, hgrid, hmoved, hx, hy⟩ := putStart_painted font h
  rw [fbPutchar_of_start font hrest hc hstart, if_neg htab]
  apply (putEnd_shown font hpainted hgrid
    fun hscrolls ↦ hmoved.black (hclean (hmoved.scrolls hx hy hscrolls))).mono
  rintro s₂ ⟨hshown, hmoved₂, hplace⟩
  rw [hx, hy] at hplace
  exact ⟨hshown, hmoved.trans hmoved₂, hplace⟩

/-- The loop of the tab draws its spaces. -/
theorem tabLoop_shown (h : Shown font s block) (hrest : s.ansi = .normal)
    (hclean : s.cursorY + 1 = s.rows → s.cols ≤ 8 * (s.cursorX / 8 + 1) → Black s) (depth : ℕ)
    (hfuel : 8 - s.cursorX % 8 ≤ fuel) :
    Succeeds (tabLoop (fun s ↦ fbPutchar font (depth + 1) s 32) fuel s) fun s' ↦
      Shown font s' s'.cursorVisible := by
  induction fuel generalizing s block with
  | zero => omega
  | succ fuel ih =>
    have hx := h.grid.cursorX
    have hspace : Scrolls s 32 → Black s := by
      rintro ⟨hlast, hbyte⟩
      rcases hbyte with hbyte | ⟨hbyte, -⟩ | ⟨-, hfull⟩
      · cases hbyte
      · cases hbyte
      · exact hclean hlast (by omega)
    rw [tabLoop]
    apply (fbPutchar_text font h hrest (by decide) (by decide) hspace depth).bind
    rintro s' ⟨hshown, hmoved, hplace⟩
    have hmod : s'.cursorX.tmod 8 = s'.cursorX % 8 :=
      Int.tmod_eq_emod_of_nonneg hshown.grid.cursorX.1
    rw [hmod]
    refine .ite (fun hgoes ↦ ?_) fun _ ↦ .of_some hshown
    obtain ⟨hnext, hsame⟩ := (hplace rfl).resolve_right (by omega)
    obtain ⟨hansi, hrows, hcols⟩ := hmoved.same
    apply ih hshown (hansi.trans hrest) _ (by omega)
    intro hlast hwide
    exact hmoved.black (hclean (by omega) (by omega))

/-- A clean byte keeps the screen, and a byte of text completes it. -/
theorem fbPutchar_shown (h : Shown font s block) (hclean : ByteClean s c) (hfuel : 9 ≤ fuel) :
    Succeeds (fbPutchar font fuel s c) fun s' ↦ Keeps font s block s' ∧
      (s.ansi = .normal → c ≠ 0x1B → Shown font s' s'.cursorVisible) := by
  obtain ⟨depth, rfl⟩ : ∃ depth, fuel = depth + 1 + 1 := ⟨fuel - 2, by omega⟩
  by_cases htext : s.ansi = .normal ∧ c ≠ 0x1B
  · obtain ⟨hrest, hc⟩ := htext
    unfold ByteClean at hclean
    rw [hrest] at hclean
    suffices hshown : Succeeds (fbPutchar font (depth + 1 + 1) s c) fun s' ↦
        Shown font s' s'.cursorVisible from
      hshown.mono fun s' h' ↦ ⟨h'.keeps font, fun _ _ ↦ h'⟩
    by_cases htab : c = 9
    · subst htab
      obtain ⟨s₁, hstart, hpainted, hgrid, hmoved, hx, hy⟩ := putStart_painted font h
      have hshown : Shown font s₁ false :=
        ⟨hgrid, hpainted.fits, fun _ ↦ hpainted.drawn, fun _ ↦ rfl⟩
      have hrest₁ : s₁.ansi = .normal := hmoved.same.1.trans hrest
      have hx₁ := hgrid.cursorX
      rw [fbPutchar_of_start font hrest hc hstart, if_pos rfl]
      apply tabLoop_shown font hshown hrest₁ _ depth (by omega)
      intro hlast hwide
      apply hmoved.black (hclean hc _)
      exact hmoved.scrolls hx hy ⟨hlast, .inr (.inl ⟨rfl, hwide⟩)⟩
    · exact (fbPutchar_text font h hrest hc htab (hclean hc) _).mono fun s' h' ↦ h'.1
  · -- The byte belongs to a sequence.
    obtain ⟨⟨consumed, s₁⟩, hconsume, hkeeps, -, hkept⟩ :=
      (ansiConsume_shown font h hclean).and (ansiConsume_grid font h.grid c)
    cases consumed with
    | false =>
      obtain ⟨-, hrest, hc⟩ := hkept rfl
      exact absurd ⟨hrest, hc⟩ htext
    | true =>
      refine ⟨s₁, ?_, hkeeps rfl, fun hrest hc ↦ absurd ⟨hrest, hc⟩ htext⟩
      rw [fbPutchar, hconsume]
      rfl

/-- A call after which the screen shows the text. -/
def Clean (s : Console) : Op → Prop
  | .putchar c => ByteClean s c
  | .clear => s.cursorVisible = false ∧ Black s
  | _ => True

/-- A page of history changes the view and the pixels of the grid; the live view is redrawn. -/
theorem fbScrollPage_shown (hgrid : Grid s) (hfits : Fits s) (dir : ℤ) :
    Succeeds (fbScrollPage font s dir) fun s' ↦ Shown font s' s'.cursorVisible ∧
      SameOutside (cellTile s.pitchWords) (grid s) s.pixels s'.pixels ∧
      ∃ pixels back, s' = { s with pixels := pixels, viewBack := back } := by
  have hgrid' : Grid { s with viewBack := pageBack s dir } :=
    { hgrid with viewBack := pageBack_mem s dir }
  have hfits' : Fits { s with viewBack := pageBack s dir } := { hfits with }
  refine .ite (fun _ ↦ ?_) fun hback ↦ ?_
  · apply (fbRedrawLive_drawn font hfits' hgrid').mono
    rintro s' ⟨⟨hpaint, hout⟩, hdrawn⟩
    refine ⟨⟨hgrid'.repaint hpaint, hfits'.repaint hpaint, fun _ ↦ hdrawn, id⟩, hout, ?_⟩
    obtain ⟨pixels, rfl⟩ := hpaint
    exact ⟨pixels, pageBack s dir, rfl⟩
  · obtain ⟨hpaint, hout⟩ := (paintScreen_shows font hfits' (historyCell _)).1
    rw [fbRedrawHistory_eq font hgrid']
    refine .of_some ⟨⟨hgrid'.repaint hpaint, hfits'.repaint hpaint,
      fun hlive ↦ absurd hlive ?_, id⟩, hout, ?_⟩
    · obtain ⟨pixels, hpixels⟩ := hpaint
      rwa [hpixels]
    · obtain ⟨pixels, hpixels⟩ := hpaint
      exact ⟨pixels, pageBack s dir, hpixels⟩

/-- Every clean call keeps the screen. -/
theorem step_shown (h : Shown font s block) {op : Op} (hclean : Clean s op) (hfuel : 9 ≤ fuel) :
    Succeeds (step font fuel s op) (Keeps font s block) := by
  cases op with
  | putchar c => exact (fbPutchar_shown font h hclean hfuel).mono fun s' h' ↦ h'.1
  | setColor fg bg =>
    have hgrid : Grid { s with fg := fg, bg := bg } := { h.grid with }
    apply (fbUpdateColor_grid hgrid).mono
    rintro s' ⟨hgrid', color, palette, hgrows, rfl⟩
    refine ⟨block, ⟨hgrid', { h.fits with }, fun hlive ↦ ?_, h.hidden⟩, id⟩
    exact (h.drawn hlive).grows font h.grid.toStore hgrows fg bg s.reverse color
  | clear =>
    exact (fbClear_shown font h.grid.toStore h.fits hclean.2 hclean.1).mono
      fun s' h' ↦ h'.keeps font
  | pageUp => exact (fbScrollPage_shown font h.grid h.fits 1).mono fun s' h' ↦ h'.1.keeps font
  | pageDown => exact (fbScrollPage_shown font h.grid h.fits (-1)).mono fun s' h' ↦ h'.1.keeps font

/-- Every call of a run is clean in the state in which it is made. -/
def CleanRun (fuel : ℕ) (s : Console) (ops : List Op) : Prop :=
  Runs.Meets (Runs.lift (step font fuel)) (fun s op ↦ ∀ t ∈ s, Clean t op) (some s) ops

theorem Keeps.trans {block' : Bool} (hblock : block = s.cursorVisible → block' = s'.cursorVisible)
    (h : Keeps font s' block' s'') : Keeps font s block s'' := by
  obtain ⟨block'', hshown, hkeeps⟩ := h
  exact ⟨block'', hshown, fun hvisible ↦ hkeeps (hblock hvisible)⟩

theorem run_cons (fuel : ℕ) (s : Console) (op : Op) (ops : List Op) :
    run font fuel s (op :: ops) = step font fuel s op >>= fun s ↦ run font fuel s ops :=
  List.foldlM_cons

theorem run_shown (h : Shown font s block) (hfuel : 9 ≤ fuel) (hclean : CleanRun font fuel s ops) :
    Succeeds (run font fuel s ops) (Keeps font s block) := by
  rw [run, ← Runs.run_lift]
  refine (hclean.always (P := fun s' ↦ Succeeds s' (Keeps font s block)) ?_ ?_).last
  · exact .of_some ⟨block, h, id⟩
  · rintro _ op hop ⟨s', rfl, block', hshown, hblock⟩
    exact (step_shown font hshown (hop s' rfl) hfuel).mono fun s'' h' ↦ h'.trans font hblock

theorem CleanRun.of_append {ops' : List Op} (hclean : CleanRun font fuel s (ops ++ ops'))
    (hrun : run font fuel s ops = some s') :
    CleanRun font fuel s ops ∧ CleanRun font fuel s' ops' := by
  obtain ⟨hbefore, hafter⟩ := Runs.meets_append.mp hclean
  rw [Runs.run_lift, ← run, hrun] at hafter
  exact ⟨hbefore, hafter⟩

/-- Paging through the history and back to the live view restores the screen. -/
theorem pages_restore (h : Shown font s s.cursorVisible) (hlive : s.viewBack = 0) (fuel : ℕ)
    {pages : List Op} (hpages : ∀ op ∈ pages, op = .pageUp ∨ op = .pageDown) :
    Succeeds (run font fuel s pages) fun s' ↦ s'.viewBack = 0 → s' = s := by
  have hrun : Succeeds (run font fuel s pages) fun s' ↦ Shown font s' s'.cursorVisible ∧
      SameOutside (cellTile s.pitchWords) (grid s) s.pixels s'.pixels ∧
      ∃ pixels back, s' = { s with pixels := pixels, viewBack := back } := by
    apply Succeeds.foldlM ⟨h, SameOutside.refl _, s.pixels, s.viewBack, rfl⟩
    rintro s' op hop ⟨hshown, hout, pixels, back, rfl⟩
    have hpage (dir : ℤ) := (fbScrollPage_shown font hshown.grid hshown.fits dir).mono
      fun s'' (hs'' : _ ∧ _ ∧ _) ↦ show Shown font s'' s''.cursorVisible ∧
        SameOutside (cellTile s.pitchWords) (grid s) s.pixels s''.pixels ∧
        ∃ pixels back, s'' = { s with pixels := pixels, viewBack := back } from
      ⟨hs''.1, hout.trans hs''.2.1, hs''.2.2⟩
    rcases hpages op hop with rfl | rfl
    · exact hpage 1
    · exact hpage (-1)
  apply hrun.mono
  rintro s' ⟨hshown, hout, pixels, back, rfl⟩ hback
  dsimp only at hback
  subst hback
  have hpixels : pixels = s.pixels :=
    Shows.eq_of_sameOutside (h.drawn hlive) (hshown.drawn rfl) hout
  rw [hpixels, ← hlive]

/-- The lines of the framebuffer are whole words and hold its width. -/
def Framebuffer.WholeWords (fb : Framebuffer) : Prop :=
  4 ∣ fb.pitch ∧ fb.width % 2 ^ 32 ≤ fb.pitch / 4

theorem clampCells_mul_le (side size limit : ℕ) :
    (clampCells side size limit).toNat * size ≤ side := by
  have hdiv := Nat.div_mul_le_self side size
  unfold clampCells
  split_ifs with hlimit
  · rw [Int.toNat_natCast]
    exact (Nat.mul_le_mul_right size hlimit.le).trans hdiv
  · rw [Int.toNat_natCast]
    exact hdiv

/-- After `fb_init` the blank text is drawn, without the cursor. -/
theorem fbInit_shown {fb : Framebuffer} (haccepted : fb.Accepted) (hcell : fb.HasCell)
    (hwords : fb.WholeWords) (hinit : fbInit (some fb) initial = some (0, s)) :
    Shown font s false := by
  obtain ⟨color, palette, hbg, hstore, heq⟩ := fbInit_eq haccepted hcell
  have hcols : (adopt initial fb).cols.toNat * FONT_WIDTH ≤ (adopt initial fb).pitchWords :=
    (clampCells_mul_le _ FONT_WIDTH FB_MAX_COLS).trans hwords.2
  have hrows : (adopt initial fb).rows.toNat * FONT_HEIGHT ≤ (adopt initial fb).height :=
    clampCells_mul_le _ FONT_HEIGHT FB_MAX_ROWS
  have hpitch : (adopt initial fb).pitchBytes = 4 * (adopt initial fb).pitchWords :=
    (Nat.mul_div_cancel' hwords.1).symm
  obtain ⟨s', hclear, hpainted, hgrid, -⟩ :=
    (fbClear_painted font hstore hpitch hcols hrows hbg).and (fbClear_grid hstore)
  rw [heq, hclear] at hinit
  obtain rfl : s' = s := congrArg Prod.snd (some.inj hinit)
  exact ⟨hgrid, hpainted.fits, fun _ ↦ hpainted.drawn, fun _ ↦ rfl⟩

/-- From the first byte of text on, a clean run leaves the live screen as `fb_redraw_live` would
paint it, and paging through the history and back restores it. -/
theorem pixels_show_text_of_clean (fb : Framebuffer) (haccepted : fb.Accepted) (hcell : fb.HasCell)
    (hwords : fb.WholeWords) {fuel : ℕ} (hfuel : 9 ≤ fuel) {s₀ s₁ s₂ : Console}
    (hinit : fbInit (some fb) initial = some (0, s₀)) (ops ops' : List Op) (c : UInt8)
    (hclean : CleanRun font fuel s₀ (ops ++ .putchar c :: ops'))
    (hrun : run font fuel s₀ ops = some s₁) (htext : s₁.ansi = .normal ∧ c ≠ 0x1B)
    (hrun' : run font fuel s₁ (.putchar c :: ops') = some s₂) (hlive : s₂.viewBack = 0) :
    fbRedrawLive font s₂ = some s₂ ∧
      ∀ pages : List Op, (∀ op ∈ pages, op = .pageUp ∨ op = .pageDown) →
        ∃ s₃, run font fuel s₂ pages = some s₃ ∧ (s₃.viewBack = 0 → s₃ = s₂) := by
  obtain ⟨hclean₁, hclean₂⟩ := hclean.of_append font hrun
  obtain ⟨block, hshown₁, -⟩ :=
    (run_shown font (fbInit_shown font haccepted hcell hwords hinit) hfuel hclean₁).of_eq_some hrun
  rw [run_cons] at hrun'
  obtain ⟨s', hstep, hrest⟩ := bind_eq_some_iff.1 hrun'
  have hbyte : Shown font s' s'.cursorVisible :=
    ((fbPutchar_shown font hshown₁ (hclean₂.1 s₁ rfl) hfuel).of_eq_some hstep).2 htext.1 htext.2
  obtain ⟨block', hshown₂, hblock⟩ :=
    (run_shown font hbyte hfuel (by rw [CleanRun, ← hstep]; exact hclean₂.2)).of_eq_some hrest
  obtain rfl := hblock rfl
  exact ⟨fbRedrawLive_of_drawn font hshown₂.fits hshown₂.grid (hshown₂.drawn hlive),
    fun pages hpages ↦ pages_restore font hshown₂ hlive fuel hpages⟩

/-- A letter on a screen of two cells. -/
theorem pixels_show_text_of_clean_letter : ∃ s₀ s₁,
    fbInit (some ⟨fun _ ↦ 0, 1, 32, 64, 16, 16⟩) initial = some (0, s₀) ∧
      run blankFont 9 s₀ [.putchar 65] = some s₁ ∧ fbRedrawLive blankFont s₁ = some s₁ := by
  have haccepted : Framebuffer.Accepted ⟨fun _ ↦ 0, 1, 32, 64, 16, 16⟩ := ⟨rfl, rfl⟩
  have hcell : Framebuffer.HasCell ⟨fun _ ↦ 0, 1, 32, 64, 16, 16⟩ := ⟨by decide, by decide⟩
  obtain ⟨⟨result, s₀⟩, hinit, rfl, hgrid⟩ := fbInit_grid haccepted hcell
  obtain ⟨s₁, hrun, -⟩ := run_grid blankFont hgrid [.putchar 65] (le_refl 9)
  have hstart : (fbInit (some ⟨fun _ ↦ 0, 1, 32, 64, 16, 16⟩) initial).map
      (fun r ↦ (r.2.ansi, r.2.cursorX, r.2.cols)) = some (.normal, 0, 2) := by decide +kernel
  have hend : ((fbInit (some ⟨fun _ ↦ 0, 1, 32, 64, 16, 16⟩) initial).bind fun r ↦
      (run blankFont 9 r.2 [.putchar 65]).map (·.viewBack)) = some 0 := by decide +kernel
  rw [hinit] at hstart hend
  simp only [map_some, some.injEq, Prod.mk.injEq, bind_some] at hstart hend
  rw [hrun, map_some, some.injEq] at hend
  obtain ⟨hansi, hx, hcols⟩ := hstart
  have hclean : Clean s₀ (.putchar 65) := by
    unfold Clean ByteClean
    rw [hansi]
    rintro - ⟨-, hbyte | ⟨hbyte, -⟩ | ⟨-, hlast⟩⟩
    · cases hbyte
    · cases hbyte
    · omega
  exact ⟨s₀, s₁, hinit, hrun, (pixels_show_text_of_clean blankFont _ haccepted hcell
    ⟨by decide, by decide⟩ (le_refl 9) hinit [] [] 65 ⟨by rintro _ ⟨⟩; exact hclean, trivial⟩ rfl
    ⟨hansi, by decide⟩ hrun hend).1⟩

/-- A newline on a blue background: the row that scrolls in stays black, while its cells are
blue. -/
theorem scrolled_row_stays_black : ∃ s₀ s₁ s₂,
    fbInit (some ⟨fun _ ↦ 0, 1, 32, 64, 16, 16⟩) initial = some (0, s₀) ∧
      run blankFont 9 s₀ [.setColor 0xFFFFFF 0x0000AA, .putchar 10] = some s₁ ∧
      s₁.viewBack = 0 ∧ fbRedrawLive blankFont s₁ = some s₂ ∧
      s₁.pixels 32 = 0 ∧ s₂.pixels 32 = 0xAA := by
  have hrun : ((fbInit (some ⟨fun _ ↦ 0, 1, 32, 64, 16, 16⟩) initial).bind fun r ↦
      (run blankFont 9 r.2 [.setColor 0xFFFFFF 0x0000AA, .putchar 10]).bind fun s₁ ↦
        (fbRedrawLive blankFont s₁).map fun s₂ ↦
          (r.1, s₁.viewBack, s₁.pixels 32, s₂.pixels 32)) = some (0, 0, 0, 0xAA) := by
    decide +kernel
  obtain ⟨⟨result, s₀⟩, hinit, hrun⟩ := bind_eq_some_iff.1 hrun
  obtain ⟨s₁, hbytes, hrun⟩ := bind_eq_some_iff.1 hrun
  obtain ⟨s₂, hredraw, hvalues⟩ := map_eq_some_iff.1 hrun
  simp only [Prod.mk.injEq] at hvalues
  obtain ⟨rfl, hview, hblack, hblue⟩ := hvalues
  exact ⟨s₀, s₁, s₂, hinit, hbytes, hview, hredraw, hblack, hblue⟩

end ToastyUnix.Fb
