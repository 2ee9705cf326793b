import ToastyUnix.Drivers.ConsoleGrid
import ToastyUnix.Lib.Tiles

/-!
# The pixels and the text of the console

The screen is a memory drawn cell by cell, over the tiles of `Lib.Tiles`: a word of four bytes is
the tile of a pixel, and a block of `FONT_WIDTH` by `FONT_HEIGHT` words is the tile of a cell.
`Drawn` says that the pixels of the grid show the text, with or without the block of the cursor.
-/

namespace ToastyUnix.Fb

open Checked Tiles Option Function List

variable {s s' : Console} (font : Font)

/-- The cell of the grid to which a byte of the screen belongs. -/
def cellTile (pitchWords a : ℕ) : ℤ × ℤ :=
  ((a / 4 / pitchWords / FONT_HEIGHT : ℕ), (a / 4 % pitchWords / FONT_WIDTH : ℕ))

/-- What a cell shows: the bitmap and the two colours. -/
structure Look where
  glyph : ℕ → BitVec 8
  fg : BitVec 32
  bg : BitVec 32

/-- The byte of the screen at an address of a cell. -/
def cellByte (pitchWords : ℕ) (look : Look) (a : ℕ) : UInt8 :=
  byteOf (if (look.glyph (a / 4 / pitchWords % FONT_HEIGHT)).getMsbD
    (a / 4 % pitchWords % FONT_WIDTH) then look.fg else look.bg) (a % 4)

theorem paintGlyph_eq_foldl (pixels : ℕ → UInt8) (pitchWords base : ℕ) (glyph : ℕ → BitVec 8)
    (fg bg : BitVec 32) :
    paintGlyph pixels pitchWords base glyph fg bg =
      ((range FONT_HEIGHT).product (range FONT_WIDTH)).foldl (fun mem k ↦
        Tiles.paint (· / 4) (fun word a ↦ byteOf word (a % 4)) mem
          (base + (k.1 * pitchWords + k.2)) (if (glyph k.1).getMsbD k.2 then fg else bg))
        pixels := by
  simp only [paintGlyph, product, foldl_flatMap, foldl_map]
  rfl

variable {w n pitchWords row col m a : ℕ} {i : ℤ × ℤ} {cell : Cell}

theorem div_mod_of_eq {q r : ℕ} (hr : r < n) (h : w = q * n + r) : w / n = q ∧ w % n = r := by
  subst h
  rw [Nat.mul_comm, Nat.mul_add_div (by omega), Nat.mul_add_mod, Nat.div_eq_of_lt hr,
    Nat.mod_eq_of_lt hr]
  exact ⟨rfl, rfl⟩

/-- The word of a pixel determines its cell and its place in the cell. -/
theorem div_mod_of_pixel {y x : ℕ} (hy : y < FONT_HEIGHT) (hx : x < FONT_WIDTH)
    (hpitch : col * FONT_WIDTH + FONT_WIDTH ≤ pitchWords)
    (h : w = row * FONT_HEIGHT * pitchWords + col * FONT_WIDTH + (y * pitchWords + x)) :
    (w / pitchWords / FONT_HEIGHT = row ∧ w / pitchWords % FONT_HEIGHT = y) ∧
      (w % pitchWords / FONT_WIDTH = col ∧ w % pitchWords % FONT_WIDTH = x) := by
  have hline : w / pitchWords = row * FONT_HEIGHT + y ∧ w % pitchWords = col * FONT_WIDTH + x := by
    apply div_mod_of_eq (by omega)
    rw [h]
    ring
  exact ⟨div_mod_of_eq hy hline.1, div_mod_of_eq hx hline.2⟩

/-- The loops over a glyph draw the tile of a cell. -/
theorem paintGlyph_eq_paint (pixels : ℕ → UInt8) (row : ℕ)
    (hpitch : col * FONT_WIDTH + FONT_WIDTH ≤ pitchWords) (look : Look) :
    paintGlyph pixels pitchWords (row * FONT_HEIGHT * pitchWords + col * FONT_WIDTH) look.glyph
        look.fg look.bg =
      Tiles.paint (cellTile pitchWords) (cellByte pitchWords) pixels ((row : ℤ), (col : ℤ))
        look := by
  rw [paintGlyph_eq_foldl]
  funext a
  rw [Tiles.paint]
  by_cases htile : cellTile pitchWords a = ((row : ℤ), (col : ℤ))
  · -- The address is written once, by the pixel that it belongs to.
    rw [if_pos htile]
    have hrow : a / 4 / pitchWords / FONT_HEIGHT = row := Int.ofNat.inj (congrArg Prod.fst htile)
    have hcol : a / 4 % pitchWords / FONT_WIDTH = col := Int.ofNat.inj (congrArg Prod.snd htile)
    have hy := Nat.mod_lt (a / 4 / pitchWords) (show 0 < FONT_HEIGHT by decide)
    have hx := Nat.mod_lt (a / 4 % pitchWords) (show 0 < FONT_WIDTH by decide)
    have hplace : a / 4 = row * FONT_HEIGHT * pitchWords + col * FONT_WIDTH +
        (a / 4 / pitchWords % FONT_HEIGHT * pitchWords + a / 4 % pitchWords % FONT_WIDTH) := by
      calc
        a / 4 = pitchWords * (a / 4 / pitchWords) + a / 4 % pitchWords :=
          (Nat.div_add_mod _ _).symm
        _ = pitchWords * (FONT_HEIGHT * row + a / 4 / pitchWords % FONT_HEIGHT) +
            (FONT_WIDTH * col + a / 4 % pitchWords % FONT_WIDTH) := by
          rw [← hrow, ← hcol, Nat.div_add_mod (a / 4 / pitchWords),
            Nat.div_add_mod (a / 4 % pitchWords)]
        _ = _ := by ring
    refine (foldl_paint_of_mem (fun k : ℕ × ℕ ↦ row * FONT_HEIGHT * pitchWords +
      col * FONT_WIDTH + (k.1 * pitchWords + k.2)) _ (k := (a / 4 / pitchWords % FONT_HEIGHT,
      a / 4 % pitchWords % FONT_WIDTH)) ?_ ?_ ?_).trans rfl
    · exact pair_mem_product.2 ⟨mem_range.2 hy, mem_range.2 hx⟩
    · exact hplace
    · rintro ⟨y, x⟩ hmem heq
      rw [pair_mem_product, mem_range, mem_range] at hmem
      have hpixel := div_mod_of_pixel hmem.1 hmem.2 hpitch (hplace.trans heq.symm)
      rw [hpixel.1.2, hpixel.2.2]
  · rw [if_neg htile]
    apply foldl_paint_of_notMem
    rintro ⟨y, x⟩ hmem heq
    rw [pair_mem_product, mem_range, mem_range] at hmem
    have hpixel := div_mod_of_pixel hmem.1 hmem.2 hpitch heq
    apply htile
    rw [cellTile, hpixel.1.1, hpixel.2.1]

/-- The look of a cell, with its colours exchanged under the block of the cursor. -/
def cellLook (palette : Palette) (cell : Cell) (swap : Bool) : Look :=
  ⟨font.glyph (glyphOf cell.c),
    if swap then palette.bg (paletteIndex cell.color) else palette.fg (paletteIndex cell.color),
    if swap then palette.fg (paletteIndex cell.color) else palette.bg (paletteIndex cell.color)⟩

/-- The looks of the text, with or without the block of the cursor. -/
def textLook (s : Console) (block : Bool) (i : ℤ × ℤ) : Look :=
  cellLook font s.palette (cellOf s i) (block && decide (i = (s.cursorY, s.cursorX)))

/-- The cells of the grid. -/
def grid (s : Console) : Set (ℤ × ℤ) :=
  { i | (0 ≤ i.1 ∧ i.1 < s.rows) ∧ (0 ≤ i.2 ∧ i.2 < s.cols) }

/-- The pixels of the grid show the text, with or without the cursor's block. -/
def Drawn (s : Console) (block : Bool) : Prop :=
  Shows (cellTile s.pitchWords) (cellByte s.pitchWords) (grid s) s.pixels (textLook font s block)

/-- The pixels of the framebuffer lie in whole words, and its lines hold the grid. -/
structure Fits (s : Console) : Prop where
  top : s.textTop = 0
  pitch : s.pitchBytes = 4 * s.pitchWords
  width : s.cols.toNat * FONT_WIDTH ≤ s.pitchWords
  height : s.rows.toNat * FONT_HEIGHT ≤ s.height

theorem Fits.repaint (h : Fits s) (hpaint : Repaint s s') : Fits s' := by
  obtain ⟨pixels, rfl⟩ := hpaint
  exact { h with }

theorem fbPaintCell_eq_paint (h : Fits s) (hi : i ∈ grid s) (cell : Cell) (showCursor : Bool) :
    fbPaintCell font s i.1 i.2 cell showCursor = { s with
      pixels := Tiles.paint (cellTile s.pitchWords) (cellByte s.pitchWords) s.pixels i
        (cellLook font s.palette cell (showCursor && decide (i = (s.cursorY, s.cursorX)))) } := by
  obtain ⟨hrow, hcol⟩ := hi
  have hwidth : s.cols.toNat * 8 ≤ s.pitchWords := h.width
  have hpitch : i.2.toNat * FONT_WIDTH + FONT_WIDTH ≤ s.pitchWords := by
    change i.2.toNat * 8 + 8 ≤ s.pitchWords
    omega
  have hplace : (((i.1.toNat : ℕ) : ℤ), ((i.2.toNat : ℕ) : ℤ)) = i := by
    rw [Int.toNat_of_nonneg hrow.1, Int.toNat_of_nonneg hcol.1]
  have hswap : (showCursor && decide (i.1 = s.cursorY) && decide (i.2 = s.cursorX)) =
      (showCursor && decide (i = (s.cursorY, s.cursorX))) := by
    simp only [Prod.ext_iff, Bool.decide_and, Bool.and_assoc]
  have hpaint := paintGlyph_eq_paint s.pixels i.1.toNat hpitch
    (cellLook font s.palette cell (showCursor && decide (i = (s.cursorY, s.cursorX))))
  rw [hplace] at hpaint
  rw [fbPaintCell, if_neg (by omega), ← hpaint, h.top, Nat.zero_add, hswap]
  rfl

theorem cellOf_of_cellAt (h : cellAt s.text i.1 i.2 = some cell) : cellOf s i = cell := by
  rw [cellOf, h]
  rfl

theorem fbDrawCell_eq_paint (h : Fits s) (hgrid : Grid s) (hi : i ∈ grid s) (block : Bool) :
    fbDrawCell font s i.1 i.2 block = some { s with
      pixels := Tiles.paint (cellTile s.pitchWords) (cellByte s.pitchWords) s.pixels i
        (textLook font s block i) } := by
  have hrows := hgrid.rows
  have hcols := hgrid.cols
  obtain ⟨hrow, hcol⟩ := id hi
  have hmax : (FB_MAX_ROWS : ℤ) = 256 := rfl
  have hcell := cellAt_of_mem s.text (i := i.1) (j := i.2) (by omega) (by omega)
  rw [fbDrawCell, hcell, textLook, cellOf_of_cellAt hcell]
  exact congrArg some (fbPaintCell_eq_paint font h hi _ block)

theorem cursor_mem_grid (hgrid : Grid s) : (s.cursorY, s.cursorX) ∈ grid s :=
  ⟨hgrid.cursorY, hgrid.cursorX⟩

theorem textLook_of_ne (hi : i ≠ (s.cursorY, s.cursorX)) (block : Bool) :
    textLook font s block i = textLook font s false i := by
  unfold textLook
  rw [decide_eq_false hi, Bool.and_false, Bool.and_false]

/-- Two states that differ in the pixels of the grid only. -/
def GridRepaint (s s' : Console) : Prop :=
  Repaint s s' ∧ SameOutside (cellTile s.pitchWords) (grid s) s.pixels s'.pixels

theorem GridRepaint.trans {s'' : Console} (h : GridRepaint s s') (h' : GridRepaint s' s'') :
    GridRepaint s s'' := by
  obtain ⟨⟨pixels, rfl⟩, hout⟩ := h
  exact ⟨Repaint.trans ⟨pixels, rfl⟩ h'.1, hout.trans h'.2⟩

/-- Drawing the cell of the cursor sets or removes the block. -/
theorem fbDrawCursor_drawn (h : Fits s) (hgrid : Grid s) {old : Bool} (hdrawn : Drawn font s old)
    (block : Bool) :
    Succeeds (fbDrawCell font s s.cursorY s.cursorX block) fun s' ↦
      GridRepaint s s' ∧ Drawn font s' block := by
  have hcursor := cursor_mem_grid hgrid
  have hpaint := fbDrawCell_eq_paint font h hgrid hcursor block
  dsimp only at hpaint
  rw [hpaint]
  apply Succeeds.of_some
  refine ⟨⟨⟨_, rfl⟩, sameOutside_paint hcursor _⟩,
    (Shows.paint hdrawn (s.cursorY, s.cursorX) (textLook font s block _)).mono
      (Set.subset_insert _ _) ?_⟩
  intro i _
  rw [update_apply]
  split_ifs with hi
  · rw [hi]
    rfl
  · exact (textLook_of_ne font hi block).trans (textLook_of_ne font hi old).symm

/-- `fb_repaint_cursor` completes a text that is drawn without the block. -/
theorem fbRepaintCursor_drawn (h : Fits s) (hgrid : Grid s) (hdrawn : Drawn font s false) :
    Succeeds (fbRepaintCursor font s) fun s' ↦
      GridRepaint s s' ∧ Drawn font s' s'.cursorVisible := by
  unfold fbRepaintCursor
  refine .ite (fun hvisible ↦ ?_) fun hvisible ↦ ?_
  · apply (fbDrawCursor_drawn font h hgrid hdrawn true).mono
    rintro s' ⟨⟨⟨pixels, rfl⟩, hout⟩, hdrawn'⟩
    refine ⟨⟨⟨pixels, rfl⟩, hout⟩, ?_⟩
    rwa [hvisible]
  · rw [Bool.not_eq_true] at hvisible
    apply Succeeds.of_some
    refine ⟨⟨Repaint.refl s, SameOutside.refl _⟩, ?_⟩
    rwa [hvisible]

theorem mem_places : i ∈ places s ↔ i ∈ grid s := by
  rw [places, pair_mem_product, mem_intRange, mem_intRange]
  rfl

theorem paintScreen_eq (h : Fits s) (cells : ℤ × ℤ → Cell) :
    paintScreen font s cells = { s with pixels := (places s).foldl (fun mem i ↦ Tiles.paint
      (cellTile s.pitchWords) (cellByte s.pitchWords) mem i
      (cellLook font s.palette (cells i) false)) s.pixels } := by
  have hloop {l : List (ℤ × ℤ)} (hl : ∀ i ∈ l, i ∈ grid s) (pixels : ℕ → UInt8) :
      l.foldl (fun s' i ↦ fbPaintCell font s' i.1 i.2 (cells i) false) { s with pixels := pixels } =
        { s with pixels := l.foldl (fun mem i ↦ Tiles.paint (cellTile s.pitchWords)
          (cellByte s.pitchWords) mem i (cellLook font s.palette (cells i) false)) pixels } := by
    induction l generalizing pixels with
    | nil => rfl
    | cons i l ih =>
      obtain ⟨hi, hl⟩ := forall_mem_cons.1 hl
      have hpaint := fbPaintCell_eq_paint font (h.repaint ⟨pixels, rfl⟩) hi (cells i) false
      rw [foldl_cons, hpaint, foldl_cons]
      exact ih hl _
  exact hloop (fun i ↦ mem_places.1) s.pixels

/-- Painting the grid shows its cells, and changes nothing outside. -/
theorem paintScreen_shows (h : Fits s) (cells : ℤ × ℤ → Cell) :
    GridRepaint s (paintScreen font s cells) ∧
      Shows (cellTile s.pitchWords) (cellByte s.pitchWords) (grid s)
        (paintScreen font s cells).pixels fun i ↦ cellLook font s.palette (cells i) false := by
  rw [paintScreen_eq font h]
  refine ⟨⟨⟨_, rfl⟩, fun a ha ↦ ?_⟩, fun a ha ↦ ?_⟩
  · refine foldl_paint_of_notMem id _ fun i hi heq ↦ ha ?_
    rw [heq]
    exact mem_places.1 hi
  · exact foldl_paint_of_mem id _ (mem_places.2 ha) rfl fun _ _ heq ↦ heq

/-- `fb_redraw_live` draws the text and the visible cursor, and nothing outside the grid. -/
theorem fbRedrawLive_drawn (h : Fits s) (hgrid : Grid s) :
    Succeeds (fbRedrawLive font s) fun s' ↦ GridRepaint s s' ∧ Drawn font s' s'.cursorVisible := by
  obtain ⟨hpaint, hshows⟩ := paintScreen_shows font h (cellOf s)
  have hdrawn : Drawn font (paintScreen font s (cellOf s)) false := by
    rw [paintScreen_eq font h] at hshows ⊢
    exact hshows
  rw [fbRedrawLive_eq font hgrid]
  apply (fbRepaintCursor_drawn font (h.repaint hpaint.1) (hgrid.repaint hpaint.1) hdrawn).mono
  exact fun s' h' ↦ ⟨hpaint.trans h'.1, h'.2⟩

theorem fbRedrawLive_of_drawn (h : Fits s) (hgrid : Grid s)
    (hdrawn : Drawn font s s.cursorVisible) : fbRedrawLive font s = some s := by
  obtain ⟨s', hredraw, ⟨⟨pixels, rfl⟩, hout⟩, hdrawn'⟩ := fbRedrawLive_drawn font h hgrid
  have hpixels : pixels = s.pixels := Shows.eq_of_sameOutside hdrawn hdrawn' hout
  rw [hredraw, hpixels]

theorem cellAt_eq_none (a : Cells m) {i j : ℤ} (h : index m i = none ∨
    index FB_MAX_COLS j = none) : cellAt a i j = none := by
  unfold cellAt
  rcases h with h | h
  · rw [h]
    rfl
  · rw [h]
    cases index m i <;> rfl

theorem cellAt_val (a : Cells m) (row : Fin m) (col : Fin FB_MAX_COLS) :
    cellAt a row.val col.val = some (a row col) := by
  rw [cellAt, index_eq_some.2 rfl, index_eq_some.2 rfl]
  rfl

theorem val_eq_val {k l : Fin n} : (k.val : ℤ) = l.val ↔ k = l := by
  rw [Nat.cast_inj, Fin.ext_iff]

theorem cellAt_setCellAt {a a' : Cells m} {i j : ℤ} (h : setCellAt a i j cell = some a')
    (i' j' : ℤ) : cellAt a' i' j' = if i' = i ∧ j' = j then some cell else cellAt a i' j' := by
  obtain ⟨row, hrow, h⟩ := bind_eq_some_iff.1 h
  obtain ⟨col, hcol, h⟩ := bind_eq_some_iff.1 h
  obtain rfl := some.inj h
  obtain rfl := index_eq_some.1 hrow
  obtain rfl := index_eq_some.1 hcol
  rcases hrow' : index m i' with _ | row'
  · rw [if_neg, cellAt_eq_none _ (.inl hrow'), cellAt_eq_none _ (.inl hrow')]
    rintro ⟨rfl, -⟩
    rw [hrow] at hrow'
    cases hrow'
  rcases hcol' : index FB_MAX_COLS j' with _ | col'
  · rw [if_neg, cellAt_eq_none _ (.inr hcol'), cellAt_eq_none _ (.inr hcol')]
    rintro ⟨-, rfl⟩
    rw [hcol] at hcol'
    cases hcol'
  obtain rfl := index_eq_some.1 hrow'
  obtain rfl := index_eq_some.1 hcol'
  simp only [cellAt_val, val_eq_val, update_apply]
  by_cases hr : row' = row
  · subst hr
    by_cases hc : col' = col
    · simp [hc]
    · simp [hc]
  · simp [hr]

theorem cellAt_copyRow {dst dst' : Cells m} {src : Cells n} {i j count : ℤ}
    (h : copyRow dst i src j count = some dst') (i' j' : ℤ) :
    cellAt dst' i' j' = if i' = i ∧ j' < count then cellAt src j j' else cellAt dst i' j' := by
  obtain ⟨row, hrow, h⟩ := bind_eq_some_iff.1 h
  obtain ⟨source, hsource, h⟩ := bind_eq_some_iff.1 h
  split at h
  · cases h
  obtain rfl := some.inj h
  obtain rfl := index_eq_some.1 hrow
  obtain rfl := index_eq_some.1 hsource
  rcases hcol' : index FB_MAX_COLS j' with _ | col'
  · rw [cellAt_eq_none _ (.inr hcol'), cellAt_eq_none _ (.inr hcol'),
      cellAt_eq_none _ (.inr hcol'), ite_self]
  rcases hrow' : index m i' with _ | row'
  · rw [if_neg, cellAt_eq_none _ (.inl hrow'), cellAt_eq_none _ (.inl hrow')]
    rintro ⟨rfl, -⟩
    rw [hrow] at hrow'
    cases hrow'
  obtain rfl := index_eq_some.1 hrow'
  obtain rfl := index_eq_some.1 hcol'
  simp only [cellAt_val, val_eq_val, update_apply]
  by_cases hr : row' = row
  · subst hr
    simp only [true_and, if_true]
    split_ifs <;> rfl
  · simp [hr]

theorem cellAt_fillRow (text : Cells FB_MAX_ROWS) (row : ℤ) {cols : ℤ} (cell : Cell)
    (hrow : 0 ≤ row ∧ row < 256) (hcols : 0 ≤ cols ∧ cols ≤ 512) :
    Succeeds (fillRow text row cols cell) fun text' ↦ ∀ i j, cellAt text' i j =
      if i = row ∧ 0 ≤ j ∧ j < cols then some cell else cellAt text i j := by
  apply Succeeds.forLoop (I := fun k text' ↦ ∀ i j, cellAt text' i j =
    if i = row ∧ 0 ≤ j ∧ j < k then some cell else cellAt text i j) hcols.1
  · intro i j
    rw [if_neg (by omega)]
  · intro text' col hcol hcol' htext
    have hset := setCellAt_of_mem text' cell (i := row) (j := col) hrow ⟨hcol, by omega⟩
    refine ⟨_, hset, fun i j ↦ ?_⟩
    rw [cellAt_setCellAt hset, htext]
    split_ifs <;> first | rfl | omega

/-- The text after `fb_clear` blanked it. -/
theorem cellAt_blankText (hgrid : Store s) :
    Succeeds (blankText s) fun text' ↦ ∀ i ∈ grid s, cellAt text' i.1 i.2 =
      some ⟨32, s.curColor⟩ := by
  have hrows := hgrid.rows
  have hcols := hgrid.cols
  have hloop : Succeeds (blankText s) fun text' ↦ ∀ i j, 0 ≤ i ∧ i < s.rows → 0 ≤ j ∧ j < s.cols →
      cellAt text' i j = some ⟨32, s.curColor⟩ := by
    apply Succeeds.forLoop (I := fun k text' ↦ ∀ i j, 0 ≤ i ∧ i < k → 0 ≤ j ∧ j < s.cols →
      cellAt text' i j = some ⟨32, s.curColor⟩) (by omega)
    · intro i j hi
      omega
    · intro text' row hrow hrow' htext
      apply (cellAt_fillRow text' row ⟨32, s.curColor⟩ ⟨hrow, by omega⟩ ⟨by omega, hcols.2⟩).mono
      intro text'' hread i j hi hj
      rw [hread]
      split_ifs with hat
      · rfl
      · exact htext i j (by omega) hj
  exact hloop.mono fun text' htext i hi ↦ htext i.1 i.2 hi.1 hi.2

/-- The console while the block of the cursor is removed. -/
structure Painted (s : Console) : Prop where
  store : Store s
  fits : Fits s
  drawn : Drawn font s false

/-- A cell that is written and painted is drawn. -/
theorem Painted.write (h : Painted font s) (hi : i ∈ grid s) (cell : Cell)
    (hcell : Known s.palette cell.color) :
    Succeeds (setCellAt s.text i.1 i.2 cell) fun text ↦
      cellAt text i.1 i.2 = some cell ∧
        Painted font (fbPaintCell font { s with text := text } i.1 i.2 cell false) := by
  have hrows := h.store.rows
  have hcols := h.store.cols
  have hmax : (FB_MAX_ROWS : ℤ) = 256 := rfl
  obtain ⟨hrow, hcol⟩ := id hi
  obtain ⟨text, hset, hknown⟩ := setCellAt_all h.store.text
    (P := fun cell ↦ Known s.palette cell.color) cell hcell (i := i.1) (j := i.2)
    (by omega) (by omega)
  have hread := cellAt_setCellAt hset
  have hfits : Fits { s with text := text } := { h.fits with }
  refine ⟨text, hset, by rw [hread, if_pos ⟨rfl, rfl⟩], ?_⟩
  have hpaint := fbPaintCell_eq_paint font hfits hi cell false
  rw [hpaint]
  refine ⟨{ h.store with text := hknown }, { h.fits with }, ?_⟩
  apply (Shows.paint h.drawn i (cellLook font s.palette cell false)).mono (Set.subset_insert _ _)
  intro j _
  rw [update_apply]
  unfold textLook cellOf
  dsimp only
  rw [hread, Bool.false_and]
  by_cases hj : j = i
  · rw [if_pos hj, if_pos ⟨congrArg Prod.fst hj, congrArg Prod.snd hj⟩]
    rfl
  · rw [if_neg hj, if_neg fun h ↦ hj (Prod.ext h.1 h.2)]

theorem ansiEraseCells_painted (h : Painted font s) (row col0 col1 : ℤ) :
    Succeeds (ansiEraseCells font s row col0 col1) fun s' ↦ Painted font s' ∧ Rewrite s s' := by
  unfold ansiEraseCells
  refine .ite (fun _ ↦ .of_some ⟨h, Rewrite.refl s⟩) fun hrow ↦ ?_
  apply Succeeds.foldlM ⟨h, Rewrite.refl s⟩
  rintro s' col hcol ⟨h', text, pixels, rfl⟩
  rw [mem_intRange] at hcol
  refine .ite (fun _ ↦ .of_some ⟨h', text, pixels, rfl⟩) fun hneg ↦ ?_
  have hi : (row, col) ∈ grid { s with text := text, pixels := pixels } :=
    ⟨by dsimp only; omega, by dsimp only; omega⟩
  apply (h'.write font hi ⟨32, s.curColor⟩ h.store.curColor).bind
  rintro text' ⟨-, hpainted⟩
  refine .of_some ⟨hpainted, ?_⟩
  obtain ⟨pixels', hpixels⟩ := fbPaintCell_repaint font row col ⟨32, s.curColor⟩ false
    (s := { s with text := text', pixels := pixels })
  exact ⟨text', pixels', hpixels⟩

theorem putCell_painted (h : Painted font s) (hgrid : Grid s) (c : UInt8) :
    Succeeds (putCell font s c) fun s' ↦ Painted font s' ∧ Rewrite s s' := by
  unfold putCell
  apply (h.write font (cursor_mem_grid hgrid) ⟨c, s.curColor⟩ h.store.curColor).bind
  rintro text ⟨hread, hpainted⟩
  have hdraw : fbDrawCell font { s with text := text } s.cursorY s.cursorX false =
      some (fbPaintCell font { s with text := text } s.cursorY s.cursorX ⟨c, s.curColor⟩
        false) := by
    rw [fbDrawCell]
    dsimp only at hread ⊢
    rw [hread]
    rfl
  rw [hdraw]
  refine .of_some ⟨hpainted, ?_⟩
  obtain ⟨pixels, hpixels⟩ := fbPaintCell_repaint font s.cursorY s.cursorX ⟨c, s.curColor⟩ false
    (s := { s with text := text })
  exact ⟨text, pixels, hpixels⟩

/-- The background of the current colour is black. -/
def Black (s : Console) : Prop := s.palette.bg (paletteIndex s.curColor) = 0

theorem cellByte_blank (hblack : Black s) (pitchWords a : ℕ) :
    cellByte pitchWords (cellLook font s.palette ⟨32, s.curColor⟩ false) a = 0 := by
  have hglyph : glyphOf 32 = 0 := by decide
  have hbg : s.palette.bg (paletteIndex s.curColor) = 0 := hblack
  simp [cellByte, cellLook, hglyph, font.space, hbg, byteOf]

theorem pitchWords_pos (h : Fits s) (hstore : Store s) : 0 < s.pitchWords := by
  have hcols := hstore.cols
  have hwidth : s.cols.toNat * 8 ≤ s.pitchWords := h.width
  omega

section

variable (hpitch : 0 < pitchWords)
include hpitch

theorem cellTile_fst :
    (cellTile pitchWords a).1 = row ↔ row * (FONT_HEIGHT * (4 * pitchWords)) ≤ a ∧
      a < row * (FONT_HEIGHT * (4 * pitchWords)) + FONT_HEIGHT * (4 * pitchWords) := by
  have hsize : 0 < FONT_HEIGHT * (4 * pitchWords) := by
    change 0 < 16 * (4 * pitchWords)
    omega
  have hdiv : a / 4 / pitchWords / FONT_HEIGHT = a / (FONT_HEIGHT * (4 * pitchWords)) := by
    rw [Nat.div_div_eq_div_mul, Nat.div_div_eq_div_mul, Nat.mul_comm FONT_HEIGHT, Nat.mul_assoc]
  rw [cellTile, hdiv, Nat.cast_inj, Nat.div_eq_iff hsize]
  omega

theorem div_mod_add_line (a : ℕ) :
    (a + FONT_HEIGHT * (4 * pitchWords)) / 4 / pitchWords = a / 4 / pitchWords + FONT_HEIGHT ∧
      (a + FONT_HEIGHT * (4 * pitchWords)) / 4 % pitchWords = a / 4 % pitchWords := by
  have hword : (a + FONT_HEIGHT * (4 * pitchWords)) / 4 = a / 4 + FONT_HEIGHT * pitchWords := by
    rw [Nat.mul_left_comm, Nat.add_mul_div_left a _ (by decide)]
  rw [hword, Nat.add_mul_div_right _ _ hpitch, Nat.add_mul_mod_self_right]
  exact ⟨rfl, rfl⟩

theorem cellTile_add_line (a : ℕ) :
    cellTile pitchWords (a + FONT_HEIGHT * (4 * pitchWords)) =
      ((cellTile pitchWords a).1 + 1, (cellTile pitchWords a).2) := by
  obtain ⟨hdiv, hmod⟩ := div_mod_add_line hpitch a
  rw [cellTile, hdiv, hmod, Nat.add_div_right _ (by decide), Nat.cast_add_one]
  rfl

theorem cellByte_add_line (look : Look) (a : ℕ) :
    cellByte pitchWords look (a + FONT_HEIGHT * (4 * pitchWords)) = cellByte pitchWords look a := by
  obtain ⟨hdiv, hmod⟩ := div_mod_add_line hpitch a
  have hbyte : (a + FONT_HEIGHT * (4 * pitchWords)) % 4 = a % 4 := by
    rw [Nat.mul_left_comm, Nat.add_mul_mod_self_left]
  unfold cellByte
  rw [hdiv, hmod, hbyte, Nat.add_mod_right]

end

/-- The row of cells of a byte of the grid. -/
theorem exists_row (h : Fits s) (hstore : Store s) (ha : cellTile s.pitchWords a ∈ grid s) :
    ∃ row : ℕ, (cellTile s.pitchWords a).1 = row ∧
      row + 1 ≤ s.rows.toNat ∧ row * (FONT_HEIGHT * s.pitchBytes) ≤ a ∧
      a < row * (FONT_HEIGHT * s.pitchBytes) + FONT_HEIGHT * s.pitchBytes := by
  have hlt := ha.1.2
  have hbytes := (cellTile_fst (a := a) (pitchWords_pos h hstore)).1 rfl
  rw [← h.pitch] at hbytes
  refine ⟨_, rfl, ?_, hbytes⟩
  dsimp only [cellTile] at hlt
  omega

/-- A blank text is drawn on a black screen. -/
theorem drawn_of_black (h : Fits s) (hstore : Store s) (hblack : Black s)
    (htext : ∀ i ∈ grid s, cellAt s.text i.1 i.2 = some ⟨32, s.curColor⟩)
    (hpixels : ∀ a < s.pitchBytes * s.height, s.pixels a = 0) : Drawn font s false := by
  intro a ha
  obtain ⟨row, -, hrows, -, hbytes⟩ := exists_row h hstore ha
  have hlt : a < s.pitchBytes * s.height := by
    calc
      a < (row + 1) * (FONT_HEIGHT * s.pitchBytes) := by
        rw [Nat.add_mul, Nat.one_mul]
        exact hbytes
      _ ≤ s.rows.toNat * (FONT_HEIGHT * s.pitchBytes) := Nat.mul_le_mul_right _ hrows
      _ = s.pitchBytes * (s.rows.toNat * FONT_HEIGHT) := by ring
      _ ≤ s.pitchBytes * s.height := Nat.mul_le_mul_left _ h.height
  rw [hpixels a hlt, textLook, cellOf_of_cellAt (htext _ ha), Bool.false_and,
    cellByte_blank font hblack]

/-- A screen that is cleared in a black background is drawn. -/
theorem fbClear_painted (hstore : Store s) (hpitch : s.pitchBytes = 4 * s.pitchWords)
    (hwidth : s.cols.toNat * FONT_WIDTH ≤ s.pitchWords)
    (hheight : s.rows.toNat * FONT_HEIGHT ≤ s.height) (hblack : Black s) :
    Succeeds (fbClear s) fun s' ↦ Painted font s' := by
  obtain ⟨text, htext, hblank⟩ := cellAt_blankText hstore
  have hclear : fbClear s = some { s with
      text := text, pixels := blackPixels s, textTop := 0, cursorX := 0, cursorY := 0,
      histHead := 0, histCount := 0, viewBack := 0 } := by
    rw [fbClear, htext]
    rfl
  have hgrid := (fbClear_grid hstore).of_eq_some hclear
  have hfits : Fits { s with
      text := text, pixels := blackPixels s, textTop := 0, cursorX := 0, cursorY := 0,
      histHead := 0, histCount := 0, viewBack := 0 } := ⟨rfl, hpitch, hwidth, hheight⟩
  refine ⟨_, hclear, hgrid.1.toStore, hfits, ?_⟩
  apply drawn_of_black font hfits hgrid.1.toStore hblack hblank
  intro a ha
  exact if_pos ⟨Nat.zero_le a, by rw [Nat.zero_add]; exact ha⟩

theorem cellAt_scroll (hstore : Store s) :
    Succeeds (fbScrollUp s) fun s' ↦ ∀ i ∈ grid s, cellAt s'.text i.1 i.2 =
      if i.1 + 1 < s.rows then cellAt s.text (i.1 + 1) i.2 else some ⟨32, s.curColor⟩ := by
  have hrows := hstore.rows
  have hcols := hstore.cols
  have hmax : (FB_MAX_ROWS : ℤ) = 256 := rfl
  have hshift : Succeeds ((intRange 1 s.rows).foldlM
      (fun text row ↦ copyRow text (row - 1) text row s.cols) s.text)
      fun text ↦ ∀ i j, 0 ≤ i → j < s.cols → cellAt text i j =
        if i < s.rows - 1 then cellAt s.text (i + 1) j else cellAt s.text i j := by
    apply Succeeds.forLoop (I := fun k text ↦ ∀ i j, 0 ≤ i → j < s.cols → cellAt text i j =
      if i < k - 1 then cellAt s.text (i + 1) j else cellAt s.text i j) (by omega)
    · intro i j hi _
      rw [if_neg (by omega)]
    · intro text row hrow hrow' htext
      have hcopy := copyRow_of_mem text text (i := row - 1) (j := row) (by omega) (by omega) hcols.2
      refine ⟨_, hcopy, fun i j hi hj ↦ ?_⟩
      rw [cellAt_copyRow hcopy]
      by_cases hi' : i = row - 1
      · subst hi'
        rw [if_pos ⟨rfl, hj⟩, htext row j (by omega) hj, if_neg (by omega), if_pos (by omega),
          Int.sub_add_cancel]
      · rw [if_neg fun h ↦ hi' h.1, htext i j hi hj]
        split_ifs <;> first | rfl | omega
  unfold fbScrollUp
  apply hshift.bind
  intro text htext
  apply (cellAt_fillRow text (s.rows - 1) ⟨32, s.curColor⟩ (by omega) ⟨by omega, hcols.2⟩).bind
  intro text' hfill
  apply Succeeds.of_some
  intro i hi
  obtain ⟨hrow, hcol⟩ := hi
  dsimp only
  rw [hfill, htext i.1 i.2 hrow.1 hcol.2]
  split_ifs <;> first | rfl | omega

theorem scrollPixels_of_lt (h : Fits s)
    (ha : a < (s.rows - 1).toNat * (FONT_HEIGHT * s.pitchBytes)) :
    scrollPixels s a = s.pixels (a + FONT_HEIGHT * s.pitchBytes) := by
  simp only [scrollPixels, memset, memmove, h.top, Nat.zero_mul, Nat.zero_add, Nat.zero_le,
    true_and, Nat.sub_zero]
  rw [if_neg (by omega), if_pos ha]

theorem scrollPixels_of_le (h : Fits s) (ha : (s.rows - 1).toNat * (FONT_HEIGHT * s.pitchBytes) ≤ a)
    (ha' : a < (s.rows - 1).toNat * (FONT_HEIGHT * s.pitchBytes) + FONT_HEIGHT * s.pitchBytes) :
    scrollPixels s a = 0 := by
  simp only [scrollPixels, memset, h.top, Nat.zero_mul, Nat.zero_add]
  rw [if_pos ⟨ha, ha'⟩]

theorem fbScrollUp_painted (h : Painted font s) (hblack : Black s) :
    Succeeds (fbScrollUp s) (Painted font) := by
  obtain ⟨s', hscroll, hstore', text, rfl⟩ := fbScrollUp_store h.store
  have htext := (cellAt_scroll h.store).of_eq_some hscroll
  have hfits := h.fits
  have hpos := pitchWords_pos hfits h.store
  have hpitch := hfits.pitch
  refine ⟨_, hscroll, hstore', { hfits with }, ?_⟩
  intro a ha
  change cellTile s.pitchWords a ∈ grid s at ha
  change scrollPixels s a = cellByte s.pitchWords (textLook font { s with text := text } false
    (cellTile s.pitchWords a)) a
  obtain ⟨row, hrow, hrows, hle, hlt⟩ := exists_row hfits h.store ha
  have hlook := htext _ ha
  rw [textLook, Bool.false_and]
  by_cases hlast : (cellTile s.pitchWords a).1 + 1 < s.rows
  · -- A row that moved up shows what the row below it showed.
    have hbefore : (row + 1) * (FONT_HEIGHT * s.pitchBytes) ≤
        (s.rows - 1).toNat * (FONT_HEIGHT * s.pitchBytes) := Nat.mul_le_mul_right _ (by omega)
    rw [Nat.add_mul, Nat.one_mul] at hbefore
    rw [if_pos hlast] at hlook
    have hbelow : cellTile s.pitchWords (a + FONT_HEIGHT * (4 * s.pitchWords)) ∈ grid s := by
      rw [cellTile_add_line hpos]
      exact ⟨⟨by dsimp only; omega, hlast⟩, ha.2⟩
    have hnext := h.drawn _ hbelow
    rw [cellByte_add_line hpos, cellTile_add_line hpos, textLook, Bool.false_and] at hnext
    rw [scrollPixels_of_lt hfits (by omega), hpitch, hnext, cellOf, cellOf, hlook]
  · -- The last row is black.
    have hrow' : row = (s.rows - 1).toNat := by omega
    rw [if_neg hlast] at hlook
    rw [hrow'] at hle hlt
    rw [scrollPixels_of_le hfits hle hlt, cellOf, hlook]
    exact (cellByte_blank font hblack s.pitchWords a).symm

end ToastyUnix.Fb
