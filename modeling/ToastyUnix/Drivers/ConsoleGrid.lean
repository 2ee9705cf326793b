import ToastyUnix.Drivers.Console

/-!
# The grid invariant of the console

Whatever bytes reach the console, its cursor stays in the grid, its counters stay in their arrays
and its cells name colours of the palette. `Store` is the part that holds at every moment, while the
cursor may stand one step outside the grid in the middle of `fb_putchar`; `Grid` adds the cursor.
For every function there is a lemma that it returns and keeps the invariant, so no array is left and
no loop runs on.
-/

namespace ToastyUnix.Fb

open Checked Function List

/-- A colour that the palette has. -/
def Known (p : Palette) (color : UInt8) : Prop := (color.toNat : ℤ) < p.count

/-- The invariant of the sizes, the counters and the cells. -/
structure Store (s : Console) : Prop where
  cols : 1 ≤ s.cols ∧ s.cols ≤ 512
  rows : 1 ≤ s.rows ∧ s.rows ≤ 256
  csiLen : 0 ≤ s.csiLen ∧ s.csiLen ≤ 31
  histHead : 0 ≤ s.histHead ∧ s.histHead < 2048
  histCount : 0 ≤ s.histCount ∧ s.histCount ≤ 2048
  viewBack : 0 ≤ s.viewBack ∧ s.viewBack ≤ max 0 (s.histCount - s.rows)
  count : 1 ≤ s.palette.count ∧ s.palette.count ≤ 16
  text : ∀ row col, Known s.palette (s.text row col).color
  curColor : Known s.palette s.curColor
  altText : ∀ row col, Known s.palette (s.alt.text row col).color
  altColor : Known s.palette s.alt.curColor
  altCursorX : 0 ≤ s.alt.cursorX ∧ s.alt.cursorX < s.cols
  altCursorY : 0 ≤ s.alt.cursorY ∧ s.alt.cursorY < s.rows

/-- The invariant between two calls. -/
structure Grid (s : Console) : Prop extends Store s where
  cursorX : 0 ≤ s.cursorX ∧ s.cursorX < s.cols
  cursorY : 0 ≤ s.cursorY ∧ s.cursorY < s.rows

variable {s s' : Console} (font : Font)

variable {m fuel : ℕ} {i j count row v bound : ℤ} {P : Cell → Prop} {s'' : Console} {p : Palette}
  {color : UInt8} {fb : Framebuffer}

theorem cellAt_of_mem (a : Cells m) (hi : 0 ≤ i ∧ i < m) (hj : 0 ≤ j ∧ j < 512) :
    cellAt a i j = some (a ⟨i.toNat, by omega⟩ ⟨j.toNat, by change j.toNat < 512; omega⟩) := by
  rw [cellAt, index_of_mem hi.1 hi.2, index_of_mem hj.1 (by exact hj.2)]
  rfl

theorem setCellAt_of_mem (a : Cells m) (cell : Cell) (hi : 0 ≤ i ∧ i < m) (hj : 0 ≤ j ∧ j < 512) :
    setCellAt a i j cell = some (Function.update a ⟨i.toNat, by omega⟩
      (Function.update (a ⟨i.toNat, by omega⟩) ⟨j.toNat, by change j.toNat < 512; omega⟩
        cell)) := by
  rw [setCellAt, index_of_mem hi.1 hi.2, index_of_mem hj.1 (by exact hj.2)]
  rfl

/-- A write keeps a property that the cells and the written cell have. -/
theorem setCellAt_all {a : Cells m} (h : ∀ row col, P (a row col)) (cell : Cell) (hcell : P cell)
    (hi : 0 ≤ i ∧ i < m) (hj : 0 ≤ j ∧ j < 512) :
    Succeeds (setCellAt a i j cell) fun a ↦ ∀ row col, P (a row col) := by
  rw [setCellAt_of_mem a cell hi hj]
  apply Succeeds.of_some
  rw [forall_update_iff a fun _ line ↦ ∀ col, P (line col), forall_update_iff _ fun _ ↦ P]
  exact ⟨⟨hcell, fun col _ ↦ h _ col⟩, fun row _ ↦ h row⟩

theorem copyRow_of_mem {n : ℕ} (dst : Cells m) (src : Cells n) (hi : 0 ≤ i ∧ i < m)
    (hj : 0 ≤ j ∧ j < n) (hcount : count ≤ 512) :
    copyRow dst i src j count = some (Function.update dst ⟨i.toNat, by omega⟩ fun col ↦
      if (col : ℤ) < count then src ⟨j.toNat, by omega⟩ col
      else dst ⟨i.toNat, by omega⟩ col) := by
  rw [copyRow, index_of_mem hi.1 hi.2, index_of_mem hj.1 hj.2]
  exact if_neg (not_lt.2 hcount)

/-- Copying rows of one array keeps a property of its cells. -/
theorem copyRow_all {a : Cells m} (h : ∀ row col, P (a row col)) (hi : 0 ≤ i ∧ i < m)
    (hj : 0 ≤ j ∧ j < m) (hcount : count ≤ 512) :
    Succeeds (copyRow a i a j count) fun a ↦ ∀ row col, P (a row col) := by
  rw [copyRow_of_mem a a hi hj hcount]
  apply Succeeds.of_some
  rw [forall_update_iff a fun _ line ↦ ∀ col, P (line col)]
  refine ⟨fun col ↦ ?_, fun row _ ↦ h row⟩
  split <;> exact h _ _

theorem fillRow_all {text : Cells FB_MAX_ROWS} (h : ∀ row col, P (text row col)) {cols : ℤ}
    {cell : Cell} (hcell : P cell) (hrow : 0 ≤ row ∧ row < 256) (hcols : cols ≤ 512) :
    Succeeds (fillRow text row cols cell) fun text ↦ ∀ row col, P (text row col) := by
  apply Succeeds.foldlM h
  intro text col hcol htext
  rw [mem_intRange] at hcol
  exact setCellAt_all htext cell hcell hrow ⟨hcol.1, by omega⟩

theorem blankText_all (h : ∀ row col, P (s.text row col)) (hcell : P ⟨32, s.curColor⟩)
    (hrows : s.rows ≤ 256) (hcols : s.cols ≤ 512) :
    Succeeds (blankText s) fun text ↦ ∀ row col, P (text row col) := by
  apply Succeeds.foldlM h
  intro text row hrow htext
  rw [mem_intRange] at hrow
  exact fillRow_all htext hcell ⟨hrow.1, by omega⟩ hcols

/-- Two states that differ in their pixels only. -/
def Repaint (s s' : Console) : Prop := ∃ pixels, s' = { s with pixels := pixels }

theorem Repaint.refl (s : Console) : Repaint s s := ⟨s.pixels, rfl⟩

theorem Repaint.trans (h : Repaint s s') (h' : Repaint s' s'') : Repaint s s'' := by
  obtain ⟨pixels, rfl⟩ := h
  obtain ⟨pixels', rfl⟩ := h'
  exact ⟨pixels', rfl⟩

theorem Grid.repaint (h : Grid s) (hpaint : Repaint s s') : Grid s' := by
  obtain ⟨pixels, rfl⟩ := hpaint
  exact { h with }

theorem fbPaintCell_repaint (row col : ℤ) (cell : Cell) (showCursor : Bool) :
    Repaint s (fbPaintCell font s row col cell showCursor) := by
  unfold fbPaintCell
  split
  · exact Repaint.refl s
  · exact ⟨_, rfl⟩

theorem fbDrawCell_of_mem {col : ℤ} (hrow : 0 ≤ row ∧ row < 256) (hcol : 0 ≤ col ∧ col < 512)
    (showCursor : Bool) : Succeeds (fbDrawCell font s row col showCursor) (Repaint s) := by
  rw [fbDrawCell, cellAt_of_mem s.text hrow hcol]
  exact .of_some (fbPaintCell_repaint font row col _ showCursor)

theorem fbDrawCursor_grid (h : Grid s) {showCursor : Bool} :
    Succeeds (fbDrawCell font s s.cursorY s.cursorX showCursor) (Repaint s) := by
  have hrows := h.rows
  have hcols := h.cols
  have hx := h.cursorX
  have hy := h.cursorY
  exact fbDrawCell_of_mem font (by omega) (by omega) showCursor

theorem fbRepaintCursor_grid (h : Grid s) : Succeeds (fbRepaintCursor font s) (Repaint s) :=
  .ite (fun _ ↦ fbDrawCursor_grid font h) fun _ ↦ .of_some (Repaint.refl s)

variable {cells : ℤ × ℤ → Cell}

/-- The places of the grid, row by row. -/
def places (s : Console) : List (ℤ × ℤ) := (intRange 0 s.rows).product (intRange 0 s.cols)

/-- The screen with a cell painted at every place of the grid. -/
def paintScreen (s : Console) (cells : ℤ × ℤ → Cell) : Console :=
  (places s).foldl (fun s' i ↦ fbPaintCell font s' i.1 i.2 (cells i) false) s

theorem paintScreen_repaint (s : Console) (cells : ℤ × ℤ → Cell) :
    Repaint s (paintScreen font s cells) :=
  foldlRecOn (motive := Repaint s) _ _ (Repaint.refl s) fun _ hs' i _ ↦
    hs'.trans (fbPaintCell_repaint font i.1 i.2 (cells i) false)

/-- A loop that paints every cell of a row. -/
theorem rowLoop_eq {f : Console → ℤ → Option Console} {row : ℤ} (hs' : Repaint s s')
    (hf : ∀ pixels col, 0 ≤ col ∧ col < s.cols → f { s with pixels := pixels } col =
      some (fbPaintCell font { s with pixels := pixels } row col (cells (row, col)) false)) :
    (intRange 0 s.cols).foldlM f s' = some ((intRange 0 s.cols).foldl
      (fun s' col ↦ fbPaintCell font s' row col (cells (row, col)) false) s') := by
  refine (foldlM_eq_foldl hs' fun s' hs' col hcol ↦
    ⟨?_, hs'.trans (fbPaintCell_repaint font row col _ false)⟩).1
  obtain ⟨pixels, rfl⟩ := hs'
  exact hf pixels col (mem_intRange.1 hcol)

theorem screenLoop_eq {f : Console → ℤ → Option Console}
    (hf : ∀ pixels row, 0 ≤ row ∧ row < s.rows → f { s with pixels := pixels } row =
      some ((intRange 0 s.cols).foldl (fun s' col ↦
        fbPaintCell font s' row col (cells (row, col)) false) { s with pixels := pixels })) :
    (intRange 0 s.rows).foldlM f s = some (paintScreen font s cells) := by
  rw [paintScreen, places, product, foldl_flatMap]
  simp only [foldl_map]
  refine (foldlM_eq_foldl (Repaint.refl s) fun s' hs' row hrow ↦ ⟨?_, ?_⟩).1
  · obtain ⟨pixels, rfl⟩ := hs'
    exact hf pixels row (mem_intRange.1 hrow)
  · exact foldlRecOn (motive := Repaint s) _ _ hs' fun s' hs' col _ ↦
      hs'.trans (fbPaintCell_repaint font row col _ false)

/-- The cell of the text at a place. -/
def cellOf (s : Console) (i : ℤ × ℤ) : Cell := (cellAt s.text i.1 i.2).getD ⟨32, 0⟩

theorem fbRedrawLive_eq (h : Grid s) :
    fbRedrawLive font s = fbRepaintCursor font (paintScreen font s (cellOf s)) := by
  have hrows := h.rows
  have hcols := h.cols
  have hmax : (FB_MAX_ROWS : ℤ) = 256 := rfl
  refine congrArg (· >>= fbRepaintCursor font) (screenLoop_eq font fun pixels row hrow ↦ ?_)
  refine rowLoop_eq font (s := s) ⟨pixels, rfl⟩ fun pixels col hcol ↦ ?_
  rw [fbDrawCell, cellOf, cellAt_of_mem s.text (by omega) (by omega)]
  rfl

theorem fbRedrawLive_grid (h : Grid s) : Succeeds (fbRedrawLive font s) (Repaint s) := by
  have hpaint := paintScreen_repaint font s (cellOf s)
  rw [fbRedrawLive_eq font h]
  exact (fbRepaintCursor_grid font (h.repaint hpaint)).mono fun s' ↦ hpaint.trans

theorem ringSlot_eq (x : ℤ) :
    (if x.tmod FB_HISTORY_ROWS < 0 then x.tmod FB_HISTORY_ROWS + FB_HISTORY_ROWS
      else x.tmod FB_HISTORY_ROWS) = x % 2048 := by
  have hlines : (FB_HISTORY_ROWS : ℤ) = 2048 := rfl
  rw [hlines]
  rcases Int.le_total 0 x with hx | hx
  · rw [Int.tmod_eq_emod_of_nonneg hx]
    omega
  · have hneg := Int.neg_tmod x 2048
    rw [Int.tmod_eq_emod_of_nonneg (by omega)] at hneg
    omega

/-- The cell of the history at a place of the screen. -/
def historyCell (s : Console) (i : ℤ × ℤ) : Cell :=
  if s.histCount - s.viewBack - s.rows + i.1 < 0 then ⟨32, 0⟩
  else (cellAt s.history ((s.histHead - s.viewBack - s.rows + i.1) % 2048) i.2).getD ⟨32, 0⟩

theorem fbRedrawHistory_eq (h : Grid s) :
    fbRedrawHistory font s = some (paintScreen font s (historyCell s)) := by
  have hcols := h.cols
  have hlines : (FB_HISTORY_ROWS : ℤ) = 2048 := rfl
  refine screenLoop_eq font fun pixels row hrow ↦ ?_
  dsimp only
  rw [ringSlot_eq]
  split_ifs with hblank
  · simp only [historyCell, if_pos hblank]
  · refine rowLoop_eq font (s := s) ⟨pixels, rfl⟩ fun pixels col hcol ↦ ?_
    have hslot : s.histHead - s.histCount + (s.histCount - s.viewBack - s.rows + row) =
        s.histHead - s.viewBack - s.rows + row := by
      ring
    rw [historyCell, if_neg hblank, hslot, cellAt_of_mem s.history (by omega) (by omega)]
    rfl

/-- A palette with the same first colours, and perhaps more of them. -/
structure Grows (p q : Palette) : Prop where
  count : p.count ≤ q.count
  fg : ∀ i : Fin FB_PALETTE_SIZE, (i.val : ℤ) < p.count → q.fg i = p.fg i
  bg : ∀ i : Fin FB_PALETTE_SIZE, (i.val : ℤ) < p.count → q.bg i = p.bg i

theorem Grows.refl (p : Palette) : Grows p p := ⟨le_rfl, fun _ _ ↦ rfl, fun _ _ ↦ rfl⟩

theorem Known.grows {q : Palette} (h : Known p color) (hgrows : Grows p q) :
    Known q color := lt_of_lt_of_le h hgrows.count

theorem toNat_ofNat_fin (i : Fin FB_PALETTE_SIZE) : (UInt8.ofNat i.val).toNat = i.val := by
  have hi : i.val < 16 := i.isLt
  rw [UInt8.toNat_ofNat']
  exact Nat.mod_eq_of_lt (by omega)

theorem paletteIndex_ofNat (i : Fin FB_PALETTE_SIZE) : paletteIndex (UInt8.ofNat i.val) = i := by
  apply Fin.ext
  change (UInt8.ofNat i.val).toNat % 16 = i.val
  rw [toNat_ofNat_fin]
  exact Nat.mod_eq_of_lt i.isLt

/-- A looked up pair is in the palette, which only grows; with room left, at its index. -/
theorem paletteLookup_grows (hcount : 0 ≤ p.count ∧ p.count ≤ 16) (fg bg : BitVec 32) :
    Succeeds (paletteLookup p fg bg) fun r ↦
      Known r.2 r.1 ∧ (1 ≤ r.2.count ∧ r.2.count ≤ 16) ∧ Grows p r.2 ∧
        (p.count < 16 → r.2.bg (paletteIndex r.1) = bg) := by
  unfold paletteLookup
  dsimp only
  split
  case h_1 i hfind =>
    have hpair := find?_some hfind
    simp only [Bool.and_eq_true, decide_eq_true_eq] at hpair
    apply Succeeds.of_some
    refine ⟨?_, ⟨by dsimp only; omega, hcount.2⟩, Grows.refl p, fun _ ↦ ?_⟩
    · rw [Known, toNat_ofNat_fin]
      exact hpair.1.1
    · rw [paletteIndex_ofNat]
      exact hpair.2
  case h_2 =>
    refine .ite (fun hlt ↦ ?_) fun hge ↦ ?_
    · rw [index_of_mem hcount.1 hlt]
      apply Succeeds.of_some
      have hlt' : p.count < 16 := hlt
      have hne {i : Fin FB_PALETTE_SIZE} (hi : (i.val : ℤ) < p.count) {hlast} :
          i ≠ ⟨p.count.toNat, hlast⟩ := by
        rintro rfl
        simp only at hi
        omega
      refine ⟨?_, by dsimp only; omega, ⟨by dsimp only; omega, fun i hi ↦ update_of_ne (hne hi) ..,
        fun i hi ↦ update_of_ne (hne hi) ..⟩, fun _ ↦ ?_⟩
      · rw [Known, toNat_ofNat_fin]
        dsimp only
        omega
      · rw [paletteIndex_ofNat]
        exact update_self ..
    · have hge' : ¬ p.count < 16 := hge
      refine .of_some ⟨?_, ⟨by dsimp only; omega, hcount.2⟩, Grows.refl p, fun hlt ↦ (hge hlt).elim⟩
      change (0 : ℤ) < p.count
      omega

theorem Store.grows (h : Store s) {palette : Palette} (hgrows : Grows s.palette palette)
    (hcount : 1 ≤ palette.count ∧ palette.count ≤ 16) (hcolor : Known palette color) :
    Store { s with curColor := color, palette := palette } :=
  { h with
    count := hcount
    text := fun row col ↦ (h.text row col).grows hgrows
    curColor := hcolor
    altText := fun row col ↦ (h.altText row col).grows hgrows
    altColor := h.altColor.grows hgrows }

theorem fbUpdateColor_grid (h : Grid s) :
    Succeeds (fbUpdateColor s) fun s' ↦ Grid s' ∧ ∃ color palette, Grows s.palette palette ∧
      s' = { s with curColor := color, palette := palette } := by
  have hcount := h.count
  have hlookup : Succeeds
      (if s.reverse then paletteLookup s.palette s.bg s.fg
        else paletteLookup s.palette s.fg s.bg) fun r ↦
      Known r.2 r.1 ∧ (1 ≤ r.2.count ∧ r.2.count ≤ 16) ∧ Grows s.palette r.2 := by
    have hroom : 0 ≤ s.palette.count ∧ s.palette.count ≤ 16 := by omega
    split
    · exact (paletteLookup_grows hroom _ _).mono fun _ h ↦ ⟨h.1, h.2.1, h.2.2.1⟩
    · exact (paletteLookup_grows hroom _ _).mono fun _ h ↦ ⟨h.1, h.2.1, h.2.2.1⟩
  unfold fbUpdateColor
  apply hlookup.bind
  rintro ⟨color, palette⟩ ⟨hknown, hsize, hgrows⟩
  apply Succeeds.of_some
  exact ⟨{ h.toStore.grows hgrows hsize hknown with cursorX := h.cursorX, cursorY := h.cursorY },
    color, palette, hgrows, rfl⟩

theorem historyPush_store (h : Store s) (hy : 0 ≤ s.cursorY ∧ s.cursorY < s.rows) :
    Succeeds (historyPush s) fun s' ↦ Store s' ∧ ∃ history head count, 0 < count ∧
      s' = { s with history := history, histHead := head, histCount := count } := by
  have hrows := h.rows
  have hhead := h.histHead
  have hcount := h.histCount
  have hback := h.viewBack
  have hlines : (FB_HISTORY_ROWS : ℤ) = 2048 := rfl
  have hmax : (FB_MAX_ROWS : ℤ) = 256 := rfl
  rw [historyPush, copyRow_of_mem s.history s.text (by omega) (by omega) h.cols.2]
  apply Succeeds.of_some
  refine ⟨{ h with histHead := ?_, histCount := ?_, viewBack := ?_ }, _, _, _, ?_, rfl⟩
  · have hlt := Int.tmod_lt_of_pos (s.histHead + 1) (show (0 : ℤ) < 2048 by decide)
    exact ⟨Int.tmod_nonneg _ (by omega), hlt⟩
  · dsimp only
    split_ifs <;> omega
  · dsimp only
    split_ifs <;> omega
  · split_ifs <;> omega

theorem fbScrollUp_store (h : Store s) :
    Succeeds (fbScrollUp s) fun s' ↦ Store s' ∧ ∃ text,
      s' = { s with text := text, pixels := scrollPixels s } := by
  have hrows := h.rows
  unfold fbScrollUp
  have hshift : Succeeds ((intRange 1 s.rows).foldlM
      (fun text row ↦ copyRow text (row - 1) text row s.cols) s.text)
      fun text ↦ ∀ row col, Known s.palette (text row col).color := by
    apply Succeeds.foldlM h.text
    intro text row hrow htext
    rw [mem_intRange] at hrow
    have hmax : (FB_MAX_ROWS : ℤ) = 256 := rfl
    exact copyRow_all (P := fun cell ↦ Known s.palette cell.color) htext (by omega) (by omega)
      h.cols.2
  apply hshift.bind
  intro text htext
  apply (fillRow_all htext (P := fun cell ↦ Known s.palette cell.color) h.curColor (by omega)
    h.cols.2).bind
  intro text' htext'
  exact .of_some ⟨{ h with text := htext' }, _, rfl⟩

theorem fbClear_grid (h : Store s) : Succeeds (fbClear s) fun s' ↦ Grid s' ∧ ∃ text,
    s' = { s with text := text, pixels := blackPixels s, textTop := 0, cursorX := 0, cursorY := 0,
                  histHead := 0, histCount := 0, viewBack := 0 } := by
  have hrows := h.rows
  have hcols := h.cols
  apply (blankText_all h.text (P := fun cell ↦ Known s.palette cell.color) h.curColor hrows.2
    hcols.2).bind
  intro text htext
  apply Succeeds.of_some
  refine ⟨{ h with
    text := htext
    histHead := by dsimp only; omega
    histCount := by dsimp only; omega
    viewBack := by dsimp only; omega
    cursorX := by dsimp only; omega
    cursorY := by dsimp only; omega }, text, rfl⟩

theorem pageBack_mem (s : Console) (dir : ℤ) :
    0 ≤ pageBack s dir ∧ pageBack s dir ≤ max 0 (s.histCount - s.rows) := by
  unfold pageBack
  dsimp only
  split_ifs <;> omega

theorem fbScrollPage_grid (h : Grid s) (dir : ℤ) : Succeeds (fbScrollPage font s dir) Grid := by
  have hmoved : Grid { s with viewBack := pageBack s dir } :=
    { h with viewBack := pageBack_mem s dir }
  refine .ite (fun _ ↦ ?_) fun _ ↦ ?_
  · exact (fbRedrawLive_grid font hmoved).mono fun s' ↦ hmoved.repaint
  · rw [fbRedrawHistory_eq font hmoved]
    exact .of_some (hmoved.repaint (paintScreen_repaint font _ _))

section Params

variable {csiBuf : Fin 32 → UInt8} {csiLen : ℤ}

/-- The digits of a parameter end inside the buffer. -/
theorem digitLoop_nonneg (hlen : csiLen ≤ 31) {fuel : ℕ} {i v : ℤ} {any : Bool}
    (hi : 0 ≤ i ∧ i ≤ csiLen) (hv : 0 ≤ v) (hfuel : csiLen - i < fuel) :
    Succeeds (digitLoop csiBuf csiLen fuel i v any) fun r ↦ 0 ≤ r.1 ∧ 0 ≤ r.2.1 := by
  induction fuel generalizing i v any with
  | zero => omega
  | succ fuel ih =>
    rw [digitLoop]
    split
    case isTrue hlt =>
      rw [index_of_mem hi.1 (by omega)]
      change Succeeds (if _ then _ else _) _
      split
      case isTrue hdigit =>
        have hvalue : (48 : ℤ) ≤ (csiBuf ⟨i.toNat, by omega⟩).toNat := by
          exact_mod_cast UInt8.le_iff_toNat_le.1 hdigit.1
        apply ih (by omega) _ (by omega)
        split <;> omega
      case isFalse => exact .of_some ⟨hi.1, hv⟩
    case isFalse => exact .of_some ⟨hi.1, hv⟩

theorem paramLoop_nonneg (hlen : csiLen ≤ 31) (n : ℕ) {i : ℤ} (hi : 0 ≤ i) :
    Succeeds (paramLoop csiBuf csiLen 1 n i) fun r ↦ r.length = n ∧ ∀ p ∈ r, 0 ≤ p := by
  have hdefault (n : ℕ) : ∀ p ∈ replicate n (1 : ℤ), 0 ≤ p := by
    intro p hp
    rw [eq_of_mem_replicate hp]
    decide
  induction n generalizing i with
  | zero => exact .of_some ⟨rfl, by simp⟩
  | succ n ih =>
    rw [paramLoop]
    split
    case isTrue hlt =>
      apply (digitLoop_nonneg hlen ⟨hi, hlt.le⟩ le_rfl (by omega)).bind
      rintro ⟨i', v, any⟩ ⟨hi', hv⟩
      dsimp only at hi' hv ⊢
      have hp : (0 : ℤ) ≤ if any = true then v else 1 := by split <;> omega
      have hlast : Succeeds (some ((if any = true then v else 1) :: replicate n (1 : ℤ)))
          fun r ↦ r.length = n + 1 ∧ ∀ p ∈ r, 0 ≤ p := by
        apply Succeeds.of_some
        rw [length_cons, length_replicate, forall_mem_cons]
        exact ⟨rfl, hp, hdefault n⟩
      split
      case isTrue hlt' =>
        rw [index_of_mem hi' (by omega)]
        change Succeeds (if _ then _ else _) _
        split
        · apply (ih (by omega)).bind
          rintro rest ⟨hlength, hrest⟩
          apply Succeeds.of_some
          rw [length_cons, forall_mem_cons, hlength]
          exact ⟨rfl, hp, hrest⟩
        · exact hlast
      case isFalse => exact hlast
    case isFalse =>
      apply Succeeds.of_some
      rw [length_replicate]
      exact ⟨rfl, hdefault (n + 1)⟩

end Params

/-- The parameters of a sequence are not negative, and there are two of them. -/
theorem ansiParseParams_grid (h : Store s) :
    Succeeds (ansiParseParams s.csiBuf s.csiLen 8 1) fun r ↦
      ∃ p0 p1 rest, r = p0 :: p1 :: rest ∧ 0 ≤ p0 := by
  apply (paramLoop_nonneg h.csiLen.2 8 le_rfl).mono
  rintro params ⟨hlength, hnonneg⟩
  match params, hlength with
  | p0 :: p1 :: rest, _ => exact ⟨p0, p1, rest, rfl, hnonneg p0 mem_cons_self⟩

/-- Two states that differ in their cells and their pixels only. -/
def Rewrite (s s' : Console) : Prop := ∃ text pixels, s' = { s with text := text, pixels := pixels }

theorem Rewrite.refl (s : Console) : Rewrite s s := ⟨s.text, s.pixels, rfl⟩

theorem Rewrite.trans (h : Rewrite s s') (h' : Rewrite s' s'') : Rewrite s s'' := by
  obtain ⟨text, pixels, rfl⟩ := h
  obtain ⟨text', pixels', rfl⟩ := h'
  exact ⟨text', pixels', rfl⟩

theorem ansiEraseCells_grid (h : Grid s) (row col0 col1 : ℤ) :
    Succeeds (ansiEraseCells font s row col0 col1) fun s' ↦ Grid s' ∧ Rewrite s s' := by
  have hrows := h.rows
  have hcols := h.cols
  have hmax : (FB_MAX_ROWS : ℤ) = 256 := rfl
  unfold ansiEraseCells
  split
  · exact .of_some ⟨h, Rewrite.refl s⟩
  · apply Succeeds.foldlM ⟨h, Rewrite.refl s⟩
    rintro s' col hcol ⟨h', text, pixels, rfl⟩
    rw [mem_intRange] at hcol
    split
    · exact .of_some ⟨h', text, pixels, rfl⟩
    · apply (setCellAt_all h'.text (P := fun cell ↦ Known s.palette cell.color) _ h.curColor
        (by omega) (by omega)).bind
      intro text' htext
      have hgrid : Grid { s with text := text', pixels := pixels } := { h with text := htext }
      have hpaint := fbPaintCell_repaint font row col ⟨32, s.curColor⟩ false
        (s := { s with text := text', pixels := pixels })
      refine .of_some ⟨hgrid.repaint hpaint, ?_⟩
      obtain ⟨pixels', hpixels⟩ := hpaint
      exact ⟨text', pixels', hpixels⟩

section Erase

variable {I : Console → Prop} (herase : ∀ s, I s → ∀ row col0 col1,
  Succeeds (ansiEraseCells font s row col0 col1) fun s' ↦ I s' ∧ Rewrite s s')
include herase

theorem eraseLoop_keeps (h : I s) {a b : ℤ} (first last : Console → ℤ → ℤ) :
    Succeeds ((intRange a b).foldlM (fun s r ↦ ansiEraseCells font s r (first s r) (last s r)) s)
      fun s' ↦ I s' ∧ Rewrite s s' := by
  apply Succeeds.foldlM ⟨h, Rewrite.refl s⟩
  rintro s' r - ⟨h', hrewrite⟩
  exact (herase s' h' r _ _).mono fun s'' h'' ↦ ⟨h''.1, hrewrite.trans h''.2⟩

theorem eraseDisplay_keeps (h : I s) (p : ℤ) :
    Succeeds (eraseDisplay font s p) fun s' ↦ I s' ∧ Rewrite s s' := by
  unfold eraseDisplay
  split
  · exact eraseLoop_keeps font herase h (fun _ _ ↦ 0) (fun s _ ↦ s.cols)
  split
  · exact eraseLoop_keeps font herase h (fun _ _ ↦ 0)
      (fun s r ↦ if r = s.cursorY then s.cursorX + 1 else s.cols)
  · apply (herase s h _ _ _).bind
    rintro s' ⟨h', hrewrite⟩
    apply (eraseLoop_keeps font herase h' (fun _ _ ↦ 0) (fun s _ ↦ s.cols)).mono
    exact fun s'' h'' ↦ ⟨h''.1, hrewrite.trans h''.2⟩

theorem eraseLine_keeps (h : I s) (p : ℤ) :
    Succeeds (eraseLine font s p) fun s' ↦ I s' ∧ Rewrite s s' := by
  unfold eraseLine
  split
  · exact herase s h _ _ _
  split
  · exact herase s h _ _ _
  · exact herase s h _ _ _

end Erase

theorem saveScreen_grid (h : Grid s) : Grid (saveScreen s) :=
  { h with
    altText := h.text
    altColor := h.curColor
    altCursorX := h.cursorX
    altCursorY := h.cursorY }

theorem restoreScreen_grid (h : Grid s) : Grid (restoreScreen s) :=
  { h with
    text := h.altText
    curColor := h.altColor
    cursorX := h.altCursorX
    cursorY := h.altCursorY }

theorem ansiAltEnter_grid (h : Grid s) : Succeeds (ansiAltEnter s) fun s' ↦
    Grid s' ∧ (s.alt.active = true ∧ s' = s ∨ s.alt.active = false ∧ s'.alt = (saveScreen s).alt ∧
      s'.histCount = 0 ∧ s'.reverse = s.reverse) := by
  unfold ansiAltEnter
  refine .ite (fun hactive ↦ .of_some ⟨h, .inl ⟨hactive, rfl⟩⟩) fun hactive ↦ ?_
  apply (fbClear_grid (saveScreen_grid h).toStore).mono
  rintro s' ⟨h', text, rfl⟩
  exact ⟨h', .inr ⟨Bool.eq_false_iff.mpr hactive, rfl, rfl, rfl⟩⟩

theorem ansiAltExit_grid (h : Grid s) : Succeeds (ansiAltExit font s) fun s' ↦
    Grid s' ∧ (s.alt.active = true → Repaint (restoreScreen s) s') := by
  unfold ansiAltExit
  refine .ite (fun _ ↦ ?_) fun hactive ↦ .of_some ⟨h, fun h' ↦ (hactive h').elim⟩
  apply (blankText_all (P := fun _ ↦ True) (fun _ _ ↦ trivial) trivial h.rows.2 h.cols.2).bind
  intro _ _
  apply (fbRedrawLive_grid font (restoreScreen_grid h)).mono
  exact fun s' hpaint ↦ ⟨(restoreScreen_grid h).repaint hpaint, fun _ ↦ hpaint⟩

/-- The reverse attribute that a parameter of SGR sets. -/
def setsReverse (p : ℤ) : Option Bool :=
  if p = 0 then some false else if p = 7 then some true else if p = 27 then some false else none

theorem sgrParam_grid (p : ℤ) : Succeeds (sgrParam s p) fun s' ↦ ∃ fg bg,
    s' = { s with fg := fg, bg := bg, reverse := (setsReverse p).getD s.reverse } := by
  have hcolor {k : ℤ} (hk : 0 ≤ k ∧ k < 16) : ∃ color, ansiColors[k.toNat]? = some color := by
    have hlen : k.toNat < ansiColors.length := by
      change k.toNat < 16
      omega
    exact ⟨_, getElem?_eq_getElem hlen⟩
  have hshade {k : ℤ} {f : BitVec 32 → Console} (hk : 0 ≤ k ∧ k < 16)
      (hf : ∀ color, ∃ fg bg, f color = { s with fg := fg, bg := bg }) :
      Succeeds (ansiColors[k.toNat]? >>= fun color ↦ some (f color)) fun s' ↦ ∃ fg bg,
        s' = { s with fg := fg, bg := bg } := by
    obtain ⟨color, hget⟩ := hcolor hk
    rw [hget]
    exact .of_some (hf color)
  unfold sgrParam setsReverse
  refine .ite (fun hp ↦ ?reset) fun h0 ↦ .ite (fun hp ↦ ?reverse) fun h7 ↦
    .ite (fun hp ↦ ?plain) fun h27 ↦ ?_
  case reset => exact .of_some ⟨_, _, by rw [if_pos hp]; rfl⟩
  case reverse => exact .of_some ⟨_, _, by rw [if_neg h0, if_pos hp]; rfl⟩
  case plain => exact .of_some ⟨_, _, by rw [if_neg h0, if_neg h7, if_pos hp]; rfl⟩
  rw [if_neg h0, if_neg h7, if_neg h27]
  refine .ite (fun _ ↦ ?ignored) fun _ ↦ .ite (fun _ ↦ ?dark) fun _ ↦ .ite (fun _ ↦ ?darkBack) fun _ ↦
    .ite (fun _ ↦ ?bright) fun _ ↦ .ite (fun _ ↦ ?brightBack) fun _ ↦ .ite (fun _ ↦ ?fg) fun _ ↦
    .ite (fun _ ↦ ?bg) fun _ ↦ ?unknown
  case ignored => exact .of_some ⟨s.fg, s.bg, rfl⟩
  case dark => exact hshade (by omega) fun color ↦ ⟨_, _, rfl⟩
  case darkBack => exact hshade (by omega) fun color ↦ ⟨_, _, rfl⟩
  case bright => exact hshade (by omega) fun color ↦ ⟨_, _, rfl⟩
  case brightBack => exact hshade (by omega) fun color ↦ ⟨_, _, rfl⟩
  case fg => exact .of_some ⟨_, _, rfl⟩
  case bg => exact .of_some ⟨_, _, rfl⟩
  case unknown => exact .of_some ⟨s.fg, s.bg, rfl⟩

/-- The last parameter that sets the reverse attribute counts. -/
def sgrReverse (params : List ℤ) : Option Bool := params.reverse.findSome? setsReverse

/-- SGR changes the colours, the reverse attribute and the palette only. -/
theorem sgr_grid (h : Grid s) (params : List ℤ) :
    Succeeds (params.foldlM sgrParam s >>= fbUpdateColor) fun s' ↦
      Grid s' ∧ ∃ fg bg color palette, Grows s.palette palette ∧
        s' = { s with fg := fg, bg := bg, reverse := (sgrReverse params).getD s.reverse,
                      curColor := color, palette := palette } := by
  have hloop : Succeeds (params.foldlM sgrParam s) fun s' ↦ ∃ fg bg,
      s' = { s with fg := fg, bg := bg, reverse := (sgrReverse params).getD s.reverse } := by
    induction params using List.reverseRecOn with
    | nil => exact .of_some ⟨s.fg, s.bg, rfl⟩
    | append_singleton params p ih =>
      rw [foldlM_append]
      apply ih.bind
      rintro s' ⟨fg, bg, rfl⟩
      apply (sgrParam_grid p).bind
      rintro s'' ⟨fg', bg', rfl⟩
      have hlast : sgrReverse (params ++ [p]) = (setsReverse p).or (sgrReverse params) := by
        rw [sgrReverse, reverse_append, reverse_singleton, singleton_append, findSome?_cons]
        cases setsReverse p <;> rfl
      rw [hlast]
      cases setsReverse p <;> exact .of_some ⟨fg', bg', rfl⟩
  apply hloop.bind
  rintro s' ⟨fg, bg, rfl⟩
  have hcolors : Grid { s with
    fg := fg, bg := bg, reverse := (sgrReverse params).getD s.reverse } := { h with }
  apply (fbUpdateColor_grid hcolors).mono
  rintro s'' ⟨hgrid, color, palette, hgrows, rfl⟩
  exact ⟨hgrid, fg, bg, color, palette, hgrows, rfl⟩

theorem fromZero_mem (hbound : 1 ≤ bound) (hv : v < bound) :
    0 ≤ fromZero v ∧ fromZero v < bound := by
  unfold fromZero
  split_ifs <;> omega

theorem below_mem (hbound : 1 ≤ bound) (hv : 0 ≤ v) :
    0 ≤ below bound v ∧ below bound v < bound := by
  unfold below
  split_ifs <;> omega

theorem below_fromZero_mem (v : ℤ) (hbound : 1 ≤ bound) :
    0 ≤ below bound (fromZero v) ∧ below bound (fromZero v) < bound := by
  apply below_mem hbound
  unfold fromZero
  split_ifs <;> omega

/-- Between two pushes the history and the width stay as they are. -/
def SameHistory (s t : Console) : Prop :=
  t.history = s.history ∧ t.histHead = s.histHead ∧ t.histCount = s.histCount ∧ t.cols = s.cols

theorem SameHistory.trans (h : SameHistory s s') (h' : SameHistory s' s'') : SameHistory s s'' :=
  ⟨h'.1.trans h.1, h'.2.1.trans h.2.1, h'.2.2.1.trans h.2.2.1, h'.2.2.2.trans h.2.2.2⟩

/-- What a control function leaves alone: the sizes, the view, the visibility of the cursor, the
saved screen and the history. -/
structure SameScreen (s s' : Console) : Prop where
  pitchBytes : s'.pitchBytes = s.pitchBytes
  height : s'.height = s.height
  textTop : s'.textTop = s.textTop
  cols : s'.cols = s.cols
  rows : s'.rows = s.rows
  viewBack : s'.viewBack = s.viewBack
  cursorVisible : s'.cursorVisible = s.cursorVisible
  alt : s'.alt = s.alt
  history : SameHistory s s'

theorem Rewrite.sameScreen (h : Rewrite s s') : SameScreen s s' := by
  obtain ⟨text, pixels, rfl⟩ := h
  exact ⟨rfl, rfl, rfl, rfl, rfl, rfl, rfl, rfl, rfl, rfl, rfl, rfl⟩

theorem Repaint.sameScreen (h : Repaint s s') : SameScreen s s' := by
  obtain ⟨pixels, rfl⟩ := h
  exact ⟨rfl, rfl, rfl, rfl, rfl, rfl, rfl, rfl, rfl, rfl, rfl, rfl⟩

theorem SameScreen.trans (h : SameScreen s s') (h' : SameScreen s' s'') : SameScreen s s'' :=
  ⟨h'.1.trans h.1, h'.2.trans h.2, h'.3.trans h.3, h'.4.trans h.4, h'.5.trans h.5, h'.6.trans h.6,
    h'.7.trans h.7, h'.8.trans h.8, h.9.trans h'.9⟩

/-- A control function keeps what its erasures, its moves and its colours keep. -/
theorem ansiSwitch_keeps (hgrid : Grid s) (final : UInt8) {p0 p1 : ℤ} {params : List ℤ}
    (hp0 : 0 ≤ p0) {I : Console → Prop} (h : I s)
    (herase : ∀ s, I s → ∀ row col0 col1,
      Succeeds (ansiEraseCells font s row col0 col1) fun s' ↦ I s' ∧ Rewrite s s')
    (hmove : ∀ x y, 0 ≤ x ∧ x < s.cols → 0 ≤ y ∧ y < s.rows →
      I { s with cursorX := x, cursorY := y })
    (hsgr : final = 109 → ∀ fg bg reverse color palette, Grows s.palette palette →
      Grid { s with fg := fg, bg := bg, reverse := reverse, curColor := color, palette := palette } →
      I { s with fg := fg, bg := bg, reverse := reverse, curColor := color, palette := palette }) :
    Succeeds (ansiSwitch font s final p0 p1 params) fun s' ↦ I s' ∧ SameScreen s s' := by
  have hx := hgrid.cursorX
  have hy := hgrid.cursorY
  have hup : s.cursorY - p0 < s.rows := by omega
  have hleft : s.cursorX - p0 < s.cols := by omega
  have hcols := hgrid.cols.1
  have hrows := hgrid.rows.1
  have hto {x y : ℤ} (hx : 0 ≤ x ∧ x < s.cols) (hy : 0 ≤ y ∧ y < s.rows) :
      Succeeds (some { s with cursorX := x, cursorY := y }) fun s' ↦ I s' ∧ SameScreen s s' :=
    .of_some ⟨hmove x y hx hy, rfl, rfl, rfl, rfl, rfl, rfl, rfl, rfl, rfl, rfl, rfl, rfl⟩
  unfold ansiSwitch
  refine .ite (fun _ ↦ ?position) fun _ ↦ .ite (fun _ ↦ ?up) fun _ ↦ .ite (fun _ ↦ ?down) fun _ ↦
    .ite (fun _ ↦ ?right) fun _ ↦ .ite (fun _ ↦ ?left) fun _ ↦ .ite (fun _ ↦ ?column) fun _ ↦
    .ite (fun _ ↦ ?row) fun _ ↦ .ite (fun _ ↦ ?display) fun _ ↦ .ite (fun _ ↦ ?line) fun _ ↦
    .ite (fun _ ↦ ?chars) fun _ ↦ .ite (fun hfinal ↦ ?sgr) fun _ ↦ ?unknown
  case position => exact hto (below_fromZero_mem _ hcols) (below_fromZero_mem _ hrows)
  case up => exact hto hx (fromZero_mem hrows hup)
  case down => exact hto hx (below_mem hrows (by omega))
  case right => exact hto (below_mem hcols (by omega)) hy
  case left => exact hto (fromZero_mem hcols hleft) hy
  case column => exact hto (below_fromZero_mem _ hcols) hy
  case row => exact hto hx (below_fromZero_mem _ hrows)
  case display =>
    exact (eraseDisplay_keeps font herase h p0).mono fun s' hs' ↦ ⟨hs'.1, hs'.2.sameScreen⟩
  case line => exact (eraseLine_keeps font herase h p0).mono fun s' hs' ↦ ⟨hs'.1, hs'.2.sameScreen⟩
  case chars => exact (herase s h _ _ _).mono fun s' hs' ↦ ⟨hs'.1, hs'.2.sameScreen⟩
  case sgr =>
    apply (sgr_grid hgrid params).mono
    rintro s' ⟨h', fg, bg, color, palette, hgrows, rfl⟩
    exact ⟨hsgr hfinal _ _ _ _ _ hgrows h', rfl, rfl, rfl, rfl, rfl, rfl, rfl, rfl, rfl, rfl, rfl, rfl⟩
  case unknown => exact .of_some ⟨h, (Repaint.refl s).sameScreen⟩

theorem ansiSwitch_grid (h : Grid s) (final : UInt8) {p0 p1 : ℤ} {params : List ℤ} (hp0 : 0 ≤ p0) :
    Succeeds (ansiSwitch font s final p0 p1 params) fun s' ↦ Grid s' ∧ SameScreen s s' :=
  ansiSwitch_keeps font h final hp0 h (fun _ ↦ ansiEraseCells_grid font)
    (fun _ _ hx hy ↦ { h with cursorX := hx, cursorY := hy }) fun _ _ _ _ _ _ _ h' ↦ h'

theorem ansiPrivate_grid (h : Grid s) (final : UInt8) (m : ℤ) :
    Succeeds (ansiPrivate font s final m) Grid := by
  unfold ansiPrivate
  refine .ite
    (fun _ ↦ .ite (fun _ ↦ ?cursorOn) fun _ ↦ .ite (fun _ ↦ ?altEnter) fun _ ↦
      .ite (fun _ ↦ ?save) fun _ ↦ ?unknownSet)
    fun _ ↦ .ite (fun _ ↦ .ite (fun _ ↦ ?cursorOff) fun _ ↦ .ite (fun _ ↦ ?altExit) fun _ ↦
      .ite (fun _ ↦ ?restore) fun _ ↦ ?unknownReset) fun _ ↦ ?other
  case cursorOn => exact .of_some { h with }
  case altEnter => exact (ansiAltEnter_grid h).mono fun s' h' ↦ h'.1
  case save =>
    exact .of_some { h with altCursorX := h.cursorX, altCursorY := h.cursorY }
  case unknownSet => exact .of_some h
  case cursorOff => exact .of_some { h with }
  case altExit => exact (ansiAltExit_grid font h).mono fun s' h' ↦ h'.1
  case restore =>
    exact .of_some { h with cursorX := h.altCursorX, cursorY := h.altCursorY }
  case unknownReset => exact .of_some h
  case other => exact .of_some h

/-- A control function with the cursor repainted at its end. -/
theorem control_grid (h : Grid s) (final : UInt8) {p0 p1 : ℤ} {params : List ℤ} (hp0 : 0 ≤ p0) :
    Succeeds (do
        let s ← fbDrawCell font s s.cursorY s.cursorX false
        let s ← ansiSwitch font s final p0 p1 params
        fbRepaintCursor font s) fun s' ↦ Grid s' ∧ SameScreen s s' := by
  apply (fbDrawCursor_grid font h).bind
  intro s₁ hpaint
  apply (ansiSwitch_grid font (h.repaint hpaint) final hp0).bind
  rintro s₂ ⟨h₂, hsame⟩
  apply (fbRepaintCursor_grid font h₂).mono
  intro s₃ hpaint₃
  exact ⟨h₂.repaint hpaint₃, (hpaint.sameScreen.trans hsame).trans hpaint₃.sameScreen⟩

theorem ansiExec_grid (h : Grid s) (final : UInt8) :
    Succeeds (ansiExec font s final) fun s' ↦ Grid s' ∧ (s.csiPrivate = false → SameScreen s s') := by
  apply (ansiParseParams_grid h.toStore).bind
  rintro params ⟨p0, p1, rest, rfl, hnonneg⟩
  refine .ite (fun hprivate ↦ ?_) fun _ ↦ ?_
  · exact (ansiPrivate_grid font h final p0).mono fun s' h' ↦ ⟨h', by simp [hprivate]⟩
  · exact (control_grid font h final hnonneg).mono fun s' h' ↦ ⟨h'.1, fun _ ↦ h'.2⟩

/-- A byte is text, it goes into the parser, or it ends a sequence. -/
theorem ansiConsume_keeps (h : Store s) {P : Bool × Console → Prop}
    (htext : s.ansi = .normal → c ≠ 0x1B → P (false, s))
    (hstate : (s.ansi = .normal → c = 0x1B) → (s.ansi = .csi → ¬(0x40 ≤ c ∧ c ≤ 0x7E)) →
      ∀ ansi buf len mark, 0 ≤ len ∧ len ≤ 31 → P (true, { s with ansi := ansi, csiBuf := buf, csiLen := len, csiPrivate := mark }))
    (hexec : s.ansi = .csi → 0x40 ≤ c ∧ c ≤ 0x7E →
      Succeeds (ansiExec font { s with ansi := .normal } c) fun s' ↦ P (true, s')) :
    Succeeds (ansiConsume font s c) P := by
  have hlen := h.csiLen
  unfold ansiConsume
  split
  case h_1 hnormal =>
    exact .ite (fun hesc ↦ .of_some (hstate (fun _ ↦ hesc) (by simp [hnormal]) _ _ _ _ hlen))
      fun hesc ↦ .of_some (htext hnormal hesc)
  case h_2 hansi =>
    have hstate := hstate (by simp [hansi]) (by simp [hansi])
    exact .ite (fun _ ↦ .of_some (hstate _ _ _ _ (by decide))) fun _ ↦
      .ite (fun _ ↦ .of_some (hstate _ _ _ _ hlen)) fun _ ↦ .of_some (hstate _ _ _ _ hlen)
  case h_3 hansi => exact .of_some (hstate (by simp [hansi]) (by simp [hansi]) _ _ _ _ hlen)
  case h_4 hcsi =>
    refine .ite (fun hfinal ↦ ?final) fun hfinal ↦ ?state
    case final => exact (hexec hcsi hfinal).bind fun s' h' ↦ .of_some h'
    have hstate := hstate (by simp [hcsi]) fun _ ↦ hfinal
    refine .ite (fun _ ↦ .of_some (hstate _ _ _ _ hlen)) fun _ ↦
      .ite (fun _ ↦ .ite (fun hroom ↦ ?_) fun _ ↦ .of_some (hstate _ _ _ _ hlen)) fun _ ↦
      .of_some (hstate _ _ _ _ hlen)
    rw [index_of_mem hlen.1 (by omega)]
    exact .of_some (hstate _ _ _ _ (by omega))

/-- A byte that is not consumed finds the parser at rest and changes nothing. -/
theorem ansiConsume_grid (h : Grid s) (c : UInt8) :
    Succeeds (ansiConsume font s c) fun r ↦
      Grid r.2 ∧ (r.1 = false → r.2 = s ∧ s.ansi = .normal ∧ c ≠ 0x1B) := by
  refine ansiConsume_keeps font h.toStore (fun hnormal hesc ↦ ⟨h, fun _ ↦ ⟨rfl, hnormal, hesc⟩⟩)
    (fun _ _ _ _ _ _ hlen ↦ ⟨{ h with csiLen := hlen }, by simp⟩) fun _ _ ↦ ?_
  have hrest : Grid { s with ansi := .normal } := { h with }
  exact (ansiExec_grid font hrest c).mono fun s' h' ↦ ⟨h'.1, by simp⟩

theorem putCell_grid (h : Grid s) (c : UInt8) :
    Succeeds (putCell font s c) fun s' ↦ Grid s' ∧ Rewrite s s' := by
  have hrows := h.rows
  have hcols := h.cols
  have hx := h.cursorX
  have hy := h.cursorY
  have hmax : (FB_MAX_ROWS : ℤ) = 256 := rfl
  apply (setCellAt_all h.text (P := fun cell ↦ Known s.palette cell.color) ⟨c, s.curColor⟩
    h.curColor (by omega) (by omega)).bind
  intro text htext
  have hgrid : Grid { s with text := text } := { h with text := htext }
  apply (fbDrawCursor_grid font hgrid).mono
  intro s' hpaint
  refine ⟨hgrid.repaint hpaint, ?_⟩
  obtain ⟨pixels, rfl⟩ := hpaint
  exact ⟨text, pixels, rfl⟩

/-- What a byte of text may change. -/
def Moved (s s' : Console) : Prop := ∃ text pixels history head count x y back,
  s' = { s with
    text := text, pixels := pixels, history := history, histHead := head, histCount := count,
    cursorX := x, cursorY := y, viewBack := back }

theorem Moved.trans (h : Moved s s') (h' : Moved s' s'') : Moved s s'' := by
  obtain ⟨_, _, _, _, _, _, _, _, rfl⟩ := h
  obtain ⟨_, _, _, _, _, _, _, _, rfl⟩ := h'
  exact ⟨_, _, _, _, _, _, _, _, rfl⟩

theorem Moved.same (h : Moved s s') : s'.ansi = s.ansi ∧ s'.rows = s.rows ∧ s'.cols = s.cols := by
  obtain ⟨_, _, _, _, _, _, _, _, rfl⟩ := h
  exact ⟨rfl, rfl, rfl⟩

theorem Repaint.moved (h : Repaint s s') : Moved s s' := by
  obtain ⟨pixels, rfl⟩ := h
  exact ⟨s.text, pixels, s.history, s.histHead, s.histCount, s.cursorX, s.cursorY, s.viewBack, rfl⟩

/-- The cursor after a byte: on a new line, in the next column, or anywhere in the grid. Only the
newline pushes a line. -/
def Advances (s : Console) (c : UInt8) (s' : Console) : Prop :=
  (c = 10 ∧ s'.cursorX = 0 ∧ s'.cursorY = s.cursorY + 1 ∧ 0 < s'.histCount) ∨
    ((FONT_FIRST ≤ c ∧ c ≤ FONT_LAST) ∧ s'.cursorX = s.cursorX + 1 ∧ s'.cursorY = s.cursorY ∧
      SameHistory s s') ∨
    ((¬ (FONT_FIRST ≤ c ∧ c ≤ FONT_LAST) ∧ c ≠ 10) ∧ 0 ≤ s'.cursorX ∧ s'.cursorX < s.cols ∧
      s'.cursorY = s.cursorY ∧ SameHistory s s')

/-- The cursor before the end of the call: behind the last column, or at the start of the row below
the last. -/
def Leaving (s : Console) : Prop :=
  0 ≤ s.cursorX ∧ s.cursorX ≤ s.cols ∧ 0 ≤ s.cursorY ∧ s.cursorY ≤ s.rows ∧
    (s.cursorX = s.cols → s.cursorY < s.rows)

theorem Advances.leaving (h : Advances s c s') (hgrid : Grid s) (hmoved : Moved s s') :
    Leaving s' := by
  obtain ⟨-, hrows, hcols⟩ := hmoved.same
  have hx := hgrid.cursorX
  have hy := hgrid.cursorY
  have hwidth := hgrid.cols
  unfold Leaving
  rw [hrows, hcols]
  rcases h with ⟨-, hx', hy', -⟩ | ⟨-, hx', hy', -⟩ | ⟨-, hx', hlt, hy', -⟩ <;> omega

theorem scrollLine_grid (h : Store s) (hx : 0 ≤ s.cursorX ∧ s.cursorX < s.cols)
    (hy : 0 ≤ s.cursorY ∧ s.cursorY ≤ s.rows) :
    Succeeds (scrollLine s) fun s' ↦ Grid s' ∧ Moved s s' ∧ s'.cursorX = s.cursorX ∧
      (s.cursorY < s.rows → s'.cursorY = s.cursorY) ∧ SameHistory s s' := by
  have hrows := h.rows
  unfold scrollLine
  refine .ite (fun hbottom ↦ ?_) fun hroom ↦ ?_
  · apply (fbScrollUp_store h).bind
    rintro s' ⟨h', text, rfl⟩
    refine .of_some ⟨{ h' with cursorX := hx, cursorY := by dsimp only; omega }, ⟨text,
      scrollPixels s, s.history, s.histHead, s.histCount, s.cursorX, s.rows - 1, s.viewBack, rfl⟩,
      rfl, fun hlt ↦ ?_, rfl, rfl, rfl, rfl⟩
    exact absurd hlt (not_lt.2 hbottom)
  · exact .of_some ⟨{ h with cursorX := hx, cursorY := by omega }, (Repaint.refl s).moved, rfl,
      fun _ ↦ rfl, rfl, rfl, rfl, rfl⟩

/-- The byte completes the line of the cursor. -/
def Fills (s : Console) (c : UInt8) : Prop :=
  c = 10 ∨ c = 9 ∧ s.cols ≤ 8 * (s.cursorX / 8 + 1) ∨
    (FONT_FIRST ≤ c ∧ c ≤ FONT_LAST) ∧ s.cursorX + 1 = s.cols

/-- The byte makes the grid scroll. -/
def Scrolls (s : Console) (c : UInt8) : Prop := s.cursorY + 1 = s.rows ∧ Fills s c

/-- Exactly the bytes that complete a line push one. -/
def Pushes (s : Console) (c : UInt8) (s' : Console) : Prop :=
  Fills s c ∧ 0 < s'.histCount ∨ ¬Fills s c ∧ SameHistory s s'

theorem Pushes.trans (h : Pushes s c s') (h' : SameHistory s' s'') : Pushes s c s'' :=
  h.imp (fun h ↦ ⟨h.1, h'.2.2.1 ▸ h.2⟩) fun h ↦ ⟨h.1, h.2.trans h'⟩

/-- What moves of the cursor, pushed lines and written cells keep. -/
structure KeptByOutput (I : Console → Prop) : Prop where
  store : ∀ s, I s → Store s
  move : ∀ s x y, I s → I { s with cursorX := x, cursorY := y }
  push : ∀ s, I s → 0 ≤ s.cursorY ∧ s.cursorY < s.rows → Succeeds (historyPush s) fun s' ↦
    I s' ∧ ∃ history head count, 0 < count ∧
      s' = { s with history := history, histHead := head, histCount := count }
  cell : ∀ s c, Grid s → I s → Succeeds (putCell font s c) fun s' ↦ I s' ∧ Rewrite s s'

theorem keptByOutput_store : KeptByOutput font Store where
  store _ := id
  move _ _ _ h := { h with }
  push _ h hy := historyPush_store h hy
  cell _ c h _ := (putCell_grid font h c).mono fun _ h' ↦ ⟨h'.1.toStore, h'.2⟩

section Output

variable {I : Console → Prop} (hI : KeptByOutput font I)
include hI

theorem putSwitch_keeps (h : I s) (hgrid : Grid s) (c : UInt8) :
    Succeeds (putSwitch font s c) fun s' ↦ I s' ∧ Moved s s' ∧ Advances s c s' := by
  have hx := hgrid.cursorX
  have hcols := hgrid.cols
  have hself : Moved s s := (Repaint.refl s).moved
  unfold putSwitch
  refine .ite (fun hc ↦ ?newline) fun hline ↦ .ite (fun hc ↦ ?carriage) fun _ ↦ .ite (fun hc ↦
    .ite (fun hpos ↦ ?backspace) fun _ ↦ ?start) fun _ ↦ .ite (fun hc ↦ ?glyph) fun hc ↦ ?other
  case newline =>
    apply (hI.push s h hgrid.cursorY).bind
    rintro s' ⟨h', history, head, count, hcount, rfl⟩
    exact .of_some ⟨hI.move _ _ _ h', ⟨s.text, s.pixels, history, head, count, 0, s.cursorY + 1,
      s.viewBack, rfl⟩, .inl ⟨hc, rfl, rfl, hcount⟩⟩
  case carriage =>
    refine .of_some ⟨hI.move _ _ _ h, ⟨s.text, s.pixels, s.history, s.histHead, s.histCount, 0,
      s.cursorY, s.viewBack, rfl⟩, .inr (.inr ⟨?_, le_rfl, by dsimp only; omega, rfl,
        rfl, rfl, rfl, rfl⟩)⟩
    rw [hc]
    decide
  case backspace =>
    have hback : Grid { s with cursorX := s.cursorX - 1 } :=
      { hgrid with cursorX := by dsimp only; omega }
    apply (hI.cell _ 32 hback (hI.move s _ _ h)).mono
    rintro s' ⟨h', text, pixels, rfl⟩
    refine ⟨h', ⟨text, pixels, s.history, s.histHead, s.histCount, s.cursorX - 1, s.cursorY,
      s.viewBack, rfl⟩, .inr (.inr ⟨?_, by dsimp only; omega, by dsimp only; omega, rfl,
        rfl, rfl, rfl, rfl⟩)⟩
    rw [hc]
    decide
  case start =>
    refine .of_some ⟨h, hself, .inr (.inr ⟨?_, hx.1, hx.2, rfl, rfl, rfl, rfl, rfl⟩)⟩
    rw [hc]
    decide
  case glyph =>
    apply (hI.cell s c hgrid h).bind
    rintro s' ⟨h', text, pixels, rfl⟩
    exact .of_some ⟨hI.move _ _ _ h', ⟨text, pixels, s.history, s.histHead, s.histCount,
      s.cursorX + 1, s.cursorY, s.viewBack, rfl⟩, .inr (.inl ⟨hc, rfl, rfl, rfl, rfl, rfl, rfl⟩)⟩
  case other =>
    exact .of_some ⟨h, hself, .inr (.inr ⟨⟨hc, hline⟩, hx.1, hx.2, rfl, rfl, rfl, rfl, rfl⟩)⟩

/-- A full line is left, and the cursor is back in the columns. -/
theorem wrapLine_keeps (h : I s) (hcols : 1 ≤ s.cols) (hleaving : Leaving s) :
    Succeeds (wrapLine s) fun s' ↦ I s' ∧ Moved s s' ∧
      ((0 ≤ s'.cursorX ∧ s'.cursorX < s'.cols) ∧ (0 ≤ s'.cursorY ∧ s'.cursorY ≤ s'.rows)) ∧
      (s.cols ≤ s.cursorX ∧ s'.cursorX = 0 ∧ s'.cursorY = s.cursorY + 1 ∧ 0 < s'.histCount ∨
        s.cursorX < s.cols ∧ s' = s) := by
  unfold Leaving at hleaving
  unfold wrapLine
  refine .ite (fun hfull ↦ ?_) fun hroom ↦ ?_
  · apply (hI.push s h (by omega)).bind
    rintro s' ⟨h', history, head, count, hcount, rfl⟩
    exact .of_some ⟨hI.move _ _ _ h', ⟨s.text, s.pixels, history, head, count, 0, s.cursorY + 1,
      s.viewBack, rfl⟩, by dsimp only; omega, .inl ⟨hfull, rfl, rfl, hcount⟩⟩
  · exact .of_some ⟨h, (Repaint.refl s).moved, by omega, .inr ⟨not_le.1 hroom, rfl⟩⟩

/-- The end of `fb_putchar` up to the cursor: only a scrolling byte leaves the last row. -/
theorem putEnd_keeps (h : I s) (hgrid : Grid s) (hscroll : ∀ s', I s' → Moved s s' →
      0 ≤ s'.cursorX ∧ s'.cursorX < s'.cols → 0 ≤ s'.cursorY ∧ s'.cursorY ≤ s'.rows →
      (s'.rows ≤ s'.cursorY → Scrolls s c) → Succeeds (scrollLine s') I) :
    ∃ s', I s' ∧ Grid s' ∧ Moved s s' ∧ putEnd font s c = fbRepaintCursor font s' ∧
      (c = 32 → s'.cursorX = s.cursorX + 1 ∧ s'.cursorY = s.cursorY ∨
        Fills s c ∧ s'.cursorX = 0) ∧ (c ≠ 9 → Pushes s c s') := by
  have hx := hgrid.cursorX
  have hy := hgrid.cursorY
  have hcols := hgrid.cols
  obtain ⟨s₁, hswitch, h₁, hmoved₁, hadvance⟩ := putSwitch_keeps font hI h hgrid c
  obtain ⟨s₂, hwrap, h₂, hmoved₂, ⟨hx₂, hy₂⟩, hplace⟩ := wrapLine_keeps font hI h₁
    (hI.store s₁ h₁).cols.1 (hadvance.leaving hgrid hmoved₁)
  obtain ⟨-, hrows₁, hcols₁⟩ := hmoved₁.same
  obtain ⟨-, hrows₂, hcols₂⟩ := hmoved₂.same
  -- The line is complete with a newline or behind its last column.
  have hends : Fills s c ∧ 0 < s₂.histCount ∧ s₂.cursorX = 0 ∧ s₂.cursorY = s.cursorY + 1 ∨
      (c ≠ 9 → ¬Fills s c) ∧ SameHistory s s₂ ∧ s₂.cursorY = s.cursorY ∧
        (c = 32 → s₂.cursorX = s.cursorX + 1) := by
    unfold Fills
    rcases hplace with ⟨hfull, hzero, hdown, hcount⟩ | ⟨hroom, rfl⟩
    · rcases hadvance with ⟨rfl, hstart, -⟩ | ⟨hglyph, hnext, hsame, -⟩ | ⟨-, -, hin, -⟩
      · omega
      · exact .inl ⟨.inr (.inr ⟨hglyph, by omega⟩), hcount, hzero, by omega⟩
      · omega
    · rcases hadvance with ⟨rfl, hzero, hnext, hcount⟩ | ⟨hglyph, hnext, hsame, hkept⟩ |
        ⟨⟨hglyph, hline⟩, -, -, hsame, hkept⟩
      · exact .inl ⟨.inl rfl, hcount, hzero, hnext⟩
      · refine .inr ⟨fun htab ↦ ?_, hkept, hsame, fun _ ↦ hnext⟩
        have hline : c ≠ 10 := by
          rintro rfl
          exact absurd hglyph (by decide)
        simp only [hline, htab, false_and, false_or]
        omega
      · refine .inr ⟨fun htab ↦ by simp [hline, htab, hglyph], hkept, hsame, ?_⟩
        rintro rfl
        exact absurd (by decide) hglyph
  have hscrolls : s₂.rows ≤ s₂.cursorY → Scrolls s c := by
    intro hbottom
    rcases hends with ⟨hfills, -, -, hdown⟩ | ⟨-, -, hsame, -⟩
    · exact ⟨by omega, hfills⟩
    · omega
  obtain ⟨s₃, hline, h₃, hgrid₃, hmoved₃, hx₃, hstay, hkept⟩ :=
    (hscroll s₂ h₂ (hmoved₁.trans hmoved₂) hx₂ hy₂ hscrolls).and
      (scrollLine_grid (hI.store s₂ h₂) hx₂ hy₂)
  refine ⟨s₃, h₃, hgrid₃, (hmoved₁.trans hmoved₂).trans hmoved₃, ?_, ?_⟩
  · rw [putEnd, hswitch]
    simp [hwrap, hline]
  rcases hends with ⟨hfills, hcount, hzero, -⟩ | ⟨hfills, hhistory, hsame, hnext⟩
  · exact ⟨fun _ ↦ .inr ⟨hfills, hx₃.trans hzero⟩,
      fun _ ↦ Pushes.trans (.inl ⟨hfills, hcount⟩) hkept⟩
  · exact ⟨fun hc ↦ .inl ⟨hx₃.trans (hnext hc), (hstay (by omega)).trans hsame⟩,
      fun htab ↦ Pushes.trans (.inr ⟨hfills htab, hhistory⟩) hkept⟩

end Output

theorem snapView_grid (h : Grid s) : Succeeds (snapView font s) fun s' ↦ Grid s' ∧
    ∃ pixels, s' = { s with viewBack := 0, pixels := pixels } := by
  unfold snapView
  refine .ite (fun _ ↦ ?_) fun hlive ↦ ?_
  · have hsnap : Grid { s with viewBack := 0 } := { h with viewBack := by dsimp only; omega }
    apply (fbRedrawLive_grid font hsnap).mono
    rintro s' ⟨pixels, rfl⟩
    exact ⟨hsnap.repaint ⟨pixels, rfl⟩, pixels, rfl⟩
  · have hback : s.viewBack = 0 := not_not.1 hlive
    refine .of_some ⟨h, s.pixels, ?_⟩
    rw [← hback]

theorem putStart_grid (h : Grid s) : Succeeds (putStart font s) fun s' ↦
    Grid s' ∧ Moved s s' ∧ s'.cursorX = s.cursorX ∧ SameHistory s s' := by
  apply (snapView_grid font h).bind
  rintro s₁ ⟨h₁, pixels₁, rfl⟩
  apply (fbDrawCursor_grid font h₁).mono
  rintro s₂ ⟨pixels₂, rfl⟩
  exact ⟨h₁.repaint ⟨pixels₂, rfl⟩, ⟨s.text, pixels₂, s.history, s.histHead, s.histCount, s.cursorX,
    s.cursorY, 0, rfl⟩, rfl, rfl, rfl, rfl, rfl⟩

theorem putEnd_grid (h : Grid s) (c : UInt8) :
    Succeeds (putEnd font s c) fun s' ↦ Grid s' ∧ Moved s s' ∧
      (c = 32 → s'.cursorX = s.cursorX + 1 ∨ Fills s c ∧ s'.cursorX = 0) ∧
        (c ≠ 9 → Pushes s c s') := by
  obtain ⟨s₁, -, h₁, hmoved, hend, hx, hpushes⟩ := putEnd_keeps font (keptByOutput_store font) (c := c)
    h.toStore h fun _ h' _ hx hy _ ↦ (scrollLine_grid h' hx hy).mono fun _ h'' ↦ h''.1.toStore
  rw [hend]
  apply (fbRepaintCursor_grid font h₁).mono
  intro s₂ hpaint
  refine ⟨h₁.repaint hpaint, hmoved.trans hpaint.moved, ?_⟩
  obtain ⟨pixels, rfl⟩ := hpaint
  exact ⟨fun hc ↦ (hx hc).imp_left And.left, hpushes⟩

/-- A byte of text, after the live view was restored and the block removed. -/
theorem fbPutchar_of_start (hrest : s.ansi = .normal) (hc : c ≠ 0x1B)
    (hstart : putStart font s = some s') (fuel : ℕ) :
    fbPutchar font (fuel + 1) s c =
      if c = 9 then tabLoop (fun s ↦ fbPutchar font fuel s 32) fuel s' else putEnd font s' c := by
  have hconsume : ansiConsume font s c = some (false, s) := by
    unfold ansiConsume
    rw [hrest]
    exact if_neg hc
  rw [fbPutchar, hconsume]
  simp only [Option.bind_eq_bind, Option.bind_some, Bool.false_eq_true, if_false, hstart]

theorem SameHistory.pushes (h : SameHistory s s') (hx : s'.cursorX = s.cursorX)
    (hpushes : Pushes s' c s'') : Pushes s c s'' := by
  have hfills : Fills s' c ↔ Fills s c := by rw [Fills, Fills, hx, h.2.2.2]
  rw [Pushes, hfills] at hpushes
  exact hpushes.imp_right fun h' ↦ ⟨h'.1, h.trans h'.2⟩

/-- A space with the parser at rest: the cursor advances, or starts a new row. -/
theorem fbPutchar_space (h : Grid s) (hrest : s.ansi = .normal) (fuel : ℕ) :
    Succeeds (fbPutchar font (fuel + 1) s 32) fun s' ↦ Grid s' ∧ Moved s s' ∧
      (s'.cursorX = s.cursorX + 1 ∨ s.cursorX + 1 = s.cols ∧ s'.cursorX = 0) ∧
        Pushes s 32 s' := by
  obtain ⟨s₁, hstart, h₁, hmoved, hx₁, hsame⟩ := putStart_grid font h
  rw [fbPutchar_of_start font hrest (by decide) hstart, if_neg (by decide)]
  apply (putEnd_grid font h₁ 32).mono
  rintro s₂ ⟨h₂, hmoved₂, hx, hpushes⟩
  refine ⟨h₂, hmoved.trans hmoved₂, ?_, hsame.pushes hx₁ (hpushes (by decide))⟩
  have hfills : Fills s₁ 32 ↔ s₁.cursorX + 1 = s₁.cols := by simp [Fills, FONT_FIRST, FONT_LAST]
  rw [← hx₁, ← hsame.2.2.2, ← hfills]
  exact hx rfl

/-- The loop of the tab ends at the latest with the eighth space, or at the end of the line. -/
theorem tabLoop_grid (h : Grid s) (hrest : s.ansi = .normal) (depth : ℕ)
    (hfuel : 8 - s.cursorX % 8 ≤ fuel) :
    Succeeds (tabLoop (fun s ↦ fbPutchar font (depth + 1) s 32) fuel s) fun s' ↦
      Grid s' ∧ Moved s s' ∧ Pushes s 9 s' := by
  have htab (s : Console) : Fills s 9 ↔ s.cols ≤ 8 * (s.cursorX / 8 + 1) := by
    simp [Fills, FONT_FIRST, FONT_LAST]
  have hspace (s : Console) : Fills s 32 ↔ s.cursorX + 1 = s.cols := by
    simp [Fills, FONT_FIRST, FONT_LAST]
  induction fuel generalizing s with
  | zero => omega
  | succ fuel ih =>
    rw [tabLoop]
    apply (fbPutchar_space font h hrest depth).bind
    rintro s' ⟨h', hmoved, hx, hpushes⟩
    have hx' := h'.cursorX
    have hmod : s'.cursorX.tmod 8 = s'.cursorX % 8 := Int.tmod_eq_emod_of_nonneg hx'.1
    obtain ⟨hansi, -, hcols⟩ := hmoved.same
    rw [hmod]
    rw [Pushes, hspace] at hpushes
    refine .ite (fun hgoes ↦ ?_) fun hstops ↦ .of_some ⟨h', hmoved, ?_⟩
    · apply (ih h' (hansi.trans hrest) (by omega)).mono
      rintro s'' ⟨h'', hmoved', hpushes'⟩
      refine ⟨h'', hmoved.trans hmoved', ?_⟩
      rw [Pushes, htab] at hpushes' ⊢
      have hkept := (hpushes.resolve_left (by omega)).2
      exact hpushes'.imp (fun h ↦ ⟨by omega, h.2⟩) fun h ↦ ⟨by omega, hkept.trans h.2⟩
    · rw [Pushes, htab]
      exact hpushes.imp (fun h ↦ ⟨by omega, h.2⟩) fun h ↦ ⟨by omega, h.2⟩

/-- `fb_putchar` returns on every byte and keeps the grid; the byte is consumed, or is text. -/
theorem fbPutchar_grid (h : Grid s) (c : UInt8) (hfuel : 9 ≤ fuel) :
    Succeeds (fbPutchar font fuel s c) fun s' ↦ Grid s' ∧
      (ansiConsume font s c = some (true, s') ∨
        s.ansi = .normal ∧ Moved s s' ∧ Pushes s c s') := by
  obtain ⟨depth, rfl⟩ : ∃ depth, fuel = depth + 1 + 1 := ⟨fuel - 2, by omega⟩
  obtain ⟨⟨consumed, s₁⟩, hconsume, h₁, hkept⟩ := ansiConsume_grid font h c
  cases consumed with
  | true => exact ⟨s₁, by rw [fbPutchar, hconsume]; rfl, h₁, .inl hconsume⟩
  | false =>
    obtain ⟨rfl, hrest, hc⟩ := hkept rfl
    obtain ⟨s₂, hstart, h₂, hmoved, hx, hsame⟩ := putStart_grid font h
    rw [fbPutchar_of_start font hrest hc hstart]
    refine .ite (fun htab ↦ ?_) fun htab ↦ ?_
    · subst htab
      apply (tabLoop_grid font h₂ (hmoved.same.1.trans hrest) depth (by omega)).mono
      exact fun s₃ h₃ ↦ ⟨h₃.1, .inr ⟨hrest, hmoved.trans h₃.2.1, hsame.pushes hx h₃.2.2⟩⟩
    · exact (putEnd_grid font h₂ c).mono fun s₃ h₃ ↦
        ⟨h₃.1, .inr ⟨hrest, hmoved.trans h₃.2.1, hsame.pushes hx (h₃.2.2.2 htab)⟩⟩

theorem step_grid (h : Grid s) (op : Op) (hfuel : 9 ≤ fuel) :
    Succeeds (step font fuel s op) Grid := by
  cases op with
  | putchar c => exact (fbPutchar_grid font h c hfuel).mono fun s' hs' ↦ hs'.1
  | setColor fg bg =>
    have hcolors : Grid { s with fg := fg, bg := bg } := { h with }
    exact (fbUpdateColor_grid hcolors).mono fun s' hs' ↦ hs'.1
  | clear => exact (fbClear_grid h.toStore).mono fun s' hs' ↦ hs'.1
  | pageUp => exact fbScrollPage_grid font h 1
  | pageDown => exact fbScrollPage_grid font h (-1)

theorem run_grid (h : Grid s) (ops : List Op) (hfuel : 9 ≤ fuel) :
    Succeeds (run font fuel s ops) Grid :=
  Succeeds.foldlM h fun _ op _ h' ↦ step_grid font h' op hfuel

/-- `fb_init` accepts the framebuffer. -/
def Framebuffer.Accepted (fb : Framebuffer) : Prop :=
  fb.memoryModel = LIMINE_FRAMEBUFFER_RGB ∧ fb.bpp = 32

/-- The framebuffer has room for a cell. -/
def Framebuffer.HasCell (fb : Framebuffer) : Prop :=
  FONT_WIDTH ≤ fb.width % 2 ^ 32 ∧ FONT_HEIGHT ≤ fb.height % 2 ^ 32

theorem clampCells_mem {side size limit : ℕ} (hsize : 0 < size) (hside : size ≤ side)
    (hlimit : 0 < limit) : 1 ≤ clampCells side size limit ∧ clampCells side size limit ≤ limit := by
  have hcell : 0 < side / size := Nat.div_pos hside hsize
  unfold clampCells
  split_ifs <;> omega

/-- `fb_init` of an accepted framebuffer clears a screen with the default colour only. -/
theorem fbInit_eq (haccepted : fb.Accepted) (hcell : fb.HasCell) :
    ∃ color palette, palette.bg (paletteIndex color) = COLOR_BG ∧
      Store { adopt initial fb with curColor := color, palette := palette } ∧
      fbInit (some fb) initial = (fbClear { adopt initial fb with
        curColor := color, palette := palette }).map fun s ↦ (0, s) := by
  obtain ⟨⟨color, palette⟩, hlookup, hknown, hcount, -, hbg⟩ := paletteLookup_grows
    (p := ⟨(adopt initial fb).palette.fg, (adopt initial fb).palette.bg, 0⟩)
      ⟨le_rfl, by norm_num⟩ COLOR_FG COLOR_BG
  have hcols := clampCells_mem (show 0 < FONT_WIDTH by decide) hcell.1
    (show 0 < FB_MAX_COLS by decide)
  have hrows := clampCells_mem (show 0 < FONT_HEIGHT by decide) hcell.2
    (show 0 < FB_MAX_ROWS by decide)
  have hfirst : Known palette 0 := lt_of_lt_of_le (by decide) hcount.1
  refine ⟨color, palette, hbg (by norm_num),
    { cols := hcols
      rows := hrows
      csiLen := ⟨le_rfl, show (0 : ℤ) ≤ 31 by decide⟩
      histHead := ⟨le_rfl, show (0 : ℤ) < 2048 by decide⟩
      histCount := ⟨le_rfl, show (0 : ℤ) ≤ 2048 by decide⟩
      viewBack := ⟨le_rfl, le_max_left _ _⟩
      count := hcount
      text := fun _ _ ↦ hfirst
      curColor := hknown
      altText := fun _ _ ↦ hfirst
      altColor := hfirst
      altCursorX := ⟨le_rfl, by exact hcols.1⟩
      altCursorY := ⟨le_rfl, by exact hrows.1⟩ }, ?_⟩
  unfold fbInit
  dsimp only
  rw [if_neg (by simp [haccepted.1, haccepted.2]), hlookup, Option.map_eq_bind]
  rfl

theorem fbInit_grid (haccepted : fb.Accepted) (hcell : fb.HasCell) :
    Succeeds (fbInit (some fb) initial) fun r ↦ r.1 = 0 ∧ Grid r.2 := by
  obtain ⟨color, palette, -, hstore, hinit⟩ := fbInit_eq haccepted hcell
  obtain ⟨s, hclear, hgrid, -⟩ := fbClear_grid hstore
  rw [hinit, hclear]
  exact .of_some ⟨rfl, hgrid⟩

/-- From an accepted framebuffer with room for a cell, every sequence of calls returns, with all its
array accesses in range, and leaves the console in its grid. -/
theorem console_stays_in_grid (fb : Framebuffer) (haccepted : fb.Accepted) (hcell : fb.HasCell)
    (ops : List Op) (fuel : ℕ) (hfuel : 9 ≤ fuel) :
    ∃ s s', fbInit (some fb) initial = some (0, s) ∧ run font fuel s ops = some s' ∧ Grid s' := by
  obtain ⟨⟨result, s⟩, hinit, rfl, hgrid⟩ := fbInit_grid haccepted hcell
  obtain ⟨s', hrun, hgrid'⟩ := run_grid font hgrid ops hfuel
  exact ⟨s, s', hinit, hrun, hgrid'⟩

/-- A tab and an escape sequence on a screen of one cell. -/
theorem console_stays_in_grid_one_cell : ∃ s s',
    fbInit (some ⟨fun _ ↦ 0, 1, 32, 32, 8, 16⟩) initial = some (0, s) ∧
      run blankFont 9 s
        [.putchar 9, .putchar 0x1B, .putchar 91, .putchar 65, .pageUp] = some s' ∧ Grid s' :=
  console_stays_in_grid _ ⟨fun _ ↦ 0, 1, 32, 32, 8, 16⟩ ⟨rfl, rfl⟩ ⟨by decide, by decide⟩ _ 9 le_rfl

end ToastyUnix.Fb
