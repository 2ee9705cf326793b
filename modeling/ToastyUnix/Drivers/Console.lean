import ToastyUnix.Lib.Checked

/-!
# The framebuffer text console

`kernel/drivers/fb.c`: the text grid with its scrollback, the parser of escape sequences and the
painting of cells. The globals are the fields of `Console`. An access to an array goes through an
index that is checked against the size of the array, and a loop whose end is not in sight has fuel;
a function returns `none` when an index is out of range or the fuel is used up.

The framebuffer is a memory of bytes. The bitmaps of the font are a parameter of which only the
glyph of the space is fixed.
-/

namespace ToastyUnix.Fb

open Checked Function

def FB_MAX_COLS : ℕ := 512
def FB_MAX_ROWS : ℕ := 256
def FB_HISTORY_ROWS : ℕ := 2048
def FB_PALETTE_SIZE : ℕ := 16
def COLOR_FG : BitVec 32 := 0x00E8E8E8
def COLOR_BG : BitVec 32 := 0x00000000
def FONT_WIDTH : ℕ := 8
def FONT_HEIGHT : ℕ := 16
def FONT_FIRST : UInt8 := 0x20
def FONT_LAST : UInt8 := 0x7F

/-- `font8x16`: the rows of the glyphs from `FONT_FIRST` on. -/
structure Font where
  glyph : ℕ → ℕ → BitVec 8
  space : ∀ y, glyph 0 y = 0

/-- A font without a set pixel. -/
def blankFont : Font := ⟨fun _ _ ↦ 0, fun _ ↦ rfl⟩

/-- `struct fb_cell`. -/
structure Cell where
  c : UInt8
  color : UInt8
deriving DecidableEq

/-- A cell in two dimensions of an array. -/
abbrev Cells (m : ℕ) := Fin m → Fin FB_MAX_COLS → Cell

/-- The palette: `g_palette_fg`, `g_palette_bg` and `g_palette_count`. -/
structure Palette where
  fg : Fin FB_PALETTE_SIZE → BitVec 32
  bg : Fin FB_PALETTE_SIZE → BitVec 32
  count : ℤ

inductive AnsiState
  | normal
  | esc
  | csi
  | ss3
deriving DecidableEq

/-- What `ansi_alt_enter` saves. -/
structure AltScreen where
  text : Cells FB_MAX_ROWS
  cursorX : ℤ
  cursorY : ℤ
  fg : BitVec 32
  bg : BitVec 32
  curColor : UInt8
  active : Bool

/-- The globals of `fb.c`. -/
structure Console where
  pixels : ℕ → UInt8
  pitchBytes : ℕ
  height : ℕ
  textTop : ℕ
  cols : ℤ
  rows : ℤ
  cursorX : ℤ
  cursorY : ℤ
  fg : BitVec 32
  bg : BitVec 32
  curColor : UInt8
  palette : Palette
  text : Cells FB_MAX_ROWS
  ansi : AnsiState
  csiBuf : Fin 32 → UInt8
  csiLen : ℤ
  csiPrivate : Bool
  cursorVisible : Bool
  reverse : Bool
  alt : AltScreen
  history : Cells FB_HISTORY_ROWS
  histHead : ℤ
  histCount : ℤ
  viewBack : ℤ

/-- `a[i][j]`. -/
def cellAt {m : ℕ} (a : Cells m) (i j : ℤ) : Option Cell := do
  let row ← index m i
  let col ← index FB_MAX_COLS j
  return a row col

/-- `a[i][j] = cell`. -/
def setCellAt {m : ℕ} (a : Cells m) (i j : ℤ) (cell : Cell) : Option (Cells m) := do
  let row ← index m i
  let col ← index FB_MAX_COLS j
  return update a row (update (a row) col cell)

/-- `memcpy(dst[i], src[j], count * sizeof(struct fb_cell))`. -/
def copyRow {m n : ℕ} (dst : Cells m) (i : ℤ) (src : Cells n) (j count : ℤ) :
    Option (Cells m) := do
  let target ← index m i
  let source ← index n j
  if (FB_MAX_COLS : ℤ) < count then none
  else
    return update dst target fun col ↦
      if (col : ℤ) < count then src source col else dst target col

/-- `g_pitch_words`. -/
def Console.pitchWords (s : Console) : ℕ := s.pitchBytes / 4

/-- Byte `k` of a stored word. -/
def byteOf (word : BitVec 32) (k : ℕ) : UInt8 := UInt8.ofBitVec (word.extractLsb' (8 * k) 8)

/-- `g_pixels[i] = word`. -/
def setPixel (pixels : ℕ → UInt8) (i : ℕ) (word : BitVec 32) : ℕ → UInt8 :=
  fun a ↦ if a / 4 = i then byteOf word (a % 4) else pixels a

/-- The loops that write the pixels of a glyph. -/
def paintGlyph (pixels : ℕ → UInt8) (pitchWords base : ℕ) (glyph : ℕ → BitVec 8)
    (fg bg : BitVec 32) : ℕ → UInt8 :=
  (List.range FONT_HEIGHT).foldl (fun pixels y ↦ (List.range FONT_WIDTH).foldl (fun pixels x ↦
      setPixel pixels (base + (y * pitchWords + x)) (if (glyph y).getMsbD x then fg else bg))
      pixels) pixels

/-- The glyph that stands for a byte. -/
def glyphOf (c : UInt8) : ℕ :=
  (if c < FONT_FIRST ∨ FONT_LAST < c then 32 else c.toNat) - FONT_FIRST.toNat

/-- `color & (FB_PALETTE_SIZE - 1)`. -/
def paletteIndex (color : UInt8) : Fin FB_PALETTE_SIZE :=
  ⟨color.toNat % 16, Nat.mod_lt _ (by decide)⟩

variable (font : Font)

/-- `fb_paint_cell`. -/
def fbPaintCell (s : Console) (row col : ℤ) (cell : Cell) (showCursor : Bool) : Console :=
  if row < 0 ∨ s.rows ≤ row ∨ col < 0 ∨ s.cols ≤ col then s
  else
    let fg := s.palette.fg (paletteIndex cell.color)
    let bg := s.palette.bg (paletteIndex cell.color)
    let swap := showCursor && decide (row = s.cursorY) && decide (col = s.cursorX)
    { s with
      pixels := paintGlyph s.pixels s.pitchWords
        ((s.textTop + row.toNat * FONT_HEIGHT) * s.pitchWords + col.toNat * FONT_WIDTH)
        (font.glyph (glyphOf cell.c)) (if swap then bg else fg) (if swap then fg else bg) }

/-- `fb_draw_cell`. -/
def fbDrawCell (s : Console) (row col : ℤ) (showCursor : Bool) : Option Console := do
  let cell ← cellAt s.text row col
  return fbPaintCell font s row col cell showCursor

/-- `fb_repaint_cursor`, and the end of `fb_redraw_live` and `fb_putchar`. -/
def fbRepaintCursor (s : Console) : Option Console :=
  if s.cursorVisible then fbDrawCell font s s.cursorY s.cursorX true else some s

/-- `fb_redraw_live`. -/
def fbRedrawLive (s : Console) : Option Console := do
  let s ← (intRange 0 s.rows).foldlM (fun s row ↦
    (intRange 0 s.cols).foldlM (fun s col ↦ fbDrawCell font s row col false) s) s
  fbRepaintCursor font s

/-- `fb_redraw_history`. -/
def fbRedrawHistory (s : Console) : Option Console :=
  (intRange 0 s.rows).foldlM (fun s row ↦ let hist := s.histCount - s.viewBack - s.rows + row
    if hist < 0 then
      some ((intRange 0 s.cols).foldl (fun s col ↦ fbPaintCell font s row col ⟨32, 0⟩ false) s)
    else
      let slot := (s.histHead - s.histCount + hist).tmod FB_HISTORY_ROWS
      let slot := if slot < 0 then slot + FB_HISTORY_ROWS else slot
      (intRange 0 s.cols).foldlM (fun s col ↦ do
        let cell ← cellAt s.history slot col
        return fbPaintCell font s row col cell false) s) s

/-- `palette_lookup`: the palette with the pair, and its index. -/
def paletteLookup (p : Palette) (fg bg : BitVec 32) : Option (UInt8 × Palette) :=
  let hit := (List.finRange FB_PALETTE_SIZE).find? fun i ↦
    decide ((i.val : ℤ) < p.count) && decide (p.fg i = fg) && decide (p.bg i = bg)
  match hit with
  | some i => some (UInt8.ofNat i, p)
  | none =>
    if p.count < FB_PALETTE_SIZE then do
      let i ← index FB_PALETTE_SIZE p.count
      return (UInt8.ofNat i, ⟨update p.fg i fg, update p.bg i bg, p.count + 1⟩)
    else some (0, p)

/-- `fb_update_color`. -/
def fbUpdateColor (s : Console) : Option Console :=
  (if s.reverse then paletteLookup s.palette s.bg s.fg else paletteLookup s.palette s.fg s.bg) >>=
    fun (color, palette) ↦ some { s with curColor := color, palette := palette }

/-- `fb_set_color`. -/
def fbSetColor (s : Console) (fg bg : BitVec 32) : Option Console :=
  fbUpdateColor { s with fg := fg, bg := bg }

/-- `history_push`. -/
def historyPush (s : Console) : Option Console := do
  let history ← copyRow s.history s.histHead s.text s.cursorY s.cols
  return { s with
    history := history
    histHead := (s.histHead + 1).tmod FB_HISTORY_ROWS
    histCount := if s.histCount < FB_HISTORY_ROWS then s.histCount + 1 else s.histCount }

/-- The loop that fills the first `cols` cells of a row. -/
def fillRow (text : Cells FB_MAX_ROWS) (row cols : ℤ) (cell : Cell) : Option (Cells FB_MAX_ROWS) :=
  (intRange 0 cols).foldlM (fun text col ↦ setCellAt text row col cell) text

/-- `memmove`, whose ranges may overlap. -/
def memmove (mem : ℕ → UInt8) (dst src count : ℕ) : ℕ → UInt8 :=
  fun a ↦ if dst ≤ a ∧ a < dst + count then mem (a - dst + src) else mem a

/-- `memset`. -/
def memset (mem : ℕ → UInt8) (dst : ℕ) (value : UInt8) (count : ℕ) : ℕ → UInt8 :=
  fun a ↦ if dst ≤ a ∧ a < dst + count then value else mem a

/-- The pixels after `fb_scroll_up`. -/
def scrollPixels (s : Console) : ℕ → UInt8 :=
  let bytes := s.textTop * s.pitchBytes
  let lineBytes := FONT_HEIGHT * s.pitchBytes
  let totalBytes := (s.rows - 1).toNat * lineBytes
  memset (memmove s.pixels bytes (bytes + lineBytes) totalBytes) (bytes + totalBytes) 0 lineBytes

/-- `fb_scroll_up`. -/
def fbScrollUp (s : Console) : Option Console := do
  let text ← (intRange 1 s.rows).foldlM
    (fun text row ↦ copyRow text (row - 1) text row s.cols) s.text
  let text ← fillRow text (s.rows - 1) s.cols ⟨32, s.curColor⟩
  return { s with text := text, pixels := scrollPixels s }

/-- The loops of `fb_clear` and `ansi_alt_exit` that blank the text. -/
def blankText (s : Console) : Option (Cells FB_MAX_ROWS) :=
  (intRange 0 s.rows).foldlM (fun text row ↦ fillRow text row s.cols ⟨32, s.curColor⟩) s.text

/-- The pixels of a black screen. -/
def blackPixels (s : Console) : ℕ → UInt8 := memset s.pixels 0 0 (s.pitchBytes * s.height)

/-- `fb_clear`. -/
def fbClear (s : Console) : Option Console := do
  let text ← blankText s
  return { s with
    text := text
    pixels := blackPixels s
    textTop := 0
    cursorX := 0
    cursorY := 0
    histHead := 0
    histCount := 0
    viewBack := 0 }

/-- The view after `fb_scroll_page`. -/
def pageBack (s : Console) (dir : ℤ) : ℤ :=
  let maxBack := if s.histCount - s.rows < 0 then 0 else s.histCount - s.rows
  let back := s.viewBack + dir * s.rows
  let back := if back < 0 then 0 else back
  if maxBack < back then maxBack else back

/-- `fb_scroll_page`. -/
def fbScrollPage (s : Console) (dir : ℤ) : Option Console :=
  let s := { s with viewBack := pageBack s dir }
  if s.viewBack = 0 then fbRedrawLive font s else fbRedrawHistory font s

section Params

variable (csiBuf : Fin 32 → UInt8) (csiLen : ℤ)

/-- The inner loop of `ansi_parse_params`: the digits from position `i` on. -/
def digitLoop : ℕ → ℤ → ℤ → Bool → Option (ℤ × ℤ × Bool)
  | 0, _, _, _ => none
  | fuel + 1, i, v, any =>
    if i < csiLen then do
      let k ← index 32 i
      let c := csiBuf k
      if 48 ≤ c ∧ c ≤ 57 then
        let v := v * 10 + (c.toNat - 48 : ℤ)
        digitLoop fuel (i + 1) (if 9999 < v then 9999 else v) true
      else some (i, v, any)
    else some (i, v, any)

/-- The outer loop of `ansi_parse_params`, with the number of parameters still open. -/
def paramLoop (deflt : ℤ) : ℕ → ℤ → Option (List ℤ)
  | 0, _ => some []
  | n + 1, i =>
    if i < csiLen then do
      let (i, v, any) ← digitLoop csiBuf csiLen 33 i 0 false
      let p := if any then v else deflt
      if i < csiLen then
        let k ← index 32 i
        if csiBuf k = 59 then
          let rest ← paramLoop deflt n (i + 1)
          return p :: rest
        else return p :: List.replicate n deflt
      else return p :: List.replicate n deflt
    else some (List.replicate (n + 1) deflt)

/-- `ansi_parse_params`. -/
def ansiParseParams (max : ℕ) (deflt : ℤ) : Option (List ℤ) :=
  paramLoop csiBuf csiLen deflt max 0

end Params

/-- `ansi_erase_cells`. -/
def ansiEraseCells (s : Console) (row col0 col1 : ℤ) : Option Console :=
  if row < 0 ∨ s.rows ≤ row then some s
  else
    let blank : Cell := ⟨32, s.curColor⟩
    (intRange col0 (min col1 s.cols)).foldlM (fun s c ↦ if c < 0 then some s
      else do
        let text ← setCellAt s.text row c blank
        return fbPaintCell font { s with text := text } row c blank false) s

/-- The screen that `ansi_alt_enter` saves. -/
def saveScreen (s : Console) : Console :=
  { s with alt := ⟨s.text, s.cursorX, s.cursorY, s.fg, s.bg, s.curColor, true⟩ }

/-- `ansi_alt_enter`. -/
def ansiAltEnter (s : Console) : Option Console :=
  if s.alt.active then some s else fbClear (saveScreen s)

/-- The saved screen that `ansi_alt_exit` puts back, on black pixels. -/
def restoreScreen (s : Console) : Console :=
  { s with
    alt := { s.alt with active := false }
    pixels := blackPixels s
    text := s.alt.text
    cursorX := s.alt.cursorX
    cursorY := s.alt.cursorY
    fg := s.alt.fg
    bg := s.alt.bg
    curColor := s.alt.curColor }

/-- `ansi_alt_exit`; the alternate screen is wiped before its text is replaced. -/
def ansiAltExit (s : Console) : Option Console :=
  if s.alt.active then do
    let _ ← blankText s
    fbRedrawLive font (restoreScreen s)
  else some s

/-- `ansi_colors`. -/
def ansiColors : List (BitVec 32) :=
  [0x000000, 0xAA0000, 0x00AA00, 0xAA5500, 0x0000AA, 0xAA00AA, 0x00AAAA, 0xAAAAAA,
    0x555555, 0xFF5555, 0x55FF55, 0xFFFF55, 0x5555FF, 0xFF55FF, 0x55FFFF, 0xFFFFFF]

/-- One parameter of SGR. -/
def sgrParam (s : Console) (p : ℤ) : Option Console :=
  if p = 0 then some { s with reverse := false, fg := COLOR_FG, bg := COLOR_BG }
  else if p = 7 then some { s with reverse := true }
  else if p = 27 then some { s with reverse := false }
  else if p = 1 ∨ p = 4 then some s
  else if 30 ≤ p ∧ p ≤ 37 then do return { s with fg := ← ansiColors[(p - 30).toNat]? }
  else if 40 ≤ p ∧ p ≤ 47 then do return { s with bg := ← ansiColors[(p - 40).toNat]? }
  else if 90 ≤ p ∧ p ≤ 97 then do return { s with fg := ← ansiColors[(p - 90 + 8).toNat]? }
  else if 100 ≤ p ∧ p ≤ 107 then do return { s with bg := ← ansiColors[(p - 100 + 8).toNat]? }
  else if p = 39 then some { s with fg := COLOR_FG }
  else if p = 49 then some { s with bg := COLOR_BG }
  else some s

/-- `if (v < 0) v = 0`. -/
def fromZero (v : ℤ) : ℤ := if v < 0 then 0 else v

/-- `if (v >= bound) v = bound - 1`. -/
def below (bound v : ℤ) : ℤ := if bound ≤ v then bound - 1 else v

/-- The private modes of `ansi_exec`. -/
def ansiPrivate (s : Console) (final : UInt8) (m : ℤ) : Option Console :=
  if final = 104 then
    if m = 25 then some { s with cursorVisible := true }
    else if m = 47 ∨ m = 1049 then ansiAltEnter s
    else if m = 1048 then
      some { s with alt := { s.alt with cursorX := s.cursorX, cursorY := s.cursorY } }
    else some s
  else if final = 108 then
    if m = 25 then some { s with cursorVisible := false }
    else if m = 47 ∨ m = 1049 then ansiAltExit font s
    else if m = 1048 then some { s with cursorX := s.alt.cursorX, cursorY := s.alt.cursorY }
    else some s
  else some s

/-- `case 'J'` of `ansi_exec`. -/
def eraseDisplay (s : Console) (p : ℤ) : Option Console :=
  if p = 2 ∨ p = 3 then
    (intRange 0 s.rows).foldlM (fun s r ↦ ansiEraseCells font s r 0 s.cols) s
  else if p = 1 then
    (intRange 0 (s.cursorY + 1)).foldlM (fun s r ↦
      ansiEraseCells font s r 0 (if r = s.cursorY then s.cursorX + 1 else s.cols)) s
  else do
    let s ← ansiEraseCells font s s.cursorY s.cursorX s.cols
    (intRange (s.cursorY + 1) s.rows).foldlM (fun s r ↦ ansiEraseCells font s r 0 s.cols) s

/-- `case 'K'` of `ansi_exec`. -/
def eraseLine (s : Console) (p : ℤ) : Option Console :=
  if p = 2 then ansiEraseCells font s s.cursorY 0 s.cols
  else if p = 1 then ansiEraseCells font s s.cursorY 0 (s.cursorX + 1)
  else ansiEraseCells font s s.cursorY s.cursorX s.cols

/-- The `switch` of `ansi_exec` over the final byte, with the first two parameters and all. -/
def ansiSwitch (s : Console) (final : UInt8) (p0 p1 : ℤ) (params : List ℤ) : Option Console :=
  if final = 72 ∨ final = 102 then
    some { s with
      cursorY := below s.rows (fromZero (p0 - 1))
      cursorX := below s.cols (fromZero (p1 - 1)) }
  else if final = 65 then some { s with cursorY := fromZero (s.cursorY - p0) }
  else if final = 66 then some { s with cursorY := below s.rows (s.cursorY + p0) }
  else if final = 67 then some { s with cursorX := below s.cols (s.cursorX + p0) }
  else if final = 68 then some { s with cursorX := fromZero (s.cursorX - p0) }
  else if final = 71 ∨ final = 96 then
    some { s with cursorX := below s.cols (fromZero (p0 - 1)) }
  else if final = 100 then some { s with cursorY := below s.rows (fromZero (p0 - 1)) }
  else if final = 74 then eraseDisplay font s p0
  else if final = 75 then eraseLine font s p0
  else if final = 88 then ansiEraseCells font s s.cursorY s.cursorX (s.cursorX + p0)
  else if final = 109 then do
    let s ← params.foldlM sgrParam s
    fbUpdateColor s
  else some s

/-- `ansi_exec`. -/
def ansiExec (s : Console) (final : UInt8) : Option Console := do
  let params ← ansiParseParams s.csiBuf s.csiLen 8 1
  let p0 ← params[0]?
  let p1 ← params[1]?
  if s.csiPrivate then ansiPrivate font s final p0
  else
    let s ← fbDrawCell font s s.cursorY s.cursorX false
    let s ← ansiSwitch font s final p0 p1 params
    fbRepaintCursor font s

/-- `ansi_consume`: whether the byte was consumed. -/
def ansiConsume (s : Console) (c : UInt8) : Option (Bool × Console) :=
  match s.ansi with
  | .normal => if c = 0x1B then some (true, { s with ansi := .esc }) else some (false, s)
  | .esc =>
    if c = 91 then some (true, { s with ansi := .csi, csiLen := 0, csiPrivate := false })
    else if c = 79 then some (true, { s with ansi := .ss3 })
    else some (true, { s with ansi := .normal })
  | .ss3 => some (true, { s with ansi := .normal })
  | .csi =>
    if 0x40 ≤ c ∧ c ≤ 0x7E then do
      let s ← ansiExec font { s with ansi := .normal } c
      return (true, s)
    else if s.csiLen = 0 ∧ c = 63 then some (true, { s with csiPrivate := true })
    else if (48 ≤ c ∧ c ≤ 57) ∨ c = 59 then
      if s.csiLen < 31 then do
        let k ← index 32 s.csiLen
        return (true, { s with
          csiBuf := update s.csiBuf k c
          csiLen := s.csiLen + 1 })
      else some (true, s)
    else some (true, { s with ansi := .normal })

/-- `g_text[g_cursor_y][g_cursor_x]` becomes a byte in the current colours, and is drawn. -/
def putCell (s : Console) (c : UInt8) : Option Console := do
  let text ← setCellAt s.text s.cursorY s.cursorX ⟨c, s.curColor⟩
  fbDrawCell font { s with text := text } s.cursorY s.cursorX false

/-- The `switch` of `fb_putchar` on a byte that is no tab. -/
def putSwitch (s : Console) (c : UInt8) : Option Console :=
  if c = 10 then do
    let s ← historyPush s
    return { s with cursorX := 0, cursorY := s.cursorY + 1 }
  else if c = 13 then some { s with cursorX := 0 }
  else if c = 8 then
    if 0 < s.cursorX then putCell font { s with cursorX := s.cursorX - 1 } 32 else some s
  else if FONT_FIRST ≤ c ∧ c ≤ FONT_LAST then do
    let s ← putCell font s c
    return { s with cursorX := s.cursorX + 1 }
  else some s

/-- A full line is complete. -/
def wrapLine (s : Console) : Option Console :=
  if s.cols ≤ s.cursorX then do
    let s ← historyPush s
    return { s with cursorX := 0, cursorY := s.cursorY + 1 }
  else some s

/-- The cursor below the grid scrolls it. -/
def scrollLine (s : Console) : Option Console :=
  if s.rows ≤ s.cursorY then do
    let s ← fbScrollUp s
    return { s with cursorY := s.rows - 1 }
  else some s

/-- New output snaps the view back to the live edge. -/
def snapView (s : Console) : Option Console :=
  if s.viewBack ≠ 0 then fbRedrawLive font { s with viewBack := 0 } else some s

/-- The start of `fb_putchar` for a byte outside sequences: the live view without the cursor. -/
def putStart (s : Console) : Option Console := do
  let s ← snapView font s
  fbDrawCell font s s.cursorY s.cursorX false

/-- The end of `fb_putchar` for a byte that is no tab. -/
def putEnd (s : Console) (c : UInt8) : Option Console := do
  let s ← putSwitch font s c
  let s ← wrapLine s
  let s ← scrollLine s
  fbRepaintCursor font s

/-- The loop of the tab, over a call of `fb_putchar`. -/
def tabLoop (put : Console → Option Console) : ℕ → Console → Option Console
  | 0, _ => none
  | fuel + 1, s => do
    let s ← put s
    if s.cursorX.tmod 8 ≠ 0 then tabLoop put fuel s else some s

/-- `fb_putchar`. -/
def fbPutchar : ℕ → Console → UInt8 → Option Console
  | 0, _, _ => none
  | fuel + 1, s, c => do
    let (consumed, s) ← ansiConsume font s c
    if consumed then some s
    else
      let s ← putStart font s
      if c = 9 then tabLoop (fun s ↦ fbPutchar fuel s 32) fuel s else putEnd font s c

def LIMINE_FRAMEBUFFER_RGB : ℕ := 1

/-- `struct limine_framebuffer`, with the memory at its address. -/
structure Framebuffer where
  pixels : ℕ → UInt8
  memoryModel : ℕ
  bpp : ℕ
  pitch : ℕ
  width : ℕ
  height : ℕ

/-- The globals before `fb_init`. -/
def initial : Console where
  pixels := fun _ ↦ 0
  pitchBytes := 0
  height := 0
  textTop := 0
  cols := 0
  rows := 0
  cursorX := 0
  cursorY := 0
  fg := COLOR_FG
  bg := COLOR_BG
  curColor := 0
  palette := ⟨fun _ ↦ 0, fun _ ↦ 0, 0⟩
  text := fun _ _ ↦ ⟨0, 0⟩
  ansi := .normal
  csiBuf := fun _ ↦ 0
  csiLen := 0
  csiPrivate := false
  cursorVisible := true
  reverse := false
  alt := ⟨fun _ _ ↦ ⟨0, 0⟩, 0, 0, 0, 0, 0, false⟩
  history := fun _ _ ↦ ⟨0, 0⟩
  histHead := 0
  histCount := 0
  viewBack := 0

/-- The number of cells of a side, clamped to the size of the array. -/
def clampCells (side size limit : ℕ) : ℤ := if limit < side / size then limit else (side / size : ℕ)

/-- What `fb_init` stores of a framebuffer; the sizes are cut to 32 bits. -/
def adopt (s : Console) (fb : Framebuffer) : Console :=
  { s with
    pixels := fb.pixels
    pitchBytes := fb.pitch
    height := fb.height % 2 ^ 32
    cols := clampCells (fb.width % 2 ^ 32) FONT_WIDTH FB_MAX_COLS
    rows := clampCells (fb.height % 2 ^ 32) FONT_HEIGHT FB_MAX_ROWS }

/-- `fb_init`; the first argument `none` is the null pointer. -/
def fbInit (fb : Option Framebuffer) (s : Console) : Option (ℤ × Console) :=
  match fb with
  | none => some (-1, s)
  | some fb =>
    if fb.memoryModel ≠ LIMINE_FRAMEBUFFER_RGB ∨ fb.bpp ≠ 32 then some (-1, s)
    else do
      let s := adopt s fb
      let (color, palette) ← paletteLookup { s.palette with count := 0 } COLOR_FG COLOR_BG
      let s ← fbClear { s with curColor := color, palette := palette }
      return (0, s)

/-- The calls that reach the console. -/
inductive Op
  | putchar (c : UInt8)
  | setColor (fg bg : BitVec 32)
  | clear
  | pageUp
  | pageDown

/-- One call; the fuel is for the tab, whose loop calls `fb_putchar` again. -/
def step (fuel : ℕ) (s : Console) : Op → Option Console
  | .putchar c => fbPutchar font fuel s c
  | .setColor fg bg => fbSetColor s fg bg
  | .clear => fbClear s
  | .pageUp => fbScrollPage font s 1
  | .pageDown => fbScrollPage font s (-1)

/-- A sequence of calls. -/
def run (fuel : ℕ) (s : Console) (ops : List Op) : Option Console :=
  ops.foldlM (step font fuel) s

end ToastyUnix.Fb
