import ToastyUnix.Drivers.ConsolePixels
import ToastyUnix.Drivers.ConsoleSequences

/-!
# The order of the scrollback

Every line that the cursor leaves is pushed into a ring of 2048 lines. `fb_redraw_history` counts
the rows of the screen back from the latest line, across the end of the ring.
-/

namespace ToastyUnix.Fb

open Checked List

/-- The cells of a line, by column. -/
abbrev Line := ℤ → Option Cell

/-- The lines pushed since the last `fb_clear`, the latest first. -/
inductive Pushed : List Line → Console → Prop
  | clear {s s' : Console} : Grid s → fbClear s = some s' → Pushed [] s'
  | push {lines : List Line} {s t s' : Console} : Pushed lines s → SameHistory s t → Grid t →
      historyPush t = some s' → Pushed (cellAt t.text t.cursorY :: lines) s'

/-- The ring has the latest 2048 lines, each at its distance from the head. -/
structure Records (lines : List Line) (s : Console) : Prop where
  count : s.histCount = min lines.length 2048
  line : ∀ {k : ℕ} {line}, k < 2048 → lines[k]? = some line → ∀ col < s.cols,
    cellAt s.history ((s.histHead - 1 - k) % 2048) col = line col

variable {lines : List Line} {s t s' : Console} (font : Font)

theorem Records.congr (h : Records lines s) (hsame : SameHistory s t) : Records lines t := by
  obtain ⟨hhistory, hhead, hcount, hcols⟩ := hsame
  refine ⟨hcount.trans h.count, ?_⟩
  rw [hhistory, hhead, hcols]
  exact h.line

/-- The new line takes the place of the oldest one at most. -/
theorem Records.push (h : Records lines t) (ht : Grid t) (hpush : historyPush t = some s') :
    Records (cellAt t.text t.cursorY :: lines) s' := by
  have hhead := ht.histHead
  have hcount := h.count
  have hlines : (FB_HISTORY_ROWS : ℤ) = 2048 := rfl
  obtain ⟨history, hcopy, hpush⟩ := Option.bind_eq_some_iff.mp hpush
  obtain rfl := Option.some.inj hpush
  have hnext : (t.histHead + 1).tmod FB_HISTORY_ROWS = (t.histHead + 1) % 2048 :=
    Int.tmod_eq_emod_of_nonneg (by omega)
  refine ⟨?_, ?_⟩
  · dsimp only
    rw [length_cons]
    split_ifs <;> omega
  · intro k line hk hline col hcol
    dsimp only at hcol ⊢
    rw [hnext, cellAt_copyRow hcopy]
    cases k with
    | zero =>
      obtain rfl := Option.some.inj hline
      rw [if_pos ⟨by omega, hcol⟩]
    | succ k =>
      have hslot : ((t.histHead + 1) % 2048 - 1 - (k + 1 : ℕ)) % 2048 =
          (t.histHead - 1 - k) % 2048 := by
        omega
      rw [hslot, if_neg (by omega), h.line (by omega) hline col hcol]

theorem Pushed.records (h : Pushed lines s) : Records lines s := by
  induction h with
  | clear hgrid hclear =>
    obtain ⟨-, text, rfl⟩ := (fbClear_grid hgrid.toStore).of_eq_some hclear
    exact ⟨rfl, by simp⟩
  | push _ hsame hgrid hpush ih => exact (ih.congr hsame).push hgrid hpush

/-- The cell in column `col` of the line pushed `k` pushes ago, or a blank one. -/
def agoCell (lines : List Line) (k col : ℤ) : Cell :=
  ((lines[(k - 1).toNat]?).bind (· col)).getD ⟨32, 0⟩

/-- The rows of the screen show the lines in the order in which they were pushed. -/
theorem history_shows_pushed_lines (h : Pushed lines s) (hsame : SameHistory s t) (ht : Grid t) :
    Records lines t ∧ fbRedrawHistory font t =
      some (paintScreen font t fun i ↦ agoCell lines (t.viewBack + t.rows - i.1) i.2) := by
  have hrecords := h.records.congr hsame
  refine ⟨hrecords, (fbRedrawHistory_eq font ht).trans ?_⟩
  obtain ⟨hcount, hline⟩ := hrecords
  have hback := ht.viewBack
  have hrows := ht.rows
  refine congrArg some (foldl_ext _ _ _ fun s' i hi ↦ congrArg (fbPaintCell font s' _ _ · _) ?_)
  obtain ⟨hrow, hcol⟩ := mem_places.1 hi
  dsimp only [historyCell, agoCell]
  split_ifs with hblank
  · rw [getElem?_eq_none (by omega)]
    rfl
  · have hlt : (t.viewBack + t.rows - i.1 - 1).toNat < lines.length := by omega
    rw [getElem?_eq_getElem hlt, Option.bind_some,
      ← hline (by omega) (getElem?_eq_getElem hlt) i.2 hcol.2]
    congr 2
    omega

/-- Two lines of letters. -/
theorem history_shows_pushed_lines_letters : ∃ lines t,
    lines.map (· 0) = [some ⟨66, 0⟩, some ⟨65, 0⟩] ∧ Records lines t ∧
      fbRedrawHistory blankFont t =
        some (paintScreen blankFont t fun i ↦ agoCell lines (t.viewBack + t.rows - i.1) i.2) := by
  have hpush {lines : List Line} {s : Console} (hpushed : Pushed lines s) (h : Grid s) (c : UInt8) :
      ∃ line s', line 0 = some ⟨c, 0⟩ ∧ Pushed (line :: lines) s' ∧ Grid s' := by
    have hletters : Grid { s with text := fun _ _ ↦ ⟨c, 0⟩ } :=
      { h with text := fun _ _ ↦ h.count.1 }
    have hy := h.cursorY
    have hrows := h.rows
    obtain ⟨s', hpush, hstore, history, head, count, -, rfl⟩ :=
      historyPush_store hletters.toStore h.cursorY
    have hcell := @cellAt_of_mem FB_MAX_ROWS s.cursorY 0 (fun _ _ ↦ ⟨c, 0⟩)
      ⟨hy.1, by change s.cursorY < 256; omega⟩ (by decide)
    exact ⟨_, _, hcell, hpushed.push (t := { s with text := fun _ _ ↦ ⟨c, 0⟩ })
      ⟨rfl, rfl, rfl, rfl⟩ hletters hpush,
      { hstore with cursorX := h.cursorX, cursorY := h.cursorY }⟩
  obtain ⟨s₀, -, h₀⟩ := printed_grid []
  obtain ⟨s, hclear, h, -⟩ := fbClear_grid h₀.toStore
  obtain ⟨line, s', hline, hpushed, h'⟩ := hpush (.clear h₀ hclear) h 65
  obtain ⟨line', t, hline', hpushed', ht⟩ := hpush hpushed h' 66
  exact ⟨[line', line], t, congrArg₂ (fun a b ↦ [a, b]) hline' hline,
    history_shows_pushed_lines blankFont hpushed' ⟨rfl, rfl, rfl, rfl⟩ ht⟩

end ToastyUnix.Fb
