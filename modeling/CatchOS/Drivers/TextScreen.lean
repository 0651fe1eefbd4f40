import CatchOS.Drivers.Svga
import Mathlib.Algebra.Order.Floor.Div
import Mathlib.Tactic.Ring

/-!
# Text on the screen

`svga_draw_char_cell`, `svga_write_str` and `svga_clr_cell` (`svga.c`) write characters
at a position that counts the character cells of the screen row by row, and scroll the
screen when the position is behind the last cell. The calls of `svga_scroll_down` and
`svga_draw_char` are kept in the order in which they are made.

A single cell stays on the screen wherever the position is (`svgaDrawCharCell_onScreen`).
`svga_write_str` scrolls before it writes, by a number of lines that `ceiling` rounds to the
nearest one, and draws one cell more than it has made room for. It does what it should
exactly when there is room for the string, or when the overflow ends in the second half
of a line and the position is far enough from the start of the screen
(`writesOnScreen_iff`).
-/

set_option autoImplicit false

namespace CatchOS.Drivers

/-! ## The functions -/

/-- A call of `svga_scroll_down`, or of `svga_draw_char` at the character cell of a
column and a row. -/
inductive TextCall where
  | scrollDown (lines : ℕ)
  | drawChar (column row : ℕ) (c : Byte) (color : ℕ)

/-- The position, and the calls that were made. That a subtraction from the position has
wrapped is noted for the specification. -/
structure TextState where
  scrpos : ℕ
  calls : List TextCall
  wrapped : Bool

/-- The lines of the calls of `svga_scroll_down`. -/
def scrolls (calls : List TextCall) : List ℕ := calls.filterMap fun call =>
  match call with
  | .scrollDown lines => some lines
  | .drawChar .. => none

namespace TextState

variable (text : TextState)

/-- A call is made. -/
def call (call : TextCall) : TextState := { text with calls := text.calls ++ [call] }

/-- `*scrpos -= chars`. -/
def goBack (chars : ℕ) : TextState :=
  { text with
    scrpos := (text.scrpos + (2 ^ 32 - chars)) % 2 ^ 32
    wrapped := text.wrapped || decide (text.scrpos < chars) }

end TextState

/-- `SCR_ROWS * SCR_COLUMNS`. -/
def ScreenMode.screenCells (mode : ScreenMode) : ℕ := mode.scrRows * mode.scrColumns % 2 ^ 32

/-- `svga_draw_char_cell`. Without columns it divides by zero. -/
def svgaDrawCharCell (mode : ScreenMode) (text : TextState) (c : Byte) (color : ℕ) : TextState :=
  let text :=
    if mode.screenCells < offset text.scrpos 1 then
      (text.call (.scrollDown 1)).goBack mode.scrColumns
    else text
  let y := text.scrpos / mode.scrColumns
  let x := text.scrpos % mode.scrColumns
  { text.call (.drawChar x y c color) with scrpos := offset text.scrpos 1 }

/-- `svga_clr_cell`; the color is that of `black`. -/
def svgaClrCell (mode : ScreenMode) (text : TextState) (black : ℕ) : TextState :=
  svgaDrawCharCell mode text 255 black

/-- `ceiling` of `maths.c`. -/
def ceiling (dividend divisor : ℕ) : ℕ := offset dividend (divisor / 2) / divisor

/-- The loop of `svga_write_str`. -/
def drawCells (mode : ScreenMode) (text : TextState) (str : ℕ → Byte) (color : ℕ) :
    ℕ → TextState
  | 0 => text
  | len + 1 => svgaDrawCharCell mode (drawCells mode text str color len) (str len) color

def svgaWriteStr (mode : ScreenMode) (text : TextState) (str : ℕ → Byte) (len color : ℕ) :
    TextState :=
  if mode.screenCells < offset text.scrpos len then
    let len := if mode.screenCells < len then mode.screenCells else len
    let overflow := (offset text.scrpos len + (2 ^ 32 - mode.screenCells)) % 2 ^ 32
    let linesToScroll := ceiling overflow mode.scrColumns
    let charsToScroll := linesToScroll * mode.scrColumns % 2 ^ 32
    let text := (text.call (.scrollDown linesToScroll)).goBack charsToScroll
    let text := svgaDrawCharCell mode text (BitVec.ofNat 8 120) color
    drawCells mode text str color len
  else
    drawCells mode text str color len

/-! ## Screens -/

/-- A screen with at least one row and one column. Its pixels have different addresses
in the memory of the machine. -/
structure TextScreen extends ScreenMode where
  rowsPos : 0 < toScreenMode.scrRows
  columnsPos : 0 < toScreenMode.scrColumns
  inMemory : width * height ≤ 2 ^ 32

namespace TextScreen

variable (screen : TextScreen)

abbrev rows : ℕ := screen.scrRows

abbrev columns : ℕ := screen.scrColumns

/-- The number of character cells. -/
def cells : ℕ := screen.rows * screen.columns

theorem width_le : fontW * screen.columns ≤ screen.width :=
  Nat.mul_div_le _ _

theorem height_le : (fontH + 2) * screen.rows ≤ screen.height :=
  Nat.mul_div_le _ _

/-- Every cell takes 88 pixels. -/
theorem cells_bound : 88 * screen.cells ≤ 2 ^ 32 := by
  calc 88 * screen.cells
      = fontW * screen.columns * ((fontH + 2) * screen.rows) := by
        unfold cells fontW fontH
        ring
    _ ≤ screen.width * screen.height := Nat.mul_le_mul screen.width_le screen.height_le
    _ ≤ 2 ^ 32 := screen.inMemory

theorem screenCells_eq : screen.screenCells = screen.cells := by
  have bound := screen.cells_bound
  exact Nat.mod_eq_of_lt (show screen.cells < 2 ^ 32 by omega)

theorem columns_pos : 0 < screen.columns := screen.columnsPos

theorem columns_le : screen.columns ≤ screen.cells :=
  Nat.le_mul_of_pos_left _ screen.rowsPos

end TextScreen

/-- The pixels that a call draws, apart from scrolling. -/
def TextCall.pixels (mode : ScreenMode) : TextCall → List (ℕ × ℕ)
  | scrollDown _ => []
  | drawChar column row c _ =>
      DrawCall.charPixels mode (fontW * column % 2 ^ 32) ((fontH + 2) * row % 2 ^ 32) c

/-- The cell is on the screen. -/
def TextCall.Within (screen : TextScreen) : TextCall → Prop
  | scrollDown _ => True
  | drawChar column row _ _ => row < screen.rows ∧ column < screen.columns

variable {screen : TextScreen} {text : TextState}

/-! ## One cell -/

/-- What is true of the text in between: the position is not behind the last cell, no
subtraction has wrapped, and all cells drawn are on the screen. -/
structure OnScreen (screen : TextScreen) (text : TextState) : Prop where
  atMost : text.scrpos ≤ screen.cells
  notWrapped : text.wrapped = false
  within : ∀ call ∈ text.calls, call.Within screen

theorem within_cell (screen : TextScreen) {scrpos : ℕ} (inside : scrpos < screen.cells) (c : Byte)
    (color : ℕ) : (TextCall.drawChar (scrpos % screen.columns) (scrpos / screen.columns) c
      color).Within screen :=
  ⟨Nat.div_lt_of_lt_mul (by rwa [Nat.mul_comm]), Nat.mod_lt _ screen.columns_pos⟩

/-- The pixels of a cell on the screen are pixels of the screen. -/
theorem TextCall.Within.pixels {call : TextCall} (within : call.Within screen) :
    ∀ place ∈ call.pixels screen.toScreenMode, screen.OnScreen place := by
  cases call with
  | scrollDown lines =>
      intro place member
      cases member
  | drawChar column row c color =>
      obtain ⟨inRows, inColumns⟩ := within
      have wide := screen.width_le
      have high := screen.height_le
      have inMemory := screen.inMemory
      have positive := screen.columns_pos
      unfold fontW at wide
      unfold fontH at high
      have widthWord : screen.width < 2 ^ 32 := by
        have eleven : screen.width * 11 ≤ screen.width * screen.height :=
          Nat.mul_le_mul_left _ (by omega)
        omega
      have heightWord : screen.height < 2 ^ 32 := by
        have eight : 8 * screen.height ≤ screen.width * screen.height :=
          Nat.mul_le_mul_right _ (by omega)
        omega
      rintro place member
      simp only [TextCall.pixels, DrawCall.charPixels, List.mem_flatMap, List.mem_map,
        List.mem_filter, List.mem_range, fontW, fontH] at member
      obtain ⟨yy, yBound, xx, ⟨xBound, _⟩, rfl⟩ := member
      refine ⟨?_, ?_⟩
      · simp only [offset]
        omega
      · simp only [offset]
        omega

/-- Without a wrap, going back is a subtraction. -/
theorem goBack_eq {chars : ℕ} (word : text.scrpos < 2 ^ 32) (enough : chars ≤ text.scrpos) :
    text.goBack chars = { text with scrpos := text.scrpos - chars } := by
  have back : (text.scrpos + (2 ^ 32 - chars)) % 2 ^ 32 = text.scrpos - chars := by omega
  rw [TextState.goBack, back, decide_eq_false (by omega), Bool.or_false]

/-- In front of the end of the screen a cell is drawn at the position. -/
theorem svgaDrawCharCell_inside (inside : text.scrpos < screen.cells) (c : Byte) (color : ℕ) :
    svgaDrawCharCell screen.toScreenMode text c color =
      { text.call (.drawChar (text.scrpos % screen.columns) (text.scrpos / screen.columns) c
          color) with scrpos := text.scrpos + 1 } := by
  have bound := screen.cells_bound
  have next : offset text.scrpos 1 = text.scrpos + 1 := offset_eq (by omega)
  rw [svgaDrawCharCell, screen.screenCells_eq, next, if_neg (by omega)]
  dsimp only
  rw [next]

/-- At the end of the screen the lines are scrolled, and the last one is written on. -/
theorem svgaDrawCharCell_end (atEnd : text.scrpos = screen.cells) (c : Byte) (color : ℕ) :
    svgaDrawCharCell screen.toScreenMode text c color =
      { (text.call (.scrollDown 1)).call (.drawChar ((screen.cells - screen.columns) %
          screen.columns) ((screen.cells - screen.columns) / screen.columns) c color) with
        scrpos := screen.cells - screen.columns + 1 } := by
  have bound := screen.cells_bound
  have positive := screen.columns_pos
  have few := screen.columns_le
  have next : offset text.scrpos 1 = screen.cells + 1 := by
    rw [atEnd]
    exact offset_eq (by omega)
  have back : (text.call (.scrollDown 1)).goBack screen.columns =
      { text.call (.scrollDown 1) with scrpos := screen.cells - screen.columns } := by
    rw [goBack_eq (by rw [TextState.call, atEnd]; omega) (by rw [TextState.call, atEnd]; exact few)]
    rw [TextState.call, atEnd]
  rw [svgaDrawCharCell, screen.screenCells_eq, next, if_pos (by omega)]
  dsimp only
  rw [back]
  dsimp only
  rw [offset_eq (by omega)]
  rfl

/-- **One cell.** Wherever the position is, a cell is drawn on the screen, and no
subtraction wraps. -/
theorem svgaDrawCharCell_onScreen (on : OnScreen screen text) (c : Byte) (color : ℕ) :
    OnScreen screen (svgaDrawCharCell screen.toScreenMode text c color) := by
  have positive := screen.columns_pos
  have few := screen.columns_le
  by_cases inside : text.scrpos < screen.cells
  · rw [svgaDrawCharCell_inside inside]
    refine ⟨inside, on.notWrapped, fun call member => ?_⟩
    obtain old | new := List.mem_append.mp member
    · exact on.within call old
    · rw [List.mem_singleton.mp new]
      exact within_cell screen inside c color
  · have atEnd : text.scrpos = screen.cells := Nat.le_antisymm on.atMost (Nat.not_lt.mp inside)
    rw [svgaDrawCharCell_end atEnd]
    refine ⟨?_, on.notWrapped, fun call member => ?_⟩
    · dsimp only
      omega
    · obtain old | new := List.mem_append.mp member
      · obtain older | scroll := List.mem_append.mp old
        · exact on.within call older
        · rw [List.mem_singleton.mp scroll]
          trivial
      · rw [List.mem_singleton.mp new]
        exact within_cell screen (by omega) c color

/-! ## Many cells -/

/-- The cells drawn from one state to another: how often the screen was scrolled by one
line is what the position tells. -/
structure Written (screen : TextScreen) (text later : TextState) (count times : ℕ) : Prop where
  position : later.scrpos + times * screen.columns = text.scrpos + count
  atMost : later.scrpos ≤ screen.cells
  last : times = 0 ∨ screen.cells < later.scrpos + screen.columns
  wrapped : later.wrapped = text.wrapped
  calls : scrolls later.calls = scrolls text.calls ++ List.replicate times 1

theorem scrolls_append (calls more : List TextCall) :
    scrolls (calls ++ more) = scrolls calls ++ scrolls more :=
  List.filterMap_append

theorem written_cell (atMost : text.scrpos ≤ screen.cells) (c : Byte) (color : ℕ) :
    ∃ times, Written screen text (svgaDrawCharCell screen.toScreenMode text c color) 1 times := by
  have positive := screen.columns_pos
  have few := screen.columns_le
  by_cases inside : text.scrpos < screen.cells
  · refine ⟨0, ?_⟩
    rw [svgaDrawCharCell_inside inside]
    refine ⟨?_, inside, .inl rfl, rfl, ?_⟩
    · rw [Nat.zero_mul, Nat.add_zero]
    · exact scrolls_append _ _
  · have atEnd : text.scrpos = screen.cells := Nat.le_antisymm atMost (Nat.not_lt.mp inside)
    refine ⟨1, ?_⟩
    rw [svgaDrawCharCell_end atEnd]
    refine ⟨?_, ?_, .inr ?_, rfl, ?_⟩
    · dsimp only
      omega
    · dsimp only
      omega
    · dsimp only
      omega
    · dsimp only [TextState.call]
      rw [scrolls_append, scrolls_append]
      exact List.append_nil _

/-- One stretch of cells after another. -/
theorem Written.trans {first second third : TextState} {m n i j : ℕ}
    (early : Written screen first second m i) (late : Written screen second third n j) :
    Written screen first third (m + n) (i + j) := by
  refine ⟨?_, late.atMost, ?_, late.wrapped.trans early.wrapped, ?_⟩
  · have before := early.position
    have after := late.position
    rw [Nat.add_mul]
    omega
  · obtain none | scrolled := late.last
    · subst none
      obtain none | scrolled := early.last
      · exact .inl none
      · have after := late.position
        right
        omega
    · exact .inr scrolled
  · rw [late.calls, early.calls, List.append_assoc, List.replicate_append_replicate]

theorem written_drawCells (atMost : text.scrpos ≤ screen.cells) (str : ℕ → Byte)
    (color len : ℕ) :
    ∃ times, Written screen text (drawCells screen.toScreenMode text str color len) len times := by
  induction len with
  | zero => exact ⟨0, by rw [drawCells]; omega, atMost, .inl rfl, rfl, (List.append_nil _).symm⟩
  | succ len ih =>
      obtain ⟨before, early⟩ := ih
      obtain ⟨now, late⟩ := written_cell early.atMost (str len) color
      exact ⟨before + now, early.trans late⟩

theorem onScreen_drawCells (on : OnScreen screen text) (str : ℕ → Byte) (color len : ℕ) :
    OnScreen screen (drawCells screen.toScreenMode text str color len) := by
  induction len with
  | zero => exact on
  | succ len ih => exact svgaDrawCharCell_onScreen ih (str len) color

/-- A wrap stays noted. -/
theorem svgaDrawCharCell_wrapped (mode : ScreenMode) (wrapped : text.wrapped = true) (c : Byte)
    (color : ℕ) : (svgaDrawCharCell mode text c color).wrapped = true := by
  unfold svgaDrawCharCell
  by_cases full : mode.screenCells < offset text.scrpos 1
  · rw [if_pos full]
    exact Bool.or_eq_true_iff.mpr (.inl wrapped)
  · rw [if_neg full]
    exact wrapped

theorem drawCells_wrapped (mode : ScreenMode) (wrapped : text.wrapped = true) (str : ℕ → Byte)
    (color len : ℕ) : (drawCells mode text str color len).wrapped = true := by
  induction len with
  | zero => exact wrapped
  | succ len ih => exact svgaDrawCharCell_wrapped mode ih (str len) color

/-! ## Rounding -/

theorem div_add_half {divisor : ℕ} (positive : 0 < divisor) (dividend : ℕ) :
    (dividend + divisor / 2) / divisor =
      dividend / divisor + if divisor ≤ dividend % divisor + divisor / 2 then 1 else 0 := by
  have rest := Nat.mod_lt dividend positive
  have split := Nat.div_add_mod dividend divisor
  have shifted : dividend + divisor / 2 =
      (dividend % divisor + divisor / 2) + divisor * (dividend / divisor) := by omega
  rw [shifted, Nat.add_mul_div_left _ _ positive, Nat.add_comm]
  congr 1
  by_cases up : divisor ≤ dividend % divisor + divisor / 2
  · rw [if_pos up]
    exact Nat.div_eq_of_lt_le (by omega) (by omega)
  · rw [if_neg up]
    exact Nat.div_eq_of_lt (Nat.not_le.mp up)

theorem ceilDiv_eq {divisor : ℕ} (positive : 0 < divisor) (dividend : ℕ) :
    dividend ⌈/⌉ divisor =
      dividend / divisor + if dividend % divisor = 0 then 0 else 1 := by
  have rest := Nat.mod_lt dividend positive
  have split := Nat.div_add_mod dividend divisor
  have shifted : dividend + divisor - 1 =
      (dividend % divisor + divisor - 1) + divisor * (dividend / divisor) := by omega
  rw [Nat.ceilDiv_eq_add_pred_div, shifted, Nat.add_mul_div_left _ _ positive, Nat.add_comm]
  congr 1
  by_cases whole : dividend % divisor = 0
  · rw [if_pos whole]
    exact Nat.div_eq_of_lt (by omega)
  · rw [if_neg whole]
    exact Nat.div_eq_of_lt_le (by omega) (by omega)

/-! ## Strings -/

/-- What `svga_write_str` should do from a position: the position does not wrap and is not
behind the last cell afterwards, the screen is scrolled once, by the least number of lines
that makes room, if at all, and all cells are drawn on it. Of a string that is longer than
the screen only the part that fits is written. -/
structure WritesOnScreen (screen : TextScreen) (str : ℕ → Byte) (color scrpos len : ℕ) : Prop where
  onScreen : OnScreen screen
    (svgaWriteStr screen.toScreenMode ⟨scrpos, [], false⟩ str len color)
  scrolled : scrolls (svgaWriteStr screen.toScreenMode ⟨scrpos, [], false⟩ str len color).calls =
    if scrpos + len ≤ screen.cells then []
    else [(scrpos + min len screen.cells - screen.cells) ⌈/⌉ screen.columns]

/-- There is room for the string; or the overflow ends in the second half of a line, and the
position can go back by one line more than it covers. -/
def RoomFits (screen : TextScreen) (scrpos len : ℕ) : Prop :=
  scrpos + len ≤ screen.cells ∨
    (let rest := (scrpos + len - screen.cells) % screen.columns
     rest ≠ 0 ∧ screen.columns ≤ rest + screen.columns / 2 ∧
      len + screen.columns ≤ screen.cells + rest)

/-- Nothing is scrolled while there is room. -/
theorem Written.times_zero {later : TextState} {count times : ℕ}
    (written : Written screen text later count times) (room : text.scrpos + count ≤ screen.cells) :
    times = 0 := by
  obtain none | scrolled := written.last
  · exact none
  · have position := written.position
    by_contra some
    have line := Nat.le_mul_of_pos_left screen.columns (Nat.pos_of_ne_zero some)
    omega

/-- With room for the string no line is scrolled. -/
theorem writesOnScreen_of_room {str : ℕ → Byte} {color scrpos len : ℕ}
    (room : scrpos + len ≤ screen.cells) : WritesOnScreen screen str color scrpos len := by
  have bound := screen.cells_bound
  have direct : svgaWriteStr screen.toScreenMode ⟨scrpos, [], false⟩ str len color =
      drawCells screen.toScreenMode ⟨scrpos, [], false⟩ str color len := by
    have fits : ¬ screen.cells < offset scrpos len := by
      rw [offset_eq (by omega)]
      omega
    rw [svgaWriteStr, screen.screenCells_eq, if_neg fits]
  have start : OnScreen screen ⟨scrpos, [], false⟩ :=
    ⟨Nat.le_of_add_right_le room, rfl, fun call member => by cases member⟩
  obtain ⟨times, written⟩ := written_drawCells start.atMost str color len
  refine ⟨direct ▸ onScreen_drawCells start str color len, ?_⟩
  rw [direct, written.calls, written.times_zero room, if_pos room]
  rfl

/-- The lines that are scrolled for an overflow. -/
def roundedLines (screen : TextScreen) (overflow : ℕ) : ℕ :=
  overflow / screen.columns +
    if screen.columns ≤ overflow % screen.columns + screen.columns / 2 then 1 else 0

theorem roundedLines_mul (screen : TextScreen) (overflow : ℕ) :
    roundedLines screen overflow * screen.columns + overflow % screen.columns =
      overflow + if screen.columns ≤ overflow % screen.columns + screen.columns / 2 then
        screen.columns else 0 := by
  have split := Nat.div_add_mod' overflow screen.columns
  rw [roundedLines, Nat.add_mul, ite_mul, Nat.one_mul, Nat.zero_mul]
  omega

theorem svgaWriteStr_over {str : ℕ → Byte} {color scrpos len : ℕ}
    (atMost : scrpos ≤ screen.cells) (overflows : screen.cells < offset scrpos len)
    (word : len < 2 ^ 32) :
    svgaWriteStr screen.toScreenMode ⟨scrpos, [], false⟩ str len color =
      let lines := roundedLines screen (scrpos + min len screen.cells - screen.cells)
      drawCells screen.toScreenMode
        (svgaDrawCharCell screen.toScreenMode
          ((TextState.call ⟨scrpos, [], false⟩ (.scrollDown lines)).goBack
            (lines * screen.columns)) (BitVec.ofNat 8 120) color)
        str color (min len screen.cells) := by
  have bound := screen.cells_bound
  have few := screen.columns_le
  have clipped : (if screen.cells < len then screen.cells else len) = min len screen.cells := by
    rw [Nat.min_def]
    split <;> split <;> omega
  have enough : screen.cells ≤ scrpos + min len screen.cells := by
    unfold offset at overflows
    omega
  have overflow : (offset scrpos (min len screen.cells) + (2 ^ 32 - screen.cells)) % 2 ^ 32 =
      scrpos + min len screen.cells - screen.cells := by
    rw [offset_eq (by omega)]
    omega
  have lines : ceiling (scrpos + min len screen.cells - screen.cells) screen.columns =
      roundedLines screen (scrpos + min len screen.cells - screen.cells) := by
    rw [ceiling, offset_eq (by omega)]
    exact div_add_half screen.columns_pos _
  have back : roundedLines screen (scrpos + min len screen.cells - screen.cells) *
      screen.columns < 2 ^ 32 := by
    have split := roundedLines_mul screen
      (scrpos + min len screen.cells - screen.cells)
    split at split <;> omega
  rw [svgaWriteStr, screen.screenCells_eq, if_pos overflows]
  simp only [clipped, overflow, lines, Nat.mod_eq_of_lt back]

/-- When the position has room for the lines, the string and the cell in front of it are
written, and the screen is scrolled again when they are too many. -/
theorem svgaWriteStr_enough (str : ℕ → Byte) (color : ℕ) {scrpos len : ℕ}
    (atMost : scrpos ≤ screen.cells) (overflows : screen.cells < offset scrpos len)
    (word : len < 2 ^ 32)
    (enough : roundedLines screen (scrpos + min len screen.cells - screen.cells) *
      screen.columns ≤ scrpos) :
    let lines := roundedLines screen (scrpos + min len screen.cells - screen.cells)
    let after := svgaWriteStr screen.toScreenMode ⟨scrpos, [], false⟩ str len color
    OnScreen screen after ∧ ∃ times,
      after.scrpos + (lines + times) * screen.columns = scrpos + (1 + min len screen.cells) ∧
      (times = 0 ∨ screen.cells < after.scrpos + screen.columns) ∧
      scrolls after.calls = lines :: List.replicate times 1 := by
  intro lines after
  have bound := screen.cells_bound
  have back : (TextState.call ⟨scrpos, [], false⟩ (.scrollDown lines)).goBack
      (lines * screen.columns) = ⟨scrpos - lines * screen.columns, [.scrollDown lines], false⟩ := by
    rw [goBack_eq (by dsimp only [TextState.call]; omega) enough]
    rfl
  have start : OnScreen screen
      ⟨scrpos - lines * screen.columns, [.scrollDown lines], false⟩ := by
    refine ⟨(Nat.sub_le _ _).trans atMost, rfl, fun call member => ?_⟩
    rw [List.mem_singleton.mp member]
    trivial
  have after_eq : after = drawCells screen.toScreenMode
      (svgaDrawCharCell screen.toScreenMode
        ⟨scrpos - lines * screen.columns, [.scrollDown lines], false⟩ (BitVec.ofNat 8 120) color)
      str color (min len screen.cells) := by
    rw [← back]
    exact svgaWriteStr_over atMost overflows word
  obtain ⟨extra, first⟩ := written_cell start.atMost (BitVec.ofNat 8 120) color
  obtain ⟨rest, others⟩ := written_drawCells first.atMost str color (min len screen.cells)
  have written := first.trans others
  rw [← after_eq] at written
  refine ⟨?_, extra + rest, ?_, written.last, ?_⟩
  · rw [after_eq]
    exact onScreen_drawCells (svgaDrawCharCell_onScreen start _ _) str color _
  · have position := written.position
    have fits : lines * screen.columns ≤ scrpos := enough
    rw [Nat.add_mul]
    dsimp only at position
    omega
  · exact written.calls

/-- When it has not, the position wraps. -/
theorem svgaWriteStr_wraps (str : ℕ → Byte) (color : ℕ) {scrpos len : ℕ}
    (atMost : scrpos ≤ screen.cells) (overflows : screen.cells < offset scrpos len)
    (word : len < 2 ^ 32)
    (short : scrpos < roundedLines screen (scrpos + min len screen.cells - screen.cells) *
      screen.columns) :
    (svgaWriteStr screen.toScreenMode ⟨scrpos, [], false⟩ str len color).wrapped = true := by
  rw [svgaWriteStr_over atMost overflows word]
  refine drawCells_wrapped _ (svgaDrawCharCell_wrapped _ ?_ _ _) _ _ _
  exact decide_eq_true short

/-- A string whose end wraps in 32 bits is written without making room. -/
theorem not_writesOnScreen_of_carry {str : ℕ → Byte} {color scrpos len : ℕ}
    (atMost : scrpos ≤ screen.cells) (carry : 2 ^ 32 ≤ scrpos + len)
    (missed : offset scrpos len ≤ screen.cells) :
    ¬ WritesOnScreen screen str color scrpos len := by
  intro writes
  have bound := screen.cells_bound
  have few := screen.columns_le
  have scrolled := writes.scrolled
  have direct : svgaWriteStr screen.toScreenMode ⟨scrpos, [], false⟩ str len color =
      drawCells screen.toScreenMode ⟨scrpos, [], false⟩ str color len := by
    rw [svgaWriteStr, screen.screenCells_eq, if_neg (Nat.not_lt.mpr missed)]
  obtain ⟨times, written⟩ := @written_drawCells screen ⟨scrpos, [], false⟩ atMost str color len
  rw [direct, written.calls, if_neg (by omega)] at scrolled
  have once : times = 1 := by
    simpa [scrolls] using congrArg List.length scrolled
  have position := written.position
  have last := written.atMost
  rw [once] at position
  dsimp only at position
  omega

/-- Without room for the string, the overflow decides. -/
theorem roomFits_iff {scrpos len : ℕ} (room : ¬ scrpos + len ≤ screen.cells) :
    RoomFits screen scrpos len ↔
      (scrpos + len - screen.cells) % screen.columns ≠ 0 ∧
      screen.columns ≤ (scrpos + len - screen.cells) % screen.columns + screen.columns / 2 ∧
      len + screen.columns ≤ screen.cells + (scrpos + len - screen.cells) % screen.columns :=
  or_iff_right room

/-- When the position has room for the lines, the cell in front of the string needs room
too. -/
theorem writesOnScreen_iff_of_enough (str : ℕ → Byte) (color : ℕ) {scrpos len : ℕ}
    (atMost : scrpos ≤ screen.cells) (room : ¬ scrpos + len ≤ screen.cells)
    (overflows : screen.cells < offset scrpos len) (word : len < 2 ^ 32)
    (enough : roundedLines screen (scrpos + min len screen.cells - screen.cells) *
      screen.columns ≤ scrpos) :
    WritesOnScreen screen str color scrpos len ↔ RoomFits screen scrpos len := by
  have few := screen.columns_le
  have positive := screen.columns_pos
  have rest := Nat.mod_lt (scrpos + len - screen.cells) positive
  have lines := roundedLines_mul screen (scrpos + min len screen.cells - screen.cells)
  obtain ⟨on, times, position, last, calls⟩ :=
    svgaWriteStr_enough str color atMost overflows word enough
  have final := on.atMost
  have ceil := ceilDiv_eq positive (scrpos + min len screen.cells - screen.cells)
  rw [roomFits_iff room]
  constructor
  · intro writes
    have scrolled := writes.scrolled
    rw [calls, if_neg room, List.cons.injEq, List.replicate_eq_nil_iff] at scrolled
    obtain ⟨exactly, rfl⟩ := scrolled
    rw [Nat.add_zero] at position
    have short : len ≤ screen.cells := by
      by_contra long
      rw [min_eq_right (by omega)] at position lines enough
      omega
    rw [min_eq_left short] at position lines enough exactly ceil
    by_cases up : screen.columns ≤ (scrpos + len - screen.cells) % screen.columns +
        screen.columns / 2
    · rw [if_pos up] at lines
      refine ⟨fun whole => ?_, up, by omega⟩
      rw [roundedLines, if_pos up, ceil, if_pos whole] at exactly
      omega
    · rw [if_neg up] at lines
      omega
  · rintro ⟨part, up, back⟩
    have short : len ≤ screen.cells := by omega
    rw [min_eq_left short] at position lines enough calls ceil
    rw [if_pos up] at lines
    rw [if_neg part] at ceil
    have none : times = 0 := by
      obtain none | again := last
      · exact none
      · by_contra some
        have line := Nat.le_mul_of_pos_left screen.columns (Nat.pos_of_ne_zero some)
        rw [Nat.add_mul] at position
        omega
    refine ⟨on, ?_⟩
    rw [calls, none, if_neg room, min_eq_left short, ceil, roundedLines, if_pos up]
    rfl

/-- A position that wraps is too near the start of the screen. -/
theorem not_roomFits_of_short {scrpos len : ℕ} (room : ¬ scrpos + len ≤ screen.cells)
    (short : scrpos < roundedLines screen (scrpos + min len screen.cells - screen.cells) *
      screen.columns) :
    ¬ RoomFits screen scrpos len := by
  rw [roomFits_iff room]
  rintro ⟨_, up, back⟩
  have rest := Nat.mod_lt (scrpos + len - screen.cells) screen.columns_pos
  have lines := roundedLines_mul screen (scrpos + min len screen.cells - screen.cells)
  rw [min_eq_left (by omega)] at lines short
  rw [if_pos up] at lines
  omega

/-- **Strings.** `svga_write_str` keeps a string on the screen, and scrolls by what it
needs, exactly when there is room for it or the rounding makes the room. -/
theorem writesOnScreen_iff (screen : TextScreen) (str : ℕ → Byte) (color : ℕ) {scrpos len : ℕ}
    (atMost : scrpos ≤ screen.cells) (word : len < 2 ^ 32) :
    WritesOnScreen screen str color scrpos len ↔ RoomFits screen scrpos len := by
  by_cases room : scrpos + len ≤ screen.cells
  · exact iff_of_true (writesOnScreen_of_room room) (.inl room)
  by_cases overflows : screen.cells < offset scrpos len
  · obtain enough | short := le_or_gt (roundedLines screen
      (scrpos + min len screen.cells - screen.cells) * screen.columns) scrpos
    · exact writesOnScreen_iff_of_enough str color atMost room overflows word enough
    · refine iff_of_false (fun writes => ?_) (not_roomFits_of_short room short)
      have wraps := svgaWriteStr_wraps str color atMost overflows word short
      rw [writes.onScreen.notWrapped] at wraps
      cases wraps
  -- The end of the string wraps, so it is longer than the screen.
  · have bound := screen.cells_bound
    have carry : 2 ^ 32 ≤ scrpos + len := by
      unfold offset at overflows
      omega
    refine iff_of_false (not_writesOnScreen_of_carry atMost carry (Nat.not_lt.mp overflows)) ?_
    rw [roomFits_iff room]
    rintro ⟨_, _, back⟩
    have rest := Nat.mod_lt (scrpos + len - screen.cells) screen.columns_pos
    omega

/-- 640 times 480 pixels: 80 columns and 43 rows. -/
def vga : TextScreen where
  bpp := 32
  pitch := 2560
  width := 640
  height := 480
  font _ := 0
  rowsPos := by decide
  columnsPos := by decide
  inMemory := by decide

/-- At the end of the screen, a string of one line is moved up by two: the extra cell scrolls
again. -/
theorem vga_line_scrolls_twice : ¬ ∀ (screen : TextScreen) (str : ℕ → Byte) (color scrpos len : ℕ),
    scrpos ≤ screen.cells → len < 2 ^ 32 → WritesOnScreen screen str color scrpos len := by
  intro all
  have scrolled := (all vga (fun _ => 65) 0 3440 80 (by decide) (by decide)).scrolled
  exact absurd scrolled (by decide +kernel)

/-- At the end of the screen, a string of 60 characters is moved up by one line. -/
theorem vga_string_fits : WritesOnScreen vga (fun _ => 65) 0 3440 60 :=
  (writesOnScreen_iff vga (fun _ => 65) 0 (by decide) (by decide)).mpr (.inr (by decide))

end CatchOS.Drivers
