import CatchOS.Shell.LineInput

/-!
# The cursor of the shell

`_cur` counts character cells. `shell_cout` moves it by characters and to the starts of
lines, a typed character moves it on and a backspace back, and scrolling takes it back by
a line. It is one unsigned number, so a backspace at 0 would wrap.

While a line is read, the cursor is at least as far from the start of the screen as the
line has bytes: both are moved together, and when the screen scrolls the cursor is left
on the last line, which is more than 256 cells from the start when the screen has at
least 256 cells and one line (`Behind`). So the cursor never wraps, and everything is
drawn on the screen (`shell_onScreen`).

`shell_cout` and the clearing of the screen run while no line is read. Keys that come
then change nothing, so they need not be put between the characters of a string.
-/

set_option autoImplicit false

namespace CatchOS.Shell

open CatchOS.Lib CatchOS.Drivers

/-! ## The functions -/

/-- One turn of the loop of `shell_cout`. -/
def shellCoutByte (mode : ScreenMode) (brush : ℕ) (text : TextState) (byte : Byte) : TextState :=
  if byte = newline then
    let text := { text with
      scrpos := offset text.scrpos (mode.scrColumns - text.scrpos % mode.scrColumns) }
    if mode.screenCells ≤ text.scrpos then
      (text.call (.scrollDown 1)).goBack mode.scrColumns
    else text
  else svgaDrawCharCell mode text byte brush

/-- `shell_cout`; a string ends with its first zero byte. -/
def shellCout (mode : ScreenMode) (brush : ℕ) (text : TextState) : List Byte → TextState
  | [] => text
  | byte :: str =>
      if byte = 0 then text else shellCout mode brush (shellCoutByte mode brush text byte) str

/-- The command `clear`. -/
def shellClear (text : TextState) : TextState := { text with scrpos := 0 }

/-- The statics, and whether the shell waits in `shell_cin`. -/
structure ShellRun where
  shell : ShellState
  inCin : Bool

inductive ShellAction where
  | cout (str : List Byte)
  | clear
  | cin
  | key (ascii : Byte)
  | cinReturns

/-- The shell calls one function at a time; a key may come at any time. -/
def shellSystem (mode : ScreenMode) (brush black : ℕ) : System ShellRun ShellAction where
  initial run := run.shell.text = ⟨0, [], false⟩ ∧ run.shell.receivingUserInput = false ∧
    run.shell.cinPos = 0 ∧ run.inCin = false
  step run
    | .cout str =>
        if run.inCin then none
        else some { run with
          shell := { run.shell with text := shellCout mode brush run.shell.text str } }
    | .clear =>
        if run.inCin then none
        else some { run with shell := { run.shell with text := shellClear run.shell.text } }
    | .cin => if run.inCin then none else some ⟨shellCinStart run.shell, true⟩
    | .key ascii =>
        some { run with shell := shellHandleKeypress mode brush black run.shell ascii }
    | .cinReturns =>
        if run.inCin ∧ run.shell.receivingUserInput = false then
          (shellCinFinish run.shell).map fun result => ⟨result.2, false⟩
        else none

variable {screen : TextScreen} {brush black : ℕ} {text : TextState} {shell : ShellState}

/-! ## Strings -/

/-- The start of the next line is not behind the end of the screen. -/
theorem next_line (screen : TextScreen) {scrpos : ℕ} (inside : scrpos < screen.cells) :
    scrpos + (screen.columns - scrpos % screen.columns) ≤ screen.cells := by
  have column := Nat.mod_lt scrpos screen.columns_pos
  have split := Nat.div_add_mod' scrpos screen.columns
  have row : (scrpos / screen.columns + 1) * screen.columns ≤ screen.cells :=
    Nat.mul_le_mul_right _ (Nat.div_lt_of_lt_mul (by rwa [Nat.mul_comm]))
  rw [Nat.succ_mul] at row
  omega

theorem onScreen_shellCoutByte (on : OnScreen screen text) (brush : ℕ) (byte : Byte) :
    OnScreen screen (shellCoutByte screen.toScreenMode brush text byte) := by
  unfold shellCoutByte
  by_cases line : byte = newline
  swap
  · rw [if_neg line]
    exact svgaDrawCharCell_onScreen on byte brush
  have bound := screen.cells_bound
  have few := screen.columns_le
  have column := Nat.mod_lt text.scrpos screen.columns_pos
  have next : offset text.scrpos (screen.columns - text.scrpos % screen.columns) =
      text.scrpos + (screen.columns - text.scrpos % screen.columns) :=
    offset_eq (by have atMost := on.atMost; omega)
  rw [if_pos line, screen.screenCells_eq, next]
  dsimp only
  by_cases scrolls : screen.cells ≤ text.scrpos + (screen.columns - text.scrpos % screen.columns)
  · have atMost := on.atMost
    have inRow := Nat.mod_le text.scrpos screen.columns
    have word : text.scrpos + (screen.columns - text.scrpos % screen.columns) < 2 ^ 32 := by omega
    have enough : screen.columns ≤
        text.scrpos + (screen.columns - text.scrpos % screen.columns) := by omega
    rw [if_pos scrolls, goBack_eq word enough]
    refine ⟨?_, on.notWrapped, fun call member => ?_⟩
    · change text.scrpos + (screen.columns - text.scrpos % screen.columns) - screen.columns ≤
        screen.cells
      by_cases inside : text.scrpos < screen.cells
      · have start := next_line screen inside
        omega
      · omega
    · obtain old | new := List.mem_append.mp member
      · exact on.within call old
      · rw [List.mem_singleton.mp new]
        trivial
  · rw [if_neg scrolls]
    exact ⟨(Nat.not_le.mp scrolls).le, on.notWrapped, on.within⟩

theorem onScreen_shellCout (on : OnScreen screen text) (brush : ℕ) (str : List Byte) :
    OnScreen screen (shellCout screen.toScreenMode brush text str) := by
  induction str generalizing text with
  | nil => exact on
  | cons byte str ih =>
      rw [shellCout]
      by_cases ends : byte = 0
      · rw [if_pos ends]
        exact on
      · rw [if_neg ends]
        exact ih (onScreen_shellCoutByte on brush byte)

/-! ## Keys -/

/-- While a line is read, the cursor is not closer to the start of the screen than the line
is long. -/
structure Behind (screen : TextScreen) (shell : ShellState) : Prop where
  onScreen : OnScreen screen shell.text
  short : shell.cinPos ≤ cinBufsz
  behind : shell.receivingUserInput = true → shell.cinPos ≤ shell.text.scrpos

/-- A typed character moves the cursor on by one cell, or leaves it behind the first cell
of the last line. -/
theorem scrpos_svgaDrawCharCell (atMost : text.scrpos ≤ screen.cells) (c : Byte) (color : ℕ) :
    (svgaDrawCharCell screen.toScreenMode text c color).scrpos = text.scrpos + 1 ∨
      (svgaDrawCharCell screen.toScreenMode text c color).scrpos =
        screen.cells - screen.columns + 1 := by
  by_cases inside : text.scrpos < screen.cells
  · rw [svgaDrawCharCell_inside inside]
    exact .inl rfl
  · rw [svgaDrawCharCell_end (Nat.le_antisymm atMost (Nat.not_lt.mp inside))]
    exact .inr rfl

/-- A backspace clears the cell in front of the cursor and leaves the cursor on it. -/
theorem backspace_cell (on : OnScreen screen text) (some : 1 ≤ text.scrpos) (black : ℕ) :
    OnScreen screen ((svgaClrCell screen.toScreenMode (text.goBack 1) black).goBack 1) ∧
      ((svgaClrCell screen.toScreenMode (text.goBack 1) black).goBack 1).scrpos =
        text.scrpos - 1 := by
  have bound := screen.cells_bound
  have atMost := on.atMost
  have inside : text.scrpos - 1 < screen.cells := by omega
  have cleared : svgaClrCell screen.toScreenMode (text.goBack 1) black =
      { text.call (.drawChar ((text.scrpos - 1) % screen.columns)
          ((text.scrpos - 1) / screen.columns) 255 black) with
        scrpos := text.scrpos - 1 + 1 } := by
    rw [goBack_eq (by omega) some, svgaClrCell]
    exact svgaDrawCharCell_inside inside 255 black
  rw [cleared, goBack_eq (by dsimp only; omega) (Nat.le_add_left 1 _)]
  refine ⟨⟨inside.le, on.notWrapped, fun call member => ?_⟩, rfl⟩
  obtain old | new := List.mem_append.mp member
  · exact on.within call old
  · rw [List.mem_singleton.mp new]
    exact within_cell screen inside 255 black

/-- **One key** keeps the cursor behind the line. -/
theorem Behind.key (behind : Behind screen shell) (room : cinBufsz + screen.columns ≤ screen.cells)
    (brush black : ℕ) (ascii : Byte) :
    Behind screen (shellHandleKeypress screen.toScreenMode brush black shell ascii) := by
  unfold shellHandleKeypress
  by_cases receiving : shell.receivingUserInput
  swap
  · rw [if_neg receiving]
    exact behind
  have after := behind.behind receiving
  rw [if_pos receiving]
  by_cases zero : ascii = 0
  · rw [if_pos zero]
    exact behind
  rw [if_neg zero]
  by_cases line : ascii = newline
  · rw [if_pos line]
    exact ⟨behind.onScreen, behind.short, fun never => by cases never⟩
  rw [if_neg line]
  by_cases full : cinBufsz ≤ shell.cinPos
  · rw [if_pos full]
    exact behind
  rw [if_neg full]
  by_cases back : ascii = keyBackspace
  · rw [if_pos back]
    by_cases empty : shell.cinPos = 0
    · rw [if_pos empty]
      exact behind
    · rw [if_neg empty]
      obtain ⟨on, moved⟩ := backspace_cell behind.onScreen (by omega) black
      refine ⟨on, (Nat.sub_le _ _).trans behind.short, fun _ => ?_⟩
      dsimp only
      rw [moved]
      omega
  · rw [if_neg back]
    refine ⟨svgaDrawCharCell_onScreen behind.onScreen ascii brush, Nat.not_le.mp full, fun _ => ?_⟩
    dsimp only
    obtain next | scrolled := scrpos_svgaDrawCharCell behind.onScreen.atMost ascii brush
    · rw [next]
      omega
    · rw [scrolled]
      omega

/-! ## Every run -/

/-- The cursor is behind the line, and keys are taken only in `shell_cin`. -/
structure RunBehind (screen : TextScreen) (run : ShellRun) : Prop where
  shell : Behind screen run.shell
  idle : run.inCin = false → run.shell.receivingUserInput = false

variable {run next : ShellRun} {action : ShellAction}

/-- A key does not begin to read a line. -/
theorem receiving_of_key (mode : ScreenMode) (brush black : ℕ) (ascii : Byte)
    (idle : shell.receivingUserInput = false) :
    shellHandleKeypress mode brush black shell ascii = shell := by
  rw [shellHandleKeypress, idle]
  rfl

theorem RunBehind.step (behind : RunBehind screen run)
    (room : cinBufsz + screen.columns ≤ screen.cells)
    (stepped : (shellSystem screen.toScreenMode brush black).step run action = some next) :
    RunBehind screen next := by
  obtain ⟨shell, inCin⟩ := run
  obtain ⟨inShell, idle⟩ := behind
  cases action with
  | cout str =>
      cases inCin with
      | true => cases stepped
      | false =>
          obtain rfl := Option.some.inj stepped
          refine ⟨⟨onScreen_shellCout inShell.onScreen brush str, inShell.short,
            fun receiving => ?_⟩, idle⟩
          dsimp only at receiving
          rw [idle rfl] at receiving
          cases receiving
  | clear =>
      cases inCin with
      | true => cases stepped
      | false =>
          obtain rfl := Option.some.inj stepped
          refine ⟨⟨⟨Nat.zero_le _, inShell.onScreen.notWrapped, inShell.onScreen.within⟩,
            inShell.short, fun receiving => ?_⟩, idle⟩
          dsimp only at receiving
          rw [idle rfl] at receiving
          cases receiving
  | cin =>
      cases inCin with
      | true => cases stepped
      | false =>
          obtain rfl := Option.some.inj stepped
          exact ⟨⟨inShell.onScreen, Nat.zero_le _, fun _ => Nat.zero_le _⟩, fun never => by
            cases never⟩
  | key ascii =>
      obtain rfl := Option.some.inj stepped
      refine ⟨inShell.key room brush black ascii, fun notIn => ?_⟩
      have none := idle notIn
      dsimp only
      rw [receiving_of_key _ _ _ _ none]
      exact none
  | cinReturns =>
      simp only [shellSystem] at stepped
      by_cases returns : inCin = true ∧ shell.receivingUserInput = false
      · rw [if_pos returns, shellCinFinish, if_pos inShell.short] at stepped
        obtain rfl := Option.some.inj stepped
        exact ⟨⟨inShell.onScreen, Nat.zero_le _, fun _ => Nat.zero_le _⟩, fun _ => returns.2⟩
      · rw [if_neg returns] at stepped
        cases stepped

theorem runBehind (room : cinBufsz + screen.columns ≤ screen.cells)
    (reachable : (shellSystem screen.toScreenMode brush black).Reachable run) :
    RunBehind screen run := by
  refine reachable.invariant (RunBehind screen) ?_ fun behind _ stepped => behind.step room stepped
  rintro ⟨⟨text, receiving, cin, cinPos, accesses⟩, inCin⟩ ⟨start, idle, empty, _⟩
  dsimp only at start idle empty
  subst start idle empty
  exact ⟨⟨⟨Nat.zero_le _, rfl, fun call member => by cases member⟩, Nat.zero_le _,
    fun _ => Nat.zero_le _⟩, fun _ => rfl⟩

/-- **The cursor of the shell.** In every run it is never moved below 0 nor left behind the
end of the screen, and every cell is drawn on the screen with all its pixels. -/
theorem shell_onScreen (screen : TextScreen) (brush black : ℕ) (run : ShellRun)
    (room : cinBufsz + screen.columns ≤ screen.cells)
    (reachable : (shellSystem screen.toScreenMode brush black).Reachable run) :
    run.shell.text.wrapped = false ∧ run.shell.text.scrpos ≤ screen.cells ∧
      ∀ call ∈ run.shell.text.calls, call.Within screen ∧
        ∀ place ∈ call.pixels screen.toScreenMode, screen.OnScreen place := by
  have on := (runBehind room reachable).shell.onScreen
  exact ⟨on.notWrapped, on.atMost, fun call member =>
    ⟨on.within call member, (on.within call member).pixels⟩⟩

/-- A prompt is printed, and a character typed and removed. -/
theorem vga_prompt_onScreen : ∃ run, (shellSystem vga.toScreenMode 0 0).Reachable run ∧
    run.shell.text.scrpos = 1 ∧ run.shell.text.wrapped = false := by
  have replayed : ((shellSystem vga.toScreenMode 0 0).replay (fun _ _ => True)
      ⟨shellAtStart, false⟩
      [.cout [62], .cin, .key 97, .key keyBackspace]).any
        (fun run => decide (run.shell.text.scrpos = 1)) = true := by
    decide
  obtain ⟨run, reachable, one⟩ :=
    System.exists_reachableUnder_of_replay (shellSystem vga.toScreenMode 0 0) _
      ⟨rfl, rfl, rfl, rfl⟩ _ _ replayed
  exact ⟨run, reachable, of_decide_eq_true one,
    (shell_onScreen vga 0 0 run (by decide) reachable).1⟩

end CatchOS.Shell
