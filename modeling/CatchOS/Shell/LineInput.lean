import CatchOS.Drivers.Keyboard
import CatchOS.Drivers.TextScreen

/-!
# Line input

`shell_cin` (`shell.c`) waits for a line: `shell_handle_keypress`, which the keyboard
interrupt calls, edits `_cin` at `_cin_pos` until a newline comes. The text is shown on the
screen at `_cur`. `_cin` is given by its bytes from its start on.

The handler tests for a full buffer before it looks for a backspace. Up to the first time
that 256 bytes are held it edits the line as it should (`referenceLine`), and from then
on it ignores all keys but the newline. The line that is copied out is the right one
exactly when the bytes that were held then are what the line ends as (`editsLine_iff`);
without a backspace at a full line they are (`fullLineKept_of_no_backspace`).
-/

set_option autoImplicit false

namespace CatchOS.Shell

open CatchOS.Drivers CatchOS.Utils

/-! ## The functions -/

/-- `CIN_BUFSZ`. -/
def cinBufsz : ℕ := 256

def newline : Byte := ascii '\n'

/-- The statics of `shell.c`; `_cur` is the position of the text. The indices at which
`_cin` is accessed are noted for the specification. -/
structure ShellState where
  text : TextState
  receivingUserInput : Bool
  cin : Memory
  cinPos : ℕ
  cinAccesses : List ℕ

/-- `shell_handle_keypress`, with the colors that characters are drawn and cleared in.
`syscall_fb_mov_cursr` does nothing. -/
def shellHandleKeypress (mode : ScreenMode) (brush black : ℕ) (shell : ShellState) (ascii : Byte) :
    ShellState :=
  if shell.receivingUserInput then
    if ascii = 0 then shell
    else if ascii = newline then { shell with receivingUserInput := false }
    else if cinBufsz ≤ shell.cinPos then shell
    else if ascii = keyBackspace then
      if shell.cinPos = 0 then shell
      else
        { shell with
          cin := Function.update shell.cin shell.cinPos 0
          cinPos := shell.cinPos - 1
          cinAccesses := shell.cinAccesses ++ [shell.cinPos]
          text := (svgaClrCell mode (shell.text.goBack 1) black).goBack 1 }
    else
      { shell with
        cin := Function.update shell.cin shell.cinPos ascii
        cinPos := shell.cinPos + 1
        cinAccesses := shell.cinAccesses ++ [shell.cinPos]
        text := svgaDrawCharCell mode shell.text ascii brush }
  else shell

/-- `shell_cin` up to its loop. -/
def shellCinStart (shell : ShellState) : ShellState :=
  { shell with cinPos := 0, receivingUserInput := true }

/-- `shell_cin` behind its loop: the bytes it copies out; `none` when it panics. -/
def shellCinFinish (shell : ShellState) : Option (List Byte × ShellState) :=
  if shell.cinPos ≤ cinBufsz then
    some (readBytes shell.cin 0 shell.cinPos,
      { shell with
        cin := memset shell.cin 0 0 cinBufsz
        cinPos := 0
        cinAccesses := shell.cinAccesses ++ List.range shell.cinPos ++ List.range cinBufsz })
  else none

/-- A call of `shell_cin` and the keys that come while it waits. -/
def shellCin (mode : ScreenMode) (brush black : ℕ) (shell : ShellState) (keys : List Byte) :
    Option (List Byte × ShellState) :=
  shellCinFinish (keys.foldl (shellHandleKeypress mode brush black) (shellCinStart shell))

/-! ## The line -/

/-- A line of at most 256 bytes after a key. -/
def editLine (line : List Byte) (key : Byte) : List Byte :=
  if key = 0 then line
  else if key = keyBackspace then line.dropLast
  else if line.length < cinBufsz then line ++ [key]
  else line

/-- The line that the keys make. -/
def referenceLine (keys : List Byte) : List Byte := keys.foldl editLine []

/-- The line when it first holds 256 bytes, while keys edit it. -/
def firstFull (line : List Byte) : List Byte → Option (List Byte)
  | [] => if cinBufsz ≤ line.length then some line else none
  | key :: keys => if cinBufsz ≤ line.length then some line else firstFull (editLine line key) keys

/-- The line never gets full, or it ends as the bytes that first filled it. -/
def FullLineKept (keys : List Byte) : Prop :=
  ∀ full ∈ firstFull [] keys, referenceLine keys = full

instance (keys : List Byte) : Decidable (FullLineKept keys) :=
  inferInstanceAs (Decidable (∀ full ∈ firstFull [] keys, referenceLine keys = full))

/-- `shell_cin` with the given keys before the newline copies the line out, stays in
`_cin`, and leaves it empty for the next line. -/
def EditsLine (mode : ScreenMode) (brush black : ℕ) (shell : ShellState) (keys : List Byte) :
    Prop :=
  ∃ after, shellCin mode brush black { shell with cinAccesses := [] } (keys ++ [newline]) =
      some (referenceLine keys, after) ∧
    (∀ index ∈ after.cinAccesses, index < cinBufsz) ∧
    after.cinPos = 0 ∧ ∀ i < cinBufsz, after.cin i = 0

/-! ## One key -/

/-- What the handler makes of the line. -/
def typeLine (line : List Byte) (key : Byte) : List Byte :=
  if cinBufsz ≤ line.length then line else editLine line key

/-- `_cin` holds the line that is being typed. -/
structure Types (shell : ShellState) (held : List Byte) : Prop where
  receiving : shell.receivingUserInput = true
  pos : shell.cinPos = held.length
  length : held.length ≤ cinBufsz
  cin : ∀ i (bound : i < held.length), shell.cin i = held[i]
  accesses : ∀ index ∈ shell.cinAccesses, index < cinBufsz

variable {mode : ScreenMode} {brush black : ℕ} {shell : ShellState} {line keys : List Byte}
  {key : Byte}

/-- An access at the position is in the buffer, as are those before it. -/
theorem accesses_append {accesses : List ℕ} {index : ℕ}
    (before : ∀ index ∈ accesses, index < cinBufsz) (now : index < cinBufsz) :
    ∀ other ∈ accesses ++ [index], other < cinBufsz := by
  intro other member
  obtain old | new := List.mem_append.mp member
  · exact before other old
  · rw [List.mem_singleton.mp new]
    exact now

/-- **One key** other than a newline edits the line in `_cin`. -/
theorem types_key (types : Types shell line) (other : key ≠ newline) :
    Types (shellHandleKeypress mode brush black shell key) (typeLine line key) := by
  have pos := types.pos
  unfold shellHandleKeypress typeLine editLine
  rw [if_pos types.receiving, if_neg other, pos]
  by_cases zero : key = 0
  · rw [if_pos zero, if_pos zero, ite_self]
    exact types
  rw [if_neg zero, if_neg zero]
  by_cases full : cinBufsz ≤ line.length
  · rw [if_pos full, if_pos full]
    exact types
  have room : line.length < cinBufsz := Nat.not_le.mp full
  rw [if_neg full, if_neg full, if_pos room]
  have accesses := accesses_append types.accesses room
  by_cases back : key = keyBackspace
  · rw [if_pos back, if_pos back]
    by_cases empty : line.length = 0
    · rw [if_pos empty, List.length_eq_zero_iff.mp empty]
      rw [List.length_eq_zero_iff.mp empty] at types
      exact types
    · rw [if_neg empty]
      refine ⟨types.receiving, List.length_dropLast.symm, ?_, ?_, accesses⟩
      · rw [List.length_dropLast]
        exact (Nat.sub_le _ _).trans room.le
      -- The byte behind the end is cleared, and the removed one stays until it is replaced.
      · intro i bound
        rw [List.length_dropLast] at bound
        rw [List.getElem_dropLast, ← types.cin i (by omega)]
        exact Function.update_of_ne (by omega) _ _
  · rw [if_neg back, if_neg back]
    refine ⟨types.receiving, ?_, ?_, ?_, accesses⟩
    · rw [List.length_append, List.length_singleton]
    · rw [List.length_append, List.length_singleton]
      exact room
    · intro i bound
      rw [List.length_append, List.length_singleton] at bound
      by_cases last : i = line.length
      · subst last
        rw [List.getElem_concat_length rfl]
        exact Function.update_self _ _ _
      · rw [List.getElem_append_left (by omega), ← types.cin i (by omega)]
        exact Function.update_of_ne last _ _

/-! ## Whole lines -/

/-- The keys up to the newline edit the line one by one. -/
theorem types_keys (types : Types shell line) (noNewline : newline ∉ keys) :
    Types (keys.foldl (shellHandleKeypress mode brush black) shell) (keys.foldl typeLine line) := by
  induction keys generalizing shell line with
  | nil => exact types
  | cons key keys ih =>
      rw [List.mem_cons, not_or] at noNewline
      exact ih (types_key types (Ne.symm noNewline.1)) noNewline.2

/-- A line that is full stays as it is. -/
theorem typeLine_of_full (full : cinBufsz ≤ line.length) : keys.foldl typeLine line = line := by
  induction keys with
  | nil => rfl
  | cons key keys ih => rw [List.foldl_cons, typeLine, if_pos full, ih]

/-- The handler makes the reference line, or stops at the bytes that first fill it. -/
theorem typed_eq (line keys : List Byte) :
    keys.foldl typeLine line = (firstFull line keys).getD (keys.foldl editLine line) := by
  induction keys generalizing line with
  | nil =>
      unfold firstFull
      split <;> rfl
  | cons key keys ih =>
      rw [firstFull]
      by_cases full : cinBufsz ≤ line.length
      · rw [if_pos full, typeLine_of_full full, Option.getD_some]
      · rw [if_neg full, List.foldl_cons, List.foldl_cons, typeLine, if_neg full, ih]

theorem typed_eq_iff (keys : List Byte) :
    keys.foldl typeLine [] = referenceLine keys ↔ FullLineKept keys := by
  rw [typed_eq, FullLineKept]
  cases firstFull [] keys with
  | none => exact iff_of_true rfl (by simp)
  | some full =>
      rw [Option.getD_some]
      exact ⟨fun same kept member => Option.mem_some.mp member ▸ same.symm,
        fun kept => (kept full rfl).symm⟩

/-- A call of `shell_cin` copies the typed line out and cleans up. -/
theorem shellCin_eq (mode : ScreenMode) (brush black : ℕ) (shell : ShellState)
    (noNewline : newline ∉ keys) :
    ∃ after, shellCin mode brush black { shell with cinAccesses := [] } (keys ++ [newline]) =
        some (keys.foldl typeLine [], after) ∧
      (∀ index ∈ after.cinAccesses, index < cinBufsz) ∧
      after.cinPos = 0 ∧ ∀ i < cinBufsz, after.cin i = 0 := by
  have start : Types (shellCinStart { shell with cinAccesses := [] }) [] :=
    ⟨rfl, rfl, Nat.zero_le _, fun i bound => absurd bound (Nat.not_lt_zero i),
      fun index member => by cases member⟩
  have typed := @types_keys mode brush black _ _ _ start noNewline
  rw [shellCin, List.foldl_append, List.foldl_cons, List.foldl_nil]
  generalize keys.foldl typeLine [] = line at typed ⊢
  generalize keys.foldl (shellHandleKeypress mode brush black)
    (shellCinStart { shell with cinAccesses := [] }) = typing at typed ⊢
  have ended : shellHandleKeypress mode brush black typing newline =
      { typing with receivingUserInput := false } := by
    rw [shellHandleKeypress, if_pos typed.receiving, if_neg (by decide), if_pos rfl]
  have copied : readBytes typing.cin 0 typing.cinPos = line := by
    rw [readBytes, typed.pos]
    refine List.ext_getElem (by rw [List.length_map, List.length_range]) fun i _ bound => ?_
    have small := typed.length
    unfold cinBufsz at small
    rw [List.getElem_map, List.getElem_range, offset_eq (by omega), Nat.zero_add]
    exact typed.cin i bound
  rw [ended, shellCinFinish, if_pos (typed.pos.trans_le typed.length)]
  refine ⟨_, by rw [copied], ?_, rfl, fun i bound => ?_⟩
  · intro index member
    dsimp only at member
    rw [List.mem_append, List.mem_append, List.mem_range, List.mem_range] at member
    obtain (edited | copied) | cleared := member
    · exact typed.accesses index edited
    · exact copied.trans_le (typed.pos.trans_le typed.length)
    · exact cleared
  · have inside := @memset_inside typing.cin 0 cinBufsz i 0 bound
    unfold cinBufsz at bound
    rwa [offset_eq (by omega), Nat.zero_add] at inside

/-- **Line editing.** `shell_cin` copies out the line that the keys make exactly when the
line never gets full, or ends as the bytes that first filled it. -/
theorem editsLine_iff (mode : ScreenMode) (brush black : ℕ) (shell : ShellState)
    (noNewline : newline ∉ keys) :
    EditsLine mode brush black shell keys ↔ FullLineKept keys := by
  obtain ⟨after, returns, clean⟩ := shellCin_eq mode brush black shell noNewline
  rw [← typed_eq_iff, EditsLine, returns]
  constructor
  · rintro ⟨other, same, _⟩
    rw [Option.some.injEq, Prod.mk.injEq] at same
    exact same.1
  · intro same
    exact ⟨after, by rw [same], clean⟩

/-- The statics before the first line. -/
def shellAtStart : ShellState := ⟨⟨0, [], false⟩, false, fun _ => 0, 0, []⟩

/-- A backspace removes a byte that was typed. -/
theorem editsLine_abc : EditsLine vga.toScreenMode 0 0 shellAtStart
    [ascii 'a', ascii 'b', keyBackspace, ascii 'c'] :=
  (editsLine_iff vga.toScreenMode 0 0 shellAtStart (by decide)).mpr (by decide)

/-- A backspace after 256 bytes is ignored. -/
theorem full_line_ignores_backspace : ¬ ∀ (mode : ScreenMode) (brush black : ℕ)
    (shell : ShellState) (keys : List Byte), newline ∉ keys →
      EditsLine mode brush black shell keys := by
  intro all
  have noNewline : newline ∉ List.replicate 256 (ascii 'a') ++ [keyBackspace] := by
    decide +kernel
  obtain ⟨other, copies, _⟩ := all vga.toScreenMode 0 0 shellAtStart _ noNewline
  obtain ⟨after, returns, _⟩ := shellCin_eq vga.toScreenMode 0 0 shellAtStart noNewline
  rw [returns, Option.some.injEq, Prod.mk.injEq] at copies
  exact absurd (congrArg List.length copies.1) (by decide +kernel)

/-! ## Lines that do not fill the buffer -/

/-- A full line keeps its bytes while no backspace comes. -/
theorem editLine_of_full (full : cinBufsz ≤ line.length) (noBackspace : keyBackspace ∉ keys) :
    keys.foldl editLine line = line := by
  induction keys with
  | nil => rfl
  | cons key keys ih =>
      rw [List.mem_cons, not_or] at noBackspace
      have same : editLine line key = line := by
        rw [editLine, if_neg (Ne.symm noBackspace.1), if_neg (Nat.not_lt.mpr full), ite_self]
      rw [List.foldl_cons, same, ih noBackspace.2]

/-- The keys behind the first ones that fill the line. -/
theorem firstFull_split (line : List Byte) {keys full : List Byte}
    (fills : full ∈ firstFull line keys) :
    ∃ before after, keys = before ++ after ∧ before.foldl editLine line = full ∧
      cinBufsz ≤ full.length := by
  induction keys generalizing line with
  | nil =>
      rw [firstFull] at fills
      split at fills
      · rename_i long
        obtain rfl := Option.mem_some.mp fills
        exact ⟨[], [], rfl, rfl, long⟩
      · cases fills
  | cons key keys ih =>
      rw [firstFull] at fills
      split at fills
      · rename_i long
        obtain rfl := Option.mem_some.mp fills
        exact ⟨[], key :: keys, rfl, rfl, long⟩
      · obtain ⟨before, after, rfl, filled, long⟩ := ih _ fills
        exact ⟨key :: before, after, rfl, filled, long⟩

/-- When no backspace comes after the line has been full, the line is kept. -/
theorem fullLineKept_of_no_backspace
    (noBackspace : ∀ before after, keys = before ++ after →
      cinBufsz ≤ (referenceLine before).length → keyBackspace ∉ after) :
    FullLineKept keys := by
  intro full fills
  obtain ⟨before, after, rfl, filled, long⟩ := firstFull_split [] fills
  have none := noBackspace before after rfl (by rw [referenceLine, filled]; exact long)
  rw [referenceLine, List.foldl_append, filled, editLine_of_full long none]

end CatchOS.Shell
