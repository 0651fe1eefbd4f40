import CatchOS.Lib.Transition
import CatchOS.Machine.Instruction
import CatchOS.Utils.Printf
import Mathlib.Data.Finset.Basic
import Mathlib.Data.List.GetD

/-!
# The keyboard

`ISR_KEYBOARD` (`keyboard.c`) reads one scan code at an interrupt, translates it by one
of two tables and calls the keyboard handler with the character. Both tables give a
shift key the same two characters, and the release of a shift key is translated to them
too; at such a character the handler toggles `is_shift_key_depressed`.

A keyboard sends the make code of a key when it is pressed and again and again while it
is held, and its break code when it is released. The toggled bit is right as long as the
make code of a shift key comes only when no shift key is held, and wrong after the first
one that comes otherwise: the repeated code of a held key, or the second shift key
(`keyboard_tracks_shift`).
-/

set_option autoImplicit false

namespace CatchOS.Drivers

open CatchOS.Lib CatchOS.Machine CatchOS.Utils

/-! ## The tables -/

/-- `KEY_LSHIFT`. -/
def keyLshift : Byte := 14

/-- `KEY_RSHIFT`. -/
def keyRshift : Byte := 15

/-- `KEY_BACKSPACE`. -/
def keyBackspace : Byte := 8

/-- The entries of a table behind the last one that is not zero are zero. -/
def scTable (entries : List Byte) (scanCode : Byte) : Byte := entries.getD scanCode.toNat 0

/-- The characters of a row of keys. -/
def keyRow (row : String) : List Byte := row.toList.map ascii

def scTableNoshift : Byte → Byte := scTable <|
  [0, 27] ++ keyRow "1234567890-=" ++ [keyBackspace, ascii '\t'] ++
  keyRow "qwertyuiop[]" ++ [ascii '\n', 17 /- LCtrl -/] ++
  keyRow "asdfghjkl;'`" ++ [keyLshift] ++
  keyRow "\\zxcvbnm,./" ++ [keyRshift, 0, 0 /- LAlt -/, ascii ' ', 26 /- CapsLock -/]

def scTableShift : Byte → Byte := scTable <|
  [0, 27] ++ keyRow "!@#$%^&*()_+" ++ [keyBackspace, ascii '\t'] ++
  keyRow "QWERTYUIOP\x7b\x7d" ++ [ascii '\n', 17 /- LCtrl -/] ++
  keyRow "ASDFGHJKL:\"~" ++ [keyLshift] ++
  keyRow "|ZXCVBNM,./" ++ [keyRshift, 0, 0 /- LAlt -/, ascii ' ', 26 /- CapsLock -/]

/-! ## The functions -/

def scanCodeToAscii (scanCode : Byte) (isShiftDepressed : Word) : Byte :=
  if scanCode &&& (1 <<< 7) ≠ 0 then
    if scanCode = 170 ∨ scanCode = 182 then scTableNoshift (scanCode ^^^ (1 <<< 7)) else 0
  else if isShiftDepressed ≠ 0 then scTableShift scanCode
  else scTableNoshift scanCode

/-- `ISR_KEYBOARD` with its static `is_shift_key_depressed`: the static afterwards, and
the character that `_kb_handler_cb` is called with, when there is a handler. -/
def isrKeyboard (kbHandlerCb : Bool) (isShiftKeyDepressed : Word) (scanCode : Byte) :
    Word × Option Byte :=
  let ascii := scanCodeToAscii scanCode isShiftKeyDepressed
  if ascii = keyLshift ∨ ascii = keyRshift then (isShiftKeyDepressed ^^^ 1, none)
  else if kbHandlerCb then (isShiftKeyDepressed, some ascii)
  else (isShiftKeyDepressed, none)

/-! ## What a keyboard sends -/

/-- The make codes of the two shift keys. -/
def IsShift (key : Byte) : Prop := key = 42 ∨ key = 54

instance (key : Byte) : Decidable (IsShift key) := inferInstanceAs (Decidable (_ ∨ _))

/-- A code with the last bit set is the break code of a key. -/
def IsBreak (scanCode : Byte) : Prop := 128 ≤ scanCode.toNat

instance (scanCode : Byte) : Decidable (IsBreak scanCode) := inferInstanceAs (Decidable (_ ≤ _))

/-- The keys that are held after a code, by their make codes. -/
def heldAfter (held : Finset Byte) (scanCode : Byte) : Finset Byte :=
  if IsBreak scanCode then held.erase (scanCode ^^^ 128) else insert scanCode held

/-- A key that is released was held; a make code may come at any time. -/
def Sendable (held : Finset Byte) (scanCode : Byte) : Prop :=
  IsBreak scanCode → scanCode ^^^ 128 ∈ held

instance (held : Finset Byte) (scanCode : Byte) : Decidable (Sendable held scanCode) :=
  inferInstanceAs (Decidable (_ → _))

/-- A shift key is held. -/
def ShiftHeld (held : Finset Byte) : Prop := 42 ∈ held ∨ 54 ∈ held

instance (held : Finset Byte) : Decidable (ShiftHeld held) := inferInstanceAs (Decidable (_ ∨ _))

/-- The static of the handler, and the keys that are held. -/
structure Keyboard where
  isShiftKeyDepressed : Word
  held : Finset Byte
  deriving DecidableEq

/-- One interrupt: the code that is read, and whether there is a handler to call. -/
structure KeyInterrupt where
  scanCode : Byte
  kbHandlerCb : Bool
  deriving DecidableEq

def keyboardSystem : System Keyboard KeyInterrupt where
  initial keyboard := keyboard = ⟨0, ∅⟩
  step keyboard interrupt :=
    if Sendable keyboard.held interrupt.scanCode then
      some {
        isShiftKeyDepressed :=
          (isrKeyboard interrupt.kbHandlerCb keyboard.isShiftKeyDepressed interrupt.scanCode).1
        held := heldAfter keyboard.held interrupt.scanCode }
    else none

/-! ## Following the shift keys -/

/-- The make code of a letter. -/
def IsLetter (scanCode : Byte) : Prop :=
  scTableNoshift scanCode ∈ keyRow "abcdefghijklmnopqrstuvwxyz"

instance (scanCode : Byte) : Decidable (IsLetter scanCode) := inferInstanceAs (Decidable (_ ∈ _))

/-- The table that matches the held keys. -/
def heldTable (held : Finset Byte) : Byte → Byte :=
  if ShiftHeld held then scTableShift else scTableNoshift

/-- The static says whether a shift key is held, and a letter that comes next is
translated by the matching table. -/
structure TracksShift (keyboard : Keyboard) : Prop where
  flag : keyboard.isShiftKeyDepressed ≠ 0 ↔ ShiftHeld keyboard.held
  letters : ∀ scanCode, IsLetter scanCode → ∀ kbHandlerCb : Bool,
    isrKeyboard kbHandlerCb keyboard.isShiftKeyDepressed scanCode =
      (keyboard.isShiftKeyDepressed,
        if kbHandlerCb then some (heldTable keyboard.held scanCode) else none)

/-- The make code of a shift key comes only when no shift key is held. -/
def OneShiftAtATime (keyboard : Keyboard) (interrupt : KeyInterrupt) : Prop :=
  IsShift interrupt.scanCode → ¬ ShiftHeld keyboard.held

instance (keyboard : Keyboard) (interrupt : KeyInterrupt) :
    Decidable (OneShiftAtATime keyboard interrupt) := inferInstanceAs (Decidable (_ → _))

/-! ## One interrupt -/

theorem isBreak_iff : ∀ scanCode : Byte, scanCode &&& (1 <<< 7) ≠ 0 ↔ IsBreak scanCode := by
  decide +kernel

/-- The tables have no characters for break codes. -/
theorem scTable_isBreak {entries : List Byte} {scanCode : Byte} (short : entries.length ≤ 128)
    (released : IsBreak scanCode) : scTable entries scanCode = 0 :=
  List.getD_eq_default _ _ (short.trans released)

/-- The make and the break codes of the shift keys. -/
def IsShiftCode (scanCode : Byte) : Prop := ∃ key, IsShift key ∧ (scanCode = key ∨
  scanCode = key ^^^ 128)

theorem isShiftCode_iff (scanCode : Byte) :
    IsShiftCode scanCode ↔ IsShift scanCode ∨ scanCode = 170 ∨ scanCode = 182 := by
  constructor
  · rintro ⟨key, shift, rfl | rfl⟩
    · exact .inl shift
    · obtain rfl | rfl := shift
      · exact .inr (.inl rfl)
      · exact .inr (.inr rfl)
  · rintro (shift | rfl | rfl)
    · exact ⟨scanCode, shift, .inl rfl⟩
    · exact ⟨42, .inl rfl, .inr rfl⟩
    · exact ⟨54, .inr rfl, .inr rfl⟩

instance (scanCode : Byte) : Decidable (IsShiftCode scanCode) :=
  decidable_of_iff _ (isShiftCode_iff scanCode).symm

/-- The codes that are translated to a shift key, whatever the static is. -/
theorem scanCodeToAscii_shift_iff (scanCode : Byte) (flag : Word) :
    scanCodeToAscii scanCode flag = keyLshift ∨ scanCodeToAscii scanCode flag = keyRshift ↔
      IsShiftCode scanCode := by
  rw [isShiftCode_iff]
  by_cases depressed : flag ≠ 0
  · simp only [scanCodeToAscii, if_pos depressed]
    revert scanCode
    decide +kernel
  · simp only [scanCodeToAscii, if_neg depressed]
    revert scanCode
    decide +kernel

/-- The handler toggles its static at the codes of the shift keys, and calls the keyboard
handler at all others. -/
theorem isrKeyboard_eq (kbHandlerCb : Bool) (flag : Word) (scanCode : Byte) :
    isrKeyboard kbHandlerCb flag scanCode =
      if IsShiftCode scanCode then (flag ^^^ 1, none)
      else (flag, if kbHandlerCb then some (scanCodeToAscii scanCode flag) else none) := by
  simp only [isrKeyboard, scanCodeToAscii_shift_iff]
  cases kbHandlerCb with
  | false => rfl
  | true => rfl

/-- A letter has neither a break code nor one of a shift key. -/
theorem letter_codes {scanCode : Byte} (letter : IsLetter scanCode) :
    ¬ IsBreak scanCode ∧ ¬ IsShiftCode scanCode := by
  have make : ¬ IsBreak scanCode := by
    intro released
    rw [IsLetter, scTableNoshift, scTable_isBreak (by decide) released] at letter
    exact absurd letter (by decide)
  refine ⟨make, ?_⟩
  rintro ⟨key, shift, rfl | rfl⟩
  · obtain rfl | rfl := shift
    · exact absurd letter (by decide)
    · exact absurd letter (by decide)
  · obtain rfl | rfl := shift
    · exact make (by decide)
    · exact make (by decide)

/-- A static that says whether a shift key is held chooses the matching table. -/
theorem tracksShift_iff (keyboard : Keyboard) :
    TracksShift keyboard ↔ (keyboard.isShiftKeyDepressed ≠ 0 ↔ ShiftHeld keyboard.held) := by
  refine ⟨TracksShift.flag, fun flag => ⟨flag, fun scanCode letter kbHandlerCb => ?_⟩⟩
  obtain ⟨make, notShift⟩ := letter_codes letter
  have translated : scanCodeToAscii scanCode keyboard.isShiftKeyDepressed =
      heldTable keyboard.held scanCode := by
    unfold scanCodeToAscii heldTable
    rw [if_neg (mt (isBreak_iff scanCode).mp make)]
    by_cases held : ShiftHeld keyboard.held
    · rw [if_pos held, if_pos (flag.mpr held)]
    · rw [if_neg held, if_neg (mt flag.mp held)]
  rw [isrKeyboard_eq, if_neg notShift, translated]

variable {keyboard next : Keyboard} {interrupt : KeyInterrupt}

theorem keyboard_step (stepped : keyboardSystem.step keyboard interrupt = some next) :
    Sendable keyboard.held interrupt.scanCode ∧
    next.held = heldAfter keyboard.held interrupt.scanCode ∧
    next.isShiftKeyDepressed =
      if IsShiftCode interrupt.scanCode then keyboard.isShiftKeyDepressed ^^^ 1
      else keyboard.isShiftKeyDepressed := by
  simp only [keyboardSystem, isrKeyboard_eq] at stepped
  by_cases sendable : Sendable keyboard.held interrupt.scanCode
  · rw [if_pos sendable, Option.some.injEq] at stepped
    subst stepped
    refine ⟨sendable, rfl, ?_⟩
    dsimp only
    rw [apply_ite Prod.fst]
  · rw [if_neg sendable] at stepped
    cases stepped

theorem shift_codes {key : Byte} (shift : IsShift key) :
    ¬ IsBreak key ∧ IsBreak (key ^^^ 128) ∧ key ^^^ 128 ^^^ 128 = key := by
  obtain rfl | rfl := shift
  · decide
  · decide

/-- A shift key is held after its make code, and no longer after its break code; other
codes leave it as it is. -/
theorem shift_mem_heldAfter {key : Byte} (shift : IsShift key) (held : Finset Byte)
    (scanCode : Byte) :
    key ∈ heldAfter held scanCode ↔ scanCode = key ∨ (key ∈ held ∧ scanCode ≠ key ^^^ 128) := by
  obtain ⟨make, released, _⟩ := shift_codes shift
  unfold heldAfter
  by_cases isBreak : IsBreak scanCode
  · have notMake : scanCode ≠ key := by
      rintro rfl
      exact make isBreak
    have flipped : key = scanCode ^^^ 128 ↔ scanCode = key ^^^ 128 := by
      constructor
      · rintro rfl
        rw [BitVec.xor_assoc, BitVec.xor_self, BitVec.xor_zero]
      · rintro rfl
        rw [BitVec.xor_assoc, BitVec.xor_self, BitVec.xor_zero]
    rw [if_pos isBreak, Finset.mem_erase, ne_eq, flipped, and_comm, or_iff_right notMake]
  · have notBreak : scanCode ≠ key ^^^ 128 := by
      rintro rfl
      exact isBreak released
    rw [if_neg isBreak, Finset.mem_insert, eq_comm, and_iff_left notBreak]

theorem shiftHeld_iff (held : Finset Byte) : ShiftHeld held ↔ ∃ key, IsShift key ∧ key ∈ held := by
  constructor
  · rintro (left | right)
    · exact ⟨42, .inl rfl, left⟩
    · exact ⟨54, .inr rfl, right⟩
  · rintro ⟨key, rfl | rfl, member⟩
    · exact .inl member
    · exact .inr member

/-! ## Every run -/

/-- The static is 1 while a shift key is held and 0 otherwise, and the two are not held
together. -/
structure OneShift (keyboard : Keyboard) : Prop where
  flag : keyboard.isShiftKeyDepressed = if ShiftHeld keyboard.held then 1 else 0
  notBoth : ¬ (42 ∈ keyboard.held ∧ 54 ∈ keyboard.held)

theorem OneShift.tracksShift (one : OneShift keyboard) : TracksShift keyboard := by
  rw [tracksShift_iff, one.flag]
  by_cases held : ShiftHeld keyboard.held
  · rw [if_pos held]
    exact iff_of_true (by decide) held
  · rw [if_neg held]
    exact iff_of_false (by decide) held

/-- The held shift key is the only one. -/
theorem OneShift.unique (one : OneShift keyboard) {key other : Byte} (shift : IsShift key)
    (otherShift : IsShift other) (held : key ∈ keyboard.held) (otherHeld : other ∈ keyboard.held) :
    key = other := by
  obtain rfl | rfl := shift <;> obtain rfl | rfl := otherShift
  · rfl
  · exact absurd ⟨held, otherHeld⟩ one.notBoth
  · exact absurd ⟨otherHeld, held⟩ one.notBoth
  · rfl

/-- A shift key is pressed while none is held. -/
theorem OneShift.pressed (one : OneShift keyboard) (shift : IsShift interrupt.scanCode)
    (none : ¬ ShiftHeld keyboard.held)
    (stepped : keyboardSystem.step keyboard interrupt = some next) : OneShift next := by
  obtain ⟨_, nextHeld, nextFlag⟩ := keyboard_step stepped
  have held : ShiftHeld next.held := by
    rw [shiftHeld_iff, nextHeld]
    exact ⟨_, shift, (shift_mem_heldAfter shift _ _).mpr (.inl rfl)⟩
  have isIt {key : Byte} (isShift : IsShift key) (now : key ∈ next.held) :
      interrupt.scanCode = key := by
    rw [nextHeld, shift_mem_heldAfter isShift] at now
    exact now.resolve_right fun was => none ((shiftHeld_iff _).mpr ⟨key, isShift, was.1⟩)
  rw [if_pos ⟨_, shift, .inl rfl⟩, one.flag, if_neg none] at nextFlag
  refine ⟨by rw [nextFlag, if_pos held]; rfl, fun both => ?_⟩
  have same := (isIt (.inl rfl) both.1).symm.trans (isIt (.inr rfl) both.2)
  exact absurd same (by decide)

/-- The shift key that is held is released. -/
theorem OneShift.released (one : OneShift keyboard) {key : Byte} (shift : IsShift key)
    (released : interrupt.scanCode = key ^^^ 128)
    (stepped : keyboardSystem.step keyboard interrupt = some next) : OneShift next := by
  obtain ⟨sendable, nextHeld, nextFlag⟩ := keyboard_step stepped
  obtain ⟨_, isBreak, back⟩ := shift_codes shift
  rw [released] at sendable
  have was : key ∈ keyboard.held := back ▸ sendable isBreak
  have none : ¬ ShiftHeld next.held := by
    rw [shiftHeld_iff, nextHeld, released]
    rintro ⟨other, otherShift, now⟩
    obtain pressed | ⟨otherWas, kept⟩ := (shift_mem_heldAfter otherShift _ _).mp now
    · exact (shift_codes otherShift).1 (pressed ▸ isBreak)
    · exact kept (congrArg (· ^^^ 128) (one.unique shift otherShift was otherWas))
  rw [if_pos ⟨key, shift, .inr released⟩, one.flag,
    if_pos ((shiftHeld_iff _).mpr ⟨key, shift, was⟩)] at nextFlag
  refine ⟨by rw [nextFlag, if_neg none]; rfl, fun both => none (.inl both.1)⟩

/-- Any other code leaves the shift keys and the static alone. -/
theorem OneShift.others (one : OneShift keyboard) (other : ¬ IsShiftCode interrupt.scanCode)
    (stepped : keyboardSystem.step keyboard interrupt = some next) : OneShift next := by
  obtain ⟨_, nextHeld, nextFlag⟩ := keyboard_step stepped
  have same {key : Byte} (shift : IsShift key) : key ∈ next.held ↔ key ∈ keyboard.held := by
    rw [nextHeld, shift_mem_heldAfter shift, or_iff_right fun make => other ⟨key, shift, .inl make⟩,
      and_iff_left fun isBreak => other ⟨key, shift, .inr isBreak⟩]
  have sameHeld : ShiftHeld next.held ↔ ShiftHeld keyboard.held :=
    or_congr (same (.inl rfl)) (same (.inr rfl))
  refine ⟨?_, by rw [same (.inl rfl), same (.inr rfl)]; exact one.notBoth⟩
  rw [nextFlag, one.flag, if_neg other]
  simp only [sameHeld]

/-- **One interrupt** keeps the static right when a shift key is pressed alone only. -/
theorem OneShift.step (one : OneShift keyboard) (alone : OneShiftAtATime keyboard interrupt)
    (stepped : keyboardSystem.step keyboard interrupt = some next) : OneShift next := by
  by_cases isShift : IsShiftCode interrupt.scanCode
  · obtain ⟨key, shift, pressed | released⟩ := isShift
    · rw [← pressed] at shift
      exact one.pressed shift (alone shift) stepped
    · exact one.released shift released stepped
  · exact one.others isShift stepped

theorem oneShift (reachable : keyboardSystem.ReachableUnder OneShiftAtATime keyboard) :
    OneShift keyboard := by
  refine reachable.invariant OneShift ?_ OneShift.step
  rintro keyboard rfl
  exact ⟨by decide, by decide⟩

/-- A make code of a shift key while one is held leaves the static off. -/
theorem OneShift.lost (one : OneShift keyboard) (again : ¬ OneShiftAtATime keyboard interrupt)
    (stepped : keyboardSystem.step keyboard interrupt = some next) : ¬ TracksShift next := by
  obtain ⟨_, nextHeld, nextFlag⟩ := keyboard_step stepped
  obtain ⟨shift, held⟩ := Classical.not_imp.mp again
  rw [if_pos ⟨_, shift, .inl rfl⟩, one.flag, if_pos (not_not.mp held)] at nextFlag
  have heldNow : ShiftHeld next.held := by
    rw [shiftHeld_iff, nextHeld]
    exact ⟨_, shift, (shift_mem_heldAfter shift _ _).mpr (.inl rfl)⟩
  rw [tracksShift_iff, nextFlag]
  intro tracks
  exact tracks.mpr heldNow rfl

/-- **The shift keys.** The handler follows them, and translates every letter by the
matching table, in all runs in which the make code of a shift key comes only when no
shift key is held. The first one that comes otherwise leaves the static wrong. -/
theorem keyboard_tracks_shift (keyboard : Keyboard)
    (reachable : keyboardSystem.ReachableUnder OneShiftAtATime keyboard) :
    TracksShift keyboard ∧
      ∀ interrupt next, keyboardSystem.step keyboard interrupt = some next →
        (TracksShift next ↔ OneShiftAtATime keyboard interrupt) := by
  have one := oneShift reachable
  refine ⟨one.tracksShift, fun interrupt next stepped => ⟨fun tracks => ?_, fun alone => ?_⟩⟩
  · by_contra again
    exact one.lost again stepped tracks
  · exact (one.step alone stepped).tracksShift

/-- Left shift is pressed, a letter typed, and shift released. -/
theorem keyboard_tracks_shift_typed : ∃ keyboard,
    keyboardSystem.ReachableUnder OneShiftAtATime keyboard ∧ 30 ∈ keyboard.held ∧
      TracksShift keyboard := by
  have replayed : (keyboardSystem.replay OneShiftAtATime ⟨0, ∅⟩
      [⟨42, true⟩, ⟨30, true⟩, ⟨170, true⟩]).any (fun keyboard => 30 ∈ keyboard.held) = true := by
    decide
  obtain ⟨keyboard, reachable, typed⟩ :=
    System.exists_reachableUnder_of_replay keyboardSystem OneShiftAtATime rfl _ _ replayed
  exact ⟨keyboard, reachable, of_decide_eq_true typed,
    (keyboard_tracks_shift keyboard reachable).1⟩

/-- The make code of a held shift key comes a second time. -/
theorem repeated_shift_lost :
    ¬ ∀ keyboard, keyboardSystem.Reachable keyboard → TracksShift keyboard := by
  have replayed : (keyboardSystem.replay (fun _ _ => True) ⟨0, ∅⟩
      [⟨42, true⟩, ⟨42, true⟩]).any (fun keyboard =>
        ShiftHeld keyboard.held ∧ keyboard.isShiftKeyDepressed = 0) = true := by
    decide
  obtain ⟨keyboard, reachable, lost⟩ :=
    System.exists_reachableUnder_of_replay keyboardSystem _ rfl _ _ replayed
  obtain ⟨held, off⟩ := of_decide_eq_true lost
  intro tracks
  exact (tracks keyboard reachable).flag.mpr held off

end CatchOS.Drivers
