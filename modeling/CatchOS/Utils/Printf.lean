import CatchOS.Machine.Memory
import Mathlib.Data.Nat.Digits.Defs

/-!
# Formatted output

`_snprintf` (`printf.c`) copies a format to a buffer of `maxlen` bytes and puts the
next argument where a directive `%c`, `%d`, `%x` or `%s` stands. The digits of a number
are written backwards into a static buffer of 64 bytes by `_int_to_str_static`
(`string.c`).

A format is a list of pieces, and each piece says what it prints: the reference
rendering `render`. The loop that copies literal bytes ends with
`if (*traverse >= '\0') return;`, where the end of the format was meant: a `char` is
signed, so the function returns before every byte below 128 that follows a literal
byte. `printed` are the pieces that it gets to, and `snprintf_eq` says that these are
what it writes. The first `maxlen` bytes of the whole rendering are stored exactly when
the printed pieces fill the buffer or the others render to nothing
(`stores_iff_printed`).
-/

set_option autoImplicit false

namespace CatchOS.Utils

/-! ## The functions -/

/-- A character of the source text. -/
def ascii (c : Char) : Byte := BitVec.ofNat 8 c.toNat

/-- `Representation`. -/
def representation : List Byte := "0123456789ABCDEF".toList.map ascii

/-- The loop of `_int_to_str_static` with `room` bytes before `ptr` and the string at
`ptr`; nothing when it would write before the buffer. -/
def intToStrLoop (base : ℕ) : ℕ → ℕ → List Byte → Option (List Byte)
  | 0, _, _ => none
  | room + 1, num, ptr =>
      let ptr := representation.getD (num % base) 0 :: ptr
      if num / base ≠ 0 then intToStrLoop base room (num / base) ptr else some ptr

/-- `_int_to_str_static`: the string before its final zero, which is the last byte of
the buffer. -/
def intToStrStatic (num base : ℕ) : Option (List Byte) := intToStrLoop base 63 num []

/-- A variable argument: an `int`, or a `char*` to the bytes before a final zero. -/
inductive Arg
  | word (i : BitVec 32)
  | string (s : List Byte)

/-- The bytes stored from `buf` on, and `len`. -/
structure Printer where
  out : List Byte
  len : ℕ

/-- `*buf++ = b; len++`. -/
def Printer.put (printer : Printer) (b : Byte) : Printer :=
  ⟨printer.out ++ [b], (printer.len + 1) % 2 ^ 32⟩

/-- The `_memcpy` of as much of `s` as there is room for, and `len += l`. -/
def Printer.copy (maxlen : ℕ) (printer : Printer) (s : List Byte) : Printer :=
  let l := s.length % 2 ^ 32
  let l := if maxlen < (printer.len + l) % 2 ^ 32
    then (maxlen + (2 ^ 32 - printer.len)) % 2 ^ 32 else l
  ⟨printer.out ++ s.take l, (printer.len + l) % 2 ^ 32⟩

/-- `if (len >= maxlen) return;` before the rest of the function. -/
def Printer.orFull (maxlen : ℕ) (printer : Printer) (rest : Option (List Byte)) :
    Option (List Byte) :=
  if maxlen ≤ printer.len then some printer.out else rest

/-- The loop of `_snprintf` with the format from `traverse` on, without its final zero.
Nothing when it reads beyond the format or finds no argument of the kind that a
directive takes. -/
def snprintfLoop (maxlen : ℕ) : List Byte → List Arg → Printer → Option (List Byte)
  | [], _, printer => some printer.out
  | b :: traverse, args, printer =>
      if b ≠ ascii '%' then
        if (printer.put b).len = maxlen then some (printer.put b).out
        -- the final zero ends the function here as every byte of at least zero does
        else if 0 ≤ (traverse.headD 0).toInt then some (printer.put b).out
        else snprintfLoop maxlen traverse args (printer.put b)
      else
        match traverse with
        | [] => none
        | directive :: traverse =>
            if directive = ascii 'c' then
              match args with
              | .word i :: args =>
                  let printer := printer.put (i.setWidth 8)
                  printer.orFull maxlen (snprintfLoop maxlen traverse args printer)
              | _ => none
            else if directive = ascii 'd' then
              match args with
              | .word i :: args =>
                  if i.toInt < 0 then
                    let printer := printer.put (ascii '-')
                    printer.orFull maxlen
                      ((intToStrStatic (-i).toNat 10).bind fun s =>
                        (printer.copy maxlen s).orFull maxlen
                          (snprintfLoop maxlen traverse args (printer.copy maxlen s)))
                  else
                    (intToStrStatic i.toNat 10).bind fun s =>
                      (printer.copy maxlen s).orFull maxlen
                        (snprintfLoop maxlen traverse args (printer.copy maxlen s))
              | _ => none
            else if directive = ascii 'x' then
              match args with
              | .word i :: args =>
                  (intToStrStatic i.toNat 16).bind fun s =>
                    (printer.copy maxlen s).orFull maxlen
                      (snprintfLoop maxlen traverse args (printer.copy maxlen s))
              | _ => none
            else if directive = ascii 's' then
              match args with
              | .string s :: args =>
                  (printer.copy maxlen s).orFull maxlen
                    (snprintfLoop maxlen traverse args (printer.copy maxlen s))
              | _ => none
            else snprintfLoop maxlen traverse args printer

/-- `_snprintf`: the bytes that it stores from `buf` on. -/
def snprintf (maxlen : ℕ) (format : List Byte) (args : List Arg) : Option (List Byte) :=
  snprintfLoop maxlen format args ⟨[], 0⟩

/-! ## The reference rendering -/

/-- The digit of a number: upper case beyond nine. -/
def digitByte (d : ℕ) : Byte :=
  if d < 10 then BitVec.ofNat 8 (0x30 + d) else BitVec.ofNat 8 (0x41 + (d - 10))

/-- The numeral of a number, the most significant digit first and no leading zeros. -/
def numeral (base n : ℕ) : List Byte :=
  if n = 0 then [ascii '0'] else ((Nat.digits base n).map digitByte).reverse

/-- A piece of a format, with the argument that it takes. A literal byte is neither the
final zero nor a percent sign. -/
inductive Piece
  | literal (b : Byte) (ne_zero : b ≠ 0) (ne_percent : b ≠ ascii '%')
  | char (i : BitVec 32)
  | decimal (i : BitVec 32)
  | hex (i : BitVec 32)
  | string (s : List Byte)

namespace Piece

/-- The text of a piece in the format. -/
def text : Piece → List Byte
  | literal b _ _ => [b]
  | char _ => [ascii '%', ascii 'c']
  | decimal _ => [ascii '%', ascii 'd']
  | hex _ => [ascii '%', ascii 'x']
  | string _ => [ascii '%', ascii 's']

/-- The argument of a piece. -/
def args : Piece → List Arg
  | literal _ _ _ => []
  | char i => [.word i]
  | decimal i => [.word i]
  | hex i => [.word i]
  | string s => [.string s]

/-- What a piece prints. -/
def render : Piece → List Byte
  | literal b _ _ => [b]
  | char i => [i.setWidth 8]
  | decimal i => if i.toInt < 0 then ascii '-' :: numeral 10 i.toInt.natAbs
      else numeral 10 i.toInt.natAbs
  | hex i => numeral 16 i.toNat
  | string s => s

/-- A piece that takes an argument. -/
def IsDirective (piece : Piece) : Prop :=
  ∀ b ne_zero ne_percent, piece ≠ literal b ne_zero ne_percent

/-- The bytes of memory from which a piece is copied: the static buffer of the numbers
and a string with its final zero. -/
def source : Piece → ℕ
  | literal _ _ _ => 0
  | char _ => 0
  | decimal _ => 64
  | hex _ => 64
  | string s => s.length + 1

/-- A literal byte that is negative as a `char`. -/
def isHigh : Piece → Bool
  | literal b _ _ => decide (b.toInt < 0)
  | _ => false

end Piece

/-- The format of some pieces, without its final zero. -/
def formatOf (pieces : List Piece) : List Byte := pieces.flatMap Piece.text

/-- Their arguments. -/
def argsOf (pieces : List Piece) : List Arg := pieces.flatMap Piece.args

/-- The reference rendering. -/
def render (pieces : List Piece) : List Byte := pieces.flatMap Piece.render

/-- The pieces that `_snprintf` gets to: up to the first literal byte, and the literal
bytes from 128 on that follow it directly. -/
def printed : List Piece → List Piece
  | [] => []
  | .literal b ne_zero ne_percent :: pieces =>
      .literal b ne_zero ne_percent :: pieces.takeWhile Piece.isHigh
  | piece :: pieces => piece :: printed pieces

/-- The pieces after these. -/
def skipped : List Piece → List Piece
  | [] => []
  | .literal _ _ _ :: pieces => pieces.dropWhile Piece.isHigh
  | _ :: pieces => skipped pieces

/-- The buffer and the source of each piece lie apart in an address space of `2 ^ 32`
bytes. -/
def Fits (maxlen : ℕ) (pieces : List Piece) : Prop :=
  ∀ piece ∈ pieces, min maxlen (render pieces).length + piece.source ≤ 2 ^ 32

instance (maxlen : ℕ) (pieces : List Piece) : Decidable (Fits maxlen pieces) :=
  inferInstanceAs (Decidable (∀ piece ∈ pieces,
    min maxlen (render pieces).length + piece.source ≤ 2 ^ 32))

/-- What `_snprintf` is for: the buffer receives the first `maxlen` bytes of the
rendering. -/
def Stores (maxlen : ℕ) (pieces : List Piece) : Prop :=
  snprintf maxlen (formatOf pieces) (argsOf pieces) = some ((render pieces).take maxlen)

instance (maxlen : ℕ) (pieces : List Piece) : Decidable (Stores maxlen pieces) :=
  inferInstanceAs (Decidable (_ = _))

/-! ## Numerals -/

/-- The table holds the digits. -/
theorem representation_getD : ∀ d < 16, representation.getD d 0 = digitByte d := by
  decide

theorem representation_mod {base : ℕ} (positive : 0 < base) (small : base ≤ 16) (num : ℕ) :
    representation.getD (num % base) 0 = digitByte (num % base) :=
  representation_getD _ ((Nat.mod_lt num positive).trans_le small)

theorem numeral_of_lt {base num : ℕ} (below : num < base) :
    numeral base num = [digitByte num] := by
  unfold numeral
  split
  case isTrue zero =>
    rw [zero]
    decide
  case isFalse positive =>
    rw [Nat.digits_of_lt base num positive below, List.map_singleton, List.reverse_singleton]

theorem numeral_of_div {base num : ℕ} (atLeastTwo : 1 < base) (above : num / base ≠ 0) :
    numeral base num = numeral base (num / base) ++ [digitByte (num % base)] := by
  have positive : num ≠ 0 := by
    rintro rfl
    exact above (Nat.zero_div base)
  rw [numeral, numeral, if_neg positive, if_neg above,
    Nat.digits_def' atLeastTwo (Nat.pos_of_ne_zero positive), List.map_cons,
    List.reverse_cons]

/-- With room for its digits, the loop writes the numeral before what is there. -/
theorem intToStrLoop_eq {base : ℕ} (atLeastTwo : 1 < base) (small : base ≤ 16)
    (room num : ℕ) (ptr : List Byte) (below : num < base ^ (room + 1)) :
    intToStrLoop base (room + 1) num ptr = some (numeral base num ++ ptr) := by
  have digit := representation_mod (Nat.zero_lt_of_lt atLeastTwo) small
  induction room generalizing num ptr with
  | zero =>
      have single : num < base := by rwa [zero_add, pow_one] at below
      rw [intToStrLoop, digit, Nat.div_eq_of_lt single, Nat.mod_eq_of_lt single,
        numeral_of_lt single]
      rfl
  | succ room ih =>
      rw [intToStrLoop, digit]
      by_cases last : num / base = 0
      · have single : num < base := (Nat.div_eq_zero_iff_lt (by omega)).mp last
        rw [if_neg (not_not.mpr last), numeral_of_lt single, Nat.mod_eq_of_lt single]
        rfl
      · have fewer : num / base < base ^ (room + 1) := by
          rw [Nat.div_lt_iff_lt_mul (by omega)]
          exact below
        rw [if_pos last, ih _ _ fewer, numeral_of_div atLeastTwo last, List.append_assoc]
        rfl

/-- The string lies in the buffer. -/
theorem intToStrLoop_length {base room num : ℕ} {ptr s : List Byte}
    (returned : intToStrLoop base room num ptr = some s) : s.length ≤ room + ptr.length := by
  induction room generalizing num ptr with
  | zero => cases returned
  | succ room ih =>
      rw [intToStrLoop] at returned
      split at returned
      · have written := ih returned
        rw [List.length_cons] at written
        omega
      · cases returned
        rw [List.length_cons]
        omega

/-- `_int_to_str_static` writes the numeral of every 32-bit number. -/
theorem intToStrStatic_eq {base num : ℕ} (atLeastTwo : 1 < base) (small : base ≤ 16)
    (word : num < 2 ^ 32) : intToStrStatic num base = some (numeral base num) := by
  have below : num < base ^ (62 + 1) :=
    calc num < 2 ^ 32 := word
      _ ≤ 2 ^ 63 := by decide
      _ ≤ base ^ 63 := Nat.pow_le_pow_left atLeastTwo 63
  rw [intToStrStatic, intToStrLoop_eq atLeastTwo small 62 num [] below, List.append_nil]

/-- A number below a power of the base has no more digits than that. -/
theorem numeral_length_le {base num digits : ℕ} (atLeastTwo : 1 < base) (small : base ≤ 16)
    (below : num < base ^ (digits + 1)) : (numeral base num).length ≤ digits + 1 := by
  have written := intToStrLoop_length (intToStrLoop_eq atLeastTwo small digits num [] below)
  rwa [List.append_nil] at written

theorem numeral_length {base num : ℕ} (atLeastTwo : 1 < base) (small : base ≤ 16)
    (word : num < 2 ^ 32) : (numeral base num).length ≤ 32 :=
  numeral_length_le atLeastTwo small (word.trans_le (Nat.pow_le_pow_left atLeastTwo 32))

/-! ## One piece -/

namespace Printer

/-- The printer after the bytes that there was room for. -/
def append (maxlen : ℕ) (printer : Printer) (s : List Byte) : Printer :=
  ⟨(printer.out ++ s).take maxlen, min maxlen (printer.out.length + s.length)⟩

/-- `len` counts the bytes, and there is room for another one. -/
structure Room (maxlen : ℕ) (printer : Printer) : Prop where
  len : printer.len = printer.out.length
  room : printer.out.length < maxlen
  word : maxlen < 2 ^ 32

variable {maxlen : ℕ} {printer : Printer}

theorem put_eq (room : printer.Room maxlen) (b : Byte) :
    printer.put b = printer.append maxlen [b] := by
  have within : printer.out.length + 1 ≤ maxlen := room.room
  have word := room.word
  rw [put, append, room.len, List.length_singleton, min_eq_right within,
    Nat.mod_eq_of_lt (within.trans_lt word), List.take_of_length_le]
  rwa [List.length_append, List.length_singleton]

/-- As long as the sum does not wrap, the copy takes what there is room for. -/
theorem copy_eq (room : printer.Room maxlen) {s : List Byte}
    (fits : printer.out.length + s.length < 2 ^ 32) :
    printer.copy maxlen s = printer.append maxlen s := by
  have within := room.room
  have word := room.word
  have short : s.length % 2 ^ 32 = s.length := Nat.mod_eq_of_lt (by omega)
  unfold copy append
  simp only [room.len, short, Nat.mod_eq_of_lt fits]
  split
  case isTrue longer =>
    have left : (maxlen + (2 ^ 32 - printer.out.length)) % 2 ^ 32
        = maxlen - printer.out.length := by omega
    rw [left, min_eq_left longer.le, List.take_append, List.take_of_length_le within.le,
      Nat.add_sub_cancel' within.le, Nat.mod_eq_of_lt word]
  case isFalse whole =>
    rw [min_eq_right (by omega), List.take_of_length_le (Nat.le_refl _),
      List.take_of_length_le (by rw [List.length_append]; omega), Nat.mod_eq_of_lt fits]

theorem length_append {s : List Byte}
    (unfilled : ¬ maxlen ≤ (printer.append maxlen s).len) :
    (printer.append maxlen s).out.length = printer.out.length + s.length := by
  change ¬ maxlen ≤ min maxlen (printer.out.length + s.length) at unfilled
  rw [append, List.take_of_length_le (by rw [List.length_append]; omega), List.length_append]

/-- Unless the buffer is full, there is room after a piece. -/
theorem Room.append (room : printer.Room maxlen) {s : List Byte}
    (unfilled : ¬ maxlen ≤ (printer.append maxlen s).len) :
    (printer.append maxlen s).Room maxlen := by
  have shorter : printer.out.length + s.length < maxlen := by
    change ¬ maxlen ≤ min maxlen (printer.out.length + s.length) at unfilled
    omega
  have length := length_append unfilled
  exact ⟨by rw [length, Printer.append, min_eq_right shorter.le],
    by rwa [length], room.word⟩

theorem orFull_congr {rest rest' : Option (List Byte)}
    (same : ¬ maxlen ≤ printer.len → rest = rest') :
    printer.orFull maxlen rest = printer.orFull maxlen rest' := by
  unfold orFull
  split
  case isTrue => rfl
  case isFalse unfilled => exact same unfilled

/-- Two pieces are appended as one, unless the first fills the buffer. -/
theorem append_append (s t : List Byte)
    (unfilled : ¬ maxlen ≤ (printer.append maxlen s).len) :
    (printer.append maxlen s).append maxlen t = printer.append maxlen (s ++ t) := by
  change ¬ maxlen ≤ min maxlen (printer.out.length + s.length) at unfilled
  have short : (printer.out ++ s).length ≤ maxlen := by
    rw [List.length_append]
    omega
  simp only [append, List.take_of_length_le short, List.append_assoc, List.length_append,
    Nat.add_assoc]

/-- A buffer that the first of two pieces fills holds nothing of the second. -/
theorem orFull_of_full {s : List Byte} (t : List Byte) (rest rest' : Option (List Byte))
    (full : maxlen ≤ (printer.append maxlen s).len) :
    (printer.append maxlen s).orFull maxlen rest
      = (printer.append maxlen (s ++ t)).orFull maxlen rest' := by
  have long : maxlen ≤ (printer.out ++ s).length := by
    rw [List.length_append]
    exact full.trans (min_le_right _ _)
  have filled : maxlen ≤ (printer.append maxlen (s ++ t)).len := by
    rw [List.length_append] at long
    refine le_min (Nat.le_refl _) ?_
    rw [List.length_append]
    omega
  rw [orFull, orFull, if_pos full, if_pos filled, append, append, ← List.append_assoc,
    List.take_append_of_le_length long]

/-- The buffer after a piece, and after the rest unless it is full. -/
theorem orFull_append (s more : List Byte) :
    (printer.append maxlen s).orFull maxlen
        (some (((printer.append maxlen s).out ++ more).take maxlen))
      = some ((printer.out ++ (s ++ more)).take maxlen) := by
  rw [← List.append_assoc]
  unfold orFull append
  split
  case isTrue full =>
    have long : maxlen ≤ (printer.out ++ s).length := by
      rw [List.length_append]
      exact full.trans (min_le_right _ _)
    rw [List.take_append_of_le_length long]
  case isFalse unfilled =>
    have short : (printer.out ++ s).length ≤ maxlen := by
      rw [List.length_append]
      change ¬ maxlen ≤ min maxlen (printer.out.length + s.length) at unfilled
      omega
    rw [List.take_of_length_le short]

end Printer

/-- The digits of a number fit beside the static buffer. -/
theorem copy_numeral {maxlen base num : ℕ} {printer : Printer} (room : printer.Room maxlen)
    (atLeastTwo : 1 < base) (small : base ≤ 16) (word : num < 2 ^ 32)
    (fits : printer.out.length + 33 ≤ 2 ^ 32) :
    printer.copy maxlen (numeral base num) = printer.append maxlen (numeral base num) := by
  have length := numeral_length atLeastTwo small word
  exact Printer.copy_eq room (by omega)

theorem natAbs_toInt_of_nonneg {i : BitVec 32} (nonnegative : ¬ i.toInt < 0) :
    i.toInt.natAbs = i.toNat := by
  have word := i.isLt
  rw [BitVec.toInt_eq_toNat_cond] at nonnegative ⊢
  split at nonnegative <;> omega

/-- Also for the least `int`, whose negation is itself. -/
theorem natAbs_toInt_of_neg {i : BitVec 32} (negative : i.toInt < 0) :
    i.toInt.natAbs = (-i).toNat := by
  have word := i.isLt
  rw [BitVec.toNat_neg]
  rw [BitVec.toInt_eq_toNat_cond] at negative ⊢
  split at negative <;> omega

/-- The directive of a piece prints its rendering. -/
theorem snprintfLoop_directive {maxlen : ℕ} {printer : Printer} (room : printer.Room maxlen)
    {piece : Piece} (directive : piece.IsDirective)
    (fits : printer.out.length + piece.source ≤ 2 ^ 32) (traverse : List Byte)
    (args : List Arg) :
    snprintfLoop maxlen (piece.text ++ traverse) (piece.args ++ args) printer
      = (printer.append maxlen piece.render).orFull maxlen
          (snprintfLoop maxlen traverse args (printer.append maxlen piece.render)) := by
  have dc : ascii 'd' ≠ ascii 'c' := by decide
  have xc : ascii 'x' ≠ ascii 'c' := by decide
  have xd : ascii 'x' ≠ ascii 'd' := by decide
  have sc : ascii 's' ≠ ascii 'c' := by decide
  have sd : ascii 's' ≠ ascii 'd' := by decide
  have sx : ascii 's' ≠ ascii 'x' := by decide
  cases piece with
  | literal b ne_zero ne_percent => exact absurd rfl (directive b ne_zero ne_percent)
  | char i =>
      simp only [Piece.text, Piece.args, Piece.render, List.cons_append, List.nil_append,
        snprintfLoop, ne_eq, not_true_eq_false, if_false, if_true, Printer.put_eq room]
  | decimal i =>
      simp only [Piece.text, Piece.args, Piece.render, List.cons_append, List.nil_append,
        snprintfLoop, ne_eq, not_true_eq_false, if_false, if_true, dc]
      change _ + 64 ≤ _ at fits
      split
      case isTrue negative =>
        rw [Printer.put_eq room, natAbs_toInt_of_neg negative,
          intToStrStatic_eq (by decide) (by decide) (-i).isLt, Option.bind_some]
        by_cases full : maxlen ≤ (printer.append maxlen [ascii '-']).len
        · exact Printer.orFull_of_full _ _ _ full
        · have after := room.append full
          have length := Printer.length_append (s := [ascii '-']) full
          rw [copy_numeral after (by decide) (by decide) (-i).isLt
              (by rw [length, List.length_singleton]; omega),
            Printer.append_append _ _ full, Printer.orFull, if_neg full]
          rfl
      case isFalse nonnegative =>
        rw [natAbs_toInt_of_nonneg nonnegative,
          intToStrStatic_eq (by decide) (by decide) i.isLt, Option.bind_some,
          copy_numeral room (by decide) (by decide) i.isLt (by omega)]
  | hex i =>
      simp only [Piece.text, Piece.args, Piece.render, List.cons_append, List.nil_append,
        snprintfLoop, ne_eq, not_true_eq_false, if_false, if_true, xc, xd]
      rw [intToStrStatic_eq (by decide) (by decide) i.isLt, Option.bind_some,
        copy_numeral room (by decide) (by decide) i.isLt (by change _ + 64 ≤ _ at fits; omega)]
  | string s =>
      simp only [Piece.text, Piece.args, Piece.render, List.cons_append, List.nil_append,
        snprintfLoop, ne_eq, not_true_eq_false, if_false, if_true, sc, sd, sx]
      rw [Printer.copy_eq room (by change _ + (_ + 1) ≤ _ at fits; omega)]

/-! ## The whole format -/

/-- After a literal byte the loop goes on with the literal bytes from 128 on only. -/
theorem takeWhile_isHigh (pieces : List Piece) :
    pieces.takeWhile Piece.isHigh
      = if 0 ≤ ((formatOf pieces).headD 0).toInt then [] else printed pieces := by
  cases pieces with
  | nil => rfl
  | cons piece pieces =>
      cases piece with
      | literal b ne_zero ne_percent =>
          change List.takeWhile _ _ = if 0 ≤ b.toInt then _ else _
          split
          case isTrue low =>
            exact List.takeWhile_cons_of_neg (by simpa [Piece.isHigh] using low)
          case isFalse high =>
            exact List.takeWhile_cons_of_pos (by simpa [Piece.isHigh] using high)
      | char i => rfl
      | decimal i => rfl
      | hex i => rfl
      | string s => rfl

theorem formatOf_cons (piece : Piece) (pieces : List Piece) :
    formatOf (piece :: pieces) = piece.text ++ formatOf pieces := rfl

theorem argsOf_cons (piece : Piece) (pieces : List Piece) :
    argsOf (piece :: pieces) = piece.args ++ argsOf pieces := rfl

theorem render_cons (piece : Piece) (pieces : List Piece) :
    render (piece :: pieces) = piece.render ++ render pieces := rfl

theorem printed_cons {piece : Piece} (directive : piece.IsDirective) (pieces : List Piece) :
    printed (piece :: pieces) = piece :: printed pieces := by
  rw [printed]
  exact directive

theorem skipped_cons {piece : Piece} (directive : piece.IsDirective) (pieces : List Piece) :
    skipped (piece :: pieces) = skipped pieces := by
  rw [skipped]
  exact directive

theorem Piece.literal_or_directive (piece : Piece) :
    (∃ b ne_zero ne_percent, piece = .literal b ne_zero ne_percent) ∨ piece.IsDirective := by
  by_cases found : ∃ b ne_zero ne_percent, piece = .literal b ne_zero ne_percent
  · exact Or.inl found
  · refine Or.inr fun b ne_zero ne_percent isLiteral => ?_
    exact found ⟨b, ne_zero, ne_percent, isLiteral⟩

/-- The pieces are printed and skipped in their order. -/
theorem printed_append_skipped (pieces : List Piece) :
    printed pieces ++ skipped pieces = pieces := by
  induction pieces with
  | nil => rfl
  | cons piece pieces ih =>
      rcases piece.literal_or_directive with ⟨b, ne_zero, ne_percent, rfl⟩ | directive
      · rw [printed, skipped, List.cons_append, List.takeWhile_append_dropWhile]
      · rw [printed_cons directive, skipped_cons directive, List.cons_append, ih]

/-- A literal byte is copied, and the loop goes on before a byte from 128 on. -/
theorem snprintfLoop_literal {maxlen : ℕ} {printer : Printer} (room : printer.Room maxlen)
    {b : Byte} (ne_percent : b ≠ ascii '%') (traverse : List Byte) (args : List Arg) :
    snprintfLoop maxlen (b :: traverse) args printer
      = (printer.append maxlen [b]).orFull maxlen
          (if 0 ≤ (traverse.headD 0).toInt then some (printer.append maxlen [b]).out
            else snprintfLoop maxlen traverse args (printer.append maxlen [b])) := by
  have atMost : (printer.append maxlen [b]).len ≤ maxlen := min_le_left _ _
  have full_iff : (printer.append maxlen [b]).len = maxlen
      ↔ maxlen ≤ (printer.append maxlen [b]).len :=
    ⟨Eq.ge, atMost.antisymm⟩
  rw [snprintfLoop.eq_def]
  simp only [ne_percent, ne_eq, not_false_eq_true, if_true, Printer.put_eq room, full_iff,
    Printer.orFull]

/-- The loop prints the pieces that it gets to. The induction is over the pieces; a
piece that fills the buffer ends it. -/
theorem snprintfLoop_eq {maxlen : ℕ} (pieces : List Piece) {printer : Printer}
    (room : printer.Room maxlen)
    (fits : ∀ piece ∈ pieces,
      min maxlen (printer.out.length + (render pieces).length) + piece.source ≤ 2 ^ 32) :
    snprintfLoop maxlen (formatOf pieces) (argsOf pieces) printer
      = some ((printer.out ++ render (printed pieces)).take maxlen) := by
  induction pieces generalizing printer with
  | nil =>
      change some printer.out = some ((printer.out ++ []).take maxlen)
      rw [List.append_nil, List.take_of_length_le room.room.le]
  | cons piece pieces ih =>
      have after (unfilled : ¬ maxlen ≤ (printer.append maxlen piece.render).len) :=
        ih (room.append unfilled) (by
          intro other isPiece
          rw [Printer.length_append unfilled, Nat.add_assoc, ← List.length_append,
            ← render_cons]
          exact fits other (List.mem_cons_of_mem _ isPiece))
      rcases piece.literal_or_directive with ⟨b, ne_zero, ne_percent, rfl⟩ | directive
      · change snprintfLoop maxlen (b :: formatOf pieces) (argsOf pieces) printer
          = some ((printer.out ++ ([b] ++ render (pieces.takeWhile Piece.isHigh))).take maxlen)
        rw [snprintfLoop_literal room ne_percent, ← Printer.orFull_append, takeWhile_isHigh]
        refine Printer.orFull_congr fun unfilled => ?_
        split
        case isTrue =>
          change _ = some ((_ ++ []).take maxlen)
          rw [List.append_nil, List.take_of_length_le (room.append unfilled).room.le]
        case isFalse => exact after unfilled
      · have beside := fits piece List.mem_cons_self
        have within := room.room
        rw [formatOf_cons, argsOf_cons, snprintfLoop_directive room directive (by omega),
          printed_cons directive, render_cons, ← Printer.orFull_append]
        exact Printer.orFull_congr after

/-- `_snprintf` stores the first `maxlen` bytes of the pieces that it gets to. -/
theorem snprintf_eq {maxlen : ℕ} (positive : 1 ≤ maxlen) (word : maxlen < 2 ^ 32)
    {pieces : List Piece} (fits : Fits maxlen pieces) :
    snprintf maxlen (formatOf pieces) (argsOf pieces)
      = some ((render (printed pieces)).take maxlen) := by
  refine snprintfLoop_eq pieces ⟨rfl, positive, word⟩ fun piece isPiece => ?_
  rw [List.length_nil, zero_add]
  exact fits piece isPiece

/-- The buffer holds the start of the rendering exactly when the printed pieces fill it
or nothing comes after them. -/
theorem stores_iff_printed {maxlen : ℕ} (positive : 1 ≤ maxlen) (word : maxlen < 2 ^ 32)
    {pieces : List Piece} (fits : Fits maxlen pieces) :
    Stores maxlen pieces
      ↔ maxlen ≤ (render (printed pieces)).length ∨ render (skipped pieces) = [] := by
  have whole : render pieces = render (printed pieces) ++ render (skipped pieces) := by
    rw [render, render, render, ← List.flatMap_append, printed_append_skipped]
  rw [Stores, snprintf_eq positive word fits, whole, Option.some_inj]
  constructor
  · intro same
    by_contra neither
    rw [not_or, not_le] at neither
    have lengths := congrArg List.length same
    have more := List.length_pos_iff.mpr neither.2
    rw [List.length_take, List.length_take, List.length_append] at lengths
    omega
  · rintro (full | nothing)
    · rw [List.take_append_of_le_length full]
    · rw [nothing, List.append_nil]

/-- Directives alone are printed in full, the least `int` too: `%s%d`. -/
theorem stores_world_least :
    snprintf 17 ("%s%d".toList.map ascii)
        [.string ("World".toList.map ascii), .word (BitVec.intMin 32)]
      = some ("World-2147483648".toList.map ascii)
    ∧ Stores 17 [.string ("World".toList.map ascii), .decimal (BitVec.intMin 32)] :=
  ⟨by decide +kernel,
    (stores_iff_printed (by decide) (by decide) (by decide +kernel)).mpr (Or.inr rfl)⟩

/-- Of the format `ab` only the first byte is stored. -/
theorem two_literals_not_stored :
    ¬ Stores 10 [.literal (ascii 'a') (by decide) (by decide),
      .literal (ascii 'b') (by decide) (by decide)] := by
  decide +kernel

end CatchOS.Utils
