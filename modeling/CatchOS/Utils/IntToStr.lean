import CatchOS.Utils.IntToStrStatic

/-!
# Numbers to strings, with a buffer

`_int_to_str_s` and `_int_to_str_u` (`string.c`). The digits come out with the last one first,
by a division that rounds towards zero, so those of a negative number are negative and change
their sign one by one. Before every byte the size that is left is looked at, and when it is used
up the function returns -1, with the buffer half written. At the end two pointers that move
towards each other reverse the digits.

Both functions differ in the sign only. They write inside the buffer, and they succeed exactly if
the decimal text and its final zero fit (`intToStr_converts`).
-/

set_option autoImplicit false

namespace CatchOS.Utils

open CatchOS.Lib

variable {memory : Memory}

/-! ## The functions -/

/-- The loop that writes the digits: the memory, and `out` and `bufsize` after it, or nothing
where the function returns -1. -/
def digitsLoop : ℕ → ℤ → ℕ → Written memory → Written memory × Option (ℕ × ℕ)
  | 0, _, _, state => (state, none)
  | bufsize + 1, n, out, state =>
      let digit := n.tmod 10
      let digit := if digit < 0 then digit * -1 else digit
      let state := state.put (offset out 0) (BitVec.ofInt 8 (digit + 0x30))
      if n.tdiv 10 ≠ 0 then digitsLoop bufsize (n.tdiv 10) (offset out 1) state
      else (state, some (offset out 1, bufsize))

/-- The loop that reverses the digits; it has no result if the turns are used up. -/
def reverseLoop : ℕ → ℕ → ℕ → Written memory → Option (Written memory)
  | 0, _, _, _ => none
  | turns + 1, start, out, state =>
      if start < out then
        let a := state.memory start
        let state := state.put start (state.memory out)
        let state := state.put out a
        reverseLoop turns (offset start 1) (offset out (2 ^ 32 - 1)) state
      else some state

/-- What both functions do after the sign: the memory and the result. -/
def intToStrFrom (bufsize : ℕ) (n : ℤ) (start : ℕ) (state : Written memory) :
    Option (Written memory × ℤ) :=
  match digitsLoop bufsize n start state with
  | (state, none) => some (state, -1)
  | (state, some (_, 0)) => some (state, -1)
  | (state, some (out, _ + 1)) =>
      (reverseLoop (2 ^ 32) start (offset out (2 ^ 32 - 1)) (state.put (offset out 0) 0)).map
        fun state => (state, 0)

/-- `_int_to_str_s`. -/
def intToStrS (memory : Memory) (out bufsize : ℕ) (n : ℤ) : Option (Written memory × ℤ) :=
  if n < 0 then
    match bufsize with
    | 0 => some (.start memory, -1)
    | bufsize + 1 =>
        intToStrFrom bufsize n (offset out 1) ((Written.start memory).put (offset out 0)
          (ascii '-'))
  else intToStrFrom bufsize n out (.start memory)

/-- `_int_to_str_u`. -/
def intToStrU (memory : Memory) (out bufsize n : ℕ) : Option (Written memory × ℤ) :=
  intToStrFrom bufsize n out (.start memory)

/-! ## The text of a number -/

/-- The decimal text of a number. -/
def decimalText (n : ℤ) : List Byte :=
  if n < 0 then ascii '-' :: numeral 10 n.natAbs else numeral 10 n.natAbs

/-- The number that a text stands for. -/
def parseDecimal : List Byte → ℤ
  | [] => 0
  | c :: text => if c = ascii '-' then -(valueIn 10 text : ℤ) else valueIn 10 (c :: text)

theorem digit_ne_minus : ∀ d < 10, representation.getD d 0 ≠ ascii '-' := by
  decide

/-- Parsing the text of a number gives it back. -/
theorem parseDecimal_decimalText (n : ℤ) : parseDecimal (decimalText n) = n := by
  obtain ⟨nonempty, digits, -, value⟩ := @isNumeral_numeral 10 (by decide) (by decide) n.natAbs
  rw [decimalText]
  split
  case isTrue negative =>
    rw [parseDecimal, if_pos rfl, value]
    omega
  case isFalse nonneg =>
    obtain ⟨c, text, isText⟩ := List.exists_cons_of_ne_nil nonempty
    obtain ⟨d, below, isDigit⟩ := digits c (isText ▸ List.mem_cons_self)
    rw [isText] at value ⊢
    rw [parseDecimal, if_neg (isDigit ▸ digit_ne_minus d below), value]
    omega

/-! ## The digits -/

section Digits

variable {bufsize out : ℕ} {n : ℤ} {state : Written memory}

theorem digit_eq (n : ℤ) :
    BitVec.ofInt 8 ((if n.tmod 10 < 0 then n.tmod 10 * -1 else n.tmod 10) + 0x30) =
      digitByte (n.natAbs % 10) := by
  have isDigit : ∀ d < 10, BitVec.ofInt 8 ((d : ℕ) + 0x30) = digitByte d := by decide
  have digit : (if n.tmod 10 < 0 then n.tmod 10 * -1 else n.tmod 10) = (n.natAbs % 10 : ℕ) := by
    have magnitude : (n.tmod 10).natAbs = n.natAbs % 10 := Int.natAbs_tmod n 10
    split <;> omega
  rw [digit, isDigit _ (Nat.mod_lt _ (by decide))]

theorem natAbs_tdiv_ten (n : ℤ) : (n.tdiv 10).natAbs = n.natAbs / 10 := by
  rw [Int.natAbs_tdiv]
  rfl

/-- One turn of the loop. -/
theorem digitsLoop_succ (bufsize : ℕ) (n : ℤ) (out : ℕ) (state : Written memory) :
    digitsLoop (bufsize + 1) n out state =
      if n.natAbs / 10 = 0 then
        (state.put (offset out 0) (digitByte (n.natAbs % 10)), some (offset out 1, bufsize))
      else
        digitsLoop bufsize (n.tdiv 10) (offset out 1)
          (state.put (offset out 0) (digitByte (n.natAbs % 10))) := by
  rw [digitsLoop, digit_eq, ← natAbs_tdiv_ten, ite_not]
  simp only [Int.natAbs_eq_zero]

/-- No byte beyond the size is written. -/
theorem digitsLoop_inside {places : ℕ → Prop} (isPlace : ∀ i < bufsize, places (offset out i))
    (inside : state.Inside places) : (digitsLoop bufsize n out state).1.Inside places := by
  induction bufsize generalizing n out state with
  | zero => exact inside
  | succ bufsize ih =>
      have here : (state.put (offset out 0) (digitByte (n.natAbs % 10))).Inside places :=
        inside.put (isPlace 0 (Nat.succ_pos bufsize))
      rw [digitsLoop_succ]
      split
      · exact here
      · refine ih (fun i bound => ?_) here
        rw [offset_offset, Nat.add_comm]
        exact isPlace (i + 1) (Nat.succ_lt_succ bound)

/-- The digits of a number, with the last one first. -/
def lowDigits (num : ℕ) : List Byte := (numeral 10 num).reverse

theorem lowDigits_eq (num : ℕ) :
    lowDigits num =
      digitByte (num % 10) :: if num / 10 = 0 then [] else lowDigits (num / 10) := by
  rw [lowDigits]
  split
  case isTrue last =>
    have single : num < 10 := (Nat.div_eq_zero_iff_lt (by decide)).mp last
    rw [numeral_of_lt single, Nat.mod_eq_of_lt single, List.reverse_singleton]
  case isFalse above =>
    rw [numeral_of_div (by decide) above, List.reverse_append, List.reverse_singleton,
      List.singleton_append, lowDigits]

theorem length_lowDigits (num : ℕ) : (lowDigits num).length = (numeral 10 num).length :=
  List.length_reverse

/-- With enough room the digits are written from `out` on. -/
theorem digitsLoop_enough (enough : (lowDigits n.natAbs).length ≤ bufsize) :
    ∃ after, digitsLoop bufsize n out state = (after, some (offset out
        (lowDigits n.natAbs).length, bufsize - (lowDigits n.natAbs).length)) ∧
      after.memory = writeBytes state.memory out (lowDigits n.natAbs) := by
  induction bufsize generalizing n out state with
  | zero =>
      rw [lowDigits_eq, List.length_cons] at enough
      exact absurd enough (Nat.not_succ_le_zero _)
  | succ bufsize ih =>
      rw [lowDigits_eq, List.length_cons] at enough ⊢
      rw [digitsLoop_succ, Nat.succ_sub_succ, writeBytes]
      split
      · exact ⟨_, rfl, rfl⟩
      case isFalse above =>
        rw [if_neg above, ← natAbs_tdiv_ten] at enough
        obtain ⟨after, result, memory⟩ := @ih (offset out 1) (n.tdiv 10)
          (state.put (offset out 0) (digitByte (n.natAbs % 10))) (Nat.le_of_succ_le_succ enough)
        rw [offset_offset, Nat.add_comm] at result
        rw [← natAbs_tdiv_ten]
        exact ⟨after, result, memory⟩

/-- Without it the loop ends with the result -1. -/
theorem digitsLoop_short (short : bufsize < (lowDigits n.natAbs).length) :
    ∃ after, digitsLoop bufsize n out state = (after, none) := by
  induction bufsize generalizing n out state with
  | zero => exact ⟨state, rfl⟩
  | succ bufsize ih =>
      rw [lowDigits_eq, List.length_cons] at short
      rw [digitsLoop_succ]
      split
      case isTrue last =>
        rw [if_pos last] at short
        exact absurd (Nat.lt_of_succ_lt_succ short) (Nat.not_lt_zero _)
      case isFalse above =>
        rw [if_neg above, ← natAbs_tdiv_ten] at short
        exact ih (Nat.lt_of_succ_lt_succ short)

end Digits

/-! ## The reversal -/

/-- **The reversal** of the bytes from `start` up to `stop`: the pointers move towards each other,
and what lies outside of them is done. -/
theorem reverseLoop_eq {turns start stop : ℕ} {places : ℕ → Prop} {state : Written memory}
    (ordered : start ≤ stop) (positive : 0 < stop) (fits : stop ≤ 2 ^ 32)
    (enough : stop - start < turns) (isPlace : ∀ a, start ≤ a → a < stop → places a)
    (inside : state.Inside places) :
    ∃ after, reverseLoop turns start (stop - 1) state = some after ∧ after.Inside places ∧
      (∀ a, start ≤ a → a < stop → after.memory a = state.memory (start + stop - 1 - a)) ∧
      ∀ a, a < start ∨ stop ≤ a → after.memory a = state.memory a := by
  induction turns generalizing start stop state with
  | zero => exact absurd enough (Nat.not_lt_zero _)
  | succ turns ih =>
      rw [reverseLoop]
      by_cases apart : start < stop - 1
      · have next : offset start 1 = start + 1 := offset_eq (by omega)
        have previous : offset (stop - 1) (2 ^ 32 - 1) = stop - 1 - 1 := by
          unfold offset
          omega
        have swapped : ((state.put start (state.memory (stop - 1))).put (stop - 1)
            (state.memory start)).Inside places :=
          (inside.put (isPlace _ le_rfl (by omega))).put (isPlace _ (by omega) (by omega))
        obtain ⟨after, result, afterInside, reversed, outside⟩ :=
          @ih (start + 1) (stop - 1) _ (by omega) (by omega) (by omega) (by omega)
            (fun a lower upper => isPlace a (by omega) (by omega)) swapped
        rw [if_pos apart, next, previous]
        refine ⟨after, result, afterInside, fun a lower upper => ?_, fun a beyond => ?_⟩
        · rcases Nat.eq_or_lt_of_le lower with rfl | above
          · rw [outside _ (.inl (Nat.lt_succ_self _)), Written.memory_put_of_ne (by omega),
              Written.memory_put_self]
            exact congrArg _ (by omega)
          · rcases Nat.eq_or_lt_of_le (Nat.le_sub_one_of_lt upper) with rfl | below
            · rw [outside _ (.inr le_rfl), Written.memory_put_self]
              exact congrArg _ (by omega)
            · rw [reversed a above below, Written.memory_put_of_ne (by omega),
                Written.memory_put_of_ne (by omega)]
              exact congrArg _ (by omega)
        · rw [outside a (by omega), Written.memory_put_of_ne (by omega),
            Written.memory_put_of_ne (by omega)]
      · -- at most one byte is left, which is its own mirror image
        rw [if_neg apart]
        refine ⟨state, rfl, inside, fun a lower upper => ?_, fun _ _ => rfl⟩
        exact congrArg _ (by omega)

/-- Bytes that lie the other way round are read the other way round. -/
theorem readBytes_reverse {memory' : Memory} {address len : ℕ}
    (mirrored : ∀ i < len, memory' (offset address i) = memory (offset address (len - 1 - i))) :
    readBytes memory' address len = (readBytes memory address len).reverse := by
  apply List.ext_getElem
  · rw [List.length_reverse, length_readBytes, length_readBytes]
  · intro i bound _
    rw [length_readBytes] at bound
    simp only [readBytes, List.getElem_reverse, List.getElem_map, List.getElem_range,
      List.length_map, List.length_range]
    exact mirrored i bound

/-! ## The whole functions -/

section Whole

variable {out bufsize start : ℕ} {n : ℤ} {state : Written memory} {places : ℕ → Prop}

/-- With room for the digits and the final zero they are there at the end. -/
theorem intToStrFrom_enough (enough : (numeral 10 n.natAbs).length < bufsize)
    (fits : start + (numeral 10 n.natAbs).length + 1 ≤ 2 ^ 32)
    (isPlace : ∀ i < bufsize, places (offset start i)) (inside : state.Inside places) :
    ∃ after, intToStrFrom bufsize n start state = some (after, 0) ∧ after.Inside places ∧
      HoldsString after.memory start (numeral 10 n.natAbs) ∧
      ∀ a < start, after.memory a = state.memory a := by
  have nonempty := List.length_pos_iff.mpr
    (@isNumeral_numeral 10 (by decide) (by decide) n.natAbs).nonempty
  have length := length_lowDigits n.natAbs
  obtain ⟨digits, result, content⟩ :=
    @digitsLoop_enough memory bufsize start n state (length ▸ enough.le)
  have digitsInside := @digitsLoop_inside memory bufsize start n state places isPlace inside
  rw [result] at digitsInside
  rw [length] at result
  generalize isLen : (numeral 10 n.natAbs).length = len at *
  obtain ⟨rest, isRest⟩ : ∃ rest, bufsize - len = rest + 1 :=
    Nat.exists_eq_succ_of_ne_zero (Nat.sub_pos_of_lt enough).ne'
  have final : offset start len = start + len := offset_eq (by omega)
  have last : offset (start + len) (2 ^ 32 - 1) = start + len - 1 := by
    unfold offset
    omega
  have finalZero : offset (start + len) 0 = start + len := offset_eq (by omega)
  have terminated : (digits.put (start + len) 0).Inside places :=
    digitsInside.put (final ▸ isPlace len enough)
  obtain ⟨after, reversal, afterInside, reversed, outside⟩ :=
    @reverseLoop_eq memory (2 ^ 32) start (start + len) places _ (by omega) (by omega) (by omega)
      (by omega) (fun a lower upper => by
        have isOffset : offset start (a - start) = a := by
          rw [offset_eq (by omega)]
          omega
        exact isOffset ▸ isPlace (a - start) (by omega)) terminated
  refine ⟨after, ?_, afterInside, ⟨?_, numeral_nonzero (by decide) (by decide)⟩, ?_⟩
  · rw [isRest] at result
    simp only [intToStrFrom, result, final, last, finalZero, reversal, Option.map_some]
  · have written : readBytes digits.memory start len = lowDigits n.natAbs := by
      rw [content, ← length]
      exact readBytes_writeBytes (by omega)
    have mirrored : ∀ i < len,
        after.memory (offset start i) = digits.memory (offset start (len - 1 - i)) := by
      intro i bound
      rw [offset_eq (by omega), offset_eq (by omega), reversed _ (by omega) (by omega),
        Written.memory_put_of_ne (by omega)]
      exact congrArg _ (by omega)
    rw [StringAt, isLen, readBytes_concat, readBytes_reverse mirrored, written, lowDigits,
      List.reverse_reverse, final, outside _ (.inr le_rfl), Written.memory_put_self]
  · intro a below
    rw [outside a (.inl below), Written.memory_put_of_ne (by omega), content]
    refine writeBytes_frame fun i bound => ?_
    rw [length] at bound
    rw [offset_eq (by omega)]
    omega

/-- Without it the result is -1. -/
theorem intToStrFrom_short (short : bufsize ≤ (numeral 10 n.natAbs).length)
    (isPlace : ∀ i < bufsize, places (offset start i)) (inside : state.Inside places) :
    ∃ after, intToStrFrom bufsize n start state = some (after, -1) ∧ after.Inside places := by
  have digitsInside := @digitsLoop_inside memory bufsize start n state places isPlace inside
  rw [← length_lowDigits] at short
  rcases Nat.lt_or_eq_of_le short with less | same
  · obtain ⟨after, result⟩ := @digitsLoop_short memory bufsize start n state less
    rw [result] at digitsInside
    refine ⟨after, ?_, digitsInside⟩
    simp only [intToStrFrom, result]
  · obtain ⟨after, result, -⟩ := @digitsLoop_enough memory bufsize start n state same.ge
    rw [result] at digitsInside
    rw [same, Nat.sub_self] at result
    refine ⟨after, ?_, digitsInside⟩
    simp only [intToStrFrom, same, result]

/-- What a conversion of a number into the buffer has to do. -/
structure Converts (out bufsize : ℕ) (n : ℤ) (after : Written memory) (result : ℤ) : Prop where
  inside : ∀ address ∈ after.writes, InArray out bufsize address
  success : result = 0 ↔ (decimalText n).length + 1 ≤ bufsize
  text : result = 0 → HoldsString after.memory out (decimalText n)
  parses : parseDecimal (decimalText n) = n
  failure : result ≠ 0 → result = -1

/-- Ten digits are enough for every number of 32 bits. -/
theorem length_numeral_ten {num : ℕ} (word : num < 2 ^ 32) : (numeral 10 num).length ≤ 10 :=
  numeral_length_le (by decide) (by decide) (word.trans (by decide))

/-- A number without a sign. -/
theorem converts_from (nonneg : 0 ≤ n) (word : n < 2 ^ 32) (fits : out + min bufsize 12 ≤ 2 ^ 32) :
    ∃ after result, intToStrFrom bufsize n out (.start memory) = some (after, result) ∧
      Converts out bufsize n after result := by
  have isPlace : ∀ i < bufsize, InArray out bufsize (offset out i) :=
    fun i bound => ⟨i, bound, rfl⟩
  have length := @length_numeral_ten n.natAbs (by omega)
  have isText : decimalText n = numeral 10 n.natAbs := if_neg nonneg.not_gt
  by_cases enough : (numeral 10 n.natAbs).length < bufsize
  · obtain ⟨after, result, inside, holds, -⟩ :=
      @intToStrFrom_enough memory bufsize out n (.start memory) _ enough (by omega) isPlace
        Written.inside_start
    refine ⟨after, 0, result, inside, ?_, fun _ => ?_, parseDecimal_decimalText n, fun bad => ?_⟩
    · rw [isText]
      exact iff_of_true rfl enough
    · rwa [isText]
    · exact absurd rfl bad
  · obtain ⟨after, result, inside⟩ :=
      @intToStrFrom_short memory bufsize out n (.start memory) _ (not_lt.mp enough) isPlace
        Written.inside_start
    refine ⟨after, -1, result, inside, ?_, fun zero => ?_, parseDecimal_decimalText n, fun _ => rfl⟩
    · rw [isText]
      exact iff_of_false (by decide) enough
    · exact absurd zero (by decide)

/-- A number with a sign. -/
theorem converts_minus (negative : n < 0) (word : -(2 ^ 31) ≤ n)
    (fits : out + min bufsize 12 ≤ 2 ^ 32) :
    ∃ after result, intToStrS memory out bufsize n = some (after, result) ∧
      Converts out bufsize n after result := by
  have length := @length_numeral_ten n.natAbs (by omega)
  have isText : decimalText n = ascii '-' :: numeral 10 n.natAbs := if_pos negative
  unfold intToStrS
  rw [if_pos negative]
  cases bufsize with
  | zero =>
      refine ⟨_, _, rfl, Written.inside_start, ?_, fun zero => ?_, parseDecimal_decimalText n,
        fun _ => rfl⟩
      · exact iff_of_false (by decide) (Nat.not_succ_le_zero _)
      · exact absurd zero (by decide)
  | succ bufsize =>
      have isPlace : ∀ i < bufsize, InArray out (bufsize + 1) (offset (offset out 1) i) := by
        intro i bound
        refine ⟨i + 1, Nat.succ_lt_succ bound, ?_⟩
        rw [offset_offset, Nat.add_comm]
      have sign : ((Written.start memory).put (offset out 0) (ascii '-')).Inside
          (InArray out (bufsize + 1)) :=
        Written.inside_start.put ⟨0, Nat.succ_pos bufsize, rfl⟩
      by_cases enough : (numeral 10 n.natAbs).length < bufsize
      · have next : offset out 1 = out + 1 := offset_eq (by omega)
        have first : offset out 0 = out := offset_eq (by omega)
        obtain ⟨after, result, inside, holds, before⟩ :=
          intToStrFrom_enough enough (by omega) isPlace sign
        refine ⟨after, 0, result, inside, ?_, fun _ => ?_, parseDecimal_decimalText n,
          fun bad => absurd rfl bad⟩
        · rw [isText, List.length_cons]
          exact iff_of_true rfl (Nat.succ_le_succ enough)
        · rw [isText]
          refine HoldsString.cons_iff.mpr ⟨⟨?_, by decide⟩, holds⟩
          rw [before _ (by omega), Written.memory_put_self]
      · obtain ⟨after, result, inside⟩ := intToStrFrom_short (not_lt.mp enough) isPlace sign
        refine ⟨after, -1, result, inside, ?_, fun zero => ?_, parseDecimal_decimalText n,
          fun _ => rfl⟩
        · rw [isText, List.length_cons]
          exact iff_of_false (by decide) fun fits => enough (Nat.le_of_succ_le_succ fits)
        · exact absurd zero (by decide)

end Whole

/-- **Numbers are converted** by both functions: nothing outside of the buffer is written, the
result is zero exactly if the decimal text and its final zero fit, and then they are in the
buffer. At most twelve bytes of it are used, and these must not wrap. -/
theorem intToStr_converts {out bufsize : ℕ} (fits : out + min bufsize 12 ≤ 2 ^ 32) :
    (∀ n : ℤ, -(2 ^ 31) ≤ n → n < 2 ^ 31 →
      ∃ after result, intToStrS memory out bufsize n = some (after, result) ∧
        Converts out bufsize n after result) ∧
    ∀ n : ℕ, n < 2 ^ 32 →
      ∃ after result, intToStrU memory out bufsize n = some (after, result) ∧
        Converts out bufsize n after result := by
  constructor
  · intro n lower upper
    by_cases negative : n < 0
    · exact converts_minus negative lower fits
    · unfold intToStrS
      rw [if_neg negative]
      exact converts_from (not_lt.mp negative) (by omega) fits
  · intro n word
    exact converts_from (Int.natCast_nonneg n) (by exact_mod_cast word) fits

theorem intToStr_converts_minimum :
    ∃ after result, intToStrS (fun _ => 0) 0x1000 12 (-(2 ^ 31)) = some (after, result) ∧
      Converts 0x1000 12 (-(2 ^ 31)) after result :=
  (@intToStr_converts (fun _ => 0) 0x1000 12 (by decide)).1 (-(2 ^ 31)) (by decide) (by decide)

end CatchOS.Utils
