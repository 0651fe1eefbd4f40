import CatchOS.Lib.Written
import CatchOS.Utils.Printf
import CatchOS.Utils.StringOrder

/-!
# Numerals in the static buffer

`_int_to_str_static` (`string.c`) with its buffer of 64 bytes in memory. The pointer starts at
the last byte, where a zero goes, and moves down by one for every digit; the function returns
where it ends up.

The string there is the numeral of the number (`intToStrStaticAt_eq`), of which `IsNumeral` says
what it has to be: digits of the base, no leading zeros, and the number as its value. A 32-bit
number has at most 32 digits, so the pointer stays inside the buffer
(`intToStrStaticAt_isNumeral`). The functions that print a number take that string
(`intToStrStatic`).
-/

set_option autoImplicit false

namespace CatchOS.Utils

open CatchOS.Lib

/-! ## The function -/

/-- The loop of `_int_to_str_static`; it has no result if the turns are used up. -/
def intToStrLoopAt {memory : Memory} (base : ℕ) :
    ℕ → ℕ → ℕ → Written memory → Option (Written memory × ℕ)
  | 0, _, _, _ => none
  | turns + 1, num, ptr, state =>
      let ptr := offset ptr (2 ^ 32 - 1)
      let state := state.put ptr (representation.getD (num % base) 0)
      if num / base ≠ 0 then intToStrLoopAt base turns (num / base) ptr state
      else some (state, ptr)

/-- `_int_to_str_static` with its `buffer` at an address: the memory after it and the pointer
that it returns. The number falls with every turn, so no more than `2 ^ 32` of them matter. -/
def intToStrStaticAt (memory : Memory) (buffer num base : ℕ) : Option (Written memory × ℕ) :=
  let ptr := offset buffer 63
  intToStrLoopAt base (2 ^ 32) num ptr ((Written.start memory).put ptr 0)

/-- A byte of the array of the given size at an address. -/
def InArray (array size address : ℕ) : Prop := ∃ i < size, address = offset array i

/-! ## Numerals -/

/-- The number that a digit stands for. -/
def digitValue (c : Byte) : ℕ := representation.idxOf c

/-- The value of a string of digits in a base. -/
def valueIn (base : ℕ) (string : List Byte) : ℕ :=
  string.foldl (fun value c => base * value + digitValue c) 0

/-- A string is the numeral of a number. -/
structure IsNumeral (base : ℕ) (string : List Byte) (num : ℕ) : Prop where
  nonempty : string ≠ []
  digits : ∀ c ∈ string, ∃ d < base, c = representation.getD d 0
  noLeadingZero : string.head? = some (ascii '0') → string = [ascii '0']
  value : valueIn base string = num

section Numerals

variable {base num : ℕ}

theorem digitValue_digitByte : ∀ d < 16, digitValue (digitByte d) = d := by
  decide

theorem digitByte_ne_zero : ∀ d < 16, digitByte d ≠ 0 := by
  decide

theorem valueIn_concat (base : ℕ) (string : List Byte) (c : Byte) :
    valueIn base (string ++ [c]) = base * valueIn base string + digitValue c :=
  List.foldl_append

/-- **The numeral of a number is one.** The induction takes the last digit off. -/
theorem isNumeral_numeral (atLeastTwo : 1 < base) (small : base ≤ 16) (num : ℕ) :
    IsNumeral base (numeral base num) num := by
  induction num using Nat.strong_induction_on with
  | _ num ih =>
      have lastDigit : num % base < base := Nat.mod_lt num (Nat.zero_lt_of_lt atLeastTwo)
      have isDigit {d : ℕ} (below : d < base) :
          ∃ e < base, digitByte d = representation.getD e 0 :=
        ⟨d, below, (representation_getD d (below.trans_le small)).symm⟩
      by_cases above : num / base = 0
      · have single : num < base :=
          (Nat.div_eq_zero_iff_lt (Nat.zero_lt_of_lt atLeastTwo)).mp above
        rw [numeral_of_lt single]
        refine ⟨List.cons_ne_nil _ _, fun c member => ?_, fun zero => ?_, ?_⟩
        · rw [List.mem_singleton.mp member]
          exact isDigit single
        · rw [List.head?_cons, Option.some.injEq] at zero
          rw [zero]
        · exact (valueIn_concat base [] _).trans
            ((Nat.zero_add _).trans (digitValue_digitByte num (single.trans_le small)))
      · have positive : 0 < num := Nat.pos_of_ne_zero fun zero => above (by rw [zero, Nat.zero_div])
        obtain ⟨nonempty, digits, noLeadingZero, value⟩ :=
          ih (num / base) (Nat.div_lt_self positive atLeastTwo)
        rw [numeral_of_div atLeastTwo above]
        refine ⟨List.append_ne_nil_of_left_ne_nil nonempty _, fun c member => ?_, fun zero => ?_,
          ?_⟩
        · rcases List.mem_append.mp member with higher | last
          · exact digits c higher
          · rw [List.mem_singleton.mp last]
            exact isDigit lastDigit
        · -- a leading zero would make the rest of the number zero
          rw [List.head?_append_of_ne_nil _ nonempty] at zero
          rw [noLeadingZero zero] at value
          exact absurd value.symm above
        · rw [valueIn_concat, value, digitValue_digitByte _ (lastDigit.trans_le small),
            Nat.div_add_mod]

theorem numeral_nonzero (atLeastTwo : 1 < base) (small : base ≤ 16) :
    ∀ c ∈ numeral base num, c ≠ 0 := by
  intro c member
  obtain ⟨d, below, isDigit⟩ := (isNumeral_numeral atLeastTwo small num).digits c member
  rw [isDigit, representation_getD d (below.trans_le small)]
  exact digitByte_ne_zero d (below.trans_le small)

end Numerals

/-! ## The buffer -/

section Buffer

variable {memory : Memory} {buffer base num : ℕ}

/-- A string does not depend on the byte before it, unless it reaches around to it. -/
theorem HoldsString.put_before {state : Written memory} {k : ℕ} {string : List Byte} {c : Byte}
    (holds : HoldsString state.memory (offset buffer (k + 1)) string)
    (fits : k + 1 + string.length < 2 ^ 32) (nonzero : c ≠ 0) :
    HoldsString (state.put (offset buffer k) c).memory (offset buffer k) (c :: string) := by
  refine HoldsString.cons_iff.mpr ⟨⟨?_, nonzero⟩, ?_, holds.nonzero⟩
  · rw [offset_offset]
    exact Written.memory_put_self
  · rw [offset_offset, StringAt]
    refine (readBytes_congr fun i bound => Written.memory_put_of_ne ?_).trans holds.held
    rw [offset_offset, ne_eq, offset_inj (by omega) (by omega)]
    omega

theorem offset_before (k : ℕ) : offset (offset buffer (k + 1)) (2 ^ 32 - 1) = offset buffer k := by
  unfold offset
  omega

/-- **The loop** puts the numeral before the string that is there. -/
theorem intToStrLoopAt_eq (atLeastTwo : 1 < base) (small : base ≤ 16) {turns k : ℕ}
    {string : List Byte} {state : Written memory} (enough : num < turns)
    (room : (numeral base num).length ≤ k) (filled : k + string.length = 63)
    (holds : HoldsString state.memory (offset buffer k) string)
    (inside : state.Inside (InArray buffer 64)) :
    ∃ after, intToStrLoopAt base turns num (offset buffer k) state =
        some (after, offset buffer (k - (numeral base num).length)) ∧
      HoldsString after.memory (offset buffer (k - (numeral base num).length))
        (numeral base num ++ string) ∧
      after.Inside (InArray buffer 64) := by
  have digit := representation_mod (Nat.zero_lt_of_lt atLeastTwo) small
  induction turns generalizing num k string state with
  | zero => exact absurd enough (Nat.not_lt_zero num)
  | succ turns ih =>
      have nonempty := List.length_pos_iff.mpr (isNumeral_numeral atLeastTwo small num).nonempty
      obtain ⟨below, rfl⟩ := Nat.exists_eq_succ_of_ne_zero (nonempty.trans_le room).ne'
      have nonzero : digitByte (num % base) ≠ 0 := digitByte_ne_zero _
        ((Nat.mod_lt num (Nat.zero_lt_of_lt atLeastTwo)).trans_le small)
      have after := holds.put_before (by omega) nonzero
      have logged : (state.put (offset buffer below) (digitByte (num % base))).Inside
          (InArray buffer 64) := inside.put ⟨below, by omega, rfl⟩
      rw [intToStrLoopAt, digit, offset_before]
      by_cases last : num / base = 0
      · have single : num < base :=
          (Nat.div_eq_zero_iff_lt (Nat.zero_lt_of_lt atLeastTwo)).mp last
        rw [if_neg (not_not.mpr last), numeral_of_lt single, Nat.mod_eq_of_lt single]
        rw [Nat.mod_eq_of_lt single] at after logged
        exact ⟨_, rfl, after, logged⟩
      · have fewer : num / base < num :=
          Nat.div_lt_self (Nat.pos_of_ne_zero fun zero => last (by rw [zero, Nat.zero_div]))
            atLeastTwo
        rw [numeral_of_div atLeastTwo last] at room ⊢
        rw [List.length_append, List.length_singleton] at room ⊢
        rw [if_pos last, List.append_assoc, List.singleton_append,
          Nat.succ_sub_succ]
        refine ih ?_ (Nat.le_of_succ_le_succ room) ?_ after logged
        · exact fewer.trans_le (Nat.le_of_lt_succ enough)
        · rw [List.length_cons]
          omega

/-- The pointer that is returned is inside the buffer, and the numeral is there. -/
theorem intToStrStaticAt_eq (atLeastTwo : 1 < base) (small : base ≤ 16) (word : num < 2 ^ 32) :
    ∃ after, intToStrStaticAt memory buffer num base =
        some (after, offset buffer (63 - (numeral base num).length)) ∧
      HoldsString after.memory (offset buffer (63 - (numeral base num).length))
        (numeral base num) ∧
      after.Inside (InArray buffer 64) := by
  have length := numeral_length atLeastTwo small word
  have terminated : HoldsString ((Written.start memory).put (offset buffer 63) 0).memory
      (offset buffer 63) [] := by
    rw [HoldsString.nil_iff, offset_offset]
    exact Written.memory_put_self
  have written := @intToStrLoopAt_eq memory buffer base num atLeastTwo small (2 ^ 32) 63 [] _ word
    (length.trans (by decide)) rfl terminated
    (Written.inside_start.put ⟨63, by decide, rfl⟩)
  rwa [List.append_nil] at written

/-- **Every 32-bit number has its numeral in the buffer**: only bytes of the buffer are written,
the pointer that is returned is one into it, and the string there is the numeral of the number.
So two numbers with the same string are equal. -/
theorem intToStrStaticAt_isNumeral (atLeastTwo : 2 ≤ base) (small : base ≤ 16)
    (word : num < 2 ^ 32) :
    ∃ after ptr string, intToStrStaticAt memory buffer num base = some (after, ptr) ∧
      (∀ address ∈ after.writes, InArray buffer 64 address) ∧ InArray buffer 64 ptr ∧
      HoldsString after.memory ptr string ∧ IsNumeral base string num ∧
      ∀ (memory' : Memory) (buffer' other : ℕ), other < 2 ^ 32 →
        ∀ after' ptr', intToStrStaticAt memory' buffer' other base = some (after', ptr') →
          HoldsString after'.memory ptr' string → other = num := by
  obtain ⟨after, returned, holds, inside⟩ :=
    @intToStrStaticAt_eq memory buffer base num atLeastTwo small word
  refine ⟨after, _, numeral base num, returned, inside, ⟨_, by omega, rfl⟩, holds,
    isNumeral_numeral atLeastTwo small num, ?_⟩
  intro memory' buffer' other otherWord after' ptr' otherReturned same
  obtain ⟨written, isWritten, otherHolds, -⟩ :=
    @intToStrStaticAt_eq memory' buffer' base other atLeastTwo small otherWord
  obtain ⟨rfl, rfl⟩ := Prod.mk.inj (Option.some.inj (otherReturned.symm.trans isWritten))
  have strings : numeral base other = numeral base num := otherHolds.unique same
  rw [← (isNumeral_numeral atLeastTwo small other).value, strings]
  exact (isNumeral_numeral atLeastTwo small num).value

theorem intToStrStaticAt_isNumeral_hex :
    ∃ after ptr string, intToStrStaticAt (fun _ => 0) 0x1000 0xBEEF 16 = some (after, ptr) ∧
      HoldsString after.memory ptr string ∧ IsNumeral 16 string 0xBEEF := by
  obtain ⟨after, ptr, string, returned, -, -, holds, isNumeral, -⟩ :=
    @intToStrStaticAt_isNumeral (fun _ => 0) 0x1000 16 0xBEEF (by decide) (by decide) (by decide)
  exact ⟨after, ptr, string, returned, holds, isNumeral⟩

end Buffer

end CatchOS.Utils
