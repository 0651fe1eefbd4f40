import CatchOS.Machine.Memory

/-!
# Bitmaps

`bitmap.c`: a bitmap is a pointer to its first byte, and bit `8 * k + i` is bit
`i` of byte `k`. All operations leave the memory as it is when the pointer is
`NULL`.

`bitmapBit` is what a bitmap stands for, a Boolean for every bit number, and the
lemmas say what each operation does to it: a bit operation changes its own bit
only, and no byte of the memory but the one that holds the bit.
-/

set_option autoImplicit false

namespace CatchOS.Utils

/-! ## The operations -/

def bitmapSetBit (memory : Memory) (bitstring bitno : ℕ) : Memory :=
  if bitstring = 0 then
    memory
  else
    let byteNo := bitno / 8
    let carryBit := bitno % 8
    Function.update memory (offset bitstring byteNo)
      (memory (offset bitstring byteNo) ||| (1#8 <<< carryBit))

def bitmapClearBit (memory : Memory) (bitstring bitno : ℕ) : Memory :=
  if bitstring = 0 then
    memory
  else
    let byteNo := bitno / 8
    let carryBit := bitno % 8
    Function.update memory (offset bitstring byteNo)
      (memory (offset bitstring byteNo) &&& ~~~(1#8 <<< carryBit))

def bitmapGetBit (memory : Memory) (bitstring bitno : ℕ) : ℤ :=
  if bitstring = 0 then
    -1
  else
    let byteNo := bitno / 8
    let carryBit := bitno % 8
    ((memory (offset bitstring byteNo) >>> carryBit) &&& 1#8).toNat

/-- The bits of a byte in the other order: bit number 0 is the highest bit of the
first byte. -/
def bitmapGetBitReverse (memory : Memory) (bitstring bitno : ℕ) : ℤ :=
  if bitstring = 0 then
    -1
  else
    let byteNo := bitno / 8
    let carryBit := 7 - bitno % 8
    ((memory (offset bitstring byteNo) >>> carryBit) &&& 1#8).toNat

def bitmapToggleBit (memory : Memory) (bitstring bitno : ℕ) : Memory :=
  if bitstring = 0 then
    memory
  else
    let byteNo := bitno / 8
    let carryBit := bitno % 8
    Function.update memory (offset bitstring byteNo)
      (memory (offset bitstring byteNo) ^^^ (1#8 <<< carryBit))

/-- The end of the loop, `startbit + count`, is an `unsigned int`: when it wraps
the loop does nothing. -/
def bitmapSetBits (memory : Memory) (bitstring startbit count : ℕ) : Memory :=
  let stop := (startbit + count) % 2 ^ 32
  (List.range' startbit (stop - startbit)).foldl
    (fun memory i => bitmapSetBit memory bitstring i) memory

/-! ## The bits of a bitmap -/

/-- The bit as a Boolean, for a bitmap that is not `NULL`. -/
def bitmapBit (memory : Memory) (bitstring bitno : ℕ) : Bool :=
  (memory (offset bitstring (bitno / 8))).getLsbD (bitno % 8)

section Bits

variable {memory : Memory} {bitstring bitno : ℕ}

/-- The lowest bit of a byte that was shifted to the right. -/
theorem toNat_ushiftRight_and_one (bits : Byte) (i : ℕ) :
    (((bits >>> i) &&& 1#8).toNat : ℤ) = if bits.getLsbD i then 1 else 0 := by
  simp only [BitVec.and_one_eq_setWidth_ofBool_getLsbD, BitVec.getLsbD_ushiftRight, Nat.add_zero]
  cases bits.getLsbD i <;> rfl

theorem bitmapGetBit_eq (allocated : bitstring ≠ 0) :
    bitmapGetBit memory bitstring bitno = if bitmapBit memory bitstring bitno then 1 else 0 := by
  rw [bitmapGetBit, if_neg allocated, bitmapBit]
  exact toNat_ushiftRight_and_one _ _

theorem bitmapGetBit_eq_zero (allocated : bitstring ≠ 0) :
    bitmapGetBit memory bitstring bitno = 0 ↔ bitmapBit memory bitstring bitno = false := by
  rw [bitmapGetBit_eq allocated]
  cases bitmapBit memory bitstring bitno <;> simp

/-- A store that is left out at `NULL` changes its own byte only. -/
theorem unless_null_frame {null : Prop} [Decidable null] {place address : ℕ} {byte : Byte}
    (other : address ≠ place) :
    (if null then memory else Function.update memory place byte) address = memory address := by
  split
  case isTrue => rfl
  case isFalse => exact Function.update_of_ne other _ _

/-- The byte of a bit is the only one that setting the bit writes. -/
theorem bitmapSetBit_frame {address : ℕ} (other : address ≠ offset bitstring (bitno / 8)) :
    bitmapSetBit memory bitstring bitno address = memory address :=
  unless_null_frame other

theorem bitmapClearBit_frame {address : ℕ} (other : address ≠ offset bitstring (bitno / 8)) :
    bitmapClearBit memory bitstring bitno address = memory address :=
  unless_null_frame other

theorem bitmapToggleBit_frame {address : ℕ} (other : address ≠ offset bitstring (bitno / 8)) :
    bitmapToggleBit memory bitstring bitno address = memory address :=
  unless_null_frame other

/-- A bit depends on its own byte only. -/
theorem bitmapBit_congr {memory' : Memory}
    (same : memory' (offset bitstring (bitno / 8)) = memory (offset bitstring (bitno / 8))) :
    bitmapBit memory' bitstring bitno = bitmapBit memory bitstring bitno := by
  rw [bitmapBit, bitmapBit, same]

/-- The mask of a bit operation has one bit. -/
theorem getLsbD_mask {i j : ℕ} (iBound : i < 8) : (1#8 <<< i).getLsbD j = decide (j = i) := by
  simp only [BitVec.getLsbD_shiftLeft, BitVec.getLsbD_one]
  by_cases same : j = i
  · simp [same, iBound]
  · simp [same]
    omega

/-- A byte and a one-bit mask have nothing in common when the bit is clear. -/
theorem and_mask_eq_zero {bits : Byte} {j : ℕ} (bound : j < 8) :
    bits &&& (1#8 <<< j) = 0#8 ↔ bits.getLsbD j = false := by
  constructor
  · intro zero
    have bit := congrArg (fun byte => BitVec.getLsbD byte j) zero
    simpa [getLsbD_mask bound] using bit
  · intro clear
    apply BitVec.eq_of_getLsbD_eq
    intro k _
    rw [BitVec.getLsbD_and, getLsbD_mask bound, BitVec.getLsbD_zero]
    by_cases same : k = j
    · rw [same, clear, Bool.false_and]
    · rw [decide_eq_false same, Bool.and_false]

/-- In the byte of `bitno`, another bit is told by its place in the byte. -/
theorem decide_eq_position {other : ℕ} (sameByte : other / 8 = bitno / 8) :
    decide (other % 8 = bitno % 8) = decide (other = bitno) := by
  rw [decide_eq_decide]
  omega

/-- Bits in two bytes of a bitmap are at two addresses. -/
theorem offset_byte_ne {other : ℕ} (bound : bitno < 2 ^ 32) (otherBound : other < 2 ^ 32)
    (apart : other / 8 ≠ bitno / 8) :
    offset bitstring (other / 8) ≠ offset bitstring (bitno / 8) := by
  rw [ne_eq, offset_inj (by omega) (by omega)]
  exact apart

/-- The bits after a store to the byte of a bit, where the bits of the new byte are told by
what is done to the one bit. -/
theorem bitmapBit_update {other : ℕ} {byte : Byte} (change : Bool → Bool → Bool)
    (bound : bitno < 2 ^ 32) (otherBound : other < 2 ^ 32)
    (bits : ∀ j < 8, byte.getLsbD j = change (decide (j = bitno % 8))
      ((memory (offset bitstring (bitno / 8))).getLsbD j))
    (kept : ∀ bit, change false bit = bit) :
    bitmapBit (Function.update memory (offset bitstring (bitno / 8)) byte) bitstring other =
      change (decide (other = bitno)) (bitmapBit memory bitstring other) := by
  by_cases sameByte : other / 8 = bitno / 8
  · rw [bitmapBit, sameByte, Function.update_self, bits _ (Nat.mod_lt _ (by decide)),
      decide_eq_position sameByte, bitmapBit, sameByte]
  · have distinct : other ≠ bitno := fun equal => sameByte (congrArg (· / 8) equal)
    rw [bitmapBit, Function.update_of_ne (offset_byte_ne bound otherBound sameByte),
      decide_eq_false distinct, kept, bitmapBit]

/-- Setting a bit sets it and no other bit. -/
theorem bitmapBit_setBit {other : ℕ} (allocated : bitstring ≠ 0) (bound : bitno < 2 ^ 32)
    (otherBound : other < 2 ^ 32) :
    bitmapBit (bitmapSetBit memory bitstring bitno) bitstring other =
      (decide (other = bitno) || bitmapBit memory bitstring other) := by
  rw [bitmapSetBit, if_neg allocated]
  apply bitmapBit_update (fun own bit => own || bit) bound otherBound
  · intro j _
    rw [BitVec.getLsbD_or, getLsbD_mask (Nat.mod_lt _ (by decide)), Bool.or_comm]
  · exact Bool.false_or

/-- Clearing a bit clears it and no other bit. -/
theorem bitmapBit_clearBit {other : ℕ} (allocated : bitstring ≠ 0) (bound : bitno < 2 ^ 32)
    (otherBound : other < 2 ^ 32) :
    bitmapBit (bitmapClearBit memory bitstring bitno) bitstring other =
      (!decide (other = bitno) && bitmapBit memory bitstring other) := by
  rw [bitmapClearBit, if_neg allocated]
  apply bitmapBit_update (fun own bit => !own && bit) bound otherBound
  · intro j position
    rw [BitVec.getLsbD_and, BitVec.getLsbD_not, getLsbD_mask (Nat.mod_lt _ (by decide)),
      decide_eq_true position, Bool.true_and, Bool.and_comm]
  · exact Bool.true_and

/-- Toggling a bit negates it and no other bit. -/
theorem bitmapBit_toggleBit {other : ℕ} (allocated : bitstring ≠ 0) (bound : bitno < 2 ^ 32)
    (otherBound : other < 2 ^ 32) :
    bitmapBit (bitmapToggleBit memory bitstring bitno) bitstring other =
      (bitmapBit memory bitstring other ^^ decide (other = bitno)) := by
  rw [bitmapToggleBit, if_neg allocated]
  apply bitmapBit_update (fun own bit => bit ^^ own) bound otherBound
  · intro j _
    rw [BitVec.getLsbD_xor, getLsbD_mask (Nat.mod_lt _ (by decide))]
  · exact Bool.xor_false

/-- Within a byte the two readings count the bits from its two ends. -/
theorem bitmapGetBitReverse_eq {k i : ℕ} (bound : i < 8) :
    bitmapGetBitReverse memory bitstring (8 * k + i) =
      bitmapGetBit memory bitstring (8 * k + 7 - i) := by
  have byteNo : (8 * k + 7 - i) / 8 = (8 * k + i) / 8 := by omega
  have carryBit : (8 * k + 7 - i) % 8 = 7 - (8 * k + i) % 8 := by omega
  simp only [bitmapGetBitReverse, bitmapGetBit, byteNo, carryBit]

end Bits

/-! ## Setting a run of bits -/

section Runs

variable {memory : Memory} {bitstring startbit count : ℕ}

theorem bitmapSetBits_zero : bitmapSetBits memory bitstring startbit 0 = memory := by
  have empty : (startbit + 0) % 2 ^ 32 - startbit = 0 := by omega
  simp only [bitmapSetBits, empty]
  rfl

/-- Nothing is set in a bitmap at `NULL`. -/
theorem bitmapSetBits_null : bitmapSetBits memory 0 startbit count = memory := by
  simp only [bitmapSetBits]
  generalize List.range' startbit ((startbit + count) % 2 ^ 32 - startbit) = bits
  induction bits with
  | nil => rfl
  | cons bit bits ih => exact ih

/-- One more bit is one more turn of the loop, as long as its end does not wrap. -/
theorem bitmapSetBits_succ (fits : startbit + (count + 1) < 2 ^ 32) :
    bitmapSetBits memory bitstring startbit (count + 1) =
      bitmapSetBit (bitmapSetBits memory bitstring startbit count) bitstring
        (startbit + count) := by
  have turns : (startbit + (count + 1)) % 2 ^ 32 - startbit = count + 1 := by omega
  have turnsBefore : (startbit + count) % 2 ^ 32 - startbit = count := by omega
  simp only [bitmapSetBits, turns, turnsBefore]
  rw [List.range'_concat, List.foldl_append, Nat.one_mul]
  rfl

/-- **A run of bits.** `bitmap_set_bits` sets the bits of its run and no other
bit. -/
theorem bitmapBit_setBits {other : ℕ} (allocated : bitstring ≠ 0)
    (fits : startbit + count < 2 ^ 32) (otherBound : other < 2 ^ 32) :
    bitmapBit (bitmapSetBits memory bitstring startbit count) bitstring other =
      (decide (startbit ≤ other ∧ other < startbit + count) ||
        bitmapBit memory bitstring other) := by
  induction count with
  | zero =>
      have outside : ¬(startbit ≤ other ∧ other < startbit + 0) := by omega
      rw [bitmapSetBits_zero, decide_eq_false outside, Bool.false_or]
  | succ count ih =>
      rw [bitmapSetBits_succ fits, bitmapBit_setBit allocated (by omega) otherBound,
        ih (by omega), ← Bool.or_assoc]
      congr 1
      rw [← Bool.decide_or, decide_eq_decide]
      omega

/-- A byte that holds none of the bits keeps its value, also when the end of the
loop wraps. -/
theorem bitmapSetBits_frame {address : ℕ}
    (other : ∀ i, startbit ≤ i → i < startbit + count → address ≠ offset bitstring (i / 8)) :
    bitmapSetBits memory bitstring startbit count address = memory address := by
  have turns : (startbit + count) % 2 ^ 32 ≤ startbit + count := Nat.mod_le _ _
  have outside : ∀ i ∈ List.range' startbit ((startbit + count) % 2 ^ 32 - startbit),
      address ≠ offset bitstring (i / 8) := by
    intro i member
    rw [List.mem_range'_1] at member
    exact other i member.1 (by omega)
  unfold bitmapSetBits
  generalize List.range' startbit ((startbit + count) % 2 ^ 32 - startbit) = bits at outside
  induction bits generalizing memory with
  | nil => rfl
  | cons bit bits ih =>
      rw [List.foldl_cons, ih fun i member => outside i (List.mem_cons_of_mem _ member)]
      exact bitmapSetBit_frame (outside bit List.mem_cons_self)

end Runs

end CatchOS.Utils
