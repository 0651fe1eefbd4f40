import CatchOS.Utils.Bitmap

/-!
# Bitmaps as sets of bit numbers

What `bitmap.c` is for: a bitmap stands for a function from bit numbers to
Booleans, and its operations are the operations on such functions. `BitmapOp` is
one call of `bitmap_set_bit`, `bitmap_clear_bit`, `bitmap_toggle_bit` or
`bitmap_set_bits`; `perform` is what the call does to the memory and `apply`
what it means for the bits. A memory `Represents` the bits that `bitmap_get_bit`
reads in it. One call keeps a memory and its bits together, and so does every
sequence of calls.
-/

set_option autoImplicit false

namespace CatchOS.Utils

/-! ## Calls and their meaning -/

inductive BitmapOp where
  | setBit (bitno : ℕ)
  | clearBit (bitno : ℕ)
  | toggleBit (bitno : ℕ)
  | setBits (startbit count : ℕ)

namespace BitmapOp

/-- The call, on the bitmap at `bitstring`. -/
def perform (bitstring : ℕ) (memory : Memory) : BitmapOp → Memory
  | setBit bitno => bitmapSetBit memory bitstring bitno
  | clearBit bitno => bitmapClearBit memory bitstring bitno
  | toggleBit bitno => bitmapToggleBit memory bitstring bitno
  | setBits startbit count => bitmapSetBits memory bitstring startbit count

/-- The bits that are the call's own. -/
def Touches (j : ℕ) : BitmapOp → Prop
  | setBit bitno => j = bitno
  | clearBit bitno => j = bitno
  | toggleBit bitno => j = bitno
  | setBits startbit count => startbit ≤ j ∧ j < startbit + count

/-- What the call means for a function from bit numbers to Booleans. -/
def apply (bits : ℕ → Bool) : BitmapOp → ℕ → Bool
  | setBit bitno => Function.update bits bitno true
  | clearBit bitno => Function.update bits bitno false
  | toggleBit bitno => Function.update bits bitno (!bits bitno)
  | setBits startbit count => fun j =>
      if startbit ≤ j ∧ j < startbit + count then true else bits j

/-- The arguments are `unsigned int`s, and so is the end of a run of bits. -/
def Fits : BitmapOp → Prop
  | setBit bitno => bitno < 2 ^ 32
  | clearBit bitno => bitno < 2 ^ 32
  | toggleBit bitno => bitno < 2 ^ 32
  | setBits startbit count => startbit + count < 2 ^ 32

/-- A call on bits of an array of `bytes` bytes. -/
structure InRange (bytes : ℕ) (op : BitmapOp) : Prop where
  fits : op.Fits
  inside : ∀ j, op.Touches j → j < 8 * bytes

variable {bits : ℕ → Bool} {bitstring bytes : ℕ} {memory : Memory} {op : BitmapOp}

/-- A call means nothing for the bits that are not its own. -/
theorem apply_of_not_touches {j : ℕ} (other : ¬op.Touches j) : op.apply bits j = bits j := by
  cases op with
  | setBit bitno => exact Function.update_of_ne other _ _
  | clearBit bitno => exact Function.update_of_ne other _ _
  | toggleBit bitno => exact Function.update_of_ne other _ _
  | setBits startbit count => exact if_neg other

/-- A call writes the bytes of its own bits only. -/
theorem perform_frame {address : ℕ}
    (outside : ∀ j, op.Touches j → address ≠ offset bitstring (j / 8)) :
    op.perform bitstring memory address = memory address := by
  cases op with
  | setBit bitno => exact bitmapSetBit_frame (outside bitno rfl)
  | clearBit bitno => exact bitmapClearBit_frame (outside bitno rfl)
  | toggleBit bitno => exact bitmapToggleBit_frame (outside bitno rfl)
  | setBits startbit count =>
      exact bitmapSetBits_frame fun j first last => outside j ⟨first, last⟩

/-- A call on bits of an array leaves the memory outside of the array as it is. -/
theorem perform_outside {address : ℕ} (inRange : op.InRange bytes)
    (outside : ∀ k < bytes, address ≠ offset bitstring k) :
    op.perform bitstring memory address = memory address := by
  apply perform_frame
  intro j own
  have bound := inRange.inside j own
  exact outside (j / 8) (by omega)

end BitmapOp

/-! ## The bits a memory stands for -/

/-- Every bit of the bitmap has the value of the function. -/
def Represents (memory : Memory) (bitstring : ℕ) (bits : ℕ → Bool) : Prop :=
  ∀ j < 2 ^ 32, bitmapBit memory bitstring j = bits j

section Refinement

variable {memory : Memory} {bitstring bytes : ℕ} {bits : ℕ → Bool}

/-- A memory stands for the bits that are read in it. -/
theorem represents_getBit (allocated : bitstring ≠ 0) :
    Represents memory bitstring fun j => bitmapGetBit memory bitstring j == 1 := by
  intro j _
  simp only [bitmapGetBit_eq allocated]
  cases bitmapBit memory bitstring j <;> rfl

/-- One call on a bitmap is its meaning on the bits. -/
theorem Represents.perform {op : BitmapOp} (allocated : bitstring ≠ 0) (fits : op.Fits)
    (same : Represents memory bitstring bits) :
    Represents (op.perform bitstring memory) bitstring (op.apply bits) := by
  intro j bound
  have before := same j bound
  cases op with
  | setBit bitno =>
      rw [BitmapOp.perform, bitmapBit_setBit allocated fits bound, before, BitmapOp.apply,
        Function.update_apply]
      by_cases own : j = bitno
      · rw [decide_eq_true own, if_pos own, Bool.true_or]
      · rw [decide_eq_false own, if_neg own, Bool.false_or]
  | clearBit bitno =>
      rw [BitmapOp.perform, bitmapBit_clearBit allocated fits bound, before, BitmapOp.apply,
        Function.update_apply]
      by_cases own : j = bitno
      · rw [decide_eq_true own, if_pos own, Bool.not_true, Bool.false_and]
      · rw [decide_eq_false own, if_neg own, Bool.not_false, Bool.true_and]
  | toggleBit bitno =>
      rw [BitmapOp.perform, bitmapBit_toggleBit allocated fits bound, before, BitmapOp.apply,
        Function.update_apply]
      by_cases own : j = bitno
      · rw [decide_eq_true own, if_pos own, Bool.xor_true, own]
      · rw [decide_eq_false own, if_neg own, Bool.xor_false]
  | setBits startbit count =>
      rw [BitmapOp.perform, bitmapBit_setBits allocated fits bound, before]
      by_cases own : startbit ≤ j ∧ j < startbit + count
      · rw [decide_eq_true own, Bool.true_or]
        exact (if_pos own).symm
      · rw [decide_eq_false own, Bool.false_or]
        exact (if_neg own).symm

/-- A sequence of calls is its meaning on the bits. -/
theorem Represents.performAll {ops : List BitmapOp} (allocated : bitstring ≠ 0)
    (fits : ∀ op ∈ ops, op.Fits) (same : Represents memory bitstring bits) :
    Represents (ops.foldl (BitmapOp.perform bitstring) memory) bitstring
      (ops.foldl BitmapOp.apply bits) := by
  induction ops generalizing memory bits with
  | nil => exact same
  | cons op ops ih =>
      rw [List.foldl_cons, List.foldl_cons]
      apply ih
      · exact fun later member => fits later (List.mem_cons_of_mem _ member)
      · exact same.perform allocated (fits op List.mem_cons_self)

/-- A sequence of calls on bits of an array leaves the memory outside of it as it is. -/
theorem performAll_outside {ops : List BitmapOp} {address : ℕ}
    (inRange : ∀ op ∈ ops, op.InRange bytes)
    (outside : ∀ k < bytes, address ≠ offset bitstring k) :
    ops.foldl (BitmapOp.perform bitstring) memory address = memory address := by
  induction ops generalizing memory with
  | nil => rfl
  | cons op ops ih =>
      rw [List.foldl_cons, ih fun later member => inRange later (List.mem_cons_of_mem _ member)]
      exact BitmapOp.perform_outside (inRange op List.mem_cons_self) outside

end Refinement

/-! ## The bitmap refines the set -/

/-- **A bitmap is a set of bit numbers.** After every sequence of operations on
bits of an array, `bitmap_get_bit` reads at every bit number what the same
operations make of the bits that were there, one more operation changes no bit
but its own, `bitmap_get_bit_reverse` reads the same bits with those of each byte
in the other order, and no byte outside of the array has changed. -/
theorem bitmap_implements_set (memory : Memory) (bitstring bytes : ℕ) (ops : List BitmapOp)
    (allocated : bitstring ≠ 0) (inRange : ∀ op ∈ ops, op.InRange bytes) :
    let final := ops.foldl (BitmapOp.perform bitstring) memory
    (∀ j < 2 ^ 32, bitmapGetBit final bitstring j =
      if ops.foldl BitmapOp.apply (fun j => bitmapGetBit memory bitstring j == 1) j
        then 1 else 0) ∧
    (∀ op : BitmapOp, op.InRange bytes → ∀ j < 2 ^ 32, ¬op.Touches j →
      bitmapGetBit (op.perform bitstring final) bitstring j = bitmapGetBit final bitstring j) ∧
    (∀ k, ∀ i < 8, bitmapGetBitReverse final bitstring (8 * k + i) =
      bitmapGetBit final bitstring (8 * k + 7 - i)) ∧
    ∀ address, (∀ k < bytes, address ≠ offset bitstring k) → final address = memory address := by
  intro final
  have represents : Represents final bitstring
      (ops.foldl BitmapOp.apply fun j => bitmapGetBit memory bitstring j == 1) :=
    (represents_getBit allocated).performAll allocated fun op member => (inRange op member).fits
  refine ⟨?_, ?_, ?_, ?_⟩
  · intro j bound
    rw [bitmapGetBit_eq allocated, represents j bound]
  · intro op opInRange j bound other
    have after := represents.perform allocated opInRange.fits
    rw [bitmapGetBit_eq allocated, bitmapGetBit_eq allocated, after j bound,
      BitmapOp.apply_of_not_touches other, represents j bound]
  · intro k i bound
    exact bitmapGetBitReverse_eq bound
  · intro address outside
    exact performAll_outside inRange outside

/-- The operations of the test: in 16 bytes of zeros, bit 10 is set and cleared, a run of
seven bits is set from bit 35 on, and bit 79 is toggled. -/
theorem bitmap_implements_set_at :
    bitmapGetBit (List.foldl (BitmapOp.perform 4096) (fun _ => 0)
      [.setBit 10, .clearBit 10, .setBits 35 7, .toggleBit 79]) 4096 79 = 1 ∧
    bitmapGetBitReverse (List.foldl (BitmapOp.perform 4096) (fun _ => 0)
      [.setBit 10, .clearBit 10, .setBits 35 7, .toggleBit 79]) 4096 72 = 1 := by
  have inRange : ∀ op ∈ [BitmapOp.setBit 10, .clearBit 10, .setBits 35 7, .toggleBit 79],
      op.InRange 16 := by
    intro op member
    simp only [List.mem_cons, List.not_mem_nil, or_false] at member
    rcases member with rfl | rfl | rfl | rfl
    all_goals
      refine ⟨by simp [BitmapOp.Fits], fun j own => ?_⟩
      simp only [BitmapOp.Touches] at own
      omega
  have refined := bitmap_implements_set (fun _ => 0) 4096 16 _ (by decide) inRange
  have toggled : bitmapGetBit (List.foldl (BitmapOp.perform 4096) (fun _ => 0)
      [.setBit 10, .clearBit 10, .setBits 35 7, .toggleBit 79]) 4096 79 = 1 :=
    (refined.1 79 (by decide)).trans rfl
  exact ⟨toggled, (refined.2.2.1 9 0 (by decide)).trans toggled⟩

end CatchOS.Utils
