import Mathlib.Data.Nat.Bitwise
import Mathlib.Data.Nat.Find
import Mathlib.Order.Bounds.Basic
import CatchOS.Utils.Bitmap

/-!
# The first set bit of a bitmap

`bitmap_find_first_set` reads a bitmap as words of 32 bits, and takes the number
of a bit in its word from the one-based `__builtin_ffsl`, which is 0 for a word
without a set bit. `bitmap_get_bit` reads single bytes. The two agree since bit
`b` of the word at byte `i` is bit `8 * i + b` of the bitmap (`testBit_loadWord`):
then the search is one over bit numbers, and its turns go over them in order.
-/

set_option autoImplicit false

namespace CatchOS.Utils

/-! ## The search -/

/-- `__builtin_ffsl` of the compiler: one more than the number of the lowest set
bit of a word, or 0 when there is none. -/
def builtinFfsl (word : ℕ) : ℤ :=
  match (List.range 32).find? fun bit => word.testBit bit with
  | some bit => bit + 1
  | none => 0

/-- The loop from the word at byte `i` on, with the turns that are left and the
value that `bitno` has. -/
def findFirstSetLoop (memory : Memory) (bitstring : ℕ) : ℕ → ℕ → ℤ → ℤ
  | 0, _, bitno => bitno
  | turns + 1, i, _ =>
      let bitno := builtinFfsl (loadWord memory (offset bitstring i))
      if bitno > 0 then
        -- The sum is that of an `int` and an `unsigned int`, stored in an `int`.
        int32 (bitno + (i * 8 : ℕ))
      else
        findFirstSetLoop memory bitstring turns (i + 4) bitno

/-- Only whole words are searched. -/
def bitmapFindFirstSet (memory : Memory) (bitstring maxbyte : ℕ) : ℤ :=
  if bitstring = 0 then
    -1
  else
    let leftover := maxbyte / 4 * 4
    int32 (findFirstSetLoop memory bitstring (leftover / 4) 0 0 - 1)

/-! ## The bits of a word -/

theorem builtinFfsl_eq_zero {word : ℕ} (clear : ∀ bit < 32, word.testBit bit = false) :
    builtinFfsl word = 0 := by
  have none : (List.range 32).find? (fun bit => word.testBit bit) = none := by
    rw [List.find?_eq_none]
    intro bit member
    rw [clear bit (List.mem_range.mp member)]
    exact Bool.false_ne_true
  rw [builtinFfsl, none]

theorem builtinFfsl_eq_succ {word bit : ℕ} (bound : bit < 32) (set : word.testBit bit = true)
    (clear : ∀ lower < bit, word.testBit lower = false) : builtinFfsl word = bit + 1 := by
  have some : (List.range 32).find? (fun bit => word.testBit bit) = some bit := by
    rw [List.find?_range_eq_some]
    refine ⟨set, List.mem_range.mpr bound, ?_⟩
    intro lower below
    rw [clear lower below, Bool.not_false]
  rw [builtinFfsl, some]

section Search

variable {memory : Memory} {bitstring : ℕ}

/-- A bit of the word at a byte of the bitmap is a bit of the bitmap. -/
theorem testBit_loadWord {i bit : ℕ} (bound : bit < 32) :
    (loadWord memory (offset bitstring i)).testBit bit =
      bitmapBit memory bitstring (8 * i + bit) := by
  have byteNo : (8 * i + bit) / 8 = i + bit / 8 := by omega
  have carryBit : (8 * i + bit) % 8 = bit % 8 := by omega
  have position : bit % 8 < 8 := Nat.mod_lt _ (by decide)
  have place : 8 * (bit / 8) + bit % 8 = bit := Nat.div_add_mod bit 8
  have byte : BitVec.ofNat 8 (loadWord memory (offset bitstring i) / 2 ^ (8 * (bit / 8))) =
      memory (offset (offset bitstring i) (bit / 8)) := byte_loadWord (by omega)
  rw [bitmapBit, byteNo, carryBit, ← offset_offset, ← byte, BitVec.getLsbD_ofNat,
    decide_eq_true position, Bool.true_and, Nat.testBit_div_two_pow, Nat.add_comm, place]

/-! ## The turns of the loop -/

/-- Words without a set bit are passed over. -/
theorem findFirstSetLoop_clear {turns i : ℕ}
    (clear : ∀ j, 8 * i ≤ j → j < 8 * (i + 4 * turns) → bitmapBit memory bitstring j = false) :
    findFirstSetLoop memory bitstring turns i 0 = 0 := by
  induction turns generalizing i with
  | zero => rfl
  | succ turns ih =>
      have word : builtinFfsl (loadWord memory (offset bitstring i)) = 0 := by
        apply builtinFfsl_eq_zero
        intro bit bound
        rw [testBit_loadWord bound]
        exact clear (8 * i + bit) (by omega) (by omega)
      simp only [findFirstSetLoop, word, gt_iff_lt, lt_self_iff_false, if_false]
      apply ih
      intro j first last
      exact clear j (by omega) (by omega)

/-- The loop stops at the word of the lowest set bit. -/
theorem findFirstSetLoop_set {turns i j : ℕ} {bitno : ℤ} (first : 8 * i ≤ j)
    (last : j < 8 * (i + 4 * turns)) (set : bitmapBit memory bitstring j = true)
    (clear : ∀ lower, 8 * i ≤ lower → lower < j → bitmapBit memory bitstring lower = false)
    (small : j + 1 < 2 ^ 31) :
    findFirstSetLoop memory bitstring turns i bitno = j + 1 := by
  induction turns generalizing i bitno with
  | zero => exact absurd last (by omega)
  | succ turns ih =>
      by_cases here : j < 8 * i + 32
      · have bit : 8 * i + (j - 8 * i) = j := by omega
        have word : builtinFfsl (loadWord memory (offset bitstring i)) = (j - 8 * i : ℕ) + 1 := by
          apply builtinFfsl_eq_succ (by omega)
          · rw [testBit_loadWord (by omega), bit]
            exact set
          · intro lower below
            rw [testBit_loadWord (by omega)]
            exact clear _ (by omega) (by omega)
        have positive : ((j - 8 * i : ℕ) : ℤ) + 1 > 0 := by omega
        have sum : ((j - 8 * i : ℕ) : ℤ) + 1 + (i * 8 : ℕ) = j + 1 := by omega
        simp only [findFirstSetLoop, word, if_pos positive, sum]
        exact int32_eq (by omega) (by omega)
      · have word : builtinFfsl (loadWord memory (offset bitstring i)) = 0 := by
          apply builtinFfsl_eq_zero
          intro bit bound
          rw [testBit_loadWord bound]
          exact clear _ (by omega) (by omega)
        simp only [findFirstSetLoop, word, gt_iff_lt, lt_self_iff_false, if_false]
        apply ih (by omega) (by omega)
        intro lower _ below
        exact clear lower (by omega) below

/-! ## The result -/

variable {maxbyte : ℕ}

theorem bitmapFindFirstSet_clear (allocated : bitstring ≠ 0)
    (clear : ∀ j < 8 * maxbyte, bitmapBit memory bitstring j = false) :
    bitmapFindFirstSet memory bitstring maxbyte = -1 := by
  have loop : findFirstSetLoop memory bitstring (maxbyte / 4 * 4 / 4) 0 0 = 0 := by
    apply findFirstSetLoop_clear
    intro j _ last
    exact clear j (by omega)
  simp only [bitmapFindFirstSet, if_neg allocated, loop]
  rfl

theorem bitmapFindFirstSet_set {j : ℕ} (allocated : bitstring ≠ 0) (words : maxbyte % 4 = 0)
    (small : maxbyte < 2 ^ 28) (bound : j < 8 * maxbyte)
    (set : bitmapBit memory bitstring j = true)
    (clear : ∀ lower < j, bitmapBit memory bitstring lower = false) :
    bitmapFindFirstSet memory bitstring maxbyte = j := by
  have loop : findFirstSetLoop memory bitstring (maxbyte / 4 * 4 / 4) 0 0 = j + 1 := by
    apply findFirstSetLoop_set (by omega) (by omega) set _ (by omega)
    exact fun lower _ below => clear lower below
  have result : (j : ℤ) + 1 - 1 = j := by omega
  simp only [bitmapFindFirstSet, if_neg allocated, loop, result]
  exact int32_eq (by omega) (by omega)

end Search

/-- **The first set bit.** On whole words the search gives -1 exactly when
`bitmap_get_bit` reads 0 at every bit, and else the least bit number where it
reads 1. -/
theorem bitmapFindFirstSet_spec (memory : Memory) (bitstring maxbyte : ℕ)
    (allocated : bitstring ≠ 0) (words : maxbyte % 4 = 0) (small : maxbyte < 2 ^ 28) :
    (bitmapFindFirstSet memory bitstring maxbyte = -1 ↔
      ∀ j < 8 * maxbyte, bitmapGetBit memory bitstring j = 0) ∧
    (bitmapFindFirstSet memory bitstring maxbyte ≠ -1 →
      ∃ j < 8 * maxbyte, bitmapFindFirstSet memory bitstring maxbyte = j ∧
        IsLeast {bitno | bitmapGetBit memory bitstring bitno = 1} j) := by
  simp only [bitmapGetBit_eq_zero allocated]
  by_cases clear : ∀ j < 8 * maxbyte, bitmapBit memory bitstring j = false
  · have result := bitmapFindFirstSet_clear allocated clear
    exact ⟨iff_of_true result clear, absurd result⟩
  · have exists_set : ∃ j, j < 8 * maxbyte ∧ bitmapBit memory bitstring j = true := by
      simpa using clear
    have least : ∀ lower < Nat.find exists_set, bitmapBit memory bitstring lower = false := by
      intro lower below
      have minimal := Nat.find_min exists_set below
      have bound := (Nat.find_spec exists_set).1
      exact Bool.eq_false_of_not_eq_true fun set => minimal ⟨by omega, set⟩
    obtain ⟨bound, set⟩ := Nat.find_spec exists_set
    have result := bitmapFindFirstSet_set allocated words small bound set least
    refine ⟨iff_of_false (by omega) clear, fun _ => ⟨_, bound, result, ?_, ?_⟩⟩
    · rw [Set.mem_ofPred_eq, bitmapGetBit_eq allocated, if_pos set]
    · intro bitno read
      rw [Set.mem_ofPred_eq] at read
      by_contra below
      have zero := (bitmapGetBit_eq_zero allocated).mpr (least bitno (not_le.mp below))
      omega

/-- A bitmap of two words whose first five bytes are zero and whose others are not: its
first set bit is bit 40. -/
theorem bitmapFindFirstSet_spec_at :
    ∃ j : ℕ, j < 64 ∧
      bitmapFindFirstSet (fun address => if address < 4101 then 0 else 255) 4096 8 = j ∧
      IsLeast {bitno | bitmapGetBit (fun address => if address < 4101 then 0 else 255) 4096 bitno
        = 1} j :=
  (bitmapFindFirstSet_spec (fun address => if address < 4101 then 0 else 255) 4096 8
    (by decide) (by decide) (by decide)).2 (by decide +kernel)

end CatchOS.Utils
