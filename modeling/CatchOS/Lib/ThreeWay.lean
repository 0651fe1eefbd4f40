import Mathlib.Algebra.Order.Group.Int
import Mathlib.Data.List.Lex

/-!
# Three-way comparison

A comparison that returns a number says by its sign which of two values comes first. On a
linear order this is `threeWay`: zero on equal values, negated when they are swapped, and
transitive. Lists are ordered lexicographically, so the comparison of two lists is that of
the first elements, unless these are equal.
-/

set_option autoImplicit false

namespace CatchOS.Lib

universe u

variable {α : Type u} [LinearOrder α] {a b c : α}

def threeWay (a b : α) : ℤ := if a < b then -1 else if b < a then 1 else 0

theorem threeWay_self (a : α) : threeWay a a = 0 := by
  rw [threeWay, if_neg (lt_irrefl a), if_neg (lt_irrefl a)]

theorem threeWay_of_lt (less : a < b) : threeWay a b = -1 := if_pos less

theorem threeWay_of_gt (greater : b < a) : threeWay a b = 1 := by
  rw [threeWay, if_neg greater.not_gt, if_pos greater]

theorem threeWay_neg_iff : threeWay a b < 0 ↔ a < b := by
  obtain less | rfl | greater := lt_trichotomy a b
  · rw [threeWay_of_lt less]
    exact iff_of_true (by decide) less
  · rw [threeWay_self]
    exact iff_of_false (by decide) (lt_irrefl a)
  · rw [threeWay_of_gt greater]
    exact iff_of_false (by decide) greater.not_gt

/-- Swapping the values negates the result. -/
theorem threeWay_swap (a b : α) : threeWay b a = -threeWay a b := by
  obtain less | rfl | greater := lt_trichotomy a b
  · rw [threeWay_of_lt less, threeWay_of_gt less]
    rfl
  · rw [threeWay_self]
    rfl
  · rw [threeWay_of_gt greater, threeWay_of_lt greater]

theorem threeWay_pos_iff : 0 < threeWay a b ↔ b < a := by
  have swapped := threeWay_swap a b
  rw [← @threeWay_neg_iff _ _ b a, swapped, Int.neg_neg_iff_pos]

theorem threeWay_eq_zero_iff : threeWay a b = 0 ↔ a = b := by
  constructor
  · intro zero
    refine le_antisymm (not_lt.mp fun greater => ?_) (not_lt.mp fun less => ?_)
    · exact (threeWay_pos_iff.mpr greater).ne' zero
    · exact (threeWay_neg_iff.mpr less).ne zero
  · rintro rfl
    exact threeWay_self a

theorem threeWay_nonpos_iff : threeWay a b ≤ 0 ↔ a ≤ b := by
  rw [← not_lt, threeWay_pos_iff, not_lt]

theorem threeWay_trans (first : threeWay a b ≤ 0) (second : threeWay b c ≤ 0) :
    threeWay a c ≤ 0 :=
  threeWay_nonpos_iff.mpr ((threeWay_nonpos_iff.mp first).trans (threeWay_nonpos_iff.mp second))

/-! ## Lists -/

section Lists

variable {as bs : List α}

theorem threeWay_nil_cons : threeWay ([] : List α) (b :: bs) = -1 :=
  threeWay_of_lt List.Lex.nil

theorem threeWay_cons_nil : threeWay (a :: as) [] = 1 :=
  threeWay_of_gt List.Lex.nil

/-- The first elements decide, unless they are equal. -/
theorem threeWay_cons_of_ne (different : a ≠ b) :
    threeWay (a :: as) (b :: bs) = if a < b then -1 else 1 := by
  obtain less | greater := lt_or_gt_of_ne different
  · rw [if_pos less]
    exact threeWay_of_lt (List.Lex.rel less)
  · rw [if_neg greater.not_gt]
    exact threeWay_of_gt (List.Lex.rel greater)

theorem threeWay_cons_self : threeWay (a :: as) (a :: bs) = threeWay as bs := by
  obtain less | rfl | greater := lt_trichotomy as bs
  · rw [threeWay_of_lt less]
    exact threeWay_of_lt (List.Lex.cons less)
  · rw [threeWay_self, threeWay_self]
  · rw [threeWay_of_gt greater]
    exact threeWay_of_gt (List.Lex.cons greater)

end Lists

end CatchOS.Lib
