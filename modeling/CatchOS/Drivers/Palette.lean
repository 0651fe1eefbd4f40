import CatchOS.Lib.FirstMax
import CatchOS.Machine.Memory
import Mathlib.Algebra.Order.Ring.Abs
import Mathlib.Algebra.Order.Ring.Int
import Mathlib.Tactic.Ring

/-!
# The nearest colour of a palette

`svga_translate_rgb` (`svga.c`) for a framebuffer with a palette. The loop goes through the
colours and keeps the one with the least squared distance to the given red, green and blue. The
differences and products are of the type `int`, the distances are kept as `uint32_t`, and the
index is an `uint16_t`. The distance to start from is greater than that of any two colours.

An `int` that overflows has no value, so that a result says that none of them did. The loop is
the search for the first maximum in the reversed order of the distances.
-/

set_option autoImplicit false

namespace CatchOS.Drivers

open CatchOS.Lib

/-! ## The function -/

/-- `struct multiboot_color`. -/
structure MultibootColor where
  red : Byte
  green : Byte
  blue : Byte

/-- The value of an expression of the type `int`, or nothing if it overflows. -/
def intValue (value : ℤ) : Option ℤ :=
  if -(2 ^ 31) ≤ value ∧ value < 2 ^ 31 then some value else none

/-- `(x - y) * (x - y)`. -/
def squareOfDifference (x y : Byte) : Option ℤ := do
  let difference ← intValue (x.toNat - y.toNat)
  intValue (difference * difference)

/-- `distance`, converted to an `uint32_t`. -/
def colorDistance (r g b : Byte) (color : MultibootColor) : Option ℕ := do
  let blue ← squareOfDifference b color.blue
  let red ← squareOfDifference r color.red
  let sum ← intValue (blue + red)
  let green ← squareOfDifference g color.green
  let sum ← intValue (sum + green)
  return (sum % 2 ^ 32).toNat

/-- The loop, with `best_distance` and `color`; it has no result if the turns are used up. -/
def paletteLoop (palette : ℕ → MultibootColor) (numColors : ℕ) (r g b : Byte) :
    ℕ → ℕ → ℕ × ℕ → Option ℕ
  | 0, _, _ => none
  | turns + 1, i, best =>
      if i < numColors then do
        let distance ← colorDistance r g b (palette i)
        paletteLoop palette numColors r g b turns ((i + 1) % 2 ^ 16)
          (if distance < best.1 then (distance, i) else best)
      else some best.2

/-- `svga_translate_rgb` with a palette. The index has 16 bits, so after `2 ^ 16` turns the loop
begins again. -/
def svgaTranslateRgbIndexed (palette : ℕ → MultibootColor) (numColors : ℕ) (r g b : Byte) :
    Option ℕ :=
  paletteLoop palette numColors r g b (2 ^ 16) 0 (4 * 256 * 256, 0)

/-! ## The distance -/

/-- The squared distance of a colour. -/
def squaredDistance (r g b : Byte) (color : MultibootColor) : ℤ :=
  ((r.toNat : ℤ) - color.red.toNat) ^ 2 + ((g.toNat : ℤ) - color.green.toNat) ^ 2 +
    ((b.toNat : ℤ) - color.blue.toNat) ^ 2

theorem intValue_eq {value : ℤ} (lower : -(2 ^ 31) ≤ value) (upper : value < 2 ^ 31) :
    intValue value = some value :=
  if_pos ⟨lower, upper⟩

theorem square_bounds (x y : Byte) :
    0 ≤ ((x.toNat : ℤ) - y.toNat) ^ 2 ∧ ((x.toNat : ℤ) - y.toNat) ^ 2 ≤ 255 ^ 2 := by
  have below := x.isLt
  have above := y.isLt
  refine ⟨sq_nonneg _, sq_le_sq' ?_ ?_⟩ <;> omega

theorem squareOfDifference_eq (x y : Byte) :
    squareOfDifference x y = some (((x.toNat : ℤ) - y.toNat) ^ 2) := by
  have below := x.isLt
  have above := y.isLt
  obtain ⟨lower, upper⟩ := square_bounds x y
  rw [squareOfDifference, intValue_eq (by omega) (by omega), Option.bind_eq_bind,
    Option.bind_some, ← sq, intValue_eq (by omega) (by omega)]

variable {r g b : Byte}

theorem squaredDistance_bounds (color : MultibootColor) :
    0 ≤ squaredDistance r g b color ∧ squaredDistance r g b color < 4 * 256 * 256 := by
  obtain ⟨redLower, redUpper⟩ := square_bounds r color.red
  obtain ⟨greenLower, greenUpper⟩ := square_bounds g color.green
  obtain ⟨blueLower, blueUpper⟩ := square_bounds b color.blue
  rw [squaredDistance]
  omega

/-- **No overflow**: the distance is computed as it is. -/
theorem colorDistance_eq (color : MultibootColor) :
    colorDistance r g b color = some (squaredDistance r g b color).toNat := by
  obtain ⟨redLower, redUpper⟩ := square_bounds r color.red
  obtain ⟨greenLower, greenUpper⟩ := square_bounds g color.green
  obtain ⟨blueLower, blueUpper⟩ := square_bounds b color.blue
  simp only [colorDistance, squareOfDifference_eq, Option.bind_eq_bind, Option.bind_some]
  rw [intValue_eq (by omega) (by omega), Option.bind_some, intValue_eq (by omega) (by omega),
    Option.bind_some, Int.emod_eq_of_lt (by omega) (by omega)]
  refine congrArg (fun sum => some (Int.toNat sum)) ?_
  rw [squaredDistance]
  ring

/-! ## The search -/

variable {palette : ℕ → MultibootColor} {numColors : ℕ}

/-- The distance of an index, in the order in which less is more. -/
def closeness (palette : ℕ → MultibootColor) (r g b : Byte) (i : ℕ) : Option ℕᵒᵈ :=
  some (OrderDual.toDual (squaredDistance r g b (palette i)).toNat)

/-- A turn keeps the closer colour. -/
theorem keep_closer (best : ℕ × ℕ) (i : ℕ) :
    keepGreater (closeness palette r g b) (OrderDual.toDual best.1, best.2) i =
      (OrderDual.toDual (if (squaredDistance r g b (palette i)).toNat < best.1
          then ((squaredDistance r g b (palette i)).toNat, i) else best).1,
        (if (squaredDistance r g b (palette i)).toNat < best.1
          then ((squaredDistance r g b (palette i)).toNat, i) else best).2) := by
  change (if (squaredDistance r g b (palette i)).toNat < best.1 then _ else _) = _
  split <;> rfl

/-- The rest of the loop is a search through the rest of the indices. -/
theorem paletteLoop_eq (word : numColors < 2 ^ 16) {turns i : ℕ} (reached : i ≤ numColors)
    (enough : numColors - i < turns) (best : ℕ × ℕ) :
    paletteLoop palette numColors r g b turns i best =
      some ((List.range' i (numColors - i)).foldl (keepGreater (closeness palette r g b))
        (OrderDual.toDual best.1, best.2)).2 := by
  induction turns generalizing i best with
  | zero => exact absurd enough (Nat.not_lt_zero _)
  | succ turns ih =>
      rw [paletteLoop]
      rcases Nat.lt_or_eq_of_le reached with more | rfl
      · obtain ⟨rest, isRest⟩ : ∃ rest, numColors - i = rest + 1 :=
          Nat.exists_eq_succ_of_ne_zero (Nat.sub_pos_of_lt more).ne'
        have next : numColors - (i + 1) = rest := by omega
        have noWrap : (i + 1) % 2 ^ 16 = i + 1 := Nat.mod_eq_of_lt (by omega)
        rw [if_pos more, colorDistance_eq, Option.bind_eq_bind, Option.bind_some, noWrap,
          ih more (by omega), next, isRest, List.range'_succ, List.foldl_cons, keep_closer]
      · rw [if_neg (lt_irrefl _), Nat.sub_self]
        rfl

/-- The index of the nearest colour, and the lowest one of it. -/
structure Nearest (palette : ℕ → MultibootColor) (numColors : ℕ) (r g b : Byte)
    (color : ℕ) : Prop where
  inside : color < numColors
  least : ∀ i < numColors,
    squaredDistance r g b (palette color) ≤ squaredDistance r g b (palette i)
  first : ∀ i < numColors,
    squaredDistance r g b (palette i) = squaredDistance r g b (palette color) → color ≤ i

/-- **The nearest colour is found**, without an overflow on the way. -/
theorem svgaTranslateRgbIndexed_nearest (nonempty : 0 < numColors) (word : numColors < 2 ^ 16) :
    ∃ color, svgaTranslateRgbIndexed palette numColors r g b = some color ∧
      Nearest palette numColors r g b color := by
  have found := FirstMax.of_foldl (closeness palette r g b)
    (OrderDual.toDual (4 * 256 * 256)) 0 (List.range' 0 numColors) List.pairwise_lt_range'
  refine ⟨_, paletteLoop_eq word (Nat.zero_le _) ((Nat.sub_le _ _).trans_lt word) _, ?_⟩
  generalize (List.range' 0 numColors).foldl (keepGreater (closeness palette r g b))
    (OrderDual.toDual (4 * 256 * 256), 0) = best at found
  have isIndex {i : ℕ} (bound : i < numColors) : i ∈ List.range' 0 numColors :=
    List.mem_range'_1.mpr ⟨Nat.zero_le i, by rwa [Nat.zero_add]⟩
  have most {i : ℕ} (bound : i < numColors) :
      OrderDual.ofDual best.1 ≤ (squaredDistance r g b (palette i)).toNat :=
    found.most i (isIndex bound) _ rfl
  have bounds (i : ℕ) := @squaredDistance_bounds r g b (palette i)
  have counts : OrderDual.toDual (4 * 256 * 256) < best.1 := by
    refine OrderDual.toDual_lt.mpr ((most nonempty).trans_lt ?_)
    have first := bounds 0
    omega
  obtain ⟨member, hasKey⟩ := found.found counts
  have isBest : (squaredDistance r g b (palette best.2)).toNat = OrderDual.ofDual best.1 :=
    Option.some.inj hasKey
  refine ⟨?_, fun i bound => ?_, fun i bound same => ?_⟩
  · have upper := (List.mem_range'_1.mp member).2
    rwa [Nat.zero_add] at upper
  · have least := most bound
    rw [← isBest] at least
    have nonneg := bounds i
    omega
  · refine found.first counts i (isIndex bound) ?_
    rw [closeness, same]
    exact hasKey

theorem svgaTranslateRgbIndexed_nearest_tie :
    ∃ color, svgaTranslateRgbIndexed
        (fun i => if i = 0 then ⟨0, 0, 0⟩ else ⟨255, 255, 255⟩) 3 200 200 200 = some color ∧
      Nearest (fun i => if i = 0 then ⟨0, 0, 0⟩ else ⟨255, 255, 255⟩) 3 200 200 200 color :=
  svgaTranslateRgbIndexed_nearest (by decide) (by decide)

end CatchOS.Drivers
