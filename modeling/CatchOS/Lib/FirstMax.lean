import Mathlib.Data.List.Induction
import Mathlib.Order.Lattice

/-!
# The first maximum of a search

A loop goes through indices and keeps the best key seen so far with its index; a later
index replaces it only with a key that is strictly greater. An index may have no key,
and the loop starts from a key below those that count. Over increasing indices the loop
ends with the greatest key and the lowest index that has it (`FirstMax.of_foldl`).
-/

set_option autoImplicit false

namespace CatchOS.Lib

universe u v

variable {Index : Type u} {Key : Type v} [LinearOrder Key]

/-- One turn of the loop. -/
def keepGreater (key : Index → Option Key) (best : Key × Index) (i : Index) : Key × Index :=
  match key i with
  | some k => if best.1 < k then (k, i) else best
  | none => best

/-- What the loop has found among some indices, when it started from `bottom`. -/
structure FirstMax [Preorder Index] (key : Index → Option Key) (indices : List Index)
    (bottom : Key) (best : Key × Index) : Prop where
  start : bottom ≤ best.1
  most : ∀ i ∈ indices, ∀ k, key i = some k → k ≤ best.1
  found : bottom < best.1 → best.2 ∈ indices ∧ key best.2 = some best.1
  first : bottom < best.1 → ∀ i ∈ indices, key i = some best.1 → best.2 ≤ i

namespace FirstMax

variable [Preorder Index] {key : Index → Option Key} {indices : List Index} {bottom : Key}
  {best : Key × Index} {i : Index}

/-- An index that does not beat the best one changes nothing. -/
theorem skip (max : FirstMax key indices bottom best) (worse : ∀ k, key i = some k → k ≤ best.1)
    (above : ∀ j ∈ indices, j < i) : FirstMax key (indices ++ [i]) bottom best where
  start := max.start
  most := by
    intro j isIndex k hasKey
    rcases List.mem_append.mp isIndex with before | last
    · exact max.most j before k hasKey
    · rw [List.mem_singleton.mp last] at hasKey
      exact worse k hasKey
  found := by
    intro counts
    exact ⟨List.mem_append_left _ (max.found counts).1, (max.found counts).2⟩
  first := by
    intro counts j isIndex hasKey
    rcases List.mem_append.mp isIndex with before | last
    · exact max.first counts j before hasKey
    · rw [List.mem_singleton.mp last]
      exact (above _ (max.found counts).1).le

/-- An index with a greater key is the new best one. -/
theorem improve (max : FirstMax key indices bottom best) {k : Key} (hasKey : key i = some k)
    (better : best.1 < k) : FirstMax key (indices ++ [i]) bottom (k, i) where
  start := (max.start.trans_lt better).le
  most := by
    intro j isIndex other otherKey
    rcases List.mem_append.mp isIndex with before | last
    · exact (max.most j before other otherKey).trans better.le
    · rw [List.mem_singleton.mp last, hasKey, Option.some_inj] at otherKey
      exact otherKey.ge
  found := fun _ => ⟨List.mem_append_right _ List.mem_cons_self, hasKey⟩
  first := by
    intro _ j isIndex otherKey
    rcases List.mem_append.mp isIndex with before | last
    · exact absurd (max.most j before k otherKey) better.not_ge
    · rw [List.mem_singleton.mp last]

theorem step (max : FirstMax key indices bottom best) (above : ∀ j ∈ indices, j < i) :
    FirstMax key (indices ++ [i]) bottom (keepGreater key best i) := by
  unfold keepGreater
  cases hasKey : key i with
  | none =>
      refine max.skip (fun k some => ?_) above
      rw [hasKey] at some
      cases some
  | some k =>
      change FirstMax key _ bottom (if best.1 < k then (k, i) else best)
      split
      case isTrue better => exact max.improve hasKey better
      case isFalse worse =>
        refine max.skip (fun other some => ?_) above
        rw [hasKey, Option.some_inj] at some
        exact some ▸ not_lt.mp worse

/-- **The loop finds the first maximum.** The indices are increasing, so that the one
that is kept is below every later one. -/
theorem of_foldl (key : Index → Option Key) (bottom : Key) (start : Index)
    (indices : List Index) (increasing : indices.Pairwise (· < ·)) :
    FirstMax key indices bottom (indices.foldl (keepGreater key) (bottom, start)) := by
  induction indices using List.reverseRecOn with
  | nil =>
      refine ⟨le_rfl, fun i isIndex => ?_, fun counts => ?_, fun counts => ?_⟩
      · cases isIndex
      · exact absurd counts (lt_irrefl _)
      · exact absurd counts (lt_irrefl _)
  | append_singleton indices i ih =>
      obtain ⟨before, -, above⟩ := List.pairwise_append.mp increasing
      rw [List.foldl_append]
      exact (ih before).step fun j isIndex => above j isIndex i List.mem_cons_self

end FirstMax

end CatchOS.Lib
