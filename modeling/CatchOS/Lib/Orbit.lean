import Mathlib.Data.Int.GCD
import Mathlib.Data.Nat.ModEq
import Mathlib.Tactic.Ring

/-!
# Adding a number again and again

Adding a step to a number modulo some modulus, again and again, comes to every number of the
same class modulo the greatest common divisor of the step and the modulus. The last one of
the class decides which bounds are reached (`exists_reaches_iff`). For a step of zero the
class is the number itself.
-/

set_option autoImplicit false

namespace CatchOS.Lib

/-- The last number below the modulus that is equal to `start` modulo a divisor. -/
def lastOfClass (modulus divisor start : ℕ) : ℕ := modulus - divisor + start % divisor

section Class

variable {modulus divisor start : ℕ}

theorem lastOfClass_lt (positive : 0 < modulus) (divides : divisor ∣ modulus) :
    lastOfClass modulus divisor start < modulus := by
  have nonzero := Nat.pos_of_dvd_of_pos divides positive
  have atMost := Nat.le_of_dvd positive divides
  have rest := Nat.mod_lt start nonzero
  unfold lastOfClass
  omega

theorem le_lastOfClass (small : start < modulus) (divides : divisor ∣ modulus) :
    start ≤ lastOfClass modulus divisor start := by
  have whole : start / divisor < modulus / divisor := Nat.div_lt_div_of_lt_of_dvd divides small
  have scaled := Nat.mul_le_mul_left divisor (Nat.succ_le_of_lt whole)
  rw [Nat.mul_succ, Nat.mul_div_cancel' divides] at scaled
  have split := Nat.div_add_mod start divisor
  unfold lastOfClass
  omega

theorem lastOfClass_modEq (divides : divisor ∣ modulus) :
    lastOfClass modulus divisor start ≡ start [MOD divisor] := by
  have multiple : modulus - divisor ≡ 0 [MOD divisor] :=
    Nat.modEq_zero_iff_dvd.mpr (Nat.dvd_sub divides (dvd_refl divisor))
  have sum := multiple.add (Nat.mod_modEq start divisor)
  rwa [Nat.zero_add] at sum

end Class

section Orbit

variable {modulus start : ℕ} (step : ℕ)

/-- The last number of the class is reached. -/
theorem exists_eq_lastOfClass (small : start < modulus) :
    ∃ n, (start + n * step) % modulus = lastOfClass modulus (Nat.gcd step modulus) start := by
  have positive : 0 < modulus := Nat.zero_lt_of_lt small
  have divides := Nat.gcd_dvd_right step modulus
  rcases Nat.lt_or_ge (Nat.gcd step modulus) modulus with less | whole
  · obtain ⟨m, -, unit⟩ := Nat.exists_mul_mod_eq_gcd less
    -- it is `count` times the greatest common divisor away, and `m` steps make up for one
    obtain ⟨count, away⟩ :=
      (Nat.modEq_iff_dvd' (le_lastOfClass small divides)).mp (lastOfClass_modEq divides).symm
    have distance : lastOfClass modulus (Nat.gcd step modulus) start =
        start + Nat.gcd step modulus * count := by
      rw [← away, Nat.add_sub_cancel' (le_lastOfClass small divides)]
    have steps : step * m ≡ Nat.gcd step modulus [MOD modulus] := by
      rw [Nat.ModEq, unit, Nat.mod_eq_of_lt less]
    have arrives : start + m * count * step ≡
        start + Nat.gcd step modulus * count [MOD modulus] := by
      have scaled := (steps.mul_right count).add_left start
      have order : step * m * count = m * count * step := by ring
      rwa [order] at scaled
    refine ⟨m * count, ?_⟩
    rw [distance, arrives, ← distance, Nat.mod_eq_of_lt (lastOfClass_lt positive divides)]
  · have isModulus : Nat.gcd step modulus = modulus :=
      Nat.le_antisymm (Nat.le_of_dvd positive divides) whole
    refine ⟨0, ?_⟩
    rw [isModulus, lastOfClass, Nat.sub_self, Nat.zero_add, Nat.zero_mul, Nat.add_zero]

/-- **A bound is reached** exactly if the last number of the class reaches it. -/
theorem exists_reaches_iff {bound : ℕ} (small : start < modulus) :
    (∃ n, bound ≤ (start + n * step) % modulus) ↔
      bound ≤ lastOfClass modulus (Nat.gcd step modulus) start := by
  have divides := Nat.gcd_dvd_right step modulus
  constructor
  · rintro ⟨n, reaches⟩
    have below := le_lastOfClass (Nat.mod_lt (start + n * step) (Nat.zero_lt_of_lt small)) divides
    have sameClass : (start + n * step) % modulus % Nat.gcd step modulus =
        start % Nat.gcd step modulus := by
      rw [Nat.mod_mod_of_dvd _ divides]
      have multiple : n * step ≡ 0 [MOD Nat.gcd step modulus] :=
        Nat.modEq_zero_iff_dvd.mpr ((Nat.gcd_dvd_left step modulus).mul_left n)
      exact multiple.add_left start
    rw [lastOfClass, sameClass] at below
    exact reaches.trans below
  · intro reaches
    obtain ⟨n, arrives⟩ := exists_eq_lastOfClass step small
    exact ⟨n, arrives ▸ reaches⟩

end Orbit

end CatchOS.Lib
