import Mathlib.Algebra.BigOperators.Group.Finset.Piecewise
import Mathlib.Algebra.Order.BigOperators.Group.Finset
import Mathlib.Algebra.Ring.Int.Defs
import Mathlib.Data.Fintype.BigOperators

/-!
# Counting the threads of a system

A weight on the places a thread can be in gives a total over all threads. When
one thread moves, the total changes by the weights of its old and its new place
(`total_update`), whatever the other threads do. An invariant that ties shared
counters to such totals is therefore checked on the place of the moving thread
alone.

The weights are integers, so that a counter of the program may be compared with
a total directly.
-/

set_option autoImplicit false

namespace CatchOS.Lib

open Finset

variable {Thread Place : Type*} [Fintype Thread]

/-- The total of a weight over the places of all threads. -/
def total (weight : Place → ℤ) (place : Thread → Place) : ℤ :=
  ∑ thread, weight (place thread)

/-- **One thread moves.** The total loses the weight of the place it leaves and
gains the weight of the place it enters. -/
theorem total_update [DecidableEq Thread] (weight : Place → ℤ) (place : Thread → Place)
    (mover : Thread) (target : Place) :
    total weight (Function.update place mover target) =
      total weight place - weight (place mover) + weight target := by
  have rest : ∑ thread ∈ univ.erase mover, weight (Function.update place mover target thread) =
      ∑ thread ∈ univ.erase mover, weight (place thread) := by
    refine sum_congr rfl fun thread member => ?_
    rw [Function.update_of_ne (ne_of_mem_erase member)]
  have before := add_sum_erase univ (fun thread => weight (place thread)) (mem_univ mover)
  have after := add_sum_erase univ
    (fun thread => weight (Function.update place mover target thread)) (mem_univ mover)
  simp only [Function.update_self] at before after
  rw [rest] at after
  simp only [total]
  omega

theorem total_nonneg {weight : Place → ℤ} (nonneg : ∀ place, 0 ≤ weight place)
    (place : Thread → Place) : 0 ≤ total weight place :=
  sum_nonneg fun thread _ => nonneg (place thread)

/-- One thread's weight is at most the total. -/
theorem le_total {weight : Place → ℤ} (nonneg : ∀ place, 0 ≤ weight place)
    (place : Thread → Place) (thread : Thread) : weight (place thread) ≤ total weight place :=
  single_le_sum (f := fun thread => weight (place thread))
    (fun thread _ => nonneg (place thread)) (mem_univ thread)

/-- A weight that is smaller at every place has the smaller total. -/
theorem total_le_total {lower upper : Place → ℤ} (below : ∀ place, lower place ≤ upper place)
    (place : Thread → Place) : total lower place ≤ total upper place :=
  sum_le_sum fun thread _ => below (place thread)

/-- A weight of at most one is at most the number of threads in total. -/
theorem total_le_card {weight : Place → ℤ} (bounded : ∀ place, weight place ≤ 1)
    (place : Thread → Place) : total weight place ≤ Fintype.card Thread := by
  have bound : total weight place ≤ univ.card • (1 : ℤ) :=
    sum_le_card_nsmul univ _ 1 fun thread _ => bounded (place thread)
  rwa [card_univ, nsmul_eq_mul, mul_one] at bound

theorem total_add (first second : Place → ℤ) (place : Thread → Place) :
    total (fun place => first place + second place) place =
      total first place + total second place :=
  sum_add_distrib

theorem total_sub (first second : Place → ℤ) (place : Thread → Place) :
    total (fun place => first place - second place) place =
      total first place - total second place :=
  sum_sub_distrib _ _

/-- A total is zero when every thread is at a place of weight zero. -/
theorem total_eq_zero {weight : Place → ℤ} {place : Thread → Place}
    (zero : ∀ thread, weight (place thread) = 0) : total weight place = 0 :=
  sum_eq_zero fun thread _ => zero thread

/-- Two different threads contribute both their weights to a total. -/
theorem add_le_total {weight : Place → ℤ} (nonneg : ∀ place, 0 ≤ weight place)
    (place : Thread → Place) {first second : Thread} (different : first ≠ second) :
    weight (place first) + weight (place second) ≤ total weight place := by
  classical
  have pair : ∑ thread ∈ {first, second}, weight (place thread) ≤ total weight place :=
    sum_le_sum_of_subset_of_nonneg (subset_univ _) fun thread _ _ => nonneg (place thread)
  rwa [sum_pair different] at pair

/-- When the total of a weight is at most one, at most one thread has weight
one. -/
theorem eq_of_total_le_one {weight : Place → ℤ} (nonneg : ∀ place, 0 ≤ weight place)
    {place : Thread → Place} (bound : total weight place ≤ 1) {first second : Thread}
    (atFirst : weight (place first) = 1) (atSecond : weight (place second) = 1) :
    first = second := by
  by_contra different
  have both := add_le_total nonneg place different
  omega

end CatchOS.Lib
