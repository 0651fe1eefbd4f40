import Mathlib.Algebra.GroupWithZero.Nat
import Mathlib.Data.Finset.Basic
import Mathlib.Data.Nat.Notation
import Mathlib.Order.Interval.Finset.Nat

/-!
# Extents and ownership of numbered units

An extent is a run of numbered units (bytes, pages) given by its start and its
size. `Apart` says that two extents have no unit in common, and `Inside` that all
units of one are units of the other. `Stacked` extents are those of an allocator that
only moves upwards, and `alignUp` is where it places an aligned one.

A ledger records who owns which unit: the units that are reserved, and the
extents that are live, that is granted and not released. `grant`, `release` and
`reserve` are the three ways it changes, and the lemmas say which units are
`Used` afterwards. An extent may be granted when none of its units is used
(`Vacant`); then the live extents stay pairwise apart.
-/

set_option autoImplicit false

namespace CatchOS.Lib

structure Extent where
  start : ℕ
  size : ℕ
  deriving DecidableEq

namespace Extent

/-- The unit is one of the extent. -/
def Contains (extent : Extent) (unit : ℕ) : Prop :=
  extent.start ≤ unit ∧ unit < extent.start + extent.size

instance (extent : Extent) (unit : ℕ) : Decidable (extent.Contains unit) :=
  inferInstanceAs (Decidable (_ ∧ _))

theorem contains_mk {start size unit : ℕ} (above : start ≤ unit) (below : unit < start + size) :
    Contains ⟨start, size⟩ unit :=
  ⟨above, below⟩

/-- The extents have no unit in common. -/
def Apart (first second : Extent) : Prop :=
  ∀ unit, first.Contains unit → ¬second.Contains unit

theorem Apart.symm {first second : Extent} (apart : first.Apart second) : second.Apart first := by
  intro unit inSecond inFirst
  exact apart unit inFirst inSecond

/-- A unit of one extent comes before the other one or after it. -/
theorem Apart.outside {start size unit : ℕ} {other : Extent} (apart : Apart ⟨start, size⟩ other)
    (contained : other.Contains unit) : unit < start ∨ start + size ≤ unit := by
  by_contra inside
  exact apart unit (contains_mk (by omega) (by omega)) contained

/-- An extent that ends where the other one starts, or before. -/
theorem apart_of_le {first second : Extent} (ends : first.start + first.size ≤ second.start) :
    first.Apart second := by
  intro unit inFirst inSecond
  have below := inFirst.2
  have above := inSecond.1
  omega

/-- Every unit of the inner extent is one of the outer extent. -/
def Inside (inner outer : Extent) : Prop :=
  ∀ unit, inner.Contains unit → outer.Contains unit

theorem inside_of_le {inner outer : Extent} (starts : outer.start ≤ inner.start)
    (ends : inner.start + inner.size ≤ outer.start + outer.size) : inner.Inside outer := by
  intro unit contained
  have below := contained.2
  exact ⟨Nat.le_trans starts contained.1, by omega⟩

theorem Inside.apart {inner outer other : Extent} (inside : inner.Inside outer)
    (apart : outer.Apart other) : inner.Apart other := by
  intro unit contained
  exact apart unit (inside unit contained)

/-- Extents are apart when one of them is empty or ends where the other starts. -/
theorem apart_iff {first second : Extent} :
    first.Apart second ↔ first.size = 0 ∨ second.size = 0 ∨
      first.start + first.size ≤ second.start ∨ second.start + second.size ≤ first.start := by
  constructor
  · intro apart
    by_contra meets
    have inFirst : first.Contains (max first.start second.start) := by
      unfold Contains
      omega
    have inSecond : second.Contains (max first.start second.start) := by
      unfold Contains
      omega
    exact apart _ inFirst inSecond
  · intro order unit inFirst inSecond
    unfold Contains at inFirst inSecond
    omega

instance (first second : Extent) : Decidable (first.Apart second) :=
  decidable_of_iff _ apart_iff.symm

theorem mem_Ico_iff {extent : Extent} {unit : ℕ} :
    unit ∈ Finset.Ico extent.start (extent.start + extent.size) ↔ extent.Contains unit :=
  Finset.mem_Ico

end Extent

/-- Extents that are apart have together at most as many units as they lie in. -/
theorem sum_size_le {extents : List Extent} {limit : ℕ} (apart : extents.Pairwise Extent.Apart)
    (inside : ∀ extent ∈ extents, extent.start + extent.size ≤ limit) :
    (extents.map Extent.size).sum ≤ limit := by
  have units : ∃ owned : Finset ℕ, (∀ unit, unit ∈ owned ↔ ∃ extent ∈ extents,
      extent.Contains unit) ∧ owned.card = (extents.map Extent.size).sum := by
    clear inside
    induction extents with
    | nil => exact ⟨∅, by simp, rfl⟩
    | cons extent extents ih =>
        obtain ⟨fromRest, apartRest⟩ := List.pairwise_cons.mp apart
        obtain ⟨owned, covers, count⟩ := ih apartRest
        have disjoint : Disjoint (Finset.Ico extent.start (extent.start + extent.size)) owned := by
          rw [Finset.disjoint_left]
          intro unit here there
          obtain ⟨other, member, contained⟩ := (covers unit).mp there
          exact fromRest other member unit (Extent.mem_Ico_iff.mp here) contained
        refine ⟨Finset.Ico extent.start (extent.start + extent.size) ∪ owned, ?_, ?_⟩
        · intro unit
          rw [Finset.mem_union, Extent.mem_Ico_iff, covers, List.exists_mem_cons_iff]
        · rw [Finset.card_union_of_disjoint disjoint, Nat.card_Ico, count, List.map_cons,
            List.sum_cons, Nat.add_sub_cancel_left]
  obtain ⟨owned, covers, count⟩ := units
  have below : owned ⊆ Finset.range limit := by
    intro unit member
    obtain ⟨extent, isExtent, contained⟩ := (covers unit).mp member
    exact Finset.mem_range.mpr (Nat.lt_of_lt_of_le contained.2 (inside extent isExtent))
  have bound := Finset.card_le_card below
  rwa [count, Finset.card_range] at bound

/-! ## Extents placed upwards -/

/-- The least multiple of `alignment` from `unit` on. -/
def alignUp (alignment unit : ℕ) : ℕ := (unit + (alignment - 1)) / alignment * alignment

theorem alignUp_mod (alignment unit : ℕ) : alignUp alignment unit % alignment = 0 :=
  Nat.mul_mod_left _ _

theorem le_alignUp {alignment : ℕ} (positive : 0 < alignment) (unit : ℕ) :
    unit ≤ alignUp alignment unit := by
  have split := Nat.div_add_mod (unit + (alignment - 1)) alignment
  have remainder := Nat.mod_lt (unit + (alignment - 1)) positive
  rw [Nat.mul_comm] at split
  unfold alignUp
  omega

theorem alignUp_lt {alignment : ℕ} (positive : 0 < alignment) (unit : ℕ) :
    alignUp alignment unit < unit + alignment := by
  have below := Nat.div_mul_le_self (unit + (alignment - 1)) alignment
  unfold alignUp
  omega

theorem alignUp_le {alignment unit other : ℕ} (positive : 0 < alignment) (above : unit ≤ other)
    (aligned : other % alignment = 0) : alignUp alignment unit ≤ other := by
  obtain ⟨quotient, rfl⟩ := Nat.dvd_of_mod_eq_zero aligned
  unfold alignUp
  rw [Nat.mul_comm alignment quotient]
  apply Nat.mul_le_mul_right
  apply Nat.le_of_lt_succ
  rw [Nat.div_lt_iff_lt_mul positive, Nat.succ_mul, Nat.mul_comm quotient alignment]
  omega

/-- Extents that were placed one above the other between `floor` and `top`. -/
structure Stacked (floor top : ℕ) (extents : List Extent) : Prop where
  apart : extents.Pairwise Extent.Apart
  inside : ∀ extent ∈ extents, floor ≤ extent.start ∧ extent.start + extent.size ≤ top

theorem Stacked.nil (floor top : ℕ) : Stacked floor top [] where
  apart := List.Pairwise.nil
  inside := by
    intro extent member
    cases member

/-- Another extent goes on top. -/
theorem Stacked.push {floor top : ℕ} {extents : List Extent} (stacked : Stacked floor top extents)
    {extent : Extent} (onFloor : floor ≤ top) (above : top ≤ extent.start) :
    Stacked floor (extent.start + extent.size) (extent :: extents) where
  apart := by
    refine List.pairwise_cons.mpr ⟨?_, stacked.apart⟩
    intro other member
    apply Extent.Apart.symm
    apply Extent.apart_of_le
    exact Nat.le_trans (stacked.inside other member).2 above
  inside := by
    intro other member
    rcases List.mem_cons.mp member with rfl | old
    · exact ⟨by omega, Nat.le_refl _⟩
    · have bounds := stacked.inside other old
      exact ⟨bounds.1, by omega⟩

/-! ## Ledgers -/

/-- Who owns which unit. -/
structure Ledger where
  reserved : Finset ℕ
  live : List Extent

namespace Ledger

def grant (ledger : Ledger) (extent : Extent) : Ledger :=
  { ledger with live := extent :: ledger.live }

/-- The extent is live no more, and none of its units is reserved. -/
def release (ledger : Ledger) (extent : Extent) : Ledger where
  reserved := ledger.reserved \ Finset.Ico extent.start (extent.start + extent.size)
  live := ledger.live.erase extent

def reserve (ledger : Ledger) (extent : Extent) : Ledger :=
  { ledger with
    reserved := ledger.reserved ∪ Finset.Ico extent.start (extent.start + extent.size) }

/-- The unit is reserved or part of a live extent. -/
def Used (ledger : Ledger) (unit : ℕ) : Prop :=
  unit ∈ ledger.reserved ∨ ∃ extent ∈ ledger.live, extent.Contains unit

/-- No unit of the extent is used. -/
def Vacant (ledger : Ledger) (extent : Extent) : Prop :=
  ∀ unit, extent.Contains unit → ¬ledger.Used unit

variable {ledger : Ledger} {extent : Extent}

/-! ## What is used after each change -/

theorem used_grant {unit : ℕ} :
    (ledger.grant extent).Used unit ↔ extent.Contains unit ∨ ledger.Used unit := by
  simp only [Used, grant, List.mem_cons, exists_eq_or_imp]
  exact or_left_comm

theorem used_reserve {unit : ℕ} :
    (ledger.reserve extent).Used unit ↔ extent.Contains unit ∨ ledger.Used unit := by
  simp only [Used, reserve, Finset.mem_union, Extent.mem_Ico_iff]
  rw [or_comm (a := unit ∈ ledger.reserved), or_assoc]

/-- Releasing a live extent makes its units, and no others, free. -/
theorem used_release {unit : ℕ} (apart : ledger.live.Pairwise Extent.Apart)
    (live : extent ∈ ledger.live) :
    (ledger.release extent).Used unit ↔ ¬extent.Contains unit ∧ ledger.Used unit := by
  have split := List.perm_cons_erase live
  have apartAll : (extent :: ledger.live.erase extent).Pairwise Extent.Apart :=
    split.pairwise apart Extent.Apart.symm
  have apartRest := (List.pairwise_cons.mp apartAll).1
  simp only [Used, release, Finset.mem_sdiff, Extent.mem_Ico_iff]
  constructor
  · rintro (⟨reserved, outside⟩ | ⟨other, member, inside⟩)
    · exact ⟨outside, .inl reserved⟩
    · exact ⟨fun inExtent => apartRest other member unit inExtent inside,
        .inr ⟨other, List.mem_of_mem_erase member, inside⟩⟩
  · rintro ⟨outside, reserved | ⟨other, member, inside⟩⟩
    · exact .inl ⟨reserved, outside⟩
    · refine .inr ⟨other, ?_, inside⟩
      have different : other ≠ extent := by
        intro equal
        exact outside (equal ▸ inside)
      exact (List.mem_erase_of_ne different).mpr member

/-! ## Live extents stay apart -/

theorem pairwise_grant (apart : ledger.live.Pairwise Extent.Apart) (vacant : ledger.Vacant extent) :
    (ledger.grant extent).live.Pairwise Extent.Apart := by
  refine List.pairwise_cons.mpr ⟨?_, apart⟩
  intro other member unit inside inOther
  exact vacant unit inside (.inr ⟨other, member, inOther⟩)

theorem pairwise_release (apart : ledger.live.Pairwise Extent.Apart) :
    (ledger.release extent).live.Pairwise Extent.Apart :=
  apart.sublist List.erase_sublist

end Ledger

end CatchOS.Lib
