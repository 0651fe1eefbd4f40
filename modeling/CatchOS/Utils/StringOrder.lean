import CatchOS.Lib.ThreeWay
import CatchOS.Utils.String

/-!
# The order of strings

`_strcmp` and `_strncmp` of two strings in memory. Both read a byte of each string and go on
while the bytes are equal; `_strcmp` stops at a zero, `_strncmp` also when the count is used up.
The bytes are compared as `unsigned char`, so a string comes before every longer one that it
begins.

The comparison of two strings is the three-way comparison of their bytes, as lists of numbers
in lexicographic order (`run_strcmpAt`), and that of `_strncmp` is the same for what the count
leaves of the strings (`run_strncmpAt`). From this it follows that the order is total
(`strcmp_total_order`).
-/

set_option autoImplicit false

namespace CatchOS.Utils

open CatchOS.Lib

/-! ## The functions -/

/-- The loop of `_strcmp`; it has no result if the turns are used up. -/
def strcmpLoop : ℕ → ℕ → ℕ → Probe ℕ Byte (Option ℤ)
  | 0, _, _ => pure none
  | turns + 1, cs, ct => do
      let c1 ← Probe.ask (offset cs 0)
      let c2 ← Probe.ask (offset ct 0)
      if c1 ≠ c2 then pure (some (if c1 < c2 then -1 else 1))
      else if c1 = 0 then pure (some 0)
      else strcmpLoop turns (offset cs 1) (offset ct 1)

/-- `_strcmp`. After `2 ^ 32` turns both pointers are back where they began, and the loop never
ends. -/
def strcmpAt (cs ct : ℕ) : Probe ℕ Byte (Option ℤ) := strcmpLoop (2 ^ 32) cs ct

/-- `_strncmp`. -/
def strncmpAt : ℕ → ℕ → ℕ → Probe ℕ Byte ℤ
  | _, _, 0 => pure 0
  | cs, ct, count + 1 => do
      let c1 ← Probe.ask (offset cs 0)
      let c2 ← Probe.ask (offset ct 0)
      if c1 ≠ c2 then pure (if c1 < c2 then -1 else 1)
      else if c1 = 0 then pure 0
      else strncmpAt (offset cs 1) (offset ct 1) count

/-! ## Strings in memory -/

/-- A string and its final zero, which is the first one, are at the address. -/
structure HoldsString (memory : Memory) (address : ℕ) (string : List Byte) : Prop where
  held : StringAt memory address string
  nonzero : ∀ c ∈ string, c ≠ 0

theorem nonzero_iff_all {string : List Byte} :
    (∀ c ∈ string, c ≠ 0) ↔ string.all (· != 0) = true := by
  simp only [List.all_eq_true, bne_iff_ne]

instance (memory : Memory) (address : ℕ) (string : List Byte) :
    Decidable (HoldsString memory address string) :=
  decidable_of_iff
    (readBytes memory address (string.length + 1) = string ++ [0] ∧ string.all (· != 0) = true)
    ((and_congr_right' nonzero_iff_all.symm).trans
      ⟨fun both => ⟨both.1, both.2⟩, fun holds => ⟨holds.held, holds.nonzero⟩⟩)

namespace HoldsString

variable {memory : Memory} {address : ℕ} {c : Byte} {string : List Byte}

theorem nil_iff : HoldsString memory address [] ↔ memory (offset address 0) = 0 := by
  rw [← stringAt_nil]
  exact ⟨held, fun isThere => ⟨isThere, fun _ member => absurd member List.not_mem_nil⟩⟩

theorem cons_iff : HoldsString memory address (c :: string) ↔
    (memory (offset address 0) = c ∧ c ≠ 0) ∧ HoldsString memory (offset address 1) string := by
  constructor
  · rintro ⟨isThere, nonzero⟩
    rw [List.forall_mem_cons] at nonzero
    rw [stringAt_cons] at isThere
    exact ⟨⟨isThere.1, nonzero.1⟩, isThere.2, nonzero.2⟩
  · rintro ⟨⟨first, nonzero⟩, isThere, rest⟩
    exact ⟨stringAt_cons.mpr ⟨first, isThere⟩, List.forall_mem_cons.mpr ⟨nonzero, rest⟩⟩

/-- The bytes of the string and its final zero. -/
theorem byte (holds : HoldsString memory address string) (i : ℕ) (bound : i ≤ string.length) :
    memory (offset address i) = 0 ↔ i = string.length := by
  induction string generalizing address i with
  | nil =>
      rw [Nat.le_zero.mp bound]
      exact iff_of_true (nil_iff.mp holds) rfl
  | cons c string ih =>
      obtain ⟨⟨first, nonzero⟩, rest⟩ := cons_iff.mp holds
      cases i with
      | zero => exact iff_of_false (first ▸ nonzero) (Nat.succ_ne_zero _).symm
      | succ i =>
          have later := ih rest i (Nat.le_of_succ_le_succ bound)
          rw [offset_offset, Nat.add_comm] at later
          rw [later, List.length_cons, Nat.add_right_cancel_iff]

/-- There is one string at an address. -/
theorem unique {other : List Byte} (holds : HoldsString memory address string)
    (otherHolds : HoldsString memory address other) : string = other := by
  induction string generalizing address other with
  | nil =>
      cases other with
      | nil => rfl
      | cons d other =>
          obtain ⟨⟨first, nonzero⟩, -⟩ := cons_iff.mp otherHolds
          exact absurd (first.symm.trans (nil_iff.mp holds)) nonzero
  | cons c string ih =>
      obtain ⟨⟨first, nonzero⟩, rest⟩ := cons_iff.mp holds
      cases other with
      | nil => exact absurd (first.symm.trans (nil_iff.mp otherHolds)) nonzero
      | cons d other =>
          obtain ⟨⟨otherFirst, -⟩, otherRest⟩ := cons_iff.mp otherHolds
          rw [← first, otherFirst, ih rest otherRest]

/-- A string ends before it comes to its own first byte again. -/
theorem length_lt (holds : HoldsString memory address string) : string.length < 2 ^ 32 := by
  by_contra long
  have again : offset address (string.length % 2 ^ 32) = offset address string.length := by
    unfold offset
    omega
  have final := (holds.byte string.length le_rfl).mpr rfl
  rw [← again, holds.byte _ (Nat.mod_le _ _)] at final
  omega

end HoldsString

/-! ## The comparison of the bytes -/

/-- The bytes of a string as numbers. -/
def codes (string : List Byte) : List ℕ := string.map BitVec.toNat

theorem codes_inj {a b : List Byte} : codes a = codes b ↔ a = b :=
  (List.map_injective_iff.mpr fun _ _ => BitVec.eq_of_toNat_eq).eq_iff

/-- No byte is below zero: the bytes are unsigned. -/
theorem byte_not_lt_zero (c : Byte) : ¬c < 0 := Nat.not_lt_zero _

theorem byte_pos {c : Byte} (nonzero : c ≠ 0) : 0 < c :=
  Nat.pos_of_ne_zero fun zero => nonzero (BitVec.eq_of_toNat_eq zero)

section Compare

variable {memory : Memory} {cs ct : ℕ} {a b : List Byte}

theorem threeWay_codes_cons {c d : Byte} :
    threeWay (codes (c :: a)) (codes (d :: b)) =
      if c ≠ d then (if c < d then -1 else 1) else threeWay (codes a) (codes b) := by
  rw [codes, codes, List.map_cons, List.map_cons]
  split
  case isTrue different =>
    rw [threeWay_cons_of_ne fun same => different (BitVec.eq_of_toNat_eq same)]
    rfl
  case isFalse same =>
    rw [not_not.mp same]
    exact threeWay_cons_self

/-- `_strcmp` of a string in memory and given bytes. -/
theorem strcmp_eq_threeWay (holds : HoldsString memory cs a) (nonzero : ∀ c ∈ b, c ≠ 0) :
    strcmp memory cs b = threeWay (codes a) (codes b) := by
  induction b generalizing cs a with
  | nil =>
      cases a with
      | nil =>
          rw [strcmp, if_neg (not_not.mpr (HoldsString.nil_iff.mp holds)), threeWay_self]
      | cons c a =>
          obtain ⟨⟨first, notZero⟩, -⟩ := HoldsString.cons_iff.mp holds
          rw [strcmp, first, if_pos notZero]
          exact threeWay_cons_nil.symm
  | cons d b ih =>
      rw [List.forall_mem_cons] at nonzero
      cases a with
      | nil =>
          rw [strcmp, HoldsString.nil_iff.mp holds, if_pos nonzero.1.symm,
            if_pos (byte_pos nonzero.1)]
          exact threeWay_nil_cons.symm
      | cons c a =>
          obtain ⟨⟨first, -⟩, rest⟩ := HoldsString.cons_iff.mp holds
          rw [strcmp, first, ih rest nonzero.2, threeWay_codes_cons]

/-- Equal strings, and only those, compare as equal. -/
theorem strcmp_eq_zero {memory : Memory} {cs : ℕ} {string ct : List Byte}
    (held : StringAt memory cs string) (nonzero : ∀ c ∈ string, c ≠ 0)
    (ctNonzero : ∀ c ∈ ct, c ≠ 0) : strcmp memory cs ct = 0 ↔ string = ct := by
  rw [strcmp_eq_threeWay ⟨held, nonzero⟩ ctNonzero, threeWay_eq_zero_iff, codes_inj]

/-- The second string may be given by its bytes. -/
theorem run_strcmpLoop {turns : ℕ} (holds : HoldsString memory ct b) (enough : b.length < turns) :
    (strcmpLoop turns cs ct).run memory = some (strcmp memory cs b) := by
  induction turns generalizing cs ct b with
  | zero => cases enough
  | succ turns ih =>
      rw [strcmpLoop, Probe.run_ask_bind, Probe.run_ask_bind, Probe.run_ite, Probe.run_ite,
        Probe.run_pure, Probe.run_pure]
      cases b with
      | nil =>
          rw [HoldsString.nil_iff.mp holds, strcmp]
          split
          · rw [if_neg (byte_not_lt_zero _)]
          case isFalse same => rw [if_pos (not_not.mp same)]
      | cons d b =>
          obtain ⟨⟨first, nonzero⟩, rest⟩ := HoldsString.cons_iff.mp holds
          rw [first, ih rest (Nat.lt_of_succ_lt_succ enough), strcmp]
          split
          · rfl
          case isFalse same => rw [if_neg (not_not.mp same ▸ nonzero)]

/-- **`_strcmp` compares the bytes of the strings**, as numbers and in lexicographic order. -/
theorem run_strcmpAt (holdsA : HoldsString memory cs a) (holdsB : HoldsString memory ct b) :
    (strcmpAt cs ct).run memory = some (threeWay (codes a) (codes b)) := by
  rw [strcmpAt, run_strcmpLoop holdsB holdsB.length_lt, strcmp_eq_threeWay holdsA holdsB.nonzero]

theorem run_strncmpAt_literal {count : ℕ} (holds : HoldsString memory ct b) :
    (strncmpAt cs ct count).run memory = (strncmp cs b count).run memory := by
  induction count generalizing cs ct b with
  | zero => rfl
  | succ count ih =>
      rw [strncmpAt, strncmp, Probe.run_ask_bind, Probe.run_ask_bind, Probe.run_ask_bind]
      cases b with
      | nil =>
          rw [HoldsString.nil_iff.mp holds, List.headD_nil]
          split
          · rfl
          case isFalse same => rw [if_pos (not_not.mp same), if_pos (not_not.mp same)]
      | cons d b =>
          obtain ⟨⟨first, -⟩, rest⟩ := HoldsString.cons_iff.mp holds
          rw [first, List.headD_cons, List.tail_cons, Probe.run_ite, Probe.run_ite, ih rest,
            Probe.run_ite, Probe.run_ite]

/-- **`_strncmp` compares what the count leaves of the strings.** -/
theorem run_strncmpAt {count : ℕ} (holdsA : HoldsString memory cs a)
    (holdsB : HoldsString memory ct b) :
    (strncmpAt cs ct count).run memory =
      threeWay (codes (a.take count)) (codes (b.take count)) := by
  induction count generalizing cs ct a b with
  | zero => exact (threeWay_self _).symm
  | succ count ih =>
      rw [strncmpAt, Probe.run_ask_bind, Probe.run_ask_bind, Probe.run_ite, Probe.run_ite,
        Probe.run_pure, Probe.run_pure]
      cases a with
      | nil =>
          rw [HoldsString.nil_iff.mp holdsA, List.take_nil]
          cases b with
          | nil =>
              rw [HoldsString.nil_iff.mp holdsB, List.take_nil, threeWay_self]
              rfl
          | cons d b =>
              obtain ⟨⟨first, nonzero⟩, -⟩ := HoldsString.cons_iff.mp holdsB
              rw [first, if_pos nonzero.symm, if_pos (byte_pos nonzero)]
              exact threeWay_nil_cons.symm
      | cons c a =>
          obtain ⟨⟨first, nonzero⟩, restA⟩ := HoldsString.cons_iff.mp holdsA
          rw [first]
          cases b with
          | nil =>
              rw [HoldsString.nil_iff.mp holdsB, if_pos nonzero, if_neg (byte_not_lt_zero _)]
              exact threeWay_cons_nil.symm
          | cons d b =>
              obtain ⟨⟨firstB, -⟩, restB⟩ := HoldsString.cons_iff.mp holdsB
              rw [firstB, if_neg nonzero, ih restA restB, List.take_succ_cons,
                List.take_succ_cons, threeWay_codes_cons]

end Compare

/-! ## The order -/

/-- `_strcmp` of the strings at two addresses returns the given number. -/
def Compares (memory : Memory) (cs ct : ℕ) (order : ℤ) : Prop :=
  (strcmpAt cs ct).run memory = some order

/-- **The order of strings is total**: it is zero on equal strings only, swapping the strings
negates it, it is transitive, and it is the lexicographic order of the bytes. With a count the
strings compare as what the count leaves of them, wherever that is in a memory. -/
theorem strcmp_total_order {memory : Memory} {pa pb pc : ℕ} {a b c : List Byte}
    (holdsA : HoldsString memory pa a) (holdsB : HoldsString memory pb b)
    (holdsC : HoldsString memory pc c) :
    ∃ ab ba bc ac : ℤ, Compares memory pa pb ab ∧ Compares memory pb pa ba ∧
      Compares memory pb pc bc ∧ Compares memory pa pc ac ∧
      (ab = 0 ↔ a = b) ∧ ba = -ab ∧ (ab ≤ 0 → bc ≤ 0 → ac ≤ 0) ∧
      (ab < 0 ↔ codes a < codes b) ∧ (0 < ab ↔ codes b < codes a) ∧
      ∀ (count : ℕ) (memory' : Memory) (pa' pb' : ℕ), HoldsString memory' pa' (a.take count) →
        HoldsString memory' pb' (b.take count) →
        Compares memory' pa' pb' ((strncmpAt pa pb count).run memory) := by
  refine ⟨_, _, _, _, run_strcmpAt holdsA holdsB, run_strcmpAt holdsB holdsA,
    run_strcmpAt holdsB holdsC, run_strcmpAt holdsA holdsC, ?_, threeWay_swap _ _,
    threeWay_trans, threeWay_neg_iff, threeWay_pos_iff, ?_⟩
  · rw [threeWay_eq_zero_iff, codes_inj]
  · intro count memory' pa' pb' takenA takenB
    rw [run_strncmpAt holdsA holdsB]
    exact run_strcmpAt takenA takenB

/-- A memory with a string that begins another one, and a third string. -/
def threeStrings : Memory := fun address => [65, 0, 65, 200, 0, 200].getD address 0

theorem strcmp_total_order_three : ∃ ab : ℤ, Compares threeStrings 0 2 ab ∧
    Compares threeStrings 2 0 (-ab) ∧ ab < 0 := by
  obtain ⟨ab, ba, -, -, forwards, backwards, -, -, -, swapped, -, less, -, -⟩ :=
    @strcmp_total_order threeStrings 0 2 5 [65] [65, 200] [200] (by decide) (by decide) (by decide)
  refine ⟨ab, forwards, swapped ▸ backwards, less.mpr ?_⟩
  decide

end CatchOS.Utils
