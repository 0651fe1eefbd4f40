import CatchOS.Machine.Memory

/-!
# Structures in memory

A C structure whose members are all 32-bit words: its members are an enumeration, numbered in
the order of their declaration. `record` reads a whole structure, and `setField` stores one
member of it. Storing a member changes that member only (`record_setField`), and nothing
outside the structure (`setField_frame`), so structures that have no byte in common do not
see each other's stores (`record_setField_apart`).
-/

set_option autoImplicit false

namespace CatchOS

universe u v

/-- The members of a structure of 32-bit words. -/
class WordFields (Field : Type u) where
  index : Field → ℕ
  count : ℕ
  index_lt : ∀ field, index field < count
  index_injective : Function.Injective index

open WordFields

section Record

variable {Field : Type u} [WordFields Field] {Other : Type v} [WordFields Other]

/-- The values of the members of the structure at an address. -/
def record (memory : Memory) (base : ℕ) (field : Field) : ℕ :=
  loadWord memory (base + 4 * index field)

def setField (memory : Memory) (base : ℕ) (field : Field) (value : ℕ) : Memory :=
  storeWord memory (base + 4 * index field) value

variable (Field) in
/-- The bytes of a structure. -/
def recordSize : ℕ := 4 * count Field

theorem field_fits (field : Field) : 4 * index field + 4 ≤ recordSize Field := by
  have bound := index_lt field
  unfold recordSize
  omega

variable {memory memory' : Memory} {base other address value : ℕ} {field : Field}

theorem record_lt (memory : Memory) (base : ℕ) (field : Field) :
    record memory base field < 2 ^ 32 :=
  loadWord_lt _ _

/-- A byte outside the structure keeps its value. -/
theorem setField_frame (fits : base + recordSize Field ≤ 2 ^ 32)
    (outside : address < base ∨ base + recordSize Field ≤ address) :
    setField memory base field value address = memory address := by
  have inside := field_fits field
  apply storeWord_frame
  intro i bound
  rw [offset_eq (by omega)]
  omega

/-- Structures are read alike when their bytes agree. -/
theorem record_congr (fits : base + recordSize Field ≤ 2 ^ 32)
    (same : ∀ i < recordSize Field, memory' (base + i) = memory (base + i)) :
    @record Field _ memory' base = record memory base := by
  funext field
  have inside := field_fits field
  apply loadWord_congr
  intro i bound
  rw [offset_eq (by omega), Nat.add_assoc]
  exact same _ (by omega)

/-- **Storing a member** changes that member only. -/
theorem record_setField [DecidableEq Field] (fits : base + recordSize Field ≤ 2 ^ 32)
    (word : value < 2 ^ 32) :
    record (setField memory base field value) base =
      Function.update (record memory base) field value := by
  funext other
  have inside := field_fits field
  have otherInside := field_fits other
  by_cases same : other = field
  · subst same
    rw [Function.update_self]
    exact loadWord_storeWord word
  · rw [Function.update_of_ne same]
    have different : index other ≠ index field := fun equal => same (index_injective equal)
    exact loadWord_storeWord_of_apart (by omega) (by omega) (by omega)

/-- Storing the value that a member has changes nothing. -/
theorem setField_self (same : record memory base field = value) :
    setField memory base field value = memory := by
  funext address
  subst same
  by_cases inside : ∃ i < 4, address = offset (base + 4 * index field) i
  · obtain ⟨i, bound, rfl⟩ := inside
    exact (storeWord_byte bound).trans (byte_loadWord bound)
  · exact storeWord_frame fun i bound here => inside ⟨i, bound, here⟩

/-- A structure does not see a byte that changes outside of it. -/
theorem record_update {byte : Byte} (fits : base + recordSize Field ≤ 2 ^ 32)
    (outside : address < base ∨ base + recordSize Field ≤ address) :
    @record Field _ (Function.update memory address byte) base = record memory base := by
  apply record_congr fits
  intro i bound
  exact Function.update_of_ne (by omega) _ _

/-- A structure does not see the stores to another one. -/
theorem record_setField_apart {field : Other} (fits : base + recordSize Field ≤ 2 ^ 32)
    (otherFits : other + recordSize Other ≤ 2 ^ 32)
    (apart : base + recordSize Field ≤ other ∨ other + recordSize Other ≤ base) :
    @record Field _ (setField memory other field value) base = record memory base := by
  apply record_congr fits
  intro i bound
  apply setField_frame otherFits
  omega

end Record

end CatchOS
