import Mathlib.Logic.Function.Basic

/-!
# Memories with a log of what was written

A program that writes a memory is bounded by the cells that it writes. A `Written` memory is
one that came out of another one by writing some cells: it keeps the list of these, in the
order of the writes, and a cell that is not in the list has the value that it had before. It
can only be built by writing, so a statement about the list is one about the program.
-/

set_option autoImplicit false

namespace CatchOS.Lib

universe u v

variable {Address : Type u} {Value : Type v} {before : Address → Value}

/-- A memory, the cells that were written since `before`, and why these are all. -/
structure Written (before : Address → Value) where
  memory : Address → Value
  writes : List Address
  unchanged : ∀ address, address ∉ writes → memory address = before address

namespace Written

/-- Nothing was written yet. -/
def start (before : Address → Value) : Written before := ⟨before, [], fun _ _ => rfl⟩

/-- Only cells of the given kind were written. -/
def Inside (state : Written before) (places : Address → Prop) : Prop :=
  ∀ address ∈ state.writes, places address

variable {places : Address → Prop}

theorem inside_start : (start before).Inside places :=
  fun _ member => absurd member List.not_mem_nil

theorem Inside.mono {state : Written before} {others : Address → Prop}
    (inside : state.Inside places) (wider : ∀ address, places address → others address) :
    state.Inside others :=
  fun address member => wider address (inside address member)

section Put

variable [DecidableEq Address]

/-- Write one cell. -/
def put (state : Written before) (address : Address) (value : Value) : Written before where
  memory := Function.update state.memory address value
  writes := state.writes ++ [address]
  unchanged := by
    intro other missing
    rw [List.mem_append, List.mem_singleton, not_or] at missing
    rw [Function.update_of_ne missing.2, state.unchanged other missing.1]

variable {state : Written before} {address other : Address} {value : Value}

theorem memory_put_self : (state.put address value).memory address = value :=
  Function.update_self _ _ _

theorem memory_put_of_ne (different : other ≠ address) :
    (state.put address value).memory other = state.memory other :=
  Function.update_of_ne different _ _

theorem Inside.put (inside : state.Inside places) (isPlace : places address) :
    (state.put address value).Inside places := by
  intro written member
  rcases List.mem_append.mp member with earlier | last
  · exact inside written earlier
  · rw [List.mem_singleton.mp last]
    exact isPlace

end Put

end Written

end CatchOS.Lib
