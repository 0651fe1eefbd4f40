import Mathlib.Logic.Function.Basic

/-!
# Directories of shared tables

A map in two levels: a directory has a table in some of its slots, and a table has a
frame in some of its entries. Tables are named, so that several slots may share one. A
walk looks up a slot and then an entry.

`Installed` says that an entry of a table was set and that the table was put into a slot.
This may change walks it was not meant for: those through the other slots that share the
table, and those through the table that the slot had before. When no two tables hold the
same frame, `Installed.kept_iff` says exactly when every other walk is kept.
-/

set_option autoImplicit false

namespace CatchOS.Lib

universe u v w x

/-- The tables in the slots of a directory, and the frames in the entries of tables. -/
structure TwoLevel (Slot : Type u) (Table : Type v) (Index : Type w) (Frame : Type x) where
  directory : Slot → Option Table
  entries : Table → Index → Option Frame

namespace TwoLevel

variable {Slot : Type u} {Table : Type v} {Index : Type w} {Frame : Type x}

/-- The frame that a slot and an index lead to. -/
def walk (levels : TwoLevel Slot Table Index Frame) (slot : Slot) (index : Index) : Option Frame :=
  (levels.directory slot).bind fun table => levels.entries table index

theorem walk_of_directory {levels : TwoLevel Slot Table Index Frame} {slot : Slot} {table : Table}
    (here : levels.directory slot = some table) (index : Index) :
    levels.walk slot index = levels.entries table index := by
  rw [walk, here, Option.bind_some]

theorem walk_eq_some {levels : TwoLevel Slot Table Index Frame} {slot : Slot} {index : Index}
    {frame : Frame} : levels.walk slot index = some frame ↔
      ∃ table, levels.directory slot = some table ∧ levels.entries table index = some frame :=
  Option.bind_eq_some_iff

/-- Every walk but the one to the given entry that found a frame still finds it. -/
def Kept (before after : TwoLevel Slot Table Index Frame) (slot : Slot) (index : Index) : Prop :=
  ∀ otherSlot otherIndex, ¬(otherSlot = slot ∧ otherIndex = index) → ∀ frame,
    before.walk otherSlot otherIndex = some frame → after.walk otherSlot otherIndex = some frame

/-- The frame was put into the entry of the table, and the table into the slot. Nothing
is said of tables that are not known. -/
structure Installed (Known : Table → Prop) (before after : TwoLevel Slot Table Index Frame)
    (slot : Slot) (table : Table) (index : Index) (frame : Frame) : Prop where
  slot_self : after.directory slot = some table
  slot_other : ∀ other, other ≠ slot → after.directory other = before.directory other
  entry_self : after.entries table index = some frame
  entry_other : ∀ other, Known other → ∀ place, ¬(other = table ∧ place = index) →
    after.entries other place = before.entries other place

namespace Installed

variable {Known : Table → Prop} {before after : TwoLevel Slot Table Index Frame} {slot : Slot}
  {table : Table} {index : Index} {frame : Frame}

/-- The walk to the entry finds the frame. -/
theorem walk_self (installed : Installed Known before after slot table index frame) :
    after.walk slot index = some frame := by
  rw [walk_of_directory installed.slot_self, installed.entry_self]

/-- The walks through the slot to other entries go through the table now. -/
theorem walk_slot (installed : Installed Known before after slot table index frame)
    (known : Known table) {place : Index} (other : place ≠ index) :
    after.walk slot place = before.entries table place := by
  rw [walk_of_directory installed.slot_self]
  exact installed.entry_other table known place fun same => other same.2

/-- The walks through another slot change in the entry only, and only when the slot has
the same table. -/
theorem walk_other (installed : Installed Known before after slot table index frame)
    {otherSlot : Slot} {otherTable : Table} (other : otherSlot ≠ slot)
    (here : before.directory otherSlot = some otherTable) (known : Known otherTable)
    {place : Index} (elsewhere : ¬(otherTable = table ∧ place = index)) :
    after.walk otherSlot place = before.walk otherSlot place := by
  rw [walk_of_directory here, walk_of_directory ((installed.slot_other _ other).trans here)]
  exact installed.entry_other otherTable known place elsewhere

/-- **When all other walks are kept.** No other slot shares the table while the entry is
in use, and the table that the slot had before, if it was another one, has no entry in use
but the given one. -/
theorem kept_iff (installed : Installed Known before after slot table index frame)
    (known : Known table)
    (reads : ∀ slot table, before.directory slot = some table → Known table)
    (exclusive : ∀ first second, Known first → Known second → ∀ place otherPlace held,
      before.entries first place = some held → before.entries second otherPlace = some held →
      first = second)
    (changed : before.entries table index ≠ some frame) :
    Kept before after slot index ↔
      (∀ other, other ≠ slot → before.directory other = some table →
        before.entries table index = none) ∧
      ∀ old, before.directory slot = some old → old ≠ table → ∀ place, place ≠ index →
        before.entries old place = none := by
  constructor
  · intro kept
    refine ⟨?_, ?_⟩
    · intro other different shares
      by_contra used
      obtain ⟨held, here⟩ := Option.ne_none_iff_exists'.mp used
      have still := kept other index (fun same => different same.1) held
        ((walk_of_directory shares index).trans here)
      rw [walk_of_directory ((installed.slot_other _ different).trans shares),
        installed.entry_self] at still
      rw [still] at changed
      exact changed here
    · intro old had different place elsewhere
      by_contra used
      obtain ⟨held, here⟩ := Option.ne_none_iff_exists'.mp used
      have still := kept slot place (fun same => elsewhere same.2) held
        ((walk_of_directory had place).trans here)
      rw [installed.walk_slot known elsewhere] at still
      exact different (exclusive old table (reads _ _ had) known place place held here still)
  · rintro ⟨unshared, replaced⟩ otherSlot place elsewhere held found
    obtain ⟨otherTable, here, entry⟩ := walk_eq_some.mp found
    by_cases sameSlot : otherSlot = slot
    · subst sameSlot
      have otherPlace : place ≠ index := fun same => elsewhere ⟨rfl, same⟩
      rw [installed.walk_slot known otherPlace]
      by_cases sameTable : otherTable = table
      · rwa [sameTable] at entry
      · rw [replaced otherTable here sameTable place otherPlace] at entry
        cases entry
    · rw [installed.walk_other sameSlot here (reads _ _ here), found]
      rintro ⟨rfl, rfl⟩
      rw [unshared otherSlot sameSlot here] at entry
      cases entry

end Installed

end TwoLevel

end CatchOS.Lib
