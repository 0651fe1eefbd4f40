import Mathlib.Logic.Function.Basic

/-!
# Saving and restoring a flag in shared cells

Every party has a flag of its own. It saves the flag in a cell, switches the
flag off, and later restores it from the cell; sections nest. The cells are
shared, so a party may find in a cell what another one has saved there.

A party that is outside all its sections should have the flag it began with, and
its flag should be off while it is inside one. Both follow from an invariant on
the cells a party has saved and not yet restored: the outermost cell holds the
flag the party began with, every other cell holds `false`
(`SavedFlags`). The invariant of a party is kept by its own effects
(`View.Restorable.effect`), and by the effects of the other parties as long as
none of them changes a cell it has yet to restore from
(`View.Restorable.of_agree`).
-/

set_option autoImplicit false

namespace CatchOS.Lib.SaveRestore

variable {Cell : Type*}

/-- A party: its flag, the cells it has saved and not restored, innermost first,
and whether it has saved the first of them and not yet switched its flag off. -/
structure View (Cell : Type*) where
  flag : Bool
  saved : List Cell
  fresh : Bool

/-- The flag of a party inside the given sections that began with `before`. -/
def flagUnder (before : Bool) (saved : List Cell) : Bool :=
  saved.isEmpty && before

@[simp] theorem flagUnder_nil (before : Bool) : flagUnder before ([] : List Cell) = before := rfl

@[simp] theorem flagUnder_cons (before : Bool) (cell : Cell) (saved : List Cell) :
    flagUnder before (cell :: saved) = false := rfl

@[simp] theorem flagUnder_append_cons (before : Bool) (inner outer : List Cell) (cell : Cell) :
    flagUnder before (inner ++ cell :: outer) = false := by
  cases inner with
  | nil => rfl
  | cons _ _ => rfl

/-- Each saved cell holds the flag the party had when it saved the cell. -/
def SavedFlags (value : Cell → Bool) (before : Bool) : List Cell → Prop
  | [] => True
  | cell :: saved => value cell = flagUnder before saved ∧ SavedFlags value before saved

/-- What a party does to the cells and to itself in one step, and the cell it
saves its flag in, if any. A section may be left before sections inside it,
unless it is the outermost of several and the party began with its flag on. -/
inductive Effect [DecidableEq Cell] (before : Bool) (value : Cell → Bool) :
    Option Cell → View Cell → (Cell → Bool) → View Cell → Prop where
  | skip (view : View Cell) : Effect before value none view value view
  | save (cell : Cell) (flag : Bool) (saved : List Cell) :
      Effect before value (some cell) ⟨flag, saved, false⟩
        (Function.update value cell flag) ⟨flag, cell :: saved, true⟩
  | switchOff (cell : Cell) (flag : Bool) (saved : List Cell) :
      Effect before value none ⟨flag, cell :: saved, true⟩
        value ⟨if value cell then false else flag, cell :: saved, false⟩
  | restore (cell : Cell) (flag : Bool) (inner outer : List Cell)
      (allowed : inner = [] ∨ outer ≠ [] ∨ before = false) :
      Effect before value none ⟨flag, inner ++ cell :: outer, false⟩
        value ⟨if value cell then true else flag, inner ++ outer, false⟩

/-- A party whose flag and saved cells are as they should be. -/
structure View.Restorable (value : Cell → Bool) (before : Bool) (view : View Cell) : Prop where
  saved : SavedFlags value before view.saved
  flag : view.flag = flagUnder before (if view.fresh then view.saved.tail else view.saved)

/-! ## The saved cells -/

theorem SavedFlags.of_agree {value after : Cell → Bool} {before : Bool} {saved : List Cell}
    (flags : SavedFlags value before saved) (agree : ∀ cell ∈ saved, after cell = value cell) :
    SavedFlags after before saved := by
  induction saved with
  | nil => trivial
  | cons cell saved ih =>
      obtain ⟨here, rest⟩ := flags
      refine ⟨?_, ih rest fun other member => agree other (List.mem_cons_of_mem _ member)⟩
      rw [agree cell List.mem_cons_self, here]

/-- Leaving a section that is not the outermost of several keeps what the other
cells hold; leaving any section does when the party began with its flag off. -/
theorem SavedFlags.remove {value : Cell → Bool} {before : Bool} {inner outer : List Cell}
    {cell : Cell} (flags : SavedFlags value before (inner ++ cell :: outer))
    (allowed : inner = [] ∨ outer ≠ [] ∨ before = false) :
    SavedFlags value before (inner ++ outer) := by
  induction inner with
  | nil => exact flags.2
  | cons first inner ih =>
      rw [List.cons_append] at flags ⊢
      obtain ⟨here, rest⟩ := flags
      have allowed : outer ≠ [] ∨ before = false := by simpa using allowed
      refine ⟨?_, ih rest (.inr allowed)⟩
      rw [here, flagUnder_append_cons]
      rcases allowed with notOutermost | off
      · obtain ⟨next, outer, rfl⟩ := List.exists_cons_of_ne_nil notOutermost
        rw [flagUnder_append_cons]
      · rw [off, flagUnder, Bool.and_false]

/-- The cell of a section holds the flag the party had outside it. -/
theorem SavedFlags.value_eq {value : Cell → Bool} {before : Bool} {inner outer : List Cell}
    {cell : Cell} (flags : SavedFlags value before (inner ++ cell :: outer)) :
    value cell = flagUnder before outer := by
  induction inner with
  | nil => exact flags.1
  | cons _ _ ih => exact ih flags.2

/-! ## Steps -/

/-- A step changes at most the cell it saves the flag in. -/
theorem Effect.agree [DecidableEq Cell] {before : Bool} {target : Option Cell}
    {value after : Cell → Bool} {view next : View Cell}
    (effect : Effect before value target view after next) {watched : List Cell}
    (kept : ∀ cell ∈ target, cell ∈ watched → value cell = view.flag) :
    ∀ cell ∈ watched, after cell = value cell := by
  intro cell member
  cases effect with
  | skip | switchOff | restore => rfl
  | save target current saved =>
      by_cases same : cell = target
      · subst same
        rw [Function.update_self]
        exact (kept cell rfl member).symm
      · rw [Function.update_of_ne same]

namespace View.Restorable

variable {value after : Cell → Bool} {before : Bool} {target : Option Cell}
  {view next : View Cell}

/-- A party whose cells another one leaves alone stays restorable. -/
theorem of_agree (restorable : view.Restorable value before)
    (agree : ∀ cell ∈ view.saved, after cell = value cell) : view.Restorable after before :=
  ⟨restorable.saved.of_agree agree, restorable.flag⟩

/-- **The party's own effects.** A party stays restorable under its own effects,
provided it does not change a cell it has yet to restore from. -/
theorem effect [DecidableEq Cell] (restorable : view.Restorable value before)
    (effect : Effect before value target view after next)
    (agree : ∀ cell ∈ view.saved, after cell = value cell) : next.Restorable after before := by
  have ⟨flags, flag⟩ := restorable
  cases effect with
  | skip => exact restorable
  | save cell current saved =>
      refine ⟨⟨?_, flags.of_agree agree⟩, flag⟩
      rw [Function.update_self]
      exact flag
  | switchOff cell current saved =>
      have held : value cell = current := flags.1.trans flag.symm
      refine ⟨flags, ?_⟩
      rw [held]
      cases current <;> rfl
  | restore cell current inner outer allowed =>
      have off : current = false := flag.trans (flagUnder_append_cons _ _ _ _)
      refine ⟨flags.remove allowed, ?_⟩
      have held := flags.value_eq
      simp only [off, held, Bool.if_false_right, Bool.and_true, Bool.false_eq_true, if_false]
      rcases allowed with rfl | notOutermost | began
      · exact Bool.decide_eq_true
      · obtain ⟨cell, outer, rfl⟩ := List.exists_cons_of_ne_nil notOutermost
        simp
      · simp [flagUnder, began]

/-- Outside all its sections a party has the flag it began with. -/
theorem flag_outside (restorable : view.Restorable value before) (outside : view.saved = []) :
    view.flag = before := by
  rw [restorable.flag, outside]
  cases view.fresh <;> rfl

/-- Inside a section, once it has switched its flag off there, a party's flag is
off. -/
theorem flag_inside (restorable : view.Restorable value before)
    (inside : (if view.fresh then view.saved.tail else view.saved) ≠ []) : view.flag = false := by
  obtain ⟨cell, saved, shape⟩ := List.exists_cons_of_ne_nil inside
  rw [restorable.flag, shape]
  rfl

end View.Restorable

end CatchOS.Lib.SaveRestore
