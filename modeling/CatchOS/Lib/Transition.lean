import Mathlib.Logic.Relation

/-!
# Transition systems with guarded runs

A system is given by the states it may start in and by a partial step function:
`step state action` is the state after the action, and `none` when the action
is not possible there. The step function is executable, so a run can be
replayed; a property of all runs is proved from one step.

A guard is a condition on the state before a step and on the action. The states
of the runs all of whose steps meet a guard are `ReachableUnder` it. The guard
that allows every step gives the reachable states of the system itself.

* `ReachableUnder.invariant` is the induction rule: what holds at the start and
  is kept by every guarded step holds in every state reached.
* `ReachableUnder.mono` compares two guards.
* `replay` runs a list of actions and checks the guard on the way;
  `exists_reachableUnder_of_replay` turns a replay into a state that is reached.
* `Runs.simulation` turns a run of one relation into a run of another with the same actions.
-/

set_option autoImplicit false

namespace CatchOS.Lib

universe u v w

/-- The states a system may start in, and its partial step function. -/
structure System (State : Type u) (Action : Type v) where
  initial : State → Prop
  step : State → Action → Option State

namespace System

variable {State : Type u} {Action : Type v} (system : System State Action)

/-- The states of the runs all of whose steps meet the guard. -/
inductive ReachableUnder (guard : State → Action → Prop) : State → Prop where
  | start {state : State} : system.initial state → ReachableUnder guard state
  | step {state next : State} {action : Action} : ReachableUnder guard state →
      guard state action → system.step state action = some next → ReachableUnder guard next

/-- The states of all runs. -/
abbrev Reachable : State → Prop := system.ReachableUnder fun _ _ => True

variable {system}

namespace ReachableUnder

variable {guard : State → Action → Prop} {state : State}

/-- **The invariant rule.** What holds in every initial state and is kept by
every step that meets the guard holds in every state reached under it. -/
theorem invariant (reachable : system.ReachableUnder guard state) (Holds : State → Prop)
    (atStart : ∀ state, system.initial state → Holds state)
    (kept : ∀ {state action next}, Holds state → guard state action →
      system.step state action = some next → Holds next) : Holds state := by
  induction reachable with
  | start initial => exact atStart _ initial
  | step _ allowed stepped ih => exact kept ih allowed stepped

/-- A run that meets a guard meets every weaker one. -/
theorem mono {weaker : State → Action → Prop} (reachable : system.ReachableUnder guard state)
    (implied : ∀ state action, guard state action → weaker state action) :
    system.ReachableUnder weaker state := by
  induction reachable with
  | start initial => exact .start initial
  | step _ allowed stepped ih => exact .step ih (implied _ _ allowed) stepped

end ReachableUnder

/-! ## Replaying a run -/

section Replay

variable (system) (guard : State → Action → Prop)
  [∀ state action, Decidable (guard state action)]

/-- Run the actions one after another. The replay stops with `none` at a step
that is not possible or does not meet the guard. -/
def replay : State → List Action → Option State
  | state, [] => some state
  | state, action :: actions =>
      if guard state action then
        match system.step state action with
        | some next => replay next actions
        | none => none
      else
        none

variable {system guard}

/-- A replay from a state that is reached ends in a state that is reached. -/
theorem reachableUnder_of_replay {state last : State} {actions : List Action}
    (reachable : system.ReachableUnder guard state)
    (replayed : system.replay guard state actions = some last) :
    system.ReachableUnder guard last := by
  induction actions generalizing state with
  | nil =>
      simp only [replay, Option.some.injEq] at replayed
      exact replayed ▸ reachable
  | cons action actions ih =>
      simp only [replay] at replayed
      by_cases allowed : guard state action
      · rw [if_pos allowed] at replayed
        cases stepped : system.step state action with
        | none => rw [stepped] at replayed; cases replayed
        | some next =>
            rw [stepped] at replayed
            exact ih (.step reachable allowed stepped) replayed
      · rw [if_neg allowed] at replayed
        cases replayed

/-- When the state a replay ends in passes a test, some state that is reached
under the guard passes it. -/
theorem exists_reachableUnder_of_replay (system : System State Action)
    (guard : State → Action → Prop) [∀ state action, Decidable (guard state action)]
    {state : State} (initial : system.initial state) (actions : List Action) (test : State → Bool)
    (passed : (system.replay guard state actions).any test = true) :
    ∃ last, system.ReachableUnder guard last ∧ test last = true := by
  obtain ⟨last, replayed, tested⟩ := (Option.any_eq_true _ _).mp passed
  exact ⟨last, reachableUnder_of_replay (.start initial) replayed, tested⟩

end Replay

end System

/-! ## Runs with their actions -/

/-- The actions one after another, each of them a step of the relation. -/
inductive Runs {State : Type u} {Action : Type v} (steps : State → Action → State → Prop) :
    State → List Action → State → Prop where
  | nil (state : State) : Runs steps state [] state
  | cons {state next last : State} {action : Action} {actions : List Action} :
      steps state action next → Runs steps next actions last →
        Runs steps state (action :: actions) last

/-- **Simulation.** When every step is matched by a step of another relation, so is every run, by a
run with the same actions. -/
theorem Runs.simulation {State : Type u} {Other : Type w} {Action : Type v}
    {steps : State → Action → State → Prop} {others : Other → Action → Other → Prop}
    {Related : State → Other → Prop} {state last : State} {other : Other} {actions : List Action}
    (matched : ∀ {state action next other}, Related state other → steps state action next →
      ∃ other', others other action other' ∧ Related next other')
    (related : Related state other) (runs : Runs steps state actions last) :
    ∃ other', Runs others other actions other' ∧ Related last other' := by
  induction runs generalizing other with
  | nil => exact ⟨other, .nil other, related⟩
  | cons step _ ih =>
      obtain ⟨middle, first, related'⟩ := matched related step
      obtain ⟨other', rest, relatedLast⟩ := ih related'
      exact ⟨other', .cons first rest, relatedLast⟩

end CatchOS.Lib
