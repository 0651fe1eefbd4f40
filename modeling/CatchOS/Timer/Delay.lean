import CatchOS.Lib.Transition
import CatchOS.Machine.Instruction
import CatchOS.Tasks.TaskStruct

/-!
# Delays

`delay_rt`, `delay` and `delay_bootstrap` compute the number of ticks to wait for and
the value of the tick counter to stop at, both in 32 bits, and wait while the counter is
below it. They differ in how they pass the time and in what they note in the task.

A timer interrupt may come before any statement of a call, also before the counter is
read. Both timer handlers count it first; what the handler of the scheduler does with it
afterwards does not touch the counter.

A delay takes at least as long as it was asked for exactly when the product of the
milliseconds and the frequency does not wrap, and the counter is so far from wrapping
that twice the time fits: a tick that comes before the counter is read moves the stop
(`neverShort_iff`).
-/

set_option autoImplicit false

namespace CatchOS.Timer

open CatchOS.Lib CatchOS.Machine CatchOS.Tasks

/-! ## The counter -/

/-- `ISR_SYSTIME_BOOTSTRAP`, which is also the first statement of `ISR_SYSTIME_SCHED`. -/
def isrSystimeBootstrap (ticks : Word) : Word := ticks + 1

/-! ## The calls -/

/-- Where a call is: before its read of the counter, at the test of the loop, or behind
the loop. -/
inductive DelayPoint where
  | called
  | waiting (stop : Word)
  | returned
  deriving DecidableEq

/-- The local `ticks_to_wait`. -/
def ticksToWait (freq ms : Word) : Word := ms * freq / 1000

/-- What the statements at a program point do: where the call is then, and the current
task. The functions differ in what they do to the task at the start and at the end. -/
def delayWith (enter leave : TaskStruct → TaskStruct) (freq ms ticks : Word)
    (curtask : TaskStruct) : DelayPoint → Option (DelayPoint × TaskStruct)
  | .called => some (.waiting (ticks + ticksToWait freq ms), enter curtask)
  | .waiting stop =>
      -- The body is `cpu_relax`, `task_yield` or `hlt`: time passes.
      if ticks < stop then some (.waiting stop, curtask)
      else some (.returned, leave curtask)
  | .returned => none

def delayRt (freq ms : Word) :=
  delayWith (fun curtask => { curtask with interruptible := false })
    (fun curtask => { curtask with interruptible := true }) freq ms

def delay (freq ms : Word) :=
  delayWith id (fun curtask =>
    { curtask with sleepAvg := int32 (curtask.sleepAvg + (ticksToWait freq ms).toNat) }) freq ms

def delayBootstrap (freq ms : Word) := delayWith id id freq ms

/-- The three functions. -/
inductive Routine where
  | delayRt
  | delay
  | delayBootstrap
  deriving DecidableEq

def Routine.body (freq ms : Word) :
    Routine → Word → TaskStruct → DelayPoint → Option (DelayPoint × TaskStruct)
  | .delayRt => Timer.delayRt freq ms
  | .delay => Timer.delay freq ms
  | .delayBootstrap => Timer.delayBootstrap freq ms

/-! ## Runs -/

/-- The counter, the task that calls, and where its call is. The number of ticks since
the call is counted for the specification and never wraps. -/
structure DelayState where
  ticks : Word
  curtask : TaskStruct
  point : DelayPoint
  elapsed : ℕ
  deriving DecidableEq

inductive DelayAction where
  | tick
  | run
  deriving DecidableEq

/-- One call that starts at the given value of the counter, and the timer. -/
def delaySystem (routine : Routine) (freq ms ticks : Word) : System DelayState DelayAction where
  initial state := state.ticks = ticks ∧ state.point = .called ∧ state.elapsed = 0
  step state
    | .tick => some { state with
        ticks := isrSystimeBootstrap state.ticks
        elapsed := state.elapsed + 1 }
    | .run => (routine.body freq ms state.ticks state.curtask state.point).map fun after =>
        { state with point := after.1, curtask := after.2 }

/-- The number of ticks that were asked for, computed without overflow. -/
def ticksAsked (freq ms : Word) : ℕ := ms.toNat * freq.toNat / 1000

/-- However the ticks come, a call that has returned has lasted as long as asked for. -/
def NeverShort (routine : Routine) (freq ms ticks : Word) : Prop :=
  ∀ state, (delaySystem routine freq ms ticks).Reachable state → state.point = .returned →
    ticksAsked freq ms ≤ state.elapsed

/-- The product does not wrap, and there are twice as many ticks up to the end of the
counter; or nothing was asked for. -/
def DeadlineFits (freq ms ticks : Word) : Prop :=
  ticksAsked freq ms = 0 ∨
    (ms.toNat * freq.toNat < 2 ^ 32 ∧ ticks.toNat + 2 * ticksAsked freq ms ≤ 2 ^ 32)

instance (freq ms ticks : Word) : Decidable (DeadlineFits freq ms ticks) :=
  inferInstanceAs (Decidable (_ ∨ (_ ∧ _)))

variable {routine : Routine} {freq ms ticks : Word} {state next : DelayState}

/-! ## One step -/

/-- The functions are one up to what they do to the task. -/
theorem Routine.body_eq (routine : Routine) (freq ms : Word) :
    ∃ enter leave, routine.body freq ms = delayWith enter leave freq ms := by
  cases routine with
  | delayRt => exact ⟨_, _, rfl⟩
  | delay => exact ⟨_, _, rfl⟩
  | delayBootstrap => exact ⟨_, _, rfl⟩

/-- What the call itself can do in a step, whichever function it is of. -/
theorem run_cases (stepped : (delaySystem routine freq ms ticks).step state .run = some next) :
    next.ticks = state.ticks ∧ next.elapsed = state.elapsed ∧
    (state.point = .called ∧ next.point = .waiting (state.ticks + ticksToWait freq ms) ∨
     (∃ stop, state.point = .waiting stop ∧ state.ticks < stop ∧ next.point = .waiting stop) ∨
     (∃ stop, state.point = .waiting stop ∧ ¬ state.ticks < stop ∧ next.point = .returned)) := by
  obtain ⟨enter, leave, body⟩ := routine.body_eq freq ms
  simp only [delaySystem, body, Option.map_eq_some_iff] at stepped
  obtain ⟨after, ran, rfl⟩ := stepped
  refine ⟨rfl, rfl, ?_⟩
  cases point : state.point with
  | called =>
      rw [point, delayWith, Option.some.injEq] at ran
      exact .inl ⟨rfl, ran ▸ rfl⟩
  | waiting stop =>
      rw [point, delayWith] at ran
      by_cases below : state.ticks < stop
      · rw [if_pos below, Option.some.injEq] at ran
        exact .inr (.inl ⟨stop, rfl, below, ran ▸ rfl⟩)
      · rw [if_neg below, Option.some.injEq] at ran
        exact .inr (.inr ⟨stop, rfl, below, ran ▸ rfl⟩)
  | returned =>
      rw [point, delayWith] at ran
      cases ran

/-- A call that is at its start can be taken to its loop. -/
theorem enter_step (routine : Routine) (freq ms ticks : Word) (called : state.point = .called) :
    ∃ next, (delaySystem routine freq ms ticks).step state .run = some next ∧
      next.ticks = state.ticks ∧ next.elapsed = state.elapsed ∧
      next.point = .waiting (state.ticks + ticksToWait freq ms) := by
  obtain ⟨enter, leave, body⟩ := routine.body_eq freq ms
  refine ⟨{ state with
    point := .waiting (state.ticks + ticksToWait freq ms)
    curtask := enter state.curtask }, ?_, rfl, rfl, rfl⟩
  simp only [delaySystem, body, called, delayWith, Option.map_some]

/-- A call whose loop finds the counter at its stop or above it returns. -/
theorem leave_step (routine : Routine) (freq ms ticks : Word) {stop : Word}
    (waiting : state.point = .waiting stop) (reached : ¬ state.ticks < stop) :
    ∃ next, (delaySystem routine freq ms ticks).step state .run = some next ∧
      next.elapsed = state.elapsed ∧ next.point = .returned := by
  obtain ⟨enter, leave, body⟩ := routine.body_eq freq ms
  refine ⟨{ state with point := .returned, curtask := leave state.curtask }, ?_, rfl, rfl⟩
  simp only [delaySystem, body, waiting, delayWith, if_neg reached, Option.map_some]

/-! ## Every run -/

/-- The counter is where the ticks since the call have taken it. A call in its loop has
read the counter after some of these ticks. -/
structure Tracks (freq ms ticks : Word) (state : DelayState) : Prop where
  counter : state.ticks.toNat = (ticks.toNat + state.elapsed) % 2 ^ 32
  stop : ∀ stop, state.point = .waiting stop → ∃ before ≤ state.elapsed,
    stop.toNat = (ticks.toNat + before + (ticksToWait freq ms).toNat) % 2 ^ 32

theorem toNat_isrSystimeBootstrap (counter : Word) :
    (isrSystimeBootstrap counter).toNat = (counter.toNat + 1) % 2 ^ 32 := by
  rw [isrSystimeBootstrap, BitVec.toNat_add]
  rfl

theorem tracks (reachable : (delaySystem routine freq ms ticks).Reachable state) :
    Tracks freq ms ticks state := by
  refine reachable.invariant (Tracks freq ms ticks) ?_ ?_
  · rintro state ⟨counter, called, zero⟩
    refine ⟨?_, fun stop waiting => ?_⟩
    · rw [counter, zero, Nat.add_zero, Nat.mod_eq_of_lt ticks.isLt]
    · rw [called] at waiting
      cases waiting
  · intro state action next holds _ stepped
    cases action with
    | tick =>
        simp only [delaySystem, Option.some.injEq] at stepped
        subst stepped
        refine ⟨?_, fun stop waiting => ?_⟩
        · have counter := holds.counter
          dsimp only
          rw [toNat_isrSystimeBootstrap, counter]
          omega
        · obtain ⟨before, bound, reads⟩ := holds.stop stop waiting
          exact ⟨before, Nat.le_succ_of_le bound, reads⟩
    | run =>
        obtain ⟨sameTicks, sameElapsed, point⟩ := run_cases stepped
        refine ⟨by rw [sameTicks, sameElapsed, holds.counter], fun stop waiting => ?_⟩
        rw [sameElapsed]
        obtain ⟨called, entered⟩ | ⟨stop', was, _, kept⟩ | ⟨stop', _, _, left⟩ := point
        · rw [entered, DelayPoint.waiting.injEq] at waiting
          subst waiting
          refine ⟨state.elapsed, le_refl _, ?_⟩
          rw [BitVec.toNat_add, holds.counter]
          omega
        · rw [kept, DelayPoint.waiting.injEq] at waiting
          subst waiting
          exact holds.stop stop' was
        · rw [left] at waiting
          cases waiting

/-- What the number of ticks computed in 32 bits is. -/
theorem toNat_ticksToWait (freq ms : Word) :
    (ticksToWait freq ms).toNat = ms.toNat * freq.toNat % 2 ^ 32 / 1000 := by
  rw [ticksToWait, BitVec.toNat_udiv, BitVec.toNat_mul]
  rfl

/-- Where the deadline fits, no call returns early. -/
theorem neverShort_of_fits (fits : DeadlineFits freq ms ticks) :
    NeverShort routine freq ms ticks := by
  intro state reachable
  obtain zero | ⟨product, room⟩ := fits
  · intro _
    exact zero ▸ Nat.zero_le _
  have asked : (ticksToWait freq ms).toNat = ticksAsked freq ms := by
    rw [toNat_ticksToWait, Nat.mod_eq_of_lt product, ticksAsked]
  induction reachable with
  | start initial =>
      intro returned
      rw [initial.2.1] at returned
      cases returned
  | @step state next action reachable _ stepped ih =>
      intro returned
      cases action with
      | tick =>
          simp only [delaySystem, Option.some.injEq] at stepped
          subst stepped
          exact Nat.le_succ_of_le (ih returned)
      | run =>
          obtain ⟨_, sameElapsed, ⟨_, entered⟩ | ⟨_, _, _, kept⟩ | ⟨stop, was, reached, _⟩⟩ :=
            run_cases stepped
          · rw [entered] at returned
            cases returned
          · rw [kept] at returned
            cases returned
          -- The counter read at least `before` ticks after the call has come up to the stop.
          · have held := tracks reachable
            have counter := held.counter
            obtain ⟨before, bound, reads⟩ := held.stop stop was
            rw [BitVec.lt_def, counter, reads, asked] at reached
            rw [sameElapsed]
            omega

/-! ## Short delays -/

/-- Any number of ticks may come at any point. -/
theorem reachable_ticks (n : ℕ) (reachable : (delaySystem routine freq ms ticks).Reachable state) :
    ∃ later, (delaySystem routine freq ms ticks).Reachable later ∧
      later.point = state.point ∧ later.elapsed = state.elapsed + n := by
  induction n with
  | zero => exact ⟨state, reachable, rfl, rfl⟩
  | succ n ih =>
      obtain ⟨later, reached, point, elapsed⟩ := ih
      have ticked : (delaySystem routine freq ms ticks).step later .tick =
          some { later with
            ticks := isrSystimeBootstrap later.ticks
            elapsed := later.elapsed + 1 } := rfl
      refine ⟨_, reached.step trivial ticked, point, ?_⟩
      dsimp only
      rw [elapsed, Nat.add_assoc]

/-- A call that reads the counter after `before` ticks and finds it, another `after` ticks
later, not below the stop has returned then. -/
theorem exists_returned (routine : Routine) (freq ms ticks : Word) (before after : ℕ)
    (reached : ¬ (ticks.toNat + before + after) % 2 ^ 32 <
      (ticks.toNat + before + (ticksToWait freq ms).toNat) % 2 ^ 32) :
    ∃ state, (delaySystem routine freq ms ticks).Reachable state ∧ state.point = .returned ∧
      state.elapsed = before + after := by
  have initial : (delaySystem routine freq ms ticks).Reachable
      ⟨ticks, taskStructNew 0 0, .called, 0⟩ := .start ⟨rfl, rfl, rfl⟩
  obtain ⟨first, firstReached, called, firstElapsed⟩ := reachable_ticks before initial
  obtain ⟨second, entering, _, sameElapsed, waiting⟩ := enter_step routine freq ms ticks called
  have secondReached := firstReached.step trivial entering
  obtain ⟨third, thirdReached, samePoint, thirdElapsed⟩ := reachable_ticks after secondReached
  have elapsed : third.elapsed = before + after := by
    rw [thirdElapsed, sameElapsed, firstElapsed, Nat.zero_add]
  have firstCounter := (tracks firstReached).counter
  have thirdCounter := (tracks thirdReached).counter
  rw [waiting] at samePoint
  obtain ⟨last, leaving, lastElapsed, returned⟩ :=
    leave_step routine freq ms ticks samePoint (by
      rw [BitVec.lt_def, BitVec.toNat_add, firstCounter, thirdCounter, firstElapsed, elapsed]
      simp only [Nat.zero_add, Nat.mod_add_mod, ← Nat.add_assoc]
      exact reached)
  exact ⟨last, thirdReached.step trivial leaving, returned, lastElapsed.trans elapsed⟩

/-- Where the deadline does not fit, each function returns early in some run. -/
theorem exists_short (routine : Routine) (wraps : ¬ DeadlineFits freq ms ticks) :
    ∃ state, (delaySystem routine freq ms ticks).Reachable state ∧ state.point = .returned ∧
      state.elapsed < ticksAsked freq ms := by
  have inRange := ticks.isLt
  have inLoop := toNat_ticksToWait freq ms
  simp only [DeadlineFits, not_or, not_and, Nat.not_le] at wraps
  unfold ticksAsked at wraps ⊢
  generalize ms.toNat * freq.toNat = product at wraps inLoop ⊢
  obtain ⟨positive, tooLate⟩ := wraps
  by_cases productFits : product < 2 ^ 32
  -- The ticks before the read of the counter take the stop just over its end.
  · have late := tooLate productFits
    obtain ⟨state, reachable, returned, elapsed⟩ :=
      exists_returned routine freq ms ticks (2 ^ 32 - product / 1000 - ticks.toNat) 0 (by omega)
    exact ⟨state, reachable, returned, by omega⟩
  · by_cases stopFits : ticks.toNat + (ticksToWait freq ms).toNat < 2 ^ 32
    -- The wrapped product asks for fewer ticks.
    · obtain ⟨state, reachable, returned, elapsed⟩ :=
        exists_returned routine freq ms ticks 0 (ticksToWait freq ms).toNat (Nat.lt_irrefl _)
      exact ⟨state, reachable, returned, by omega⟩
    -- The stop wraps too, and the loop is left at once.
    · obtain ⟨state, reachable, returned, elapsed⟩ :=
        exists_returned routine freq ms ticks 0 0 (by omega)
      exact ⟨state, reachable, returned, by omega⟩

/-- **Delays that are never short.** Each of the functions waits at least as long as asked
for, in all runs, exactly when the deadline fits into the counter. -/
theorem neverShort_iff (routine : Routine) (freq ms ticks : Word) :
    NeverShort routine freq ms ticks ↔ DeadlineFits freq ms ticks := by
  refine ⟨fun never => ?_, neverShort_of_fits⟩
  by_contra wraps
  obtain ⟨state, reachable, returned, short⟩ := exists_short routine wraps
  exact Nat.not_le.mpr short (never state reachable returned)

/-- At the last value of the counter a delay of one tick returns at once. -/
theorem delay_short_at_wrap :
    ¬ NeverShort .delay 1000 1 (2 ^ 32 - 1) ∧ ¬ NeverShort .delayRt 1000 1 (2 ^ 32 - 1) ∧
      ¬ NeverShort .delayBootstrap 1000 1 (2 ^ 32 - 1) := by
  have short (routine : Routine) : ¬ NeverShort routine 1000 1 (2 ^ 32 - 1) := by
    intro never
    obtain ⟨state, reachable, returned, elapsed⟩ :=
      exists_returned routine 1000 1 (2 ^ 32 - 1) 0 0 (by decide)
    have asked := never state reachable returned
    rw [elapsed] at asked
    exact absurd asked (by decide)
  exact ⟨short .delay, short .delayRt, short .delayBootstrap⟩

/-! ## The task that waits -/

/-- A task in `delay_rt` cannot be interrupted from the read of the counter to the end of
the loop, and can afterwards. -/
theorem delayRt_interruptible
    (reachable : (delaySystem .delayRt freq ms ticks).Reachable state) :
    (∀ stop, state.point = .waiting stop → state.curtask.interruptible = false) ∧
      (state.point = .returned → state.curtask.interruptible = true) := by
  refine reachable.invariant (fun state =>
    (∀ stop, state.point = .waiting stop → state.curtask.interruptible = false) ∧
      (state.point = .returned → state.curtask.interruptible = true)) ?_ ?_
  · rintro state ⟨_, called, _⟩
    simp [called]
  · intro state action next held _ stepped
    cases action with
    | tick =>
        simp only [delaySystem, Option.some.injEq] at stepped
        exact stepped ▸ held
    | run =>
        simp only [delaySystem, Routine.body, delayRt, Option.map_eq_some_iff] at stepped
        obtain ⟨after, ran, rfl⟩ := stepped
        cases point : state.point with
        | called =>
            rw [point, delayWith, Option.some.injEq] at ran
            simp [← ran]
        | waiting stop =>
            rw [point, delayWith] at ran
            by_cases below : state.ticks < stop
            · rw [if_pos below, Option.some.injEq] at ran
              simpa [← ran] using held.1 stop point
            · rw [if_neg below, Option.some.injEq] at ran
              simp [← ran]
        | returned =>
            rw [point, delayWith] at ran
            cases ran

end CatchOS.Timer
