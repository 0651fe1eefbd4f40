import CatchOS.Tasks.Sem
import Mathlib.Data.Fintype.Basic

/-!
# How many tasks a semaphore lets through

`sem_signal` increments the count also when it hands its permit to a task of the
queue, and that task does not decrement the count when it resumes. The count is
therefore too high by the number of signals that popped a task. It is also too
high by the calls of `sem_wait` that have passed the test and not yet taken
their permit.

As long as no call passes the test on the strength of this excess
(`PermitGuard`), the count covers the handoffs and the calls in flight, and the
calls of `sem_wait` that have returned exceed those of `sem_signal` by at most the
initial count (`sem_permit_bound`). Without the guard three tasks are enough to
have two of them inside a semaphore of one permit (`sem_permit_exceeded`).
-/

set_option autoImplicit false

namespace CatchOS.Tasks

open CatchOS.Lib

section Guards

variable {Task : Type} [Fintype Task]

/-- A call passes the test of `sem_wait` only on a count that is above the
signals that popped a task and the calls that are about to take their permit. -/
def PermitGuard (run : SemRun Task) : SemAction Task → Prop
  | .wait _ => 0 < run.sem.count → run.inFlight + run.handoffs < run.sem.count
  | .signal _ | .run _ | .failPush _ => True

/-- A task signals only after a wait of its own. -/
def Paired (run : SemRun Task) : SemAction Task → Prop
  | .signal task => run.inside task = true
  | .wait _ | .run _ | .failPush _ => True

instance (run : SemRun Task) : ∀ action, Decidable (PermitGuard run action)
  | .wait _ => inferInstanceAs (Decidable (_ → _))
  | .signal _ | .run _ | .failPush _ => isTrue trivial

instance (run : SemRun Task) : ∀ action, Decidable (Paired run action)
  | .signal _ => inferInstanceAs (Decidable (_ = _))
  | .wait _ | .run _ | .failPush _ => isTrue trivial

end Guards

/-! ## The permits behind the count -/

def TaskState.isReady : TaskState → ℤ
  | .ready => 1
  | .waiting | .running | .terminated => 0

theorem TaskState.isReady_nonneg (state : TaskState) : 0 ≤ state.isReady := by
  cases state <;> decide

/-- `permits` is the count without wrapping, and `resumed` the number of tasks
that were popped and have returned from `sem_wait`. -/
structure PermitInvariant {Task : Type} [Fintype Task] (initial permits resumed : ℤ)
    (run : SemRun Task) : Prop where
  count : run.sem.count = int32 permits
  /-- The count covers the handoffs and the calls that are about to decrement it. -/
  covered : run.inFlight + run.handoffs ≤ permits
  resumedNonneg : 0 ≤ resumed
  /-- A task that was popped has resumed, is ready, or is about to be made ready. -/
  woken : resumed + total TaskState.isReady run.state + total SemPoint.wakes run.point ≤
    run.handoffs
  balance : run.waits - run.signals =
    initial - permits + resumed + total SemPoint.wakes run.point

namespace PermitInvariant

variable {Task : Type} [Fintype Task] {initial permits resumed : ℤ} {run next : SemRun Task}

/-- The calls that have returned exceed the signals by at most the initial
count: what is not covered by the count is covered by a handoff. -/
theorem waits_le (invariant : PermitInvariant initial permits resumed run) :
    run.waits - run.signals ≤ initial := by
  have ⟨_, covered, _, woken, balance⟩ := invariant
  have inFlight := run.inFlight_nonneg
  have ready := total_nonneg TaskState.isReady_nonneg run.state
  omega

theorem permits_nonneg (invariant : PermitInvariant initial permits resumed run) :
    0 ≤ permits := by
  have ⟨_, covered, resumed, woken, _⟩ := invariant
  have inFlight := run.inFlight_nonneg
  have ready := total_nonneg TaskState.isReady_nonneg run.state
  have wakes := total_nonneg SemPoint.wakes_nonneg run.point
  omega

variable [DecidableEq Task] {action : SemAction Task}

/-- **Every guarded step keeps the permits covered.** -/
theorem step (invariant : PermitInvariant initial permits resumed run)
    (allowed : PermitGuard run action) (stepped : run.step action = some next) :
    ∃ permits resumed, PermitInvariant initial permits resumed next := by
  have ⟨count, covered, resumedNonneg, woken, balance⟩ := invariant
  cases SemRun.steps_of_step stepped with
  | @permit task outside permit =>
      have below := int32_le invariant.permits_nonneg
      have room := allowed permit
      refine ⟨permits, resumed, count, ?_, resumedNonneg, ?_, ?_⟩ <;>
        simp only [SemRun.inFlight, SemRun.moveTo, total_update, outside, SemPoint.takes,
          SemPoint.wakes] at * <;> omega
  | @noPermit task outside none =>
      refine ⟨permits, resumed, count, ?_, resumedNonneg, ?_, ?_⟩ <;>
        simp only [SemRun.inFlight, SemRun.moveTo, total_update, outside, SemPoint.takes,
          SemPoint.wakes] at * <;> omega
  | @decrement task point =>
      refine ⟨permits - 1, resumed, ?_, ?_, resumedNonneg, ?_, ?_⟩
      · simp only [SemRun.waitDecrement, SemRun.waitReturns, SemRun.moveTo, count]
        exact int32_add permits (-1)
      all_goals
        simp only [SemRun.inFlight, SemRun.waitDecrement, SemRun.waitReturns, SemRun.moveTo,
          total_update, point, SemPoint.takes, SemPoint.wakes] at *
        omega
  | @push task point _ | @pushLost task point _ | @pushFailed task point =>
      refine ⟨permits, resumed, count, ?_, resumedNonneg, ?_, ?_⟩ <;>
        simp only [SemRun.inFlight, SemRun.append, SemRun.lose, SemRun.moveTo, total_update, point,
          SemPoint.takes, SemPoint.wakes] at * <;> omega
  | @storeWaiting task point =>
      have ready := (run.state task).isReady_nonneg
      refine ⟨permits, resumed, count, ?_, resumedNonneg, ?_, ?_⟩ <;>
        simp only [SemRun.inFlight, SemRun.waitStore, SemRun.setState, SemRun.moveTo,
          total_update, point, SemPoint.takes, SemPoint.wakes, TaskState.isReady] at * <;> omega
  | @resume task point ready =>
      refine ⟨permits, resumed + 1, count, ?_, by omega, ?_, ?_⟩ <;>
        simp only [SemRun.inFlight, SemRun.waitResume, SemRun.waitReturns, SemRun.setState,
          SemRun.moveTo, total_update, point, ready, SemPoint.takes, SemPoint.wakes,
          TaskState.isReady] at * <;> omega
  | @signalEmpty task outside empty =>
      refine ⟨permits + 1, resumed, ?_, ?_, resumedNonneg, woken, ?_⟩
      · simp only [count]
        exact int32_add permits 1
      all_goals
        simp only [SemRun.inFlight] at *
        omega
  | @signalPop task poppedTask rest outside queue =>
      refine ⟨permits + 1, resumed, ?_, ?_, resumedNonneg, ?_, ?_⟩
      · simp only [count]
        exact int32_add permits 1
      all_goals
        simp only [SemRun.inFlight, total_update, outside, SemPoint.takes, SemPoint.wakes] at *
        omega
  | @storeReady task poppedTask point =>
      have ready := (run.state poppedTask).isReady_nonneg
      refine ⟨permits, resumed, count, ?_, resumedNonneg, ?_, ?_⟩ <;>
        simp only [SemRun.inFlight, SemRun.signalStore, SemRun.setState, SemRun.moveTo,
          total_update, point, SemPoint.takes, SemPoint.wakes, TaskState.isReady] at * <;> omega

theorem of_reachable (nonneg : 0 ≤ initial)
    (reachable : (semSystem Task initial).ReachableUnder PermitGuard run) :
    ∃ permits resumed, PermitInvariant initial permits resumed run := by
  refine reachable.invariant (fun run => ∃ permits resumed,
    PermitInvariant initial permits resumed run)
    ?_ fun ⟨_, _, invariant⟩ allowed stepped => invariant.step allowed stepped
  rintro run ⟨sem, -, outside, running, waits, signals, handoffs, -⟩
  have flight : run.inFlight = 0 := total_eq_zero fun task => by rw [outside task]; rfl
  have wakes : total SemPoint.wakes run.point = 0 :=
    total_eq_zero fun task => by rw [outside task]; rfl
  have ready : total TaskState.isReady run.state = 0 :=
    total_eq_zero fun task => by rw [running task]; rfl
  refine ⟨initial, 0, by rw [sem]; rfl, ?_, le_rfl, ?_, ?_⟩ <;> omega

end PermitInvariant

/-! ## Tasks between their wait and their signal -/

section Inside

variable {Task : Type} [Fintype Task] [DecidableEq Task] {initial : ℤ} {run next : SemRun Task}
  {action : SemAction Task}

/-- When tasks signal only after a wait of their own, the tasks inside are no
more than the waits that returned less the signals that began. -/
def InsideBound (run : SemRun Task) : Prop :=
  total Bool.toInt run.inside + total SemPoint.wakes run.point ≤ run.waits - run.signals

omit [DecidableEq Task] in
theorem toInt_bounds (inside : Bool) : 0 ≤ inside.toInt ∧ inside.toInt ≤ 1 := by
  cases inside <;> decide

theorem InsideBound.step (bound : InsideBound run) (paired : Paired run action)
    (stepped : run.step action = some next) : InsideBound next := by
  unfold InsideBound at bound ⊢
  cases SemRun.steps_of_step stepped with
  | @permit task outside | @noPermit task outside =>
      simp only [SemRun.moveTo, total_update, outside, SemPoint.wakes]
      omega
  | @decrement task point =>
      have was := toInt_bounds (run.inside task)
      simp only [SemRun.waitDecrement, SemRun.waitReturns, SemRun.moveTo, total_update, point,
        SemPoint.wakes, Bool.toInt_true]
      omega
  | @push task point _ | @pushLost task point _ | @pushFailed task point =>
      simp only [SemRun.append, SemRun.lose, SemRun.moveTo, total_update, point, SemPoint.wakes]
      omega
  | @storeWaiting task point =>
      simp only [SemRun.waitStore, SemRun.setState, SemRun.moveTo, total_update, point,
        SemPoint.wakes]
      omega
  | @resume task point =>
      have was := toInt_bounds (run.inside task)
      simp only [SemRun.waitResume, SemRun.waitReturns, SemRun.setState, SemRun.moveTo,
        total_update, point, SemPoint.wakes, Bool.toInt_true]
      omega
  | @signalEmpty task outside =>
      have inside : run.inside task = true := paired
      simp only [total_update, inside, Bool.toInt_true, Bool.toInt_false]
      omega
  | @signalPop task poppedTask rest outside =>
      have inside : run.inside task = true := paired
      simp only [total_update, inside, outside, SemPoint.wakes, Bool.toInt_true, Bool.toInt_false]
      omega
  | @storeReady task poppedTask point =>
      simp only [SemRun.signalStore, SemRun.setState, SemRun.moveTo, total_update, point,
        SemPoint.wakes]
      omega

theorem InsideBound.of_reachable
    (reachable : (semSystem Task initial).ReachableUnder
      (fun run action => PermitGuard run action ∧ Paired run action) run) : InsideBound run := by
  refine reachable.invariant InsideBound ?_ fun bound allowed stepped =>
    bound.step allowed.2 stepped
  rintro run ⟨-, -, outside, -, waits, signals, -, inside⟩
  have none : total Bool.toInt run.inside = 0 := total_eq_zero fun task => by rw [inside task]; rfl
  have wakes : total SemPoint.wakes run.point = 0 :=
    total_eq_zero fun task => by rw [outside task]; rfl
  unfold InsideBound
  omega

/-- **The permit bound.** In every run in which no call passes the test on the
excess of the count, the calls of `sem_wait` that have returned exceed the calls
of `sem_signal` that have returned by at most the initial count. When tasks also
signal only after a wait of their own and the initial count is one, two tasks are
never both inside. -/
theorem sem_permit_bound (Task : Type) [Fintype Task] [DecidableEq Task] {initial : ℤ}
    (nonneg : 0 ≤ initial) :
    (∀ run, (semSystem Task initial).ReachableUnder PermitGuard run →
      run.waits - run.signals ≤ initial) ∧
    (initial = 1 → ∀ run, (semSystem Task initial).ReachableUnder
        (fun run action => PermitGuard run action ∧ Paired run action) run →
      ∀ first second, run.inside first = true → run.inside second = true → first = second) := by
  refine ⟨fun run reachable => ?_, fun one run reachable first second atFirst atSecond => ?_⟩
  · obtain ⟨permits, resumed, invariant⟩ := PermitInvariant.of_reachable nonneg reachable
    exact invariant.waits_le
  · obtain ⟨permits, resumed, invariant⟩ :=
      PermitInvariant.of_reachable nonneg (reachable.mono fun _ _ allowed => allowed.1)
    have bound := InsideBound.of_reachable reachable
    have excess := invariant.waits_le
    have wakes := total_nonneg SemPoint.wakes_nonneg run.point
    unfold InsideBound at bound
    have few : total Bool.toInt run.inside ≤ 1 := by omega
    refine eq_of_total_le_one (fun inside => (toInt_bounds inside).1) few ?_ ?_
    · rw [atFirst]; rfl
    · rw [atSecond]; rfl

end Inside

/-- Three tasks and a semaphore of one permit, before any call. -/
def threeTasks : SemRun (Fin 3) where
  sem := semInit 1
  tailNull := true
  state _ := .running
  point _ := .outside
  waits := 0
  signals := 0
  handoffs := 0
  inside _ := false

theorem threeTasks_initial : (semSystem (Fin 3) 1).initial threeTasks :=
  ⟨rfl, rfl, fun _ => rfl, fun _ => rfl, rfl, rfl, rfl, fun _ => rfl⟩

/-- The first task is inside, the second is blocked; the first signals and the
second resumes, while the third has not tried yet. -/
theorem sem_permit_bound_handoff : ∃ run : SemRun (Fin 3),
    (semSystem (Fin 3) 1).ReachableUnder
      (fun run action => PermitGuard run action ∧ Paired run action) run ∧
    run.handoffs = 1 ∧ run.inside 1 = true ∧ run.waits - run.signals ≤ 1 ∧
    (∀ other, run.inside other = true → other = 1) := by
  let actions : List (SemAction (Fin 3)) := [.wait 0, .run 0, .wait 1, .run 1, .run 1, .signal 0,
    .run 0, .run 1]
  obtain ⟨run, reachable, tested⟩ := System.exists_reachableUnder_of_replay (semSystem (Fin 3) 1)
    (fun run action => PermitGuard run action ∧ Paired run action) threeTasks_initial actions
    (fun run => run.handoffs = 1 ∧ run.inside 1 = true) (by decide)
  obtain ⟨handoff, inside⟩ := of_decide_eq_true tested
  have bound := sem_permit_bound (Fin 3) (by decide : (0 : ℤ) ≤ 1)
  exact ⟨run, reachable, handoff, inside,
    bound.1 run (reachable.mono fun _ _ allowed => allowed.1),
    fun other entered => bound.2 rfl run reachable other 1 entered inside⟩

/-- **One permit lets two tasks in.** The signal of the first task hands its
permit to the second and also increments the count, on which the third passes the
test. -/
theorem sem_permit_exceeded :
    ¬ (∀ run, (semSystem (Fin 3) 1).Reachable run → run.waits - run.signals ≤ 1) ∧
    ¬ (∀ run, (semSystem (Fin 3) 1).ReachableUnder Paired run → ∀ first second,
      run.inside first = true → run.inside second = true → first = second) := by
  let actions : List (SemAction (Fin 3)) := [.wait 0, .run 0, .wait 1, .run 1, .run 1, .signal 0,
    .run 0, .wait 2, .run 2, .run 1]
  obtain ⟨run, reachable, tested⟩ := System.exists_reachableUnder_of_replay (semSystem (Fin 3) 1)
    Paired threeTasks_initial actions
    (fun run => run.waits - run.signals = 2 ∧ run.inside 1 = true ∧ run.inside 2 = true)
    (by decide)
  obtain ⟨exceeded, second, third⟩ := of_decide_eq_true tested
  refine ⟨fun bounded => ?_, fun exclusive => ?_⟩
  · have bound := bounded run (reachable.mono fun _ _ _ => trivial)
    omega
  · exact absurd (exclusive run reachable 1 2 second third) (by decide)

end CatchOS.Tasks
