import CatchOS.Tasks.Sem
import Mathlib.Data.Fintype.Basic

/-!
# No semaphore wake-up is lost

A task that blocks goes through three steps: it finds no permit, it is pushed in
the queue, and its state becomes `TASK_WAITING`. A signal can fall in each gap.

* Between the test and the push, the signal finds the queue without the task and
  leaves a permit that the task no longer looks at. The same permit is left when
  the queue holds more tasks than the signal pops.
* Between the push and the store of `TASK_WAITING`, the signal can pop the task
  and make it ready before it makes itself waiting.

And when a request of `queue_push` fails the task is in no queue at all
(`failPush_loses`).

`WakeupGuard` excludes just these: a signal that leaves a count above the calls
that are about to decrement it leaves nobody in the queue or about to be pushed,
a popped task is made ready after it has made itself waiting, and the requests of
`queue_push` return blocks. The count must also stay inside its 32 bits. Then a
task that waits is in the queue or about to be made ready, and the queue is empty
when there are permits (`sem_no_lost_wakeup`). Two tasks are enough to lose a
wake-up otherwise (`sem_wakeup_lost`).
-/

set_option autoImplicit false

namespace CatchOS.Tasks

open CatchOS.Lib

section Guards

variable {Task : Type} [Fintype Task]

/-- The steps that lose no wake-up and no permit. -/
def WakeupGuard (run : SemRun Task) : SemAction Task → Prop
  | .wait _ => True
  | .signal _ => run.sem.count < 2 ^ 31 - 1 ∧
      (run.sem.count < run.inFlight ∨
        run.sem.taskQueue.tail = [] ∧ ∀ task, run.point task ≠ .push)
  | .run task =>
      match run.point task with
      | .decrement => -(2 ^ 31) < run.sem.count
      | .storeReady poppedTask => run.point poppedTask ≠ .storeWaiting
      | .outside | .push | .storeWaiting | .blocked => True
  | .failPush _ => False

instance [DecidableEq Task] (run : SemRun Task) : ∀ action, Decidable (WakeupGuard run action)
  | .wait _ => isTrue trivial
  | .signal _ => inferInstanceAs (Decidable (_ ∧ _))
  | .run task =>
      match h : run.point task with
      | .decrement => decidable_of_iff (-(2 ^ 31) < run.sem.count) (by simp only [WakeupGuard, h])
      | .storeReady poppedTask =>
          decidable_of_iff (run.point poppedTask ≠ .storeWaiting) (by simp only [WakeupGuard, h])
      | .outside | .push | .storeWaiting | .blocked => isTrue (by simp only [WakeupGuard, h])
  | .failPush _ => isFalse id

/-- A task that is blocked with state `TASK_WAITING` is in the queue or has been
popped by a signal that has yet to make it ready; and when every task is outside
or blocked, the queue is empty if there is a permit. -/
def NoLostWakeup (run : SemRun Task) : Prop :=
  (∀ task, run.point task = .blocked → run.state task = .waiting →
    task ∈ run.sem.taskQueue ∨ ∃ waker, run.point waker = .storeReady task) ∧
  (0 < run.sem.count → (∀ task, run.point task = .outside ∨ run.point task = .blocked) →
    run.sem.taskQueue = [])

end Guards

/-! ## Tasks that wait are expected -/

/-- The task is in the queue, or a signal has popped it and has yet to make it
ready. -/
def Expected {Task : Type} (queue : List Task) (point : Task → SemPoint Task) (task : Task) :
    Prop :=
  task ∈ queue ∨ ∃ waker, point waker = .storeReady task

section Woken

variable {Task : Type} [DecidableEq Task] {run next : SemRun Task} {action : SemAction Task}

/-- A task stays expected when another one moves that was not about to make it
ready. -/
theorem Expected.update {queue after : List Task} {point : Task → SemPoint Task} {task : Task}
    (expected : Expected queue point task) (mover : Task) (target : SemPoint Task)
    (notWaking : point mover ≠ .storeReady task) (kept : task ∈ queue → task ∈ after) :
    Expected after (Function.update point mover target) task := by
  rcases expected with queued | ⟨waker, waking⟩
  · exact .inl (kept queued)
  · refine .inr ⟨waker, ?_⟩
    have other : waker ≠ mover := by
      rintro rfl
      exact notWaking waking
    rw [Function.update_of_ne other]
    exact waking

/-- A task that was pushed and has yet to make itself waiting is expected, and so
is a task that is blocked and waiting. -/
structure Woken (run : SemRun Task) : Prop where
  pushed : ∀ task, run.point task = .storeWaiting → Expected run.sem.taskQueue run.point task
  blocked : ∀ task, run.point task = .blocked → run.state task = .waiting →
    Expected run.sem.taskQueue run.point task

omit [DecidableEq Task] in
theorem Woken.expected (woken : Woken run) {task : Task}
    (waits : run.point task = .storeWaiting ∨
      run.point task = .blocked ∧ run.state task = .waiting) :
    Expected run.sem.taskQueue run.point task := by
  rcases waits with storing | ⟨blocked, waiting⟩
  · exact woken.pushed task storing
  · exact woken.blocked task blocked waiting

/-- One task moves. The others that wait have waited before, and stay expected
when they are not popped and not made ready. -/
theorem Woken.move {mover : Task} {target : SemPoint Task} (woken : Woken run)
    (moved : next.point = Function.update run.point mover target)
    (states : ∀ task, task ≠ mover → next.state task = .waiting → run.state task = .waiting)
    (kept : ∀ task, task ≠ mover → (run.point task = .storeWaiting ∨
      run.point task = .blocked ∧ next.state task = .waiting) →
      Expected run.sem.taskQueue run.point task → Expected next.sem.taskQueue next.point task)
    (own : target = .storeWaiting ∨ target = .blocked →
      Expected next.sem.taskQueue next.point mover) : Woken next := by
  refine ⟨fun task storing => ?_, fun task blocked waiting => ?_⟩
  · by_cases same : task = mover
    · subst same
      rw [moved, Function.update_self] at storing
      exact own (.inl storing)
    · rw [moved, Function.update_of_ne same] at storing
      exact kept task same (.inl storing) (woken.pushed task storing)
  · by_cases same : task = mover
    · subst same
      rw [moved, Function.update_self] at blocked
      exact own (.inr blocked)
    · rw [moved, Function.update_of_ne same] at blocked
      exact kept task same (.inr ⟨blocked, waiting⟩)
        (woken.blocked task blocked (states task same waiting))

/-- The queue has a tail when it has elements. -/
def TailKept (run : SemRun Task) : Prop := run.tailNull = true → run.sem.taskQueue = []

omit [DecidableEq Task] in
theorem TailKept.notLost (kept : TailKept run) : run.tailLost = false := by
  cases null : run.tailNull with
  | false => simp only [SemRun.tailLost, null, Bool.false_and]
  | true => simp only [SemRun.tailLost, kept null, List.isEmpty_nil, Bool.not_true, Bool.and_false]

theorem TailKept.step [Fintype Task] (kept : TailKept run) (allowed : WakeupGuard run action)
    (stepped : run.step action = some next) : TailKept next := by
  cases SemRun.steps_of_step stepped with
  | permit | noPermit | decrement | storeWaiting | resume | storeReady => exact kept
  | push => exact fun null => absurd null (by simp [SemRun.append, SemRun.moveTo])
  | pushLost _ lost => exact absurd (kept.notLost.symm.trans lost) (by decide)
  | pushFailed => exact allowed.elim
  | signalEmpty => exact fun _ => rfl
  | signalPop _ queue => exact fun null => absurd ((kept null).symm.trans queue) (by simp)

theorem Woken.step [Fintype Task] (woken : Woken run) (kept : TailKept run)
    (allowed : WakeupGuard run action) (stepped : run.step action = some next) : Woken next := by
  cases SemRun.steps_of_step stepped with
  | @permit task outside | @noPermit task outside =>
      refine woken.move rfl (fun _ _ waiting => waiting) (fun other _ _ expected => ?_) (by simp)
      exact expected.update task _ (by rw [outside]; exact nofun) id
  | @decrement task point =>
      refine woken.move rfl (fun _ _ waiting => waiting) (fun other _ _ expected => ?_) (by simp)
      exact expected.update task _ (by rw [point]; exact nofun) id
  | @push task point _ =>
      refine woken.move rfl (fun _ _ waiting => waiting) (fun other _ _ expected => ?_) fun _ => ?_
      · exact expected.update task _ (by rw [point]; exact nofun) (List.mem_append_left _)
      · exact .inl (List.mem_append_right _ List.mem_cons_self)
  | pushLost _ lost => exact absurd (kept.notLost.symm.trans lost) (by decide)
  | pushFailed => exact allowed.elim
  | @storeWaiting task point =>
      refine woken.move rfl (fun other different waiting => ?_) (fun other _ _ expected => ?_)
        fun _ => ?_
      · exact (Function.update_of_ne different _ _).symm.trans waiting
      · exact expected.update task _ (by rw [point]; exact nofun) id
      · exact (woken.pushed task point).update task _ (by rw [point]; exact nofun) id
  | @resume task point ready =>
      refine woken.move rfl (fun other different waiting => ?_) (fun other _ _ expected => ?_)
        (by simp)
      · exact (Function.update_of_ne different _ _).symm.trans waiting
      · exact expected.update task _ (by rw [point]; exact nofun) id
  | @signalEmpty task outside empty =>
      refine ⟨fun other storing => ?_, fun other blocked waiting => ?_⟩
      · exact empty ▸ woken.pushed other storing
      · exact empty ▸ woken.blocked other blocked waiting
  | @signalPop task poppedTask rest outside queue =>
      refine woken.move rfl (fun _ _ waiting => waiting) (fun other _ _ expected => ?_) (by simp)
      by_cases popped : other = poppedTask
      · exact .inr ⟨task, by rw [popped]; exact Function.update_self _ _ _⟩
      · refine expected.update task _ (by rw [outside]; exact nofun) fun queued => ?_
        rw [queue, List.mem_cons] at queued
        exact queued.resolve_left popped
  | @storeReady task poppedTask point =>
      have settled : run.point poppedTask ≠ .storeWaiting := by
        simpa only [WakeupGuard, point] using allowed
      have woken' {other : Task}
          (waiting : Function.update run.state poppedTask .ready other = .waiting) :
          other ≠ poppedTask ∧ run.state other = .waiting := by
        by_cases popped : other = poppedTask
        · rw [popped, Function.update_self] at waiting
          cases waiting
        · rw [Function.update_of_ne popped] at waiting
          exact ⟨popped, waiting⟩
      refine woken.move rfl (fun other _ waiting => (woken' waiting).2)
        (fun other _ waits expected => ?_) (by simp)
      refine expected.update task _ ?_ id
      rw [point, Ne, SemPoint.storeReady.injEq]
      rcases waits with storing | ⟨-, waiting⟩
      · rintro rfl
        exact settled storing
      · exact (woken' waiting).1.symm

/-- A task whose push fails waits without being in the queue, when its call goes on. -/
theorem failPush_loses {task : Task} (pushes : run.point task = .push)
    (unexpected : ¬Expected run.sem.taskQueue run.point task) :
    ∃ lost next, run.step (.failPush task) = some lost ∧ lost.step (.run task) = some next ∧
      ¬NoLostWakeup next := by
  have stores : (run.lose task).point task = .storeWaiting := Function.update_self _ _ _
  have goesOn : (run.lose task).step (.run task) = some ((run.lose task).waitStore task) := by
    simp only [SemRun.step, stores]
  have blocked : ((run.lose task).waitStore task).point task = .blocked :=
    Function.update_self _ _ _
  refine ⟨run.lose task, _, if_pos pushes, goesOn, fun kept => unexpected ?_⟩
  rcases kept.1 task blocked (Function.update_self _ _ _) with queued | ⟨waker, waking⟩
  · exact .inl queued
  · refine .inr ⟨waker, ?_⟩
    have other : waker ≠ task := by
      rintro rfl
      rw [blocked] at waking
      cases waking
    simpa only [SemRun.waitStore, SemRun.moveTo, SemRun.setState, SemRun.lose,
      Function.update_of_ne other] using waking

end Woken

/-! ## Permits and the queue do not meet -/

section Permits

variable {Task : Type} [Fintype Task] {run next : SemRun Task} {action : SemAction Task}

/-- The count is inside its range, and when somebody is in the queue or about to
be pushed, what it holds is for the calls in flight. -/
structure PermitsTaken (run : SemRun Task) : Prop where
  lower : -(2 ^ 31) ≤ run.sem.count
  upper : run.sem.count < 2 ^ 31
  queued : run.sem.taskQueue ≠ [] → run.sem.count ≤ run.inFlight
  pushing : ∀ task, run.point task = .push → run.sem.count ≤ run.inFlight

variable [DecidableEq Task]

theorem inFlight_of_moved {mover : Task} {target : SemPoint Task}
    (moved : next.point = Function.update run.point mover target) :
    next.inFlight = run.inFlight - (run.point mover).takes + target.takes := by
  rw [SemRun.inFlight, moved, total_update]
  rfl

/-- A task moves to a point other than the push; the count of free permits does
not grow, and nobody is added to the queue. -/
theorem PermitsTaken.move {mover : Task} {target : SemPoint Task} (taken : PermitsTaken run)
    (moved : next.point = Function.update run.point mover target) (notPush : target ≠ .push)
    (queue : next.sem.taskQueue ≠ [] → run.sem.taskQueue ≠ [] ∨ run.point mover = .push)
    (lower : -(2 ^ 31) ≤ next.sem.count) (upper : next.sem.count < 2 ^ 31)
    (free : next.sem.count - target.takes ≤ run.sem.count - (run.point mover).takes) :
    PermitsTaken next := by
  have flight := inFlight_of_moved moved
  refine ⟨lower, upper, fun nonempty => ?_, fun task pushing => ?_⟩
  · rcases queue nonempty with before | pushes
    · have bound := taken.queued before
      omega
    · have bound := taken.pushing mover pushes
      omega
  · have different : task ≠ mover := by
      rintro rfl
      rw [moved, Function.update_self] at pushing
      exact notPush pushing
    rw [moved, Function.update_of_ne different] at pushing
    have bound := taken.pushing task pushing
    omega

theorem PermitsTaken.step (taken : PermitsTaken run) (allowed : WakeupGuard run action)
    (stepped : run.step action = some next) : PermitsTaken next := by
  have ⟨lower, upper, queued, pushing⟩ := taken
  cases SemRun.steps_of_step stepped with
  | @permit task outside permit =>
      refine taken.move rfl (by simp) (fun before => .inl before) lower upper ?_
      rw [outside]
      simp only [SemRun.moveTo, SemPoint.takes]
      omega
  | @noPermit task outside none =>
      have flight : (run.moveTo task .push).inFlight = _ := inFlight_of_moved rfl
      have nonneg := run.inFlight_nonneg
      rw [outside] at flight
      simp only [SemPoint.takes] at flight
      refine ⟨lower, upper, fun nonempty => ?_, fun other _ => ?_⟩
      · have bound := queued nonempty
        simp only [SemRun.moveTo] at *
        omega
      · simp only [SemRun.moveTo] at *
        omega
  | @decrement task point =>
      have room : -(2 ^ 31) < run.sem.count := by simpa only [WakeupGuard, point] using allowed
      have exact' : int32 (run.sem.count - 1) = run.sem.count - 1 := int32_eq (by omega) (by omega)
      refine taken.move rfl (by simp) (fun before => .inl before) ?_ ?_ ?_ <;>
        simp only [SemRun.waitDecrement, SemRun.waitReturns, SemRun.moveTo, exact', point,
          SemPoint.takes] <;> omega
  | @push task point _ | @pushLost task point _ | @pushFailed task point =>
      refine taken.move rfl (by simp) (fun _ => .inr point) lower upper ?_
      rw [point]
      exact le_rfl
  | @storeWaiting task point =>
      refine taken.move rfl (by simp) (fun before => .inl before) lower upper ?_
      rw [point]
      exact le_rfl
  | @resume task point ready =>
      refine taken.move rfl (by simp) (fun before => .inl before) lower upper ?_
      rw [point]
      exact le_rfl
  | @signalEmpty task outside empty =>
      obtain ⟨room, covered⟩ := allowed
      have exact' : int32 (run.sem.count + 1) = run.sem.count + 1 := int32_eq (by omega) (by omega)
      refine ⟨?_, ?_, fun nonempty => absurd rfl nonempty, fun other pushes => ?_⟩
      · simp only [exact']; omega
      · simp only [exact']; omega
      · rcases covered with spent | ⟨-, nobody⟩
        · simp only [exact', SemRun.inFlight] at *
          omega
        · exact absurd pushes (nobody other)
  | @signalPop task poppedTask rest outside queue =>
      obtain ⟨room, covered⟩ := allowed
      have exact' : int32 (run.sem.count + 1) = run.sem.count + 1 := int32_eq (by omega) (by omega)
      have flight : total SemPoint.takes (Function.update run.point task (.storeReady poppedTask)) =
          run.inFlight := by
        rw [total_update, outside]
        simp [SemPoint.takes, SemRun.inFlight]
      refine ⟨?_, ?_, fun nonempty => ?_, fun other pushes => ?_⟩
      · simp only [exact']; omega
      · simp only [exact']; omega
      · rcases covered with spent | ⟨last, -⟩
        · simp only [exact', SemRun.inFlight] at *
          omega
        · rw [queue] at last
          exact absurd last nonempty
      · rcases covered with spent | ⟨-, nobody⟩
        · simp only [exact', SemRun.inFlight] at *
          omega
        · have different : other ≠ task := by
            rintro rfl
            simp at pushes
          simp only [Function.update_of_ne different] at pushes
          exact absurd pushes (nobody other)
  | @storeReady task poppedTask point =>
      refine taken.move rfl (by simp) (fun before => .inl before) lower upper ?_
      rw [point]
      exact le_rfl

/-- **No wake-up is lost** in any run whose steps all meet the guard: a task that
is blocked and waiting is in the queue or about to be made ready, and the queue is
empty when there is a permit and every task is outside or blocked. -/
theorem sem_no_lost_wakeup {count : ℤ}
    (reachable : (semSystem Task count).ReachableUnder WakeupGuard run) : NoLostWakeup run := by
  have holds : Woken run ∧ TailKept run ∧ PermitsTaken run := by
    refine reachable.invariant (fun run => Woken run ∧ TailKept run ∧ PermitsTaken run) ?_
      fun ⟨woken, kept, taken⟩ allowed stepped => ⟨woken.step kept allowed stepped,
        kept.step allowed stepped, taken.step allowed stepped⟩
    rintro run ⟨sem, -, outside, -⟩
    have bounds := int32_bounds count
    refine ⟨⟨fun task storing => ?_, fun task blocked => ?_⟩, fun _ => by rw [sem]; rfl,
      ⟨?_, ?_, fun nonempty => ?_, fun task pushes => ?_⟩⟩
    · simp [outside] at storing
    · simp [outside] at blocked
    · rw [sem]; exact bounds.1
    · rw [sem]; exact bounds.2
    · rw [sem] at nonempty; exact absurd rfl nonempty
    · simp [outside] at pushes
  obtain ⟨woken, -, taken⟩ := holds
  refine ⟨woken.blocked, fun permit quiet => ?_⟩
  by_contra nonempty
  have bound := taken.queued nonempty
  have none : run.inFlight = 0 := by
    refine total_eq_zero fun task => ?_
    rcases quiet task with outside | blocked
    · rw [outside]; rfl
    · rw [blocked]; rfl
  omega

end Permits

/-- Two tasks and a semaphore, before any call. -/
def twoTasks (count : ℤ) : SemRun (Fin 2) where
  sem := semInit count
  tailNull := true
  state _ := .running
  point _ := .outside
  waits := 0
  signals := 0
  handoffs := 0
  inside _ := false

theorem twoTasks_initial (count : ℤ) : (semSystem (Fin 2) count).initial (twoTasks count) :=
  ⟨rfl, rfl, fun _ => rfl, fun _ => rfl, rfl, rfl, rfl, fun _ => rfl⟩

/-- The second task is blocked and has been popped by the first, which has yet to
make it ready. -/
theorem sem_no_lost_wakeup_popped : ∃ run : SemRun (Fin 2),
    (semSystem (Fin 2) 1).ReachableUnder WakeupGuard run ∧
    run.point 1 = .blocked ∧ run.state 1 = .waiting ∧ run.sem.taskQueue = [] ∧
    NoLostWakeup run := by
  let actions : List (SemAction (Fin 2)) := [.wait 0, .run 0, .wait 1, .run 1, .run 1, .signal 0]
  obtain ⟨run, reachable, tested⟩ := System.exists_reachableUnder_of_replay (semSystem (Fin 2) 1)
    WakeupGuard (twoTasks_initial 1) actions
    (fun run => run.point 1 = .blocked ∧ run.state 1 = .waiting ∧ run.sem.taskQueue = [])
    (by decide)
  obtain ⟨blocked, waiting, empty⟩ := of_decide_eq_true tested
  exact ⟨run, reachable, blocked, waiting, empty, sem_no_lost_wakeup reachable⟩

/-- **A wake-up is lost.** The second task is pushed; the first signals, pops it
and makes it ready; then the second makes itself waiting and blocks. -/
theorem sem_wakeup_lost :
    ¬ ∀ run, (semSystem (Fin 2) 1).Reachable run → NoLostWakeup run := by
  intro kept
  let actions : List (SemAction (Fin 2)) := [.wait 0, .run 0, .wait 1, .run 1, .signal 0, .run 0,
    .run 1]
  obtain ⟨run, reachable, tested⟩ := System.exists_reachableUnder_of_replay (semSystem (Fin 2) 1)
    (fun _ _ => True) (twoTasks_initial 1) actions
    (fun run => run.point 1 = .blocked ∧ run.state 1 = .waiting ∧ 1 ∉ run.sem.taskQueue ∧
      ∀ waker, run.point waker ≠ .storeReady 1) (by decide)
  obtain ⟨blocked, waiting, notQueued, notPopped⟩ := of_decide_eq_true tested
  rcases (kept run reachable).1 1 blocked waiting with queued | ⟨waker, popped⟩
  · exact notQueued queued
  · exact notPopped waker popped

end CatchOS.Tasks
