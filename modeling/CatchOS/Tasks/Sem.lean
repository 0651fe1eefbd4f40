import CatchOS.Lib.Counting
import CatchOS.Lib.Transition
import CatchOS.Tasks.TaskStruct

/-!
# Semaphores

The functions of `sem.c` as any number of tasks call them on one semaphore. Each
section under the semaphore's spinlock is one step, as is each store to a
`state` field: `sem_wait` tests the count in one section and decrements it, or
pushes the task in the queue, in another; `sem_signal` pops the head of the queue
and increments the count in one section and makes the popped task ready
afterwards.

The queue of `queue.c` is a linked list with a tail pointer; here it is the list
of its elements, and whether the tail is `NULL`. `queue_push` asks for two blocks
and does not look at the answers. When one is `NULL` the task is not in the queue,
and the tail is `NULL` from then on, so that later tasks are lost too until the
queue is empty again (`SemQueue` has this from `queue.c`).

A task that is blocked goes on when it was made ready: the scheduler then marks it
as running again.

The state also counts the calls of `sem_wait` and of `sem_signal` that have
returned, the signals that popped a task (`handoffs`), and which tasks are
between a `sem_wait` and a `sem_signal` of theirs (`inside`). The functions do
not read these.
-/

set_option autoImplicit false

namespace CatchOS.Tasks

open CatchOS.Lib

/-- `struct semaphore`, without the spinlock that makes its sections atomic. -/
structure Semaphore (Task : Type) where
  count : ℤ
  taskQueue : List Task

def semInit {Task : Type} (count : ℤ) : Semaphore Task := ⟨int32 count, []⟩

/-- What a task executes next in `sem_wait` or `sem_signal`. -/
inductive SemPoint (Task : Type) where
  /-- The task is in neither function. -/
  | outside
  /-- The test found a positive count; `sem->count--` is next. -/
  | decrement
  /-- The test found no permit; `queue_push` is next. -/
  | push
  /-- `curtask->state = TASK_WAITING` is next. -/
  | storeWaiting
  /-- The task has yielded. -/
  | blocked
  /-- `popped_task->state = TASK_READY` is next. -/
  | storeReady (poppedTask : Task)
  deriving DecidableEq

/-- One semaphore and the tasks that use it. -/
structure SemRun (Task : Type) where
  sem : Semaphore Task
  /-- `sem->task_queue.tail` is `NULL`. -/
  tailNull : Bool
  state : Task → TaskState
  point : Task → SemPoint Task
  waits : ℤ
  signals : ℤ
  handoffs : ℤ
  inside : Task → Bool

/-- A task calls one of the functions, or takes the next step of its call; the requests of
`queue_push` return blocks, or one of them fails. -/
inductive SemAction (Task : Type) where
  | wait (task : Task)
  | signal (task : Task)
  | run (task : Task)
  | failPush (task : Task)

section Steps

variable {Task : Type} [DecidableEq Task]

namespace SemRun

def moveTo (run : SemRun Task) (task : Task) (point : SemPoint Task) : SemRun Task :=
  { run with point := Function.update run.point task point }

def setState (run : SemRun Task) (task : Task) (state : TaskState) : SemRun Task :=
  { run with state := Function.update run.state task state }

/-- The task returns from `sem_wait`. -/
def waitReturns (run : SemRun Task) (task : Task) : SemRun Task :=
  { run.moveTo task .outside with
    waits := run.waits + 1
    inside := Function.update run.inside task true }

/-- The first section of `sem_wait`. -/
def waitTest (run : SemRun Task) (task : Task) : SemRun Task :=
  run.moveTo task (if 0 < run.sem.count then .decrement else .push)

/-- The second section of `sem_wait` when the test found a permit. -/
def waitDecrement (run : SemRun Task) (task : Task) : SemRun Task :=
  { run with sem := { run.sem with count := int32 (run.sem.count - 1) } }.waitReturns task

/-- The queue has elements and no tail, so that nothing can be linked to it. -/
def tailLost (run : SemRun Task) : Bool := run.tailNull && !run.sem.taskQueue.isEmpty

/-- `queue_push` links a new last element. -/
def append (run : SemRun Task) (task : Task) : SemRun Task :=
  { run with
    sem := { run.sem with taskQueue := run.sem.taskQueue ++ [task] }
    tailNull := false }.moveTo task .storeWaiting

/-- `queue_push` loses the element, and stores `NULL` in the tail. -/
def lose (run : SemRun Task) (task : Task) : SemRun Task :=
  { run with tailNull := true }.moveTo task .storeWaiting

/-- The second section of `sem_wait` when the test found none. -/
def waitPush (run : SemRun Task) (task : Task) : SemRun Task :=
  if run.tailLost then run.lose task else run.append task

def waitStore (run : SemRun Task) (task : Task) : SemRun Task :=
  (run.setState task .waiting).moveTo task .blocked

/-- The scheduler has chosen the blocked task, and `task_yield` returns. -/
def waitResume (run : SemRun Task) (task : Task) : SemRun Task :=
  (run.setState task .running).waitReturns task

/-- The section of `sem_signal`. With an empty queue the call is over. -/
def signalPop (run : SemRun Task) (task : Task) : SemRun Task :=
  let count := int32 (run.sem.count + 1)
  let inside := Function.update run.inside task false
  match run.sem.taskQueue with
  | [] => { run with sem := ⟨count, []⟩, inside := inside, signals := run.signals + 1 }
  | poppedTask :: rest =>
      { run with
        sem := ⟨count, rest⟩
        inside := inside
        handoffs := run.handoffs + 1 }.moveTo task (.storeReady poppedTask)

def signalStore (run : SemRun Task) (task poppedTask : Task) : SemRun Task :=
  { (run.setState poppedTask .ready).moveTo task .outside with signals := run.signals + 1 }

def step (run : SemRun Task) : SemAction Task → Option (SemRun Task)
  | .wait task => if run.point task = .outside then some (run.waitTest task) else none
  | .signal task => if run.point task = .outside then some (run.signalPop task) else none
  | .run task =>
      match run.point task with
      | .outside => none
      | .decrement => some (run.waitDecrement task)
      | .push => some (run.waitPush task)
      | .storeWaiting => some (run.waitStore task)
      | .blocked => if run.state task = .ready then some (run.waitResume task) else none
      | .storeReady poppedTask => some (run.signalStore task poppedTask)
  | .failPush task => if run.point task = .push then some (run.lose task) else none

end SemRun

/-- No task has called anything on a semaphore that `sem_init` has set up. -/
def semSystem (Task : Type) [DecidableEq Task] (count : ℤ) :
    System (SemRun Task) (SemAction Task) where
  initial run := run.sem = semInit count ∧ run.tailNull = true ∧
    (∀ task, run.point task = .outside) ∧ (∀ task, run.state task = .running) ∧
    run.waits = 0 ∧ run.signals = 0 ∧ run.handoffs = 0 ∧ (∀ task, run.inside task = false)
  step := SemRun.step

/-- **What a step does**, with the condition under which it is possible. -/
inductive SemRun.Steps (run : SemRun Task) : SemAction Task → SemRun Task → Prop where
  | permit {task : Task} : run.point task = .outside → 0 < run.sem.count →
      Steps run (.wait task) (run.moveTo task .decrement)
  | noPermit {task : Task} : run.point task = .outside → run.sem.count ≤ 0 →
      Steps run (.wait task) (run.moveTo task .push)
  | decrement {task : Task} : run.point task = .decrement →
      Steps run (.run task) (run.waitDecrement task)
  | push {task : Task} : run.point task = .push → run.tailLost = false →
      Steps run (.run task) (run.append task)
  | pushLost {task : Task} : run.point task = .push → run.tailLost = true →
      Steps run (.run task) (run.lose task)
  | pushFailed {task : Task} : run.point task = .push → Steps run (.failPush task) (run.lose task)
  | storeWaiting {task : Task} : run.point task = .storeWaiting →
      Steps run (.run task) (run.waitStore task)
  | resume {task : Task} : run.point task = .blocked → run.state task = .ready →
      Steps run (.run task) (run.waitResume task)
  | signalEmpty {task : Task} : run.point task = .outside → run.sem.taskQueue = [] →
      Steps run (.signal task)
        { run with
          sem := ⟨int32 (run.sem.count + 1), []⟩
          inside := Function.update run.inside task false
          signals := run.signals + 1 }
  | signalPop {task poppedTask : Task} {rest : List Task} : run.point task = .outside →
      run.sem.taskQueue = poppedTask :: rest →
      Steps run (.signal task)
        { run with
          sem := ⟨int32 (run.sem.count + 1), rest⟩
          point := Function.update run.point task (.storeReady poppedTask)
          inside := Function.update run.inside task false
          handoffs := run.handoffs + 1 }
  | storeReady {task poppedTask : Task} : run.point task = .storeReady poppedTask →
      Steps run (.run task) (run.signalStore task poppedTask)

theorem SemRun.steps_of_step {run next : SemRun Task} {action : SemAction Task}
    (stepped : run.step action = some next) : run.Steps action next := by
  cases action with
  | wait task =>
      simp only [step, Option.ite_none_right_eq_some, Option.some.injEq, waitTest] at stepped
      obtain ⟨outside, rfl⟩ := stepped
      by_cases permit : 0 < run.sem.count
      · rw [if_pos permit]
        exact .permit outside permit
      · rw [if_neg permit]
        exact .noPermit outside (by omega)
  | signal task =>
      simp only [step, Option.ite_none_right_eq_some, Option.some.injEq, signalPop] at stepped
      obtain ⟨outside, rfl⟩ := stepped
      cases queue : run.sem.taskQueue with
      | nil => exact .signalEmpty outside queue
      | cons poppedTask rest => exact .signalPop outside queue
  | run task =>
      simp only [step] at stepped
      cases point : run.point task with
      | outside => simp only [point, reduceCtorEq] at stepped
      | decrement =>
          simp only [point, Option.some.injEq] at stepped
          exact stepped ▸ .decrement point
      | push =>
          simp only [point, Option.some.injEq, waitPush] at stepped
          cases lost : run.tailLost with
          | false =>
              rw [lost] at stepped
              exact stepped ▸ .push point lost
          | true =>
              rw [lost] at stepped
              exact stepped ▸ .pushLost point lost
      | storeWaiting =>
          simp only [point, Option.some.injEq] at stepped
          exact stepped ▸ .storeWaiting point
      | blocked =>
          simp only [point, Option.ite_none_right_eq_some, Option.some.injEq] at stepped
          exact stepped.2 ▸ .resume point stepped.1
      | storeReady poppedTask =>
          simp only [point, Option.some.injEq] at stepped
          exact stepped ▸ .storeReady point
  | failPush task =>
      simp only [step, Option.ite_none_right_eq_some, Option.some.injEq] at stepped
      exact stepped.2 ▸ .pushFailed stepped.1

end Steps

/-! ## Counting tasks -/

/-- A task that has passed the test and not yet taken its permit. -/
def SemPoint.takes {Task : Type} : SemPoint Task → ℤ
  | .decrement => 1
  | .outside | .push | .storeWaiting | .blocked | .storeReady _ => 0

/-- A task that has popped another one and not yet made it ready. -/
def SemPoint.wakes {Task : Type} : SemPoint Task → ℤ
  | .storeReady _ => 1
  | .outside | .decrement | .push | .storeWaiting | .blocked => 0

theorem SemPoint.takes_nonneg {Task : Type} (point : SemPoint Task) : 0 ≤ point.takes := by
  cases point <;> simp [takes]

theorem SemPoint.wakes_nonneg {Task : Type} (point : SemPoint Task) : 0 ≤ point.wakes := by
  cases point <;> simp [wakes]

/-- How many calls have passed the test and not yet taken their permit. -/
def SemRun.inFlight {Task : Type} [Fintype Task] (run : SemRun Task) : ℤ :=
  total SemPoint.takes run.point

theorem SemRun.inFlight_nonneg {Task : Type} [Fintype Task] (run : SemRun Task) :
    0 ≤ run.inFlight :=
  total_nonneg SemPoint.takes_nonneg run.point

end CatchOS.Tasks
