import CatchOS.Machine.Memory

/-!
# Tasks

The parts of `tasks.h` that the scheduler and the semaphores work on. A task is
named by an identifier that stands for the address of its `task_struct`; the
registers and the stack a task is switched away with are modelled as the calls it
has yet to finish, where the context switch is modelled.
-/

set_option autoImplicit false

namespace CatchOS.Tasks

/-- `MAX_CONCURRENT_TASKS`. -/
def maxConcurrentTasks : Nat := 64

/-- `enum TASK_STATE`. -/
inductive TaskState where
  | ready
  | waiting
  | running
  | terminated
  deriving DecidableEq

/-- `enum JOIN_STATE`. -/
inductive JoinState where
  | joinable
  | detached
  deriving DecidableEq

/-- Names a task: the address of its `task_struct`, where an address that was
freed and given out again counts as a new name. -/
abbrev TaskId := ℕ

/-- `struct task_struct`, without the saved registers and the stack. -/
structure TaskStruct where
  pid : ℕ
  state : TaskState
  staticPrio : ℤ
  dynamicPrio : ℤ
  interruptible : Bool
  joinState : JoinState
  sleepAvg : ℤ
  deriving DecidableEq

/-- The fields `task_new` gives a task; the others it sets to zero. -/
def taskStructNew (pid : ℕ) (priority : ℤ) : TaskStruct where
  pid := pid
  state := .ready
  staticPrio := priority
  dynamicPrio := 0
  interruptible := true
  joinState := .joinable
  sleepAvg := 0

end CatchOS.Tasks
