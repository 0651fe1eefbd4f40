import CatchOS.Tasks.TaskTable

/-!
# The scheduler

The functions of `tasks.c` on any number of CPUs. Each section under
`lock_tasklist` is one step, as is each statement between sections that reads or
writes a `task_struct`, and as is each `task_switch_to`.

A CPU executes calls of its current task. What is left of them is a list of
frames, the innermost first: `schedule` called from `task_yield`, or from a timer
interrupt on top of whatever the task was doing. The context switch saves the
frames with the task that leaves and continues with those of the task that comes.
A task that was never switched to has no frames: it starts in its own function.

A timer interrupt may come at any step. It calls `schedule` only when the current
task is interruptible and has used up its time.
-/

set_option autoImplicit false

namespace CatchOS.Tasks

open CatchOS.Lib

/-! ## Sections on the table -/

namespace TaskTable

/-- Changes one `task_struct`. -/
def modify (table : TaskTable) (t : TaskId) (change : TaskStruct → TaskStruct) : TaskTable :=
  { table with task := Function.update table.task t (change (table.task t)) }

def setState (table : TaskTable) (t : TaskId) (state : TaskState) : TaskTable :=
  table.modify t fun task => { task with state := state }

def setInterruptible (table : TaskTable) (t : TaskId) (interruptible : Bool) : TaskTable :=
  table.modify t fun task => { task with interruptible := interruptible }

def setDynamicPrio (table : TaskTable) (t : TaskId) (prio : ℤ) : TaskTable :=
  table.modify t fun task => { task with dynamicPrio := prio }

/-- A running task becomes ready; in any other state it stays. -/
def makeReady : TaskState → TaskState
  | .running => .ready
  | state => state

/-- The section of `task_yield`. -/
def taskYield (table : TaskTable) (t : TaskId) : TaskTable :=
  table.modify t fun task => { task with state := makeReady task.state, dynamicPrio := 0 }

/-- The section of `task_isr_tick`, and whether `schedule` is called after it.
`DEC_TIL_ZERO` decrements its argument in any case. -/
def taskIsrTick (table : TaskTable) (t : TaskId) : TaskTable × Bool :=
  let task := table.task t
  let ticked :=
    { task with
      dynamicPrio := int32 (task.dynamicPrio - 1)
      sleepAvg := int32 (task.sleepAvg - 1) }
  if ticked.interruptible = false ∨ 0 < ticked.dynamicPrio then
    (table.modify t fun _ => ticked, false)
  else
    (table.modify t fun _ => { ticked with dynamicPrio := 0, state := makeReady ticked.state },
      true)

/-- One turn of the first loop of `schedule`. -/
def scanSlot (table : TaskTable) (best : ℤ × ℕ) (i : ℕ) : ℤ × ℕ :=
  match table.slots i with
  | some t =>
      if (table.task t).state = .ready ∧ best.1 < (table.task t).dynamicPrio then
        ((table.task t).dynamicPrio, i)
      else best
  | none => best

/-- The read section of `schedule`: `c` and `next`. -/
def scheduleScan (table : TaskTable) : ℤ × ℕ :=
  (List.range maxConcurrentTasks).foldl table.scanSlot (-1, 0)

/-- One turn of the second loop of `schedule`. -/
def rechargeSlot (table : TaskTable) (i : ℕ) : TaskTable :=
  match table.slots i with
  | some t =>
      if (table.task t).state = .ready then
        table.setDynamicPrio t
          (int32 ((table.task t).dynamicPrio / 2 + (table.task t).staticPrio))
      else table
  | none => table

/-- The write section of `schedule` when no task was found. -/
def scheduleRecharge (table : TaskTable) : TaskTable :=
  (List.range maxConcurrentTasks).foldl rechargeSlot table

end TaskTable

/-! ## Frames -/

/-- What is next in a call. -/
inductive Frame where
  /-- The section of `task_yield`. -/
  | yield
  /-- `schedule` is entered: `interruptible = 0`. -/
  | schedule
  /-- The read section of `schedule`. -/
  | scan
  /-- The write section of `schedule`, with `c` and `next`. -/
  | commit (c : ℤ) (next : ℕ)
  /-- `task_switch_to(_tasks[next])`. -/
  | switchTo (next : ℕ)
  /-- The task continues after its `task_switch_to`: `interruptible = 1`. -/
  | resumed
  /-- `on_current_task_return_cb` is entered: `interruptible = 0`. -/
  | returnEnter
  /-- Its write section. -/
  | returnUnlink
  /-- Its store to `state`. -/
  | returnState
  /-- Its test of `join_state`, with `task_cleanup`. -/
  | returnJoin
  /-- After its `task_yield`; the task must not come back here. -/
  | returnDone
  /-- `task_new` compares `_nr_tasks` with the limit. -/
  | newCheck (priority : ℤ)
  /-- Its read section. -/
  | newSearch (priority : ℤ)
  /-- Its write section, with the slot it has chosen. -/
  | newFill (pid : ℕ) (priority : ℤ)
  /-- `task_join` tests the state of the task. -/
  | joinPoll (task : TaskId)
  /-- It sets `dynamic_prio = 0` and yields. -/
  | joinReset (task : TaskId)
  /-- Its `task_cleanup`. -/
  | joinCleanup (task : TaskId)
  deriving DecidableEq

/-- What a task may call. A task returns by returning from its function. -/
inductive KernelCall where
  | taskYield
  | taskReturn
  | taskNew (priority : ℤ)
  | taskJoin (task : TaskId)
  | taskDetach (task : TaskId)

/-- The scheduler's data. `freed` and `joiner` are not in the source: the tasks
that `task_cleanup` was called on, and for each task the one that called
`task_join` on it. -/
structure Kernel (Cpu : Type) where
  table : TaskTable
  current : Cpu → TaskId
  frames : Cpu → List Frame
  context : TaskId → List Frame
  freed : TaskId → Bool
  joiner : TaskId → Option TaskId

inductive KernelAction (Cpu : Type) where
  | call (cpu : Cpu) (call : KernelCall)
  | tick (cpu : Cpu)
  | run (cpu : Cpu)

section Steps

variable {Cpu : Type} [DecidableEq Cpu]

namespace Kernel

/-- A step leaves the CPU with these frames and the table as given. -/
def proceed (kernel : Kernel Cpu) (cpu : Cpu) (table : TaskTable) (frames : List Frame) :
    Kernel Cpu :=
  { kernel with table := table, frames := Function.update kernel.frames cpu frames }

/-- `task_cleanup`. -/
def cleanup (kernel : Kernel Cpu) (t : TaskId) : Kernel Cpu :=
  { kernel with freed := Function.update kernel.freed t true }

/-- `cpu_switch_to`: the current task is saved with `rest` and the CPU continues
as the other task. -/
def switch (kernel : Kernel Cpu) (cpu : Cpu) (next : TaskId) (rest : List Frame) : Kernel Cpu :=
  { kernel with
    context := Function.update kernel.context (kernel.current cpu) (.resumed :: rest)
    current := Function.update kernel.current cpu next
    frames := Function.update kernel.frames cpu (kernel.context next) }

/-- A frame is executed, on top of the frames `rest`. A step that would go through
a `NULL` slot is not possible. -/
def runFrame (kernel : Kernel Cpu) (cpu : Cpu) (rest : List Frame) : Frame → Option (Kernel Cpu)
  | .yield =>
      some (kernel.proceed cpu (kernel.table.taskYield (kernel.current cpu)) (.schedule :: rest))
  | .schedule =>
      some (kernel.proceed cpu (kernel.table.setInterruptible (kernel.current cpu) false)
        (.scan :: rest))
  | .scan =>
      let found := kernel.table.scheduleScan
      some (kernel.proceed cpu kernel.table (.commit found.1 found.2 :: rest))
  | .commit c next =>
      if 0 < c then
        (kernel.table.slots next).map fun t =>
          kernel.proceed cpu (kernel.table.setState t .running) (.switchTo next :: rest)
      else some (kernel.proceed cpu kernel.table.scheduleRecharge (.scan :: rest))
  | .switchTo next =>
      (kernel.table.slots next).map fun t =>
        if kernel.current cpu = t then kernel.proceed cpu kernel.table (.resumed :: rest)
        else kernel.switch cpu t rest
  | .resumed =>
      some (kernel.proceed cpu (kernel.table.setInterruptible (kernel.current cpu) true) rest)
  | .returnEnter =>
      some (kernel.proceed cpu (kernel.table.setInterruptible (kernel.current cpu) false)
        (.returnUnlink :: rest))
  | .returnUnlink =>
      some (kernel.proceed cpu (kernel.table.unlink (kernel.current cpu)) (.returnState :: rest))
  | .returnState =>
      let t := kernel.current cpu
      let table :=
        if (kernel.table.task t).state = .running then kernel.table.setState t .terminated
        else kernel.table
      some (kernel.proceed cpu table (.returnJoin :: rest))
  | .returnJoin =>
      let t := kernel.current cpu
      let kernel := if (kernel.table.task t).joinState = .detached then kernel.cleanup t else kernel
      some (kernel.proceed cpu kernel.table (.yield :: .returnDone :: rest))
  | .returnDone => none
  | .newCheck priority =>
      some (kernel.proceed cpu kernel.table
        (if kernel.table.nrTasks = maxConcurrentTasks then rest else .newSearch priority :: rest))
  | .newSearch priority =>
      some (kernel.proceed cpu kernel.table
        (match kernel.table.findFree with
          | some pid => .newFill pid priority :: rest
          | none => rest))
  | .newFill pid priority =>
      some { kernel.proceed cpu (kernel.table.fill pid priority) rest with
        context := Function.update kernel.context kernel.table.nextId [] }
  | .joinPoll t =>
      some (kernel.proceed cpu kernel.table
        (if (kernel.table.task t).state = .terminated then .joinCleanup t :: rest
        else .joinReset t :: rest))
  | .joinReset t =>
      some (kernel.proceed cpu (kernel.table.setDynamicPrio t 0) (.yield :: .joinPoll t :: rest))
  | .joinCleanup t => some ((kernel.cleanup t).proceed cpu kernel.table rest)

/-- A task that is in no call makes one. The tasks a CPU starts with are not in the
table and never return. A caller joins a task once and detaches only a task that
it may still refer to. -/
def enter (kernel : Kernel Cpu) (cpu : Cpu) : KernelCall → Option (Kernel Cpu)
  | .taskYield => some (kernel.proceed cpu kernel.table [.yield])
  | .taskReturn =>
      if (kernel.table.task (kernel.current cpu)).pid < maxConcurrentTasks then
        some (kernel.proceed cpu kernel.table [.returnEnter])
      else none
  | .taskNew priority => some (kernel.proceed cpu kernel.table [.newCheck priority])
  | .taskJoin t =>
      if t < kernel.table.nextId ∧ kernel.joiner t = none then
        some { kernel.proceed cpu kernel.table [.joinPoll t] with
          joiner := Function.update kernel.joiner t (some (kernel.current cpu)) }
      else none
  | .taskDetach t =>
      if t < kernel.table.nextId ∧ kernel.freed t = false then
        some { kernel with
          table := kernel.table.modify t fun task => { task with joinState := .detached } }
      else none

def step (kernel : Kernel Cpu) : KernelAction Cpu → Option (Kernel Cpu)
  | .call cpu call =>
      match kernel.frames cpu with
      | [] => kernel.enter cpu call
      | _ :: _ => none
  | .tick cpu =>
      let ticked := kernel.table.taskIsrTick (kernel.current cpu)
      some (kernel.proceed cpu ticked.1
        (if ticked.2 then .schedule :: kernel.frames cpu else kernel.frames cpu))
  | .run cpu =>
      match kernel.frames cpu with
      | [] => none
      | frame :: rest => kernel.runFrame cpu rest frame

section Inversion

variable {kernel next : Kernel Cpu} {cpu : Cpu}

/-- A CPU that goes on executes its top frame. -/
theorem step_run (stepped : kernel.step (.run cpu) = some next) :
    ∃ frame rest, kernel.frames cpu = frame :: rest ∧
      kernel.runFrame cpu rest frame = some next := by
  cases frames : kernel.frames cpu with
  | nil => simp only [step, frames, reduceCtorEq] at stepped
  | cons frame rest =>
      simp only [step, frames] at stepped
      exact ⟨frame, rest, rfl, stepped⟩

/-- A task that makes a call is in none. -/
theorem step_call {call : KernelCall} (stepped : kernel.step (.call cpu call) = some next) :
    kernel.frames cpu = [] ∧ kernel.enter cpu call = some next := by
  cases frames : kernel.frames cpu with
  | nil =>
      simp only [step, frames] at stepped
      exact ⟨rfl, stepped⟩
  | cons frame rest => simp only [step, frames, reduceCtorEq] at stepped

end Inversion

/-- What `tasks_init` leaves: every CPU runs a task of its own that is not in the
table, and the tasks in the table are ready and were never run. -/
structure Booted (kernel : Kernel Cpu) : Prop where
  distinct : Function.Injective kernel.current
  outside : ∀ cpu, maxConcurrentTasks ≤ (kernel.table.task (kernel.current cpu)).pid
  slot : ∀ i t, kernel.table.slots i = some t → i < maxConcurrentTasks ∧
    (kernel.table.task t).pid = i ∧ (kernel.table.task t).state = .ready ∧ t < kernel.table.nextId
  running : ∀ cpu, (kernel.table.task (kernel.current cpu)).state = .running ∧
    kernel.current cpu < kernel.table.nextId
  user : ∀ cpu, kernel.frames cpu = []
  context : ∀ t, kernel.context t = []
  freed : ∀ t, kernel.freed t = false
  joiner : ∀ t, kernel.joiner t = none

end Kernel

/-- The scheduler after `tasks_init`. -/
def kernelSystem (Cpu : Type) [DecidableEq Cpu] : System (Kernel Cpu) (KernelAction Cpu) where
  initial := Kernel.Booted
  step := Kernel.step

end Steps

end CatchOS.Tasks
