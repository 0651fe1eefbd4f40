import CatchOS.Tasks.Schedule
import CatchOS.Tasks.Sem

/-!
# The kernel with calls in one step

The functions of `tasks.c` and `sem.c` with every call in one step, the `schedule` at
its end included. `tasks_init` starts each CPU on a task of its own that is not in the
table, and puts one idle task for each CPU in the table. An idle task has the static
priority 1 and neither blocks nor returns. `_current` and `_bootstrap_tasks` are pointers
that nothing sets, so both are the array at address zero; nothing reads the second one
after `tasks_init`.

A call is what comes before its `schedule` (`enter`), and the `schedule` itself. The task
that comes continues in a `schedule` of its own, or it starts; it is running and can be
interrupted in both cases (`switchTo_eq_resume`).
-/

set_option autoImplicit false

namespace CatchOS.Tasks

open CatchOS.Lib

/-! ## The functions -/

/-- The table, `_current`, and the semaphores. `bootstrap` is the task each CPU starts
on, `idle` the idle tasks in the order in which `tasks_init` creates them, and `started`
the tasks that a CPU has executed; the functions do not read these, apart from what the
saved registers of a task say about `started`. -/
structure AtomicKernel (Sem : Type) where
  table : TaskTable
  current : ℕ → TaskId
  bootstrap : ℕ → TaskId
  idle : ℕ → TaskId
  started : TaskId → Bool
  sem : Sem → Semaphore TaskId

/-- The calls of a CPU: those of its current task, and its timer interrupt. -/
inductive AtomicCall (Sem : Type) where
  | taskNew (priority : ℤ)
  | taskYield
  | taskReturn
  | taskIsrTick
  | semWait (sem : Sem)
  | semSignal (sem : Sem)

namespace AtomicKernel

variable {Sem : Type}

/-- `task_new`. The task it returns is the one that had the next name. -/
def taskNew (kernel : AtomicKernel Sem) (priority : ℤ) : AtomicKernel Sem :=
  if kernel.table.nrTasks = maxConcurrentTasks then kernel
  else
    match kernel.table.findFree with
    | none => kernel
    | some pid =>
        { kernel with
          table := kernel.table.fill pid priority
          started := Function.update kernel.started kernel.table.nextId false }

/-- The task that a CPU starts on; the fields of `held` are not set. -/
def bootstrapTask (held : TaskStruct) : TaskStruct :=
  { held with pid := 99999, dynamicPrio := 1, state := .running, interruptible := true }

/-- The turn of a CPU in `tasks_init`. -/
def tasksInitTurn (held : TaskStruct) (kernel : AtomicKernel Sem) (cpu : ℕ) :
    AtomicKernel Sem :=
  let bootstrap := kernel.table.nextId
  let kernel :=
    { kernel with
      table := { kernel.table with
        task := Function.update kernel.table.task bootstrap (bootstrapTask held)
        nextId := bootstrap + 1 }
      current := Function.update kernel.current cpu bootstrap
      bootstrap := Function.update kernel.bootstrap cpu bootstrap
      started := Function.update kernel.started bootstrap true }
  { kernel.taskNew 1 with idle := Function.update kernel.idle cpu kernel.table.nextId }

/-- The kernel before `tasks_init`: the table is empty, and `sem_init` was called. -/
def beforeInit (held : TaskStruct) (count : Sem → ℤ) : AtomicKernel Sem where
  table := ⟨fun _ => none, 0, fun _ => held, 0⟩
  current _ := 0
  bootstrap _ := 0
  idle _ := 0
  started _ := false
  sem s := semInit (count s)

/-- `tasks_init`. -/
def tasksInit (cpuCount : ℕ) (held : TaskStruct) (count : Sem → ℤ) : AtomicKernel Sem :=
  (List.range cpuCount).foldl (tasksInitTurn held) (beforeInit held count)

/-- `on_current_task_return_cb` up to its `task_yield`, for a task that is not
detached. -/
def returned (table : TaskTable) (t : TaskId) : TaskTable :=
  let table := (table.setInterruptible t false).unlink t
  if (table.task t).state = .running then table.setState t .terminated else table

section Steps

variable [DecidableEq Sem]

/-- A call up to its `schedule`, and whether there is one. Tasks are created with a
positive priority. The task a CPU starts on does not return, and an idle task neither
returns nor blocks. -/
def enter (cpuCount : ℕ) (kernel : AtomicKernel Sem) (cpu : ℕ) :
    AtomicCall Sem → Option (AtomicKernel Sem × Bool)
  | .taskNew priority =>
      if 1 ≤ priority ∧ priority < 2 ^ 31 then some (kernel.taskNew priority, false) else none
  | .taskYield =>
      some ({ kernel with table := kernel.table.taskYield (kernel.current cpu) }, true)
  | .taskReturn =>
      let t := kernel.current cpu
      if t ≠ kernel.bootstrap cpu ∧ ∀ other < cpuCount, t ≠ kernel.idle other then
        some ({ kernel with table := (returned kernel.table t).taskYield t }, true)
      else none
  | .taskIsrTick =>
      let ticked := kernel.table.taskIsrTick (kernel.current cpu)
      some ({ kernel with table := ticked.1 }, ticked.2)
  | .semWait s =>
      let t := kernel.current cpu
      let sem := kernel.sem s
      if 0 < sem.count then
        some ({ kernel with
          sem := Function.update kernel.sem s { sem with count := int32 (sem.count - 1) } }, false)
      else if ∀ other < cpuCount, t ≠ kernel.idle other then
        some ({ kernel with
          sem := Function.update kernel.sem s { sem with taskQueue := sem.taskQueue ++ [t] }
          table := (kernel.table.setState t .waiting).taskYield t }, true)
      else none
  | .semSignal s =>
      let sem := kernel.sem s
      match sem.taskQueue with
      | [] =>
          some ({ kernel with
            sem := Function.update kernel.sem s ⟨int32 (sem.count + 1), []⟩ }, false)
      | poppedTask :: rest =>
          some ({ kernel with
            sem := Function.update kernel.sem s ⟨int32 (sem.count + 1), rest⟩
            table := kernel.table.setState poppedTask .ready }, false)

omit [DecidableEq Sem] in
/-- `task_switch_to` and what the task that comes does first: it leaves its own
`schedule`, unless it was never executed and starts in `task_startup`. -/
def switchTo (kernel : AtomicKernel Sem) (cpu : ℕ) (t : TaskId) : AtomicKernel Sem :=
  { kernel with
    table := if kernel.current cpu = t ∨ kernel.started t = true
      then kernel.table.setInterruptible t true else kernel.table
    current := Function.update kernel.current cpu t
    started := Function.update kernel.started t true }

omit [DecidableEq Sem] in
/-- `schedule` with the number of scans its loop is given. -/
def schedule (kernel : AtomicKernel Sem) (cpu turns : ℕ) : Option (AtomicKernel Sem) :=
  ((kernel.table.setInterruptible (kernel.current cpu) false).scheduleLoop turns).map
    fun chosen => { kernel with table := chosen.1 }.switchTo cpu chosen.2

/-- A call of a CPU, whose `schedule` takes at most `turns` scans. -/
def step (cpuCount : ℕ) (kernel : AtomicKernel Sem) (cpu : ℕ) (call : AtomicCall Sem)
    (turns : ℕ) : Option (AtomicKernel Sem) :=
  if cpu < cpuCount then
    (kernel.enter cpuCount cpu call).bind fun entered =>
      if entered.2 then entered.1.schedule cpu turns else some entered.1
  else none

end Steps

end AtomicKernel

/-- The kernel from `tasks_init` on. -/
def atomicSystem (cpuCount : ℕ) (Sem : Type) [DecidableEq Sem] :
    System (AtomicKernel Sem) (ℕ × AtomicCall Sem × ℕ) where
  initial kernel := ∃ held count, kernel = AtomicKernel.tasksInit cpuCount held count
  step kernel action := kernel.step cpuCount action.1 action.2.1 action.2.2

namespace AtomicKernel

variable {Sem : Type} {kernel : AtomicKernel Sem} {cpu : ℕ}

theorem taskNew_of_free {pid : ℕ} (priority : ℤ)
    (room : kernel.table.nrTasks ≠ maxConcurrentTasks)
    (free : kernel.table.findFree = some pid) :
    kernel.taskNew priority
      = { kernel with
          table := kernel.table.fill pid priority
          started := Function.update kernel.started kernel.table.nextId false } := by
  rw [AtomicKernel.taskNew, if_neg room, free]

/-- More turns do not change what `schedule` returns. -/
theorem schedule_more {turns : ℕ} {next : AtomicKernel Sem}
    (returned : kernel.schedule cpu turns = some next) (more : ℕ) :
    kernel.schedule cpu (turns + more) = some next := by
  obtain ⟨chosen, ended, rfl⟩ := Option.map_eq_some_iff.mp returned
  rw [AtomicKernel.schedule, TaskTable.scheduleLoop_more ended, Option.map_some]

/-! ## One task changes -/

/-- The kernel with one changed `task_struct`. -/
def retask (kernel : AtomicKernel Sem) (u : TaskId) (task : TaskStruct) : AtomicKernel Sem :=
  { kernel with table := kernel.table.modify u fun _ => task }

theorem retask_self (kernel : AtomicKernel Sem) (u : TaskId) (task : TaskStruct) :
    (kernel.retask u task).table.task u = task :=
  Function.update_self _ _ _

theorem retask_other (kernel : AtomicKernel Sem) {u t : TaskId} (task : TaskStruct)
    (other : t ≠ u) : (kernel.retask u task).table.task t = kernel.table.task t :=
  Function.update_of_ne other _ _

/-! ## A task comes -/

/-- The task that a CPU continues with. -/
def resumed (task : TaskStruct) : TaskStruct :=
  { task with state := .running, interruptible := true }

/-- The CPU continues with a task of the table. -/
def resume (kernel : AtomicKernel Sem) (cpu : ℕ) (t : TaskId) : AtomicKernel Sem :=
  { kernel with
    table := kernel.table.modify t fun _ => resumed (kernel.table.task t)
    current := Function.update kernel.current cpu t
    started := Function.update kernel.started t true }

/-- Whether it leaves its own `schedule` or starts, the task that comes is
interruptible. -/
theorem switchTo_eq_resume {t : TaskId}
    (startup : kernel.started t = false → (kernel.table.task t).interruptible = true) :
    { kernel with table := kernel.table.setState t .running }.switchTo cpu t
      = kernel.resume cpu t := by
  unfold AtomicKernel.switchTo resume
  congr 1
  change (if kernel.current cpu = t ∨ kernel.started t = true
      then (kernel.table.setState t .running).setInterruptible t true
      else kernel.table.setState t .running) = _
  split
  case isTrue =>
    simp [TaskTable.setState, TaskTable.setInterruptible, TaskTable.modify, resumed]
  case isFalse new =>
    have unstarted : kernel.started t = false := by
      rw [not_or, Bool.not_eq_true] at new
      exact new.2
    simp [TaskTable.setState, TaskTable.modify, resumed, startup unstarted]

theorem resume_self (kernel : AtomicKernel Sem) (cpu : ℕ) (t : TaskId) :
    (kernel.resume cpu t).table.task t = resumed (kernel.table.task t) :=
  Function.update_self _ _ _

theorem resume_other (kernel : AtomicKernel Sem) (cpu : ℕ) {t u : TaskId} (other : u ≠ t) :
    (kernel.resume cpu t).table.task u = kernel.table.task u :=
  Function.update_of_ne other _ _

theorem resume_current (kernel : AtomicKernel Sem) (cpu : ℕ) (t : TaskId) :
    (kernel.resume cpu t).current cpu = t :=
  Function.update_self _ _ _

theorem resume_current_other (kernel : AtomicKernel Sem) {cpu other : ℕ} (t : TaskId)
    (different : other ≠ cpu) : (kernel.resume cpu t).current other = kernel.current other :=
  Function.update_of_ne different _ _

end AtomicKernel

end CatchOS.Tasks
