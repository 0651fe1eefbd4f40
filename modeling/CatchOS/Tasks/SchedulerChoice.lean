import CatchOS.Tasks.AtomicKernel
import Mathlib.Data.Fintype.EquivFin

/-!
# Every call of `schedule` finds a task

Between two calls every current task is running, every running task in the table is the
current task of a CPU, and no priority is negative; while a CPU is in `schedule`, this
holds of the other CPUs (`Consistent`). There are as many idle tasks as CPUs, so one of
them is ready then (`Consistent.idle_ready`), and the loop of `schedule` ends after at
most one recharge (`Consistent.scheduleLoop`). `tasks_init` establishes the invariant
(`Initialised.consistent`) and every call keeps it (`Consistent.step`), so every
`schedule` of every run ends, with the task that `schedule_finds_first_max` describes.
-/

set_option autoImplicit false

namespace CatchOS.Tasks

open CatchOS.Lib

/-! ## The invariant -/

/-- A task in a slot of the table: it has the pid of the slot and priorities that
`schedule` computes with, and until it starts it can be interrupted. -/
structure Listed (i : ℕ) (task : TaskStruct) (started : Bool) : Prop where
  inside : i < maxConcurrentTasks
  pid : task.pid = i
  nonneg : 0 ≤ task.dynamicPrio
  bounded : task.dynamicPrio < 2 ^ 31
  positive : 1 ≤ task.staticPrio
  word : task.staticPrio < 2 ^ 31
  startup : started = false → task.interruptible = true

/-- The task changes, but not its pid and its static priority. -/
theorem Listed.replace {i : ℕ} {task old : TaskStruct} {started : Bool}
    (listed : Listed i old started) (pid : task.pid = old.pid)
    (staticPrio : task.staticPrio = old.staticPrio) (nonneg : 0 ≤ task.dynamicPrio)
    (bounded : task.dynamicPrio < 2 ^ 31)
    (startup : started = false → task.interruptible = true) : Listed i task started :=
  ⟨listed.inside, pid.trans listed.pid, nonneg, bounded, staticPrio ▸ listed.positive,
    staticPrio ▸ listed.word, startup⟩

/-- The tasks in the queues of the semaphores wait, each in one place of one queue. -/
structure Queued {Sem : Type} (table : TaskTable) (sem : Sem → Semaphore TaskId) : Prop where
  name : ∀ s, ∀ t ∈ (sem s).taskQueue, t < table.nextId
  waiting : ∀ s, ∀ t ∈ (sem s).taskQueue, (table.task t).state = .waiting
  nodup : ∀ s, (sem s).taskQueue.Nodup
  once : ∀ s s' t, t ∈ (sem s).taskQueue → t ∈ (sem s').taskQueue → s = s'

/-- A semaphore that holds no more tasks than before, or also a waiting one that no
semaphore held. -/
theorem Queued.update {Sem : Type} [DecidableEq Sem] {table : TaskTable}
    {sems : Sem → Semaphore TaskId} (queued : Queued table sems) {s : Sem} {sem : Semaphore TaskId}
    (nodup : sem.taskQueue.Nodup)
    (held : ∀ t ∈ sem.taskQueue, t ∈ (sems s).taskQueue ∨
      (table.task t).state = .waiting ∧ t < table.nextId ∧ ∀ s', t ∉ (sems s').taskQueue) :
    Queued table (Function.update sems s sem) := by
  -- A task of this semaphore is in no other one.
  have apart (t : TaskId) (isQueued : t ∈ sem.taskQueue) {s' : Sem} (other : s' ≠ s) :
      t ∉ (sems s').taskQueue := by
    intro elsewhere
    rcases held t isQueued with before | ⟨-, -, nowhere⟩
    · exact other (queued.once s' s t elsewhere before)
    · exact nowhere s' elsewhere
  refine ⟨fun s' t isQueued => ?_, fun s' t isQueued => ?_, fun s' => ?_,
    fun s' s'' t first second => ?_⟩
  · by_cases own : s' = s
    · rw [own, Function.update_self] at isQueued
      rcases held t isQueued with before | ⟨-, known, -⟩
      · exact queued.name s t before
      · exact known
    · rw [Function.update_of_ne own] at isQueued
      exact queued.name s' t isQueued
  · by_cases own : s' = s
    · rw [own, Function.update_self] at isQueued
      rcases held t isQueued with before | ⟨isWaiting, -, -⟩
      · exact queued.waiting s t before
      · exact isWaiting
    · rw [Function.update_of_ne own] at isQueued
      exact queued.waiting s' t isQueued
  · by_cases own : s' = s
    · rwa [own, Function.update_self]
    · rw [Function.update_of_ne own]
      exact queued.nodup s'
  · by_cases own : s' = s
    · by_cases own' : s'' = s
      · rw [own, own']
      · rw [own, Function.update_self] at first
        rw [Function.update_of_ne own'] at second
        exact absurd second (apart t first own')
    · rw [Function.update_of_ne own] at first
      by_cases own' : s'' = s
      · rw [own', Function.update_self] at second
        exact absurd first (apart t second own)
      · rw [Function.update_of_ne own'] at second
        exact queued.once s' s'' t first second

namespace AtomicKernel

variable {Sem : Type}

/-- A CPU that is not in `schedule` executes the task it started on or one in the
table. -/
structure Executes (kernel : AtomicKernel Sem) (cpu : ℕ) : Prop where
  running : Running (kernel.table.task (kernel.current cpu))
  slot : kernel.current cpu = kernel.bootstrap cpu ∨
    ∃ i, kernel.table.slots i = some (kernel.current cpu)

/-- The invariant, where `calling` is the CPU that is in `schedule`, if there is one. -/
structure Consistent (cpuCount : ℕ) (kernel : AtomicKernel Sem) (calling : Option ℕ) :
    Prop where
  listed : ∀ i t, kernel.table.slots i = some t →
    Listed i (kernel.table.task t) (kernel.started t)
  -- names are given out once
  slotName : ∀ i t, kernel.table.slots i = some t → t < kernel.table.nextId
  currentName : ∀ cpu < cpuCount, kernel.current cpu < kernel.table.nextId
  -- the CPUs and their tasks
  onCpu : ∀ i t, kernel.table.slots i = some t → (kernel.table.task t).state = .running →
    ∃ cpu < cpuCount, kernel.current cpu = t
  distinct : ∀ cpu < cpuCount, ∀ other < cpuCount, kernel.current cpu = kernel.current other →
    cpu = other
  started : ∀ cpu < cpuCount, kernel.started (kernel.current cpu) = true
  executes : ∀ cpu < cpuCount, calling ≠ some cpu → kernel.Executes cpu
  caller : ∀ cpu, calling = some cpu → cpu < cpuCount ∧
    (kernel.table.task (kernel.current cpu)).state ≠ .running
  -- the idle tasks
  idleSlot : ∀ cpu < cpuCount, ∃ i, kernel.table.slots i = some (kernel.idle cpu)
  idleState : ∀ cpu < cpuCount, (kernel.table.task (kernel.idle cpu)).state = .ready ∨
    (kernel.table.task (kernel.idle cpu)).state = .running
  idleDistinct : ∀ cpu < cpuCount, ∀ other < cpuCount, kernel.idle cpu = kernel.idle other →
    cpu = other
  queued : Queued kernel.table kernel.sem

variable {cpuCount cpu : ℕ} {kernel : AtomicKernel Sem}

theorem Consistent.slotted {calling : Option ℕ}
    (consistent : Consistent cpuCount kernel calling) : kernel.table.Slotted :=
  fun i t slot => ⟨(consistent.listed i t slot).inside, (consistent.listed i t slot).pid⟩

/-- A CPU in `schedule` leaves at most as many running tasks as there are other CPUs:
one of the idle tasks is ready. -/
theorem Consistent.idle_ready (consistent : Consistent cpuCount kernel (some cpu)) :
    ∃ other < cpuCount, kernel.table.Ready (kernel.idle other) := by
  by_contra none
  have running (other : Fin cpuCount) :
      ∃ on : Fin cpuCount, kernel.current on = kernel.idle other
        ∧ (kernel.table.task (kernel.idle other)).state = .running := by
    obtain ⟨i, slot⟩ := consistent.idleSlot other other.isLt
    rcases consistent.idleState other other.isLt with ready | running
    · exact absurd ⟨other, other.isLt, ⟨i, slot⟩, ready⟩ none
    · obtain ⟨on, inside, isCurrent⟩ := consistent.onCpu i _ slot running
      exact ⟨⟨on, inside⟩, isCurrent, running⟩
  choose on isCurrent isRunning using running
  have injective : Function.Injective on := by
    intro first second same
    refine Fin.ext (consistent.idleDistinct _ first.isLt _ second.isLt ?_)
    rw [← isCurrent first, ← isCurrent second, same]
  -- As many idle tasks as CPUs run, so one of them on the CPU that is in `schedule`.
  obtain ⟨inside, notRunning⟩ := consistent.caller cpu rfl
  obtain ⟨other, here⟩ := Finite.surjective_of_injective injective ⟨cpu, inside⟩
  have same := isCurrent other
  rw [here] at same
  rw [same] at notRunning
  exact notRunning (isRunning other)

/-! ## One task changes -/

theorem Executes.retask (executes : kernel.Executes cpu) {u : TaskId} (task : TaskStruct)
    (other : kernel.current cpu ≠ u) : (kernel.retask u task).Executes cpu := by
  refine ⟨?_, executes.slot⟩
  change Running ((kernel.retask u task).table.task (kernel.current cpu))
  rw [retask_other kernel task other]
  exact executes.running

theorem Executes.retask_self (executes : kernel.Executes cpu) {task : TaskStruct}
    (running : Running task) : (kernel.retask (kernel.current cpu) task).Executes cpu := by
  refine ⟨?_, executes.slot⟩
  change Running ((kernel.retask (kernel.current cpu) task).table.task (kernel.current cpu))
  rw [AtomicKernel.retask_self]
  exact running

/-- What has to be said of a task that changes, when the CPU in `schedule` may change
too. -/
theorem Consistent.retask {calling calling' : Option ℕ}
    (consistent : Consistent cpuCount kernel calling) {u : TaskId} {task : TaskStruct}
    (listed : ∀ i, kernel.table.slots i = some u → Listed i task (kernel.started u))
    (onCpu : task.state = .running → ∃ cpu < cpuCount, kernel.current cpu = u)
    (idle : ∀ cpu < cpuCount, u = kernel.idle cpu → task.state = .ready ∨ task.state = .running)
    (queued : ∀ s, u ∈ (kernel.sem s).taskQueue → task.state = .waiting)
    (executes : ∀ cpu < cpuCount, calling' ≠ some cpu → (kernel.retask u task).Executes cpu)
    (caller : ∀ cpu, calling' = some cpu → cpu < cpuCount ∧
      ((kernel.retask u task).table.task (kernel.current cpu)).state ≠ .running) :
    Consistent cpuCount (kernel.retask u task) calling' := by
  have self := kernel.retask_self u task
  have others {t : TaskId} (other : t ≠ u) := kernel.retask_other task other
  refine
    { slotName := consistent.slotName, currentName := consistent.currentName
      distinct := consistent.distinct, started := consistent.started
      executes := executes, caller := caller, idleSlot := consistent.idleSlot
      idleDistinct := consistent.idleDistinct
      listed := fun i t slot => ?_, onCpu := fun i t slot running => ?_
      idleState := fun cpu inside => ?_
      queued := ⟨consistent.queued.name, fun s t isQueued => ?_, consistent.queued.nodup,
        consistent.queued.once⟩ }
  · by_cases own : t = u
    · rw [own] at slot ⊢
      rw [self]
      exact listed i slot
    · rw [others own]
      exact consistent.listed i t slot
  · by_cases own : t = u
    · rw [own] at running ⊢
      rw [self] at running
      exact onCpu running
    · rw [others own] at running
      exact consistent.onCpu i t slot running
  · change ((kernel.retask u task).table.task (kernel.idle cpu)).state = .ready ∨
      ((kernel.retask u task).table.task (kernel.idle cpu)).state = .running
    by_cases own : kernel.idle cpu = u
    · rw [own, self]
      exact idle cpu inside own.symm
    · rw [others own]
      exact consistent.idleState cpu inside
  · by_cases own : t = u
    · rw [own] at isQueued ⊢
      rw [self]
      exact queued s isQueued
    · rw [others own]
      exact consistent.queued.waiting s t isQueued

theorem Consistent.executing (consistent : Consistent cpuCount kernel none)
    (inside : cpu < cpuCount) : kernel.Executes cpu :=
  consistent.executes cpu inside (Option.some_ne_none cpu).symm

/-- The other CPUs execute other tasks than the one in `schedule`. -/
theorem Consistent.current_ne_caller {calling : Option ℕ}
    (consistent : Consistent cpuCount kernel calling) {other : ℕ} (inside : cpu < cpuCount)
    (isCpu : other < cpuCount) (notCalling : some cpu ≠ some other) :
    kernel.current other ≠ kernel.current cpu := by
  intro same
  exact notCalling (congrArg some (consistent.distinct cpu inside other isCpu same.symm))

/-- A current task is in no queue. -/
theorem Consistent.not_queued (consistent : Consistent cpuCount kernel none)
    (inside : cpu < cpuCount) (s : Sem) : kernel.current cpu ∉ (kernel.sem s).taskQueue := by
  intro isQueued
  have waiting := consistent.queued.waiting s _ isQueued
  rw [(consistent.executing inside).running.state] at waiting
  cases waiting

/-- A tick that leaves the task of its CPU running. -/
theorem Consistent.count (consistent : Consistent cpuCount kernel none)
    (inside : cpu < cpuCount) (task : TaskStruct)
    (pid : task.pid = (kernel.table.task (kernel.current cpu)).pid)
    (staticPrio : task.staticPrio = (kernel.table.task (kernel.current cpu)).staticPrio)
    (running : Running task) :
    Consistent cpuCount (kernel.retask (kernel.current cpu) task) none := by
  refine consistent.retask (fun i slot => ?_) (fun _ => ?_) (fun _ _ _ => Or.inr running.state)
    (fun s isQueued => ?_) (fun other isCpu _ => ?_) (fun _ calls => by cases calls)
  · exact (consistent.listed i _ slot).replace pid staticPrio running.nonneg running.bounded
      fun _ => running.interruptible
  · exact ⟨cpu, inside, rfl⟩
  · exact absurd isQueued (consistent.not_queued inside s)
  · by_cases same : kernel.current other = kernel.current cpu
    · rw [← consistent.distinct cpu inside other isCpu same.symm]
      exact (consistent.executing inside).retask_self running
    · exact (consistent.executing isCpu).retask task same

/-- The task of a CPU stops running, and the CPU calls `schedule`. -/
theorem Consistent.leave (consistent : Consistent cpuCount kernel none)
    (inside : cpu < cpuCount) (task : TaskStruct)
    (pid : task.pid = (kernel.table.task (kernel.current cpu)).pid)
    (staticPrio : task.staticPrio = (kernel.table.task (kernel.current cpu)).staticPrio)
    (spent : task.dynamicPrio = 0) (state : task.state ≠ .running)
    (idle : ∀ other < cpuCount, kernel.current cpu = kernel.idle other → task.state = .ready) :
    Consistent cpuCount (kernel.retask (kernel.current cpu) task) (some cpu) := by
  refine consistent.retask (fun i slot => ?_) (fun running => ?_)
    (fun other isCpu same => Or.inl (idle other isCpu same)) (fun s isQueued => ?_)
    (fun other isCpu notCalling => ?_) (fun other calls => ?_)
  · refine (consistent.listed i _ slot).replace pid staticPrio spent.ge (spent ▸ by decide)
      fun new => ?_
    rw [consistent.started cpu inside] at new
    cases new
  · exact absurd running state
  · exact absurd isQueued (consistent.not_queued inside s)
  · exact (consistent.executing isCpu).retask task
      (consistent.current_ne_caller inside isCpu notCalling)
  · cases calls
    rw [kernel.retask_self]
    exact ⟨inside, state⟩

/-! ## The calls -/

theorem Consistent.resem {calling : Option ℕ} (consistent : Consistent cpuCount kernel calling)
    {sem : Sem → Semaphore TaskId} (queued : Queued kernel.table sem) :
    Consistent cpuCount { kernel with sem := sem } calling :=
  { consistent with
    queued := queued
    executes := fun cpu inside notCalling =>
      ⟨(consistent.executes cpu inside notCalling).running,
        (consistent.executes cpu inside notCalling).slot⟩ }

/-- What `task_new` puts in a slot. -/
theorem listed_new {pid : ℕ} {priority : ℤ} (inside : pid < maxConcurrentTasks)
    (positive : 1 ≤ priority) (word : priority < 2 ^ 31) (started : Bool) :
    Listed pid (taskStructNew pid priority) started :=
  ⟨inside, rfl, le_refl 0, by change (0 : ℤ) < 2 ^ 31; decide, positive, word, fun _ => rfl⟩

/-- A new task in a free slot. -/
theorem Consistent.fill (consistent : Consistent cpuCount kernel none) {pid : ℕ}
    {priority : ℤ} (inside : pid < maxConcurrentTasks) (free : kernel.table.slots pid = none)
    (positive : 1 ≤ priority) (word : priority < 2 ^ 31) :
    Consistent cpuCount
      { kernel with
        table := kernel.table.fill pid priority
        started := Function.update kernel.started kernel.table.nextId false } none := by
  have oldStarted {t : TaskId} (known : t < kernel.table.nextId) :
      Function.update kernel.started kernel.table.nextId false t = kernel.started t :=
    Function.update_of_ne known.ne _ _
  refine
    { distinct := consistent.distinct, idleDistinct := consistent.idleDistinct
      listed := fun i t slot => ?_, slotName := fun i t slot => ?_
      currentName := fun cpu isCpu => ?_, onCpu := fun i t slot running => ?_
      started := fun cpu isCpu => ?_, executes := fun cpu isCpu notCalling => ?_
      caller := fun cpu calls => ?_, idleSlot := fun cpu isCpu => ?_
      idleState := fun cpu isCpu => ?_, queued := ?_ }
  · rcases TaskTable.fill_slot slot with ⟨rfl, rfl⟩ | ⟨-, before⟩
    · rw [TaskTable.fill_task_new]
      exact listed_new inside positive word _
    · have known := consistent.slotName i t before
      change Listed i _ (Function.update kernel.started kernel.table.nextId false t)
      rw [TaskTable.fill_task_old known.ne, oldStarted known]
      exact consistent.listed i t before
  · rcases TaskTable.fill_slot slot with ⟨rfl, rfl⟩ | ⟨-, before⟩
    · exact Nat.lt_succ_self _
    · exact (consistent.slotName i t before).trans (Nat.lt_succ_self _)
  · exact (consistent.currentName cpu isCpu).trans (Nat.lt_succ_self _)
  · rcases TaskTable.fill_slot slot with ⟨rfl, rfl⟩ | ⟨-, before⟩
    · rw [TaskTable.fill_task_new] at running
      cases running
    · rw [TaskTable.fill_task_old (consistent.slotName i t before).ne] at running
      exact consistent.onCpu i t before running
  · exact (oldStarted (consistent.currentName cpu isCpu)).trans (consistent.started cpu isCpu)
  · have executes := consistent.executing isCpu
    constructor
    · change Running ((kernel.table.fill pid priority).task (kernel.current cpu))
      rw [TaskTable.fill_task_old (consistent.currentName cpu isCpu).ne]
      exact executes.running
    · rcases executes.slot with first | ⟨i, slot⟩
      · exact Or.inl first
      · exact Or.inr ⟨i, TaskTable.fill_kept free slot⟩
  · cases calls
  · obtain ⟨i, slot⟩ := consistent.idleSlot cpu isCpu
    exact ⟨i, TaskTable.fill_kept free slot⟩
  · obtain ⟨i, slot⟩ := consistent.idleSlot cpu isCpu
    change ((kernel.table.fill pid priority).task (kernel.idle cpu)).state = _ ∨
      ((kernel.table.fill pid priority).task (kernel.idle cpu)).state = _
    rw [TaskTable.fill_task_old (consistent.slotName i _ slot).ne]
    exact consistent.idleState cpu isCpu
  · refine ⟨fun s t isQueued => ?_, fun s t isQueued => ?_, consistent.queued.nodup,
      consistent.queued.once⟩
    · exact (consistent.queued.name s t isQueued).trans (Nat.lt_succ_self _)
    · rw [TaskTable.fill_task_old (consistent.queued.name s t isQueued).ne]
      exact consistent.queued.waiting s t isQueued

/-- The task of a CPU that is in `schedule` leaves the table. -/
theorem Consistent.unlink (consistent : Consistent cpuCount kernel (some cpu))
    (held : kernel.table.slots (kernel.table.task (kernel.current cpu)).pid
      = some (kernel.current cpu))
    (notIdle : ∀ other < cpuCount, kernel.current cpu ≠ kernel.idle other) :
    Consistent cpuCount { kernel with table := kernel.table.unlink (kernel.current cpu) }
      (some cpu) := by
  have inside := (consistent.caller cpu rfl).1
  refine
    { distinct := consistent.distinct, idleDistinct := consistent.idleDistinct
      currentName := consistent.currentName, started := consistent.started
      caller := consistent.caller, idleState := consistent.idleState
      queued := ⟨consistent.queued.name, consistent.queued.waiting, consistent.queued.nodup,
        consistent.queued.once⟩
      listed := fun i t slot => consistent.listed i t (TaskTable.unlink_slot slot)
      slotName := fun i t slot => consistent.slotName i t (TaskTable.unlink_slot slot)
      onCpu := fun i t slot => consistent.onCpu i t (TaskTable.unlink_slot slot)
      executes := fun other isCpu notCalling => ?_, idleSlot := fun other isCpu => ?_ }
  · have executes := consistent.executes other isCpu notCalling
    refine ⟨executes.running, ?_⟩
    rcases executes.slot with first | ⟨i, slot⟩
    · exact Or.inl first
    · exact Or.inr ⟨i, TaskTable.unlink_kept held slot
        (consistent.current_ne_caller inside isCpu notCalling)⟩
  · obtain ⟨i, slot⟩ := consistent.idleSlot other isCpu
    exact ⟨i, TaskTable.unlink_kept held slot (notIdle other isCpu).symm⟩

/-! ## A call up to its `schedule` -/

/-- What a call leaves behind: a kernel between two calls, or one whose CPU calls
`schedule`. -/
def callingAfter (cpu : ℕ) (calls : Bool) : Option ℕ := if calls then some cpu else none

theorem Consistent.taskNew (consistent : Consistent cpuCount kernel none) {priority : ℤ}
    (positive : 1 ≤ priority) (word : priority < 2 ^ 31) :
    Consistent cpuCount (kernel.taskNew priority) none := by
  unfold AtomicKernel.taskNew
  split
  case isTrue => exact consistent
  case isFalse =>
    cases found : kernel.table.findFree with
    | none => exact consistent
    | some pid =>
        have free := TaskTable.findFree_some found
        exact consistent.fill free.1 free.2 positive word

theorem Consistent.taskIsrTick (consistent : Consistent cpuCount kernel none)
    (inside : cpu < cpuCount) :
    Consistent cpuCount
      { kernel with table := (kernel.table.taskIsrTick (kernel.current cpu)).1 }
      (callingAfter cpu (kernel.table.taskIsrTick (kernel.current cpu)).2) := by
  have running := (consistent.executing inside).running
  have prio := running.bounded
  rw [TaskTable.taskIsrTick_running running]
  split
  case isTrue left =>
    refine consistent.count inside _ rfl rfl ⟨running.state, running.interruptible, ?_, ?_⟩
    · change 0 ≤ (kernel.table.task (kernel.current cpu)).dynamicPrio - 1
      omega
    · change (kernel.table.task (kernel.current cpu)).dynamicPrio - 1 < 2 ^ 31
      omega
  case isFalse =>
    exact consistent.leave inside _ rfl rfl rfl (by intro same; cases same) fun _ _ _ => rfl

theorem Consistent.taskYield (consistent : Consistent cpuCount kernel none)
    (inside : cpu < cpuCount) :
    Consistent cpuCount { kernel with table := kernel.table.taskYield (kernel.current cpu) }
      (some cpu) := by
  have ready : TaskTable.makeReady (kernel.table.task (kernel.current cpu)).state = .ready := by
    rw [(consistent.executing inside).running.state]
    rfl
  refine consistent.leave inside _ rfl rfl rfl (fun same => ?_) (fun _ _ _ => ready)
  change TaskTable.makeReady (kernel.table.task (kernel.current cpu)).state = .running at same
  rw [ready] at same
  cases same

/-- The task after it has returned. -/
def terminated (task : TaskStruct) : TaskStruct :=
  { task with interruptible := false, state := .terminated, dynamicPrio := 0 }

theorem returned_taskYield {table : TaskTable} {t : TaskId}
    (running : (table.task t).state = .running) :
    (returned table t).taskYield t
      = (table.modify t fun _ => terminated (table.task t)).unlink t := by
  simp [returned, TaskTable.taskYield, TaskTable.setInterruptible, TaskTable.unlink,
    TaskTable.modify, TaskTable.setState, TaskTable.makeReady, terminated, running]

theorem Consistent.taskReturn (consistent : Consistent cpuCount kernel none)
    (inside : cpu < cpuCount) (notFirst : kernel.current cpu ≠ kernel.bootstrap cpu)
    (notIdle : ∀ other < cpuCount, kernel.current cpu ≠ kernel.idle other) :
    Consistent cpuCount
      { kernel with
        table := (returned kernel.table (kernel.current cpu)).taskYield (kernel.current cpu) }
      (some cpu) := by
  have executes := consistent.executing inside
  obtain ⟨i, slot⟩ := executes.slot.resolve_left notFirst
  have left := consistent.leave inside (terminated (kernel.table.task (kernel.current cpu)))
    rfl rfl rfl (by intro same; cases same)
    fun other isCpu same => absurd same (notIdle other isCpu)
  rw [returned_taskYield executes.running.state]
  refine left.unlink ?_ notIdle
  change kernel.table.slots ((kernel.retask (kernel.current cpu) _).table.task
    (kernel.current cpu)).pid = some (kernel.current cpu)
  rw [retask_self]
  change kernel.table.slots (kernel.table.task (kernel.current cpu)).pid = _
  rwa [(consistent.slotted i _ slot).2]

/-- The task after it has blocked. -/
def blocked (task : TaskStruct) : TaskStruct :=
  { task with state := .waiting, dynamicPrio := 0 }

theorem blocked_taskYield (table : TaskTable) (t : TaskId) :
    (table.setState t .waiting).taskYield t
      = table.modify t fun _ => blocked (table.task t) := by
  simp [TaskTable.taskYield, TaskTable.setState, TaskTable.modify, TaskTable.makeReady, blocked]

section Calls

variable [DecidableEq Sem]

/-- A task that blocks is pushed in the queue, and waits. -/
theorem Consistent.block (consistent : Consistent cpuCount kernel none)
    (inside : cpu < cpuCount)
    (notIdle : ∀ other < cpuCount, kernel.current cpu ≠ kernel.idle other) (s : Sem) :
    Consistent cpuCount
      { kernel with
        sem := Function.update kernel.sem s
          { kernel.sem s with
            taskQueue := (kernel.sem s).taskQueue ++ [kernel.current cpu] }
        table := (kernel.table.setState (kernel.current cpu) .waiting).taskYield
          (kernel.current cpu) } (some cpu) := by
  rw [blocked_taskYield]
  have left := consistent.leave inside (blocked (kernel.table.task (kernel.current cpu)))
    rfl rfl rfl (by intro same; cases same)
    fun other isCpu same => absurd same (notIdle other isCpu)
  have nowhere := consistent.not_queued inside
  refine left.resem (left.queued.update ?_ fun t isQueued => ?_)
  · rw [List.nodup_append]
    refine ⟨consistent.queued.nodup s, List.nodup_singleton _, fun t before u last same => ?_⟩
    rw [List.mem_singleton.mp last] at same
    exact nowhere s (same ▸ before)
  · rcases List.mem_append.mp isQueued with before | last
    · exact Or.inl before
    · rw [List.mem_singleton.mp last]
      refine Or.inr ⟨?_, consistent.currentName cpu inside, nowhere⟩
      rw [retask_self]
      rfl

/-- A signal pops a waiting task and makes it ready. -/
theorem Consistent.signal (consistent : Consistent cpuCount kernel none) {s : Sem}
    {poppedTask : TaskId} {rest : List TaskId}
    (queue : (kernel.sem s).taskQueue = poppedTask :: rest) (count : ℤ) :
    Consistent cpuCount
      { kernel with
        sem := Function.update kernel.sem s ⟨count, rest⟩
        table := kernel.table.setState poppedTask .ready } none := by
  have once := consistent.queued.nodup s
  rw [queue, List.nodup_cons] at once
  have isHead : poppedTask ∈ (kernel.sem s).taskQueue := by
    rw [queue]
    exact List.mem_cons_self
  have waiting := consistent.queued.waiting s poppedTask isHead
  have shorter : Queued kernel.table (Function.update kernel.sem s ⟨count, rest⟩) := by
    refine consistent.queued.update once.2 fun t isQueued => Or.inl ?_
    rw [queue]
    exact List.mem_cons_of_mem _ isQueued
  have popped := consistent.resem shorter
  refine popped.retask (fun i slot => ?_) (fun running => ?_) (fun _ _ _ => Or.inl rfl)
    (fun s' isQueued => ?_) (fun other isCpu notCalling => ?_) (fun _ calls => ?_)
  · have listed := consistent.listed i _ slot
    exact listed.replace rfl rfl listed.nonneg listed.bounded listed.startup
  · cases running
  · change poppedTask ∈ (Function.update kernel.sem s ⟨count, rest⟩ s').taskQueue at isQueued
    by_cases own : s' = s
    · rw [own, Function.update_self] at isQueued
      exact absurd isQueued once.1
    · rw [Function.update_of_ne own] at isQueued
      exact absurd (consistent.queued.once s' s poppedTask isQueued isHead) own
  · refine (popped.executes other isCpu notCalling).retask _ fun same => ?_
    change kernel.current other = poppedTask at same
    rw [← same, (consistent.executing isCpu).running.state] at waiting
    cases waiting
  · cases calls

/-- **Every call keeps the invariant** up to its `schedule`. -/
theorem Consistent.enter (consistent : Consistent cpuCount kernel none)
    (inside : cpu < cpuCount) {call : AtomicCall Sem} {called : AtomicKernel Sem} {calls : Bool}
    (entered : kernel.enter cpuCount cpu call = some (called, calls)) :
    Consistent cpuCount called (callingAfter cpu calls) := by
  cases call with
  | taskNew priority =>
      simp only [AtomicKernel.enter, Option.ite_none_right_eq_some, Option.some_inj,
        Prod.mk.injEq] at entered
      obtain ⟨⟨positive, word⟩, rfl, rfl⟩ := entered
      exact consistent.taskNew positive word
  | taskYield =>
      simp only [AtomicKernel.enter, Option.some_inj, Prod.mk.injEq] at entered
      obtain ⟨rfl, rfl⟩ := entered
      exact consistent.taskYield inside
  | taskReturn =>
      simp only [AtomicKernel.enter, Option.ite_none_right_eq_some, Option.some_inj,
        Prod.mk.injEq] at entered
      obtain ⟨⟨notFirst, notIdle⟩, rfl, rfl⟩ := entered
      exact consistent.taskReturn inside notFirst notIdle
  | taskIsrTick =>
      simp only [AtomicKernel.enter, Option.some_inj, Prod.mk.injEq] at entered
      obtain ⟨rfl, rfl⟩ := entered
      exact consistent.taskIsrTick inside
  | semWait s =>
      simp only [AtomicKernel.enter] at entered
      split at entered
      · cases entered
        exact consistent.resem (consistent.queued.update (consistent.queued.nodup s)
          fun t isQueued => Or.inl isQueued)
      · simp only [Option.ite_none_right_eq_some, Option.some_inj, Prod.mk.injEq] at entered
        obtain ⟨notIdle, rfl, rfl⟩ := entered
        exact consistent.block inside notIdle s
  | semSignal s =>
      simp only [AtomicKernel.enter] at entered
      split at entered
      · cases entered
        exact consistent.resem (consistent.queued.update List.nodup_nil
          fun t isQueued => absurd isQueued List.not_mem_nil)
      · next poppedTask rest queue =>
          cases entered
          exact consistent.signal queue _

end Calls

/-! ## `schedule` -/

/-- The caller of `schedule` is not interruptible in it. -/
theorem Consistent.masked (consistent : Consistent cpuCount kernel (some cpu)) :
    Consistent cpuCount
      { kernel with table := kernel.table.setInterruptible (kernel.current cpu) false }
      (some cpu) := by
  obtain ⟨inside, notRunning⟩ := consistent.caller cpu rfl
  refine consistent.retask (fun i slot => ?_) (fun running => ?_)
    (fun other isCpu same => ?_) (fun s isQueued => ?_) (fun other isCpu notCalling => ?_)
    (fun other calls => ?_)
  · have listed := consistent.listed i _ slot
    refine listed.replace rfl rfl listed.nonneg listed.bounded fun unstarted => ?_
    rw [consistent.started cpu inside] at unstarted
    cases unstarted
  · exact absurd running notRunning
  · have idle := consistent.idleState other isCpu
    rwa [← same] at idle
  · exact consistent.queued.waiting s _ isQueued
  · exact (consistent.executes other isCpu notCalling).retask _
      (consistent.current_ne_caller inside isCpu notCalling)
  · cases calls
    rw [retask_self]
    exact ⟨inside, notRunning⟩

/-- A recharge leaves the tasks of the table with priorities in range. -/
theorem Consistent.recharge_listed {calling : Option ℕ}
    (consistent : Consistent cpuCount kernel calling)
    (spent : ∀ t, kernel.table.Ready t → (kernel.table.task t).dynamicPrio = 0) {i : ℕ}
    {t : TaskId} (slot : kernel.table.slots i = some t) :
    Listed i (kernel.table.scheduleRecharge.task t) (kernel.started t) := by
  have same := kernel.table.scheduleRecharge_same
  have listed := consistent.listed i t slot
  by_cases ready : (kernel.table.task t).state = .ready
  · have isReady : kernel.table.Ready t := ⟨⟨i, slot⟩, ready⟩
    have prio := TaskTable.scheduleRecharge_prio consistent.slotted isReady (spent t isReady)
      listed.positive listed.word
    have positive := listed.positive
    have word := listed.word
    refine listed.replace (same.pid t) (TaskTable.scheduleRecharge_static consistent.slotted t)
      ?_ ?_ fun unstarted => ?_
    · rw [prio]
      omega
    · rwa [prio]
    · rw [same.interruptible]
      exact listed.startup unstarted
  · rw [TaskTable.scheduleRecharge_other consistent.slotted ready]
    exact listed

/-- A recharge of ready tasks that have nothing left. -/
theorem Consistent.recharge {calling : Option ℕ}
    (consistent : Consistent cpuCount kernel calling)
    (spent : ∀ t, kernel.table.Ready t → (kernel.table.task t).dynamicPrio = 0) :
    Consistent cpuCount { kernel with table := kernel.table.scheduleRecharge } calling := by
  have same := kernel.table.scheduleRecharge_same
  have slots {i : ℕ} {t : TaskId} (slot : kernel.table.scheduleRecharge.slots i = some t) :
      kernel.table.slots i = some t := by rwa [same.slots] at slot
  refine
    { distinct := consistent.distinct, idleDistinct := consistent.idleDistinct
      started := consistent.started, listed := fun i t slot => ?_
      slotName := fun i t slot => ?_, currentName := fun cpu isCpu => ?_
      onCpu := fun i t slot running => ?_, executes := fun cpu isCpu notCalling => ?_
      caller := fun cpu calls => ?_, idleSlot := fun cpu isCpu => ?_
      idleState := fun cpu isCpu => ?_, queued := ?_ }
  · exact consistent.recharge_listed spent (slots slot)
  · rw [same.nextId]
    exact consistent.slotName i t (slots slot)
  · change kernel.current cpu < kernel.table.scheduleRecharge.nextId
    rw [same.nextId]
    exact consistent.currentName cpu isCpu
  · rw [same.state] at running
    exact consistent.onCpu i t (slots slot) running
  · have executes := consistent.executes cpu isCpu notCalling
    constructor
    · change Running (kernel.table.scheduleRecharge.task (kernel.current cpu))
      rw [TaskTable.scheduleRecharge_other consistent.slotted]
      · exact executes.running
      · rw [executes.running.state]
        decide
    · change _ ∨ ∃ i, kernel.table.scheduleRecharge.slots i = some (kernel.current cpu)
      rw [same.slots]
      exact executes.slot
  · change cpu < cpuCount ∧ (kernel.table.scheduleRecharge.task (kernel.current cpu)).state ≠ _
    rw [same.state]
    exact consistent.caller cpu calls
  · change ∃ i, kernel.table.scheduleRecharge.slots i = some (kernel.idle cpu)
    rw [same.slots]
    exact consistent.idleSlot cpu isCpu
  · change (kernel.table.scheduleRecharge.task (kernel.idle cpu)).state = _ ∨
      (kernel.table.scheduleRecharge.task (kernel.idle cpu)).state = _
    rw [same.state]
    exact consistent.idleState cpu isCpu
  · refine ⟨fun s t isQueued => ?_, fun s t isQueued => ?_, consistent.queued.nodup,
      consistent.queued.once⟩
    · rw [same.nextId]
      exact consistent.queued.name s t isQueued
    · rw [same.state]
      exact consistent.queued.waiting s t isQueued

section Resume

variable {t : TaskId}

/-- The other CPUs do not execute a ready task. -/
theorem Consistent.current_ne_ready (consistent : Consistent cpuCount kernel (some cpu))
    (ready : kernel.table.Ready t) {other : ℕ} (isCpu : other < cpuCount)
    (different : other ≠ cpu) : kernel.current other ≠ t := by
  have notCalling : some cpu ≠ some other := fun same => different (Option.some_inj.mp same).symm
  intro same
  have running := (consistent.executes other isCpu notCalling).running.state
  rw [same, ready.2] at running
  cases running

theorem Consistent.resume_listed (consistent : Consistent cpuCount kernel (some cpu)) {i : ℕ}
    {u : TaskId} (slot : kernel.table.slots i = some u) :
    Listed i ((kernel.resume cpu t).table.task u) ((kernel.resume cpu t).started u) := by
  have listed := consistent.listed i u slot
  by_cases own : u = t
  · rw [own] at listed ⊢
    rw [resume_self]
    exact ⟨listed.inside, listed.pid, listed.nonneg, listed.bounded, listed.positive,
      listed.word, fun _ => rfl⟩
  · have started : (kernel.resume cpu t).started u = kernel.started u :=
      Function.update_of_ne own _ _
    rwa [kernel.resume_other cpu own, started]

/-- A task that runs is the one that comes, or was running on another CPU. -/
theorem Consistent.resume_onCpu (consistent : Consistent cpuCount kernel (some cpu)) {i : ℕ}
    {u : TaskId} (slot : kernel.table.slots i = some u)
    (running : ((kernel.resume cpu t).table.task u).state = .running) :
    ∃ on < cpuCount, (kernel.resume cpu t).current on = u := by
  obtain ⟨inside, notRunning⟩ := consistent.caller cpu rfl
  by_cases own : u = t
  · exact ⟨cpu, inside, own ▸ kernel.resume_current cpu t⟩
  · rw [kernel.resume_other cpu own] at running
    obtain ⟨on, isCpu, isCurrent⟩ := consistent.onCpu i u slot running
    refine ⟨on, isCpu, ?_⟩
    rw [kernel.resume_current_other t, isCurrent]
    intro here
    rw [here] at isCurrent
    rw [isCurrent] at notRunning
    exact notRunning running

theorem Consistent.resume_distinct (consistent : Consistent cpuCount kernel (some cpu))
    (ready : kernel.table.Ready t) {first second : ℕ} (isFirst : first < cpuCount)
    (isSecond : second < cpuCount)
    (same : (kernel.resume cpu t).current first = (kernel.resume cpu t).current second) :
    first = second := by
  by_cases firstHere : first = cpu
  · by_cases secondHere : second = cpu
    · rw [firstHere, secondHere]
    · rw [firstHere, resume_current, kernel.resume_current_other t secondHere] at same
      exact absurd same.symm (consistent.current_ne_ready ready isSecond secondHere)
  · rw [kernel.resume_current_other t firstHere] at same
    by_cases secondHere : second = cpu
    · rw [secondHere, resume_current] at same
      exact absurd same (consistent.current_ne_ready ready isFirst firstHere)
    · rw [kernel.resume_current_other t secondHere] at same
      exact consistent.distinct first isFirst second isSecond same

theorem Consistent.resume_executes (consistent : Consistent cpuCount kernel (some cpu))
    (ready : kernel.table.Ready t) {other : ℕ} (isCpu : other < cpuCount) :
    (kernel.resume cpu t).Executes other := by
  by_cases own : other = cpu
  · obtain ⟨place, held⟩ := ready.1
    have listed := consistent.listed place t held
    rw [own]
    refine ⟨?_, Or.inr ⟨place, ?_⟩⟩
    · rw [resume_current, resume_self]
      exact ⟨rfl, rfl, listed.nonneg, listed.bounded⟩
    · rw [resume_current]
      exact held
  · have executes := consistent.executes other isCpu
      fun same => own (Option.some_inj.mp same).symm
    have different := consistent.current_ne_ready ready isCpu own
    refine ⟨?_, ?_⟩
    · rw [kernel.resume_current_other t own, kernel.resume_other cpu different]
      exact executes.running
    · rw [kernel.resume_current_other t own]
      exact executes.slot

/-- The task that `schedule` has chosen comes. -/
theorem Consistent.resume (consistent : Consistent cpuCount kernel (some cpu))
    (ready : kernel.table.Ready t) : Consistent cpuCount (kernel.resume cpu t) none := by
  refine
    { idleDistinct := consistent.idleDistinct, idleSlot := consistent.idleSlot
      slotName := consistent.slotName
      listed := fun _ _ slot => consistent.resume_listed slot
      onCpu := fun _ _ slot running => consistent.resume_onCpu slot running
      distinct := fun _ isFirst _ isSecond same =>
        consistent.resume_distinct ready isFirst isSecond same
      executes := fun _ isCpu _ => consistent.resume_executes ready isCpu
      caller := fun _ calls => by cases calls
      currentName := fun other isCpu => ?_, started := fun other isCpu => ?_
      idleState := fun other isCpu => ?_, queued := ?_ }
  · by_cases own : other = cpu
    · obtain ⟨place, held⟩ := ready.1
      rw [own, resume_current]
      exact consistent.slotName place t held
    · rw [kernel.resume_current_other t own]
      exact consistent.currentName other isCpu
  · by_cases own : other = cpu
    · rw [own, resume_current]
      exact Function.update_self _ _ _
    · rw [kernel.resume_current_other t own]
      exact (Function.update_of_ne (consistent.current_ne_ready ready isCpu own) _ _).trans
        (consistent.started other isCpu)
  · change ((kernel.resume cpu t).table.task (kernel.idle other)).state = _ ∨
      ((kernel.resume cpu t).table.task (kernel.idle other)).state = _
    by_cases own : kernel.idle other = t
    · rw [own, resume_self]
      exact Or.inr rfl
    · rw [kernel.resume_other cpu own]
      exact consistent.idleState other isCpu
  · refine ⟨consistent.queued.name, fun s u isQueued => ?_, consistent.queued.nodup,
      consistent.queued.once⟩
    have waiting := consistent.queued.waiting s u isQueued
    rw [resume_other]
    · exact waiting
    · intro own
      rw [own, ready.2] at waiting
      cases waiting

end Resume

/-- The table that the choice is made from: the table as it is, or recharged once. -/
inductive Recharged (table : TaskTable) : TaskTable → Prop where
  | none : Recharged table table
  | once : Recharged table table.scheduleRecharge

/-- The loop ends, after at most one recharge, with the first maximum. -/
theorem Consistent.scheduleLoop (consistent : Consistent cpuCount kernel (some cpu)) :
    ∃ table t, Recharged kernel.table table ∧ table.Picked t
      ∧ Consistent cpuCount { kernel with table := table } (some cpu)
      ∧ ∀ turns, kernel.table.scheduleLoop (turns + 2) = some (table.setState t .running, t) := by
  obtain ⟨other, isCpu, idle⟩ := consistent.idle_ready
  by_cases left : ∃ u, kernel.table.Ready u ∧ 0 < (kernel.table.task u).dynamicPrio
  · obtain ⟨u, ready, prio⟩ := left
    obtain ⟨t, picked, -, returned⟩ :=
      TaskTable.scheduleLoop_of_charged consistent.slotted ready prio
    exact ⟨kernel.table, t, .none, picked, consistent, fun turns => returned (turns + 1)⟩
  · have spent (u : TaskId) (ready : kernel.table.Ready u) :
        (kernel.table.task u).dynamicPrio = 0 ∧ 1 ≤ (kernel.table.task u).staticPrio
          ∧ (kernel.table.task u).staticPrio < 2 ^ 31 := by
      obtain ⟨i, slot⟩ := ready.1
      have listed := consistent.listed i u slot
      have zero := le_antisymm (not_lt.mp fun above => left ⟨u, ready, above⟩) listed.nonneg
      exact ⟨zero, listed.positive, listed.word⟩
    obtain ⟨t, picked, -, returned⟩ :=
      TaskTable.scheduleLoop_of_spent consistent.slotted idle spent
    exact ⟨_, t, .once, picked, consistent.recharge fun u ready => (spent u ready).1, returned⟩

/-- `schedule` ends, and the kernel is between two calls again. -/
theorem Consistent.schedule (consistent : Consistent cpuCount kernel (some cpu)) :
    ∃ table t next,
      Recharged (kernel.table.setInterruptible (kernel.current cpu) false) table
      ∧ table.Picked t
      ∧ (∀ turns, (kernel.table.setInterruptible (kernel.current cpu) false).scheduleLoop
          (turns + 2) = some (table.setState t .running, t))
      ∧ (∀ turns, kernel.schedule cpu (turns + 2) = some next)
      ∧ next.current cpu = t ∧ Consistent cpuCount next none := by
  obtain ⟨table, t, recharged, picked, kept, returned⟩ := consistent.masked.scheduleLoop
  obtain ⟨i, slot⟩ := picked.ready.1
  refine ⟨table, t, { kernel with table := table }.resume cpu t, recharged, picked, returned,
    fun turns => ?_, resume_current _ cpu t, kept.resume picked.ready⟩
  rw [AtomicKernel.schedule, returned turns, Option.map_some,
    ← switchTo_eq_resume (kept.listed i t slot).startup]

/-! ## `tasks_init` -/

/-- The kernel after `n` turns of `tasks_init`: the names are given out in turn, to a
bootstrap task and an idle task. -/
structure Initialised (held : TaskStruct) (n : ℕ) (kernel : AtomicKernel Sem) : Prop where
  nextId : kernel.table.nextId = 2 * n
  nrTasks : kernel.table.nrTasks = n
  slots : ∀ i, kernel.table.slots i = if i < n then some (2 * i + 1) else none
  first : ∀ i < n, kernel.table.task (2 * i) = bootstrapTask held
  second : ∀ i < n, kernel.table.task (2 * i + 1) = taskStructNew i 1
  current : ∀ cpu < n, kernel.current cpu = 2 * cpu
  bootstrap : ∀ cpu < n, kernel.bootstrap cpu = 2 * cpu
  idle : ∀ cpu < n, kernel.idle cpu = 2 * cpu + 1
  started : ∀ cpu < n, kernel.started (2 * cpu) = true
  sem : ∀ s, (kernel.sem s).taskQueue = []

/-- The first free slot is the one after the idle tasks so far. -/
theorem Initialised.findFree {held : TaskStruct} {n : ℕ}
    (initialised : Initialised held n kernel) (inside : n < maxConcurrentTasks) :
    kernel.table.findFree = some n := by
  rw [TaskTable.findFree, List.find?_range_eq_some]
  refine ⟨?_, List.mem_range.mpr inside, fun j below => ?_⟩
  · rw [initialised.slots, if_neg (Nat.lt_irrefl n)]
    rfl
  · rw [initialised.slots, if_pos below]
    rfl

/-- The kernel after the next turn. -/
theorem Initialised.turn {held : TaskStruct} {n : ℕ}
    (initialised : Initialised held n kernel) (inside : n < maxConcurrentTasks) :
    tasksInitTurn held kernel n
      = { kernel with
          table :=
            { slots := Function.update kernel.table.slots n (some (2 * n + 1))
              nrTasks := n + 1
              task := Function.update (Function.update kernel.table.task (2 * n)
                (bootstrapTask held)) (2 * n + 1) (taskStructNew n 1)
              nextId := 2 * (n + 1) }
          current := Function.update kernel.current n (2 * n)
          bootstrap := Function.update kernel.bootstrap n (2 * n)
          idle := Function.update kernel.idle n (2 * n + 1)
          started := Function.update (Function.update kernel.started (2 * n) true) (2 * n + 1)
            false } := by
  have room : kernel.table.nrTasks ≠ maxConcurrentTasks := by
    rw [initialised.nrTasks]
    exact_mod_cast inside.ne
  have count : int32 (kernel.table.nrTasks + 1) = n + 1 := by
    unfold maxConcurrentTasks at inside
    rw [initialised.nrTasks, int32_eq (by omega) (by omega)]
  unfold tasksInitTurn
  simp only
  rw [taskNew_of_free 1 (by exact room) (by exact initialised.findFree inside)]
  simp only [TaskTable.fill, count, initialised.nextId, bootstrapTask]
  rfl

/-- An array that the next turn extends. -/
theorem update_turn {n : ℕ} (value : ℕ → ℕ) {values : ℕ → ℕ}
    (before : ∀ i < n, values i = value i) :
    ∀ i < n + 1, Function.update values n (value n) i = value i := by
  intro i below
  by_cases last : i = n
  · rw [last, Function.update_self]
  · rw [Function.update_of_ne last, before i (by omega)]

theorem Initialised.succ {held : TaskStruct} {n : ℕ}
    (initialised : Initialised held n kernel) (inside : n < maxConcurrentTasks) :
    Initialised held (n + 1) (tasksInitTurn held kernel n) := by
  have apart (i : ℕ) : 2 * i ≠ 2 * n + 1 ∧ 2 * i + 1 ≠ 2 * n := by omega
  have even {i : ℕ} (last : i ≠ n) : 2 * i ≠ 2 * n := by omega
  have odd {i : ℕ} (last : i ≠ n) : 2 * i + 1 ≠ 2 * n + 1 := by omega
  rw [initialised.turn inside]
  refine ⟨rfl, by push_cast; rfl, fun i => ?_, fun i below => ?_, fun i below => ?_,
    update_turn (fun i => 2 * i) initialised.current,
    update_turn (fun i => 2 * i) initialised.bootstrap,
    update_turn (fun i => 2 * i + 1) initialised.idle, fun i below => ?_, initialised.sem⟩
  · change Function.update kernel.table.slots n _ i = _
    by_cases last : i = n
    · rw [last, Function.update_self, if_pos (Nat.lt_succ_self n)]
    · rw [Function.update_of_ne last, initialised.slots]
      exact if_congr (by omega) rfl rfl
  · change Function.update (Function.update kernel.table.task (2 * n) _) (2 * n + 1) _ (2 * i) = _
    rw [Function.update_of_ne (apart i).1]
    by_cases last : i = n
    · rw [last, Function.update_self]
    · rw [Function.update_of_ne (even last), initialised.first i (by omega)]
  · change Function.update (Function.update kernel.table.task (2 * n) _) (2 * n + 1) _ (2 * i + 1)
      = _
    by_cases last : i = n
    · rw [last, Function.update_self]
    · rw [Function.update_of_ne (odd last), Function.update_of_ne (apart i).2,
        initialised.second i (by omega)]
  · change Function.update (Function.update kernel.started (2 * n) true) (2 * n + 1) false (2 * i)
      = true
    rw [Function.update_of_ne (apart i).1]
    by_cases last : i = n
    · rw [last, Function.update_self]
    · rw [Function.update_of_ne (even last), initialised.started i (by omega)]

theorem tasksInit_initialised {n : ℕ} (inside : n ≤ maxConcurrentTasks) (held : TaskStruct)
    (count : Sem → ℤ) : Initialised held n (tasksInit n held count) := by
  induction n with
  | zero =>
      refine ⟨rfl, rfl, fun i => ?_, ?_, ?_, ?_, ?_, ?_, ?_, fun _ => rfl⟩
      · rw [if_neg (Nat.not_lt_zero i)]
        rfl
      all_goals exact fun i below => absurd below (Nat.not_lt_zero i)
  | succ n ih =>
      rw [tasksInit, List.range_succ, List.foldl_append]
      exact (ih (by omega)).succ inside

/-- `tasks_init` establishes the invariant. -/
theorem Initialised.consistent {held : TaskStruct} {n : ℕ}
    (initialised : Initialised held n kernel) (inside : n ≤ maxConcurrentTasks) :
    Consistent n kernel none := by
  have slots {i : ℕ} {t : TaskId} (slot : kernel.table.slots i = some t) :
      i < n ∧ t = 2 * i + 1 := by
    rw [initialised.slots] at slot
    split at slot
    case isTrue below => exact ⟨below, (Option.some_inj.mp slot).symm⟩
    case isFalse => cases slot
  refine
    { listed := fun i t slot => ?_, slotName := fun i t slot => ?_
      currentName := fun cpu isCpu => ?_, onCpu := fun i t slot running => ?_
      distinct := fun cpu isCpu other isOther same => ?_, started := fun cpu isCpu => ?_
      executes := fun cpu isCpu _ => ?_, caller := fun cpu calls => by cases calls
      idleSlot := fun cpu isCpu => ?_, idleState := fun cpu isCpu => ?_
      idleDistinct := fun cpu isCpu other isOther same => ?_, queued := ?_ }
  · obtain ⟨below, rfl⟩ := slots slot
    rw [initialised.second i below]
    exact listed_new (by omega) (le_refl 1) (by decide) _
  · obtain ⟨below, rfl⟩ := slots slot
    have below' : 2 * i + 1 < 2 * n := by omega
    rwa [initialised.nextId]
  · have below : 2 * cpu < 2 * n := by omega
    rwa [initialised.current cpu isCpu, initialised.nextId]
  · obtain ⟨below, rfl⟩ := slots slot
    rw [initialised.second i below] at running
    cases running
  · rw [initialised.current cpu isCpu, initialised.current other isOther] at same
    exact Nat.eq_of_mul_eq_mul_left (by decide) same
  · rw [initialised.current cpu isCpu, initialised.started cpu isCpu]
  · refine ⟨?_, Or.inl ?_⟩
    · rw [initialised.current cpu isCpu, initialised.first cpu isCpu]
      exact ⟨rfl, rfl, by change (0 : ℤ) ≤ 1; decide, by change (1 : ℤ) < 2 ^ 31; decide⟩
    · rw [initialised.current cpu isCpu, initialised.bootstrap cpu isCpu]
  · refine ⟨cpu, ?_⟩
    rw [initialised.slots, if_pos isCpu, initialised.idle cpu isCpu]
  · rw [initialised.idle cpu isCpu, initialised.second cpu isCpu]
    exact Or.inl rfl
  · rw [initialised.idle cpu isCpu, initialised.idle other isOther] at same
    exact Nat.eq_of_mul_eq_mul_left (by decide) (Nat.add_right_cancel same)
  · refine ⟨fun s t isQueued => ?_, fun s t isQueued => ?_, fun s => ?_,
      fun s _ t isQueued => ?_⟩
    · rw [initialised.sem] at isQueued
      cases isQueued
    · rw [initialised.sem] at isQueued
      cases isQueued
    · rw [initialised.sem]
      exact List.nodup_nil
    · rw [initialised.sem] at isQueued
      cases isQueued

/-! ## Whole runs -/

section Runs

variable [DecidableEq Sem]

/-- A call keeps the invariant. -/
theorem Consistent.step (consistent : Consistent cpuCount kernel none) {call : AtomicCall Sem}
    {turns : ℕ} {next : AtomicKernel Sem}
    (stepped : kernel.step cpuCount cpu call turns = some next) :
    Consistent cpuCount next none := by
  simp only [AtomicKernel.step, Option.ite_none_right_eq_some, Option.bind_eq_some_iff] at stepped
  obtain ⟨inside, ⟨called, calls⟩, entered, stepped⟩ := stepped
  have after := consistent.enter inside entered
  cases calls with
  | false =>
      cases stepped
      exact after
  | true =>
      obtain ⟨-, -, final, -, -, -, returned, -, kept⟩ := Consistent.schedule after
      have more := schedule_more stepped 2
      rw [returned turns, Option.some_inj] at more
      rwa [← more]

theorem Consistent.of_reachable (inside : cpuCount ≤ maxConcurrentTasks)
    (reachable : (atomicSystem cpuCount Sem).Reachable kernel) :
    Consistent cpuCount kernel none := by
  refine reachable.invariant (fun kernel => Consistent cpuCount kernel none) ?_
    fun consistent _ stepped => consistent.step stepped
  rintro kernel ⟨held, count, rfl⟩
  exact (tasksInit_initialised inside held count).consistent inside

end Runs

end AtomicKernel

end CatchOS.Tasks
