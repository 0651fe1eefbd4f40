import CatchOS.Tasks.UseAfterFree

/-!
# Tasks are cleaned up once

The resources of a task are released by `on_current_task_return_cb` when it finds
the task detached, and otherwise by the `task_join` on it. A run is recorded with a
tally for every task: how often it was joined, detached and cleaned up, and how far
its return and its join have come.

The kernel keeps the calls of a task on a CPU while the task runs and with the task
while it does not. `Kernel.stack` forgets the difference, and `LifecycleStep` says
what a step means in these terms: it changes the calls of one task, and in five
ways the resources of a task.

A `task_detach` that comes after the return callback has tested `join_state` has no
effect any more, and nobody else releases the task. In runs in which every task is
detached before that test, and no task runs on two CPUs (`CleanupGuard`), every task
that is either joined or detached, once, is cleaned up once (`task_cleanup_once`).
-/

set_option autoImplicit false

namespace CatchOS.Tasks

open CatchOS.Lib

/-- The frames of `on_current_task_return_cb` up to its test of `join_state`. -/
def Frame.returning : Frame → Bool
  | .returnEnter | .returnUnlink | .returnState | .returnJoin => true
  | _ => false

/-! ## The recorded run -/

/-- What can happen to the resources of a task. -/
inductive LifecycleEvent where
  /-- `task_join` is called on it. -/
  | joins
  /-- `task_detach` is called on it. -/
  | detaches
  /-- Its return callback tests `join_state`, and cleans up if it is detached. -/
  | tests (detached : Bool)
  /-- A `task_join` on it cleans up and returns. -/
  | releases

/-- What has happened to the resources of a task. `tested`: its return callback has
tested `join_state`. `joined`: a `task_join` on it has returned. -/
structure Tally where
  joins : ℕ := 0
  detaches : ℕ := 0
  cleanups : ℕ := 0
  tested : Bool := false
  joined : Bool := false
  deriving DecidableEq

def Tally.record (tally : Tally) : LifecycleEvent → Tally
  | .joins => { tally with joins := tally.joins + 1 }
  | .detaches => { tally with detaches := tally.detaches + 1 }
  | .tests detached =>
      { tally with tested := true, cleanups := tally.cleanups + if detached then 1 else 0 }
  | .releases => { tally with joined := true, cleanups := tally.cleanups + 1 }

section Definitions

variable {Cpu : Type}

/-- The task an action happens to, and what. -/
def Kernel.event (kernel : Kernel Cpu) : KernelAction Cpu → Option (TaskId × LifecycleEvent)
  | .call _ (.taskJoin t) => some (t, .joins)
  | .call _ (.taskDetach t) => some (t, .detaches)
  | .call _ _ | .tick _ => none
  | .run cpu =>
      match kernel.frames cpu with
      | .returnJoin :: _ =>
          let t := kernel.current cpu
          some (t, .tests ((kernel.table.task t).joinState = .detached))
      | .joinCleanup t :: _ => some (t, .releases)
      | _ => none

/-- The scheduler with a tally for every task. -/
structure CleanupRun (Cpu : Type) where
  kernel : Kernel Cpu
  tally : TaskId → Tally

def CleanupRun.record (run : CleanupRun Cpu) (next : Kernel Cpu) :
    Option (TaskId × LifecycleEvent) → CleanupRun Cpu
  | none => ⟨next, run.tally⟩
  | some (t, event) => ⟨next, Function.update run.tally t ((run.tally t).record event)⟩

/-- No task runs on two CPUs, and a task is detached before its return callback has
tested `join_state`. -/
def CleanupGuard (run : CleanupRun Cpu) (action : KernelAction Cpu) : Prop :=
  Function.Injective run.kernel.current ∧
  match action with
  | .call _ (.taskDetach t) => (run.tally t).tested = false
  | .call _ _ | .tick _ | .run _ => True

instance [Fintype Cpu] [DecidableEq Cpu] (run : CleanupRun Cpu) :
    ∀ action, Decidable (CleanupGuard run action)
  | .call _ (.taskDetach _) => inferInstanceAs (Decidable (_ ∧ _ = _))
  | .call _ .taskYield | .call _ .taskReturn | .call _ (.taskNew _) | .call _ (.taskJoin _)
  | .tick _ | .run _ => inferInstanceAs (Decidable (_ ∧ True))

variable [DecidableEq Cpu]

def CleanupRun.step (run : CleanupRun Cpu) (action : KernelAction Cpu) : Option (CleanupRun Cpu) :=
  (run.kernel.step action).map fun next => run.record next (run.kernel.event action)

end Definitions

/-! ## The calls of a task -/

section Stack

variable {Cpu : Type} {kernel : Kernel Cpu}

open Classical in
/-- The calls a task has to finish, wherever they are kept. -/
noncomputable def Kernel.stack (kernel : Kernel Cpu) (owner : TaskId) : List Frame :=
  if running : ∃ cpu, kernel.current cpu = owner then kernel.frames running.choose
  else kernel.context owner

theorem Kernel.stack_current (distinct : Function.Injective kernel.current) (cpu : Cpu) :
    kernel.stack (kernel.current cpu) = kernel.frames cpu := by
  have running : ∃ other, kernel.current other = kernel.current cpu := ⟨cpu, rfl⟩
  simp only [Kernel.stack, dif_pos running]
  rw [distinct running.choose_spec]

theorem Kernel.stack_away {owner : TaskId} (away : ∀ cpu, kernel.current cpu ≠ owner) :
    kernel.stack owner = kernel.context owner := by
  have stopped : ¬ ∃ cpu, kernel.current cpu = owner := fun ⟨cpu, here⟩ => away cpu here
  simp only [Kernel.stack, dif_neg stopped]

/-- Kernels with the same tasks on the CPUs agree on the calls of a task that runs on a
CPU with the same frames, or is kept with the same frames. -/
theorem Kernel.stack_congr {next : Kernel Cpu} {owner : TaskId}
    (distinct : Function.Injective kernel.current)
    (distinctNext : Function.Injective next.current)
    (running : ∀ cpu, kernel.current cpu = owner ↔ next.current cpu = owner)
    (frames : ∀ cpu, kernel.current cpu = owner → next.frames cpu = kernel.frames cpu)
    (context : next.context owner = kernel.context owner) :
    next.stack owner = kernel.stack owner := by
  by_cases here : ∃ cpu, kernel.current cpu = owner
  · obtain ⟨cpu, same⟩ := here
    have sameNext := (running cpu).mp same
    calc next.stack owner = next.frames cpu := by rw [← sameNext, stack_current distinctNext]
      _ = kernel.frames cpu := frames cpu same
      _ = kernel.stack owner := by rw [← same, stack_current distinct]
  · have away : ∀ cpu, kernel.current cpu ≠ owner := fun cpu same => here ⟨cpu, same⟩
    have awayNext : ∀ cpu, next.current cpu ≠ owner := fun cpu same =>
      away cpu ((running cpu).mpr same)
    rw [stack_away away, stack_away awayNext, context]

variable [DecidableEq Cpu] {cpu : Cpu} {table : TaskTable} {frames rest : List Frame}

theorem Kernel.stack_proceed (distinct : Function.Injective kernel.current) :
    (kernel.proceed cpu table frames).stack =
      Function.update kernel.stack (kernel.current cpu) frames := by
  have distinctNext : Function.Injective (kernel.proceed cpu table frames).current := distinct
  funext owner
  by_cases mine : owner = kernel.current cpu
  · subst mine
    rw [Function.update_self]
    exact (stack_current distinctNext cpu).trans (Function.update_self _ _ _)
  · rw [Function.update_of_ne mine]
    refine stack_congr distinct distinctNext (fun _ => Iff.rfl) (fun other here => ?_) rfl
    have apart : other ≠ cpu := by
      rintro rfl
      exact mine here.symm
    exact Function.update_of_ne apart _ _

/-- The context switch moves the calls of two tasks; the task that leaves continues in
`schedule`. -/
theorem Kernel.stack_switch {t : TaskId} (distinct : Function.Injective kernel.current)
    (other : kernel.current cpu ≠ t)
    (distinctNext : Function.Injective (kernel.switch cpu t rest).current) :
    (kernel.switch cpu t rest).stack =
      Function.update kernel.stack (kernel.current cpu) (.resumed :: rest) := by
  have moved (another : Cpu) (apart : another ≠ cpu) :
      (kernel.switch cpu t rest).current another = kernel.current another :=
    Function.update_of_ne apart _ _
  have here : (kernel.switch cpu t rest).current cpu = t := Function.update_self _ _ _
  have away (another : Cpu) : kernel.current another ≠ t := by
    intro shared
    by_cases same : another = cpu
    · exact other (same ▸ shared)
    · exact same (distinctNext (((moved another same).trans shared).trans here.symm))
  funext owner
  by_cases left : owner = kernel.current cpu
  · subst left
    rw [Function.update_self]
    refine (stack_away fun another back => ?_).trans (Function.update_self _ _ _)
    by_cases same : another = cpu
    · exact other ((same ▸ back).symm.trans here)
    · exact same (distinct ((moved another same).symm.trans back))
  · rw [Function.update_of_ne left]
    by_cases comes : owner = t
    · subst comes
      have kept := stack_current distinctNext cpu
      rw [here] at kept
      rw [stack_away away]
      exact kept.trans (Function.update_self _ _ _)
    · refine stack_congr distinct distinctNext (fun another => ?_) (fun another runs => ?_)
        (Function.update_of_ne left _ _)
      · by_cases same : another = cpu
        · rw [same, here]
          exact ⟨fun back => absurd back.symm left, fun back => absurd back.symm comes⟩
        · rw [moved another same]
      · have apart : another ≠ cpu := by
          rintro rfl
          exact left runs.symm
        exact Function.update_of_ne apart _ _

end Stack

/-! ## What a step means for the tasks -/

/-- A change of the table that leaves no task in it that was not, and every task with
its `pid` and its `join_state`. -/
structure KeepsTasks (before after : TaskTable) : Prop where
  slots : ∀ i t, after.slots i = some t → before.slots i = some t
  nextId : after.nextId = before.nextId
  pid : ∀ t, (after.task t).pid = (before.task t).pid
  joinState : ∀ t, (after.task t).joinState = (before.task t).joinState

namespace KeepsTasks

theorem refl (table : TaskTable) : KeepsTasks table table :=
  ⟨fun _ _ => id, rfl, fun _ => rfl, fun _ => rfl⟩

theorem trans {first second third : TaskTable} (one : KeepsTasks first second)
    (two : KeepsTasks second third) : KeepsTasks first third :=
  ⟨fun i t held => one.slots i t (two.slots i t held), two.nextId.trans one.nextId,
    fun t => (two.pid t).trans (one.pid t), fun t => (two.joinState t).trans (one.joinState t)⟩

theorem modify (table : TaskTable) (t : TaskId) (change : TaskStruct → TaskStruct)
    (pid : (change (table.task t)).pid = (table.task t).pid)
    (joinState : (change (table.task t)).joinState = (table.task t).joinState) :
    KeepsTasks table (table.modify t change) := by
  refine ⟨fun _ _ => id, rfl, fun u => ?_, fun u => ?_⟩
  · by_cases same : u = t
    · simp [TaskTable.modify, same, pid]
    · simp [TaskTable.modify, same]
  · by_cases same : u = t
    · simp [TaskTable.modify, same, joinState]
    · simp [TaskTable.modify, same]

theorem unlink (table : TaskTable) (t : TaskId) : KeepsTasks table (table.unlink t) :=
  ⟨(shrinks_unlink table t).slots, rfl, fun _ => rfl, fun _ => rfl⟩

theorem rechargeSlot (table : TaskTable) (i : ℕ) : KeepsTasks table (table.rechargeSlot i) := by
  unfold TaskTable.rechargeSlot
  split
  · split
    · exact modify _ _ _ rfl rfl
    · exact refl _
  · exact refl _

theorem scheduleRecharge (table : TaskTable) : KeepsTasks table table.scheduleRecharge := by
  have loop : ∀ (indices : List ℕ) (start : TaskTable),
      KeepsTasks start (indices.foldl TaskTable.rechargeSlot start) := by
    intro indices
    induction indices with
    | nil => exact refl
    | cons i indices ih =>
        intro start
        exact (rechargeSlot start i).trans (ih _)
  exact loop _ table

theorem taskIsrTick (table : TaskTable) (t : TaskId) :
    KeepsTasks table (table.taskIsrTick t).1 := by
  unfold TaskTable.taskIsrTick
  dsimp only
  split
  · dsimp only
    exact modify _ _ _ rfl rfl
  · dsimp only
    exact modify _ _ _ rfl rfl

end KeepsTasks

section Steps

variable {Cpu : Type}

/-- The tasks on the CPUs and in the table were created, and a task that was not
created has no calls. -/
structure Kernel.Known (kernel : Kernel Cpu) : Prop where
  current : ∀ cpu, kernel.current cpu < kernel.table.nextId
  slot : ∀ i t, kernel.table.slots i = some t → t < kernel.table.nextId
  fresh : ∀ t, kernel.table.nextId ≤ t → kernel.context t = []

/-- The calls of one task become `after`, and tasks are created at most. -/
structure Kernel.Moves (kernel next : Kernel Cpu) (owner : TaskId) (after : List Frame) :
    Prop where
  known : next.Known
  old : owner < kernel.table.nextId
  stack : next.stack = Function.update kernel.stack owner after
  nextId : kernel.table.nextId ≤ next.table.nextId
  pid : ∀ t, t < kernel.table.nextId → (next.table.task t).pid = (kernel.table.task t).pid
  created : ∀ t, kernel.table.nextId ≤ t → t < next.table.nextId →
    (next.table.task t).joinState = .joinable

/-- No task that was created before is detached or joined. -/
structure Kernel.Untouched (kernel next : Kernel Cpu) : Prop where
  joinState : ∀ t, t < kernel.table.nextId →
    (next.table.task t).joinState = (kernel.table.task t).joinState
  joiner : next.joiner = kernel.joiner

/-- The frames wait for the same tasks and are as far in the return callback. -/
structure SameDuties (before after : List Frame) : Prop where
  waits : targets after = targets before
  returning : after.countP Frame.returning = before.countP Frame.returning
  returned : .returnDone ∈ before → .returnDone ∈ after

/-- What a step of the task `owner` means for the resources of tasks. -/
inductive LifecycleStep (kernel next : Kernel Cpu) (owner : TaskId) :
    Option (TaskId × LifecycleEvent) → Prop where
  | quiet {after : List Frame} : kernel.Moves next owner after → kernel.Untouched next →
      SameDuties (kernel.stack owner) after → LifecycleStep kernel next owner none
  | returns : kernel.Moves next owner [.returnEnter] → kernel.Untouched next →
      kernel.stack owner = [] → (kernel.table.task owner).pid < maxConcurrentTasks →
      LifecycleStep kernel next owner none
  | joins {t : TaskId} : kernel.Moves next owner [.joinPoll t] → kernel.stack owner = [] →
      kernel.joiner t = none → next.joiner = Function.update kernel.joiner t (some owner) →
      (∀ u, u < kernel.table.nextId →
        (next.table.task u).joinState = (kernel.table.task u).joinState) →
      LifecycleStep kernel next owner (some (t, .joins))
  | detaches {t : TaskId} : kernel.Moves next owner (kernel.stack owner) →
      t < kernel.table.nextId → next.joiner = kernel.joiner →
      (next.table.task t).joinState = .detached →
      (∀ u, u ≠ t → (next.table.task u).joinState = (kernel.table.task u).joinState) →
      LifecycleStep kernel next owner (some (t, .detaches))
  | tests {rest : List Frame} : kernel.stack owner = .returnJoin :: rest →
      kernel.Moves next owner (.yield :: .returnDone :: rest) → kernel.Untouched next →
      LifecycleStep kernel next owner
        (some (owner, .tests ((kernel.table.task owner).joinState = .detached)))
  | releases {t : TaskId} {rest : List Frame} : kernel.stack owner = .joinCleanup t :: rest →
      kernel.Moves next owner rest → kernel.Untouched next →
      LifecycleStep kernel next owner (some (t, .releases))

variable [DecidableEq Cpu] {kernel : Kernel Cpu} {cpu : Cpu} {table : TaskTable}
  {frame : Frame} {frames rest : List Frame}

theorem Kernel.Known.proceed (known : kernel.Known) (keeps : KeepsTasks kernel.table table) :
    (kernel.proceed cpu table frames).Known := by
  refine ⟨fun other => ?_, fun i t held => ?_, fun t unused => ?_⟩
  · exact keeps.nextId ▸ known.current other
  · exact keeps.nextId ▸ known.slot i t (keeps.slots i t held)
  · exact known.fresh t (keeps.nextId ▸ unused)

theorem Kernel.Moves.proceed (known : kernel.Known) (distinct : Function.Injective kernel.current)
    (keeps : KeepsTasks kernel.table table) :
    kernel.Moves (kernel.proceed cpu table frames) (kernel.current cpu) frames := by
  refine ⟨known.proceed keeps, known.current cpu, stack_proceed distinct, keeps.nextId.ge,
    fun t _ => keeps.pid t, fun t unused created => ?_⟩
  have created : t < table.nextId := created
  rw [keeps.nextId] at created
  exact absurd created (Nat.not_lt.mpr unused)

theorem Kernel.Moves.cleanup (known : kernel.Known) (distinct : Function.Injective kernel.current)
    (t : TaskId) :
    kernel.Moves ((kernel.cleanup t).proceed cpu kernel.table frames) (kernel.current cpu)
      frames := by
  have moves : kernel.Moves (kernel.proceed cpu kernel.table frames) (kernel.current cpu) frames :=
    .proceed known distinct (.refl _)
  exact ⟨⟨moves.known.current, moves.known.slot, moves.known.fresh⟩, moves.old, moves.stack,
    moves.nextId, moves.pid, moves.created⟩

theorem Kernel.Untouched.proceed (keeps : KeepsTasks kernel.table table) :
    kernel.Untouched (kernel.proceed cpu table frames) :=
  ⟨fun t _ => keeps.joinState t, rfl⟩

theorem Kernel.Moves.switch {i : ℕ} {t : TaskId} (known : kernel.Known)
    (distinct : Function.Injective kernel.current) (held : kernel.table.slots i = some t)
    (other : kernel.current cpu ≠ t)
    (distinctNext : Function.Injective (kernel.switch cpu t rest).current) :
    kernel.Moves (kernel.switch cpu t rest) (kernel.current cpu) (.resumed :: rest) := by
  refine ⟨⟨fun another => ?_, known.slot, fun u unused => ?_⟩,
    known.current cpu, stack_switch distinct other distinctNext, le_rfl, fun _ _ => rfl,
    fun u unused created => absurd created (Nat.not_lt.mpr unused)⟩
  · by_cases same : another = cpu
    · have here : (kernel.switch cpu t rest).current another = t := by simp [Kernel.switch, same]
      rw [here]
      exact known.slot i t held
    · have moved : (kernel.switch cpu t rest).current another = kernel.current another :=
        Function.update_of_ne same _ _
      rw [moved]
      exact known.current another
  · have notCurrent : u ≠ kernel.current cpu := by
      rintro rfl
      exact absurd (known.current cpu) (Nat.not_lt.mpr unused)
    exact (Function.update_of_ne notCurrent _ _).trans (known.fresh u unused)

/-- A task is created. It had no calls, so giving it none changes nothing. -/
theorem Kernel.Moves.fill (known : kernel.Known) (distinct : Function.Injective kernel.current)
    (pid : ℕ) (priority : ℤ) :
    kernel.Moves { kernel.proceed cpu (kernel.table.fill pid priority) rest with
      context := Function.update kernel.context kernel.table.nextId [] }
      (kernel.current cpu) rest := by
  have context : Function.update kernel.context kernel.table.nextId [] = kernel.context := by
    rw [← known.fresh _ le_rfl, Function.update_eq_self]
  rw [context]
  change kernel.Moves (kernel.proceed cpu (kernel.table.fill pid priority) rest) _ _
  refine ⟨⟨fun other => ?_, fun i t held => ?_, fun t unused => ?_⟩, known.current cpu,
    stack_proceed distinct, Nat.le_succ _, fun t old => ?_, fun t unused created => ?_⟩
  · exact (known.current other).trans (Nat.lt_succ_self _)
  · rcases TaskTable.fill_slot held with ⟨-, rfl⟩ | ⟨-, before⟩
    · exact Nat.lt_succ_self _
    · exact (known.slot i t before).trans (Nat.lt_succ_self _)
  · exact known.fresh t ((Nat.le_succ _).trans unused)
  · exact congrArg TaskStruct.pid (TaskTable.fill_task_old old.ne)
  · obtain rfl : t = kernel.table.nextId := (Nat.le_of_lt_succ created).antisymm unused
    simp [Kernel.proceed, TaskTable.fill_task_new, taskStructNew]

/-- The frames a plain step leaves in place of `frame`. -/
theorem SameDuties.replace {after : Frame} (target : after.target = frame.target)
    (returning : after.returning = frame.returning)
    (running : decide (frame = .returnDone) = false) :
    SameDuties (frame :: rest) (after :: rest) := by
  refine ⟨?_, ?_, fun member => ?_⟩
  · simp only [targets, List.filterMap_cons, target]
  · simp only [List.countP_cons, returning]
  · rcases List.mem_cons.mp member with top | below
    · exact absurd top.symm (of_decide_eq_false running)
    · exact List.mem_cons_of_mem _ below

theorem SameDuties.push (target : frame.target = none) (returning : frame.returning = false) :
    SameDuties frames (frame :: frames) := by
  refine ⟨?_, ?_, List.mem_cons_of_mem _⟩
  · simp only [targets, List.filterMap_cons, target]
  · simp only [List.countP_cons, returning, Bool.false_eq_true, if_false, Nat.add_zero]

theorem SameDuties.pop (target : frame.target = none) (returning : frame.returning = false)
    (running : decide (frame = .returnDone) = false) : SameDuties (frame :: frames) frames := by
  refine ⟨?_, ?_, fun member => ?_⟩
  · simp only [targets, List.filterMap_cons, target]
  · simp only [List.countP_cons, returning, Bool.false_eq_true, if_false, Nat.add_zero]
  · rcases List.mem_cons.mp member with top | below
    · exact absurd top.symm (of_decide_eq_false running)
    · exact below

theorem SameDuties.trans {first second third : List Frame} (one : SameDuties first second)
    (two : SameDuties second third) : SameDuties first third :=
  ⟨two.waits.trans one.waits, two.returning.trans one.returning,
    fun member => two.returned (one.returned member)⟩

/-- **A frame is executed.** -/
theorem LifecycleStep.runFrame {next : Kernel Cpu} (known : kernel.Known)
    (distinct : Function.Injective kernel.current) (frames : kernel.frames cpu = frame :: rest)
    (ran : kernel.runFrame cpu rest frame = some next)
    (distinctNext : Function.Injective next.current) :
    LifecycleStep kernel next (kernel.current cpu) (kernel.event (.run cpu)) := by
  have stack : kernel.stack (kernel.current cpu) = frame :: rest :=
    (Kernel.stack_current distinct cpu).trans frames
  -- A step that changes the table, within bounds, and the frames of this CPU.
  have plain {table : TaskTable} {after : List Frame} (keeps : KeepsTasks kernel.table table)
      (duties : SameDuties (frame :: rest) after) :
      LifecycleStep kernel (kernel.proceed cpu table after) (kernel.current cpu) none :=
    .quiet (.proceed known distinct keeps) (.proceed keeps) (stack ▸ duties)
  have interruptible (value : Bool) : KeepsTasks kernel.table
      (kernel.table.setInterruptible (kernel.current cpu) value) := .modify _ _ _ rfl rfl
  simp only [Kernel.event, frames]
  cases frame with
  | yield =>
      simp only [Kernel.runFrame, Option.some.injEq] at ran
      subst ran
      exact plain (.modify _ _ _ rfl rfl) (.replace rfl rfl rfl)
  | schedule =>
      simp only [Kernel.runFrame, Option.some.injEq] at ran
      subst ran
      exact plain (interruptible false) (.replace rfl rfl rfl)
  | scan =>
      simp only [Kernel.runFrame, Option.some.injEq] at ran
      subst ran
      exact plain (.refl _) (.replace rfl rfl rfl)
  | commit c slot =>
      simp only [Kernel.runFrame] at ran
      split at ran
      · obtain ⟨t, -, rfl⟩ := Option.map_eq_some_iff.mp ran
        exact plain (.modify _ _ _ rfl rfl) (.replace rfl rfl rfl)
      · simp only [Option.some.injEq] at ran
        subst ran
        exact plain (.scheduleRecharge _) (.replace rfl rfl rfl)
  | switchTo slot =>
      obtain ⟨t, held, rfl⟩ := Option.map_eq_some_iff.mp ran
      split
      · exact plain (.refl _) (.replace rfl rfl rfl)
      · rename_i other
        rw [if_neg other] at distinctNext
        have same : SameDuties (.switchTo slot :: rest) (.resumed :: rest) := .replace rfl rfl rfl
        exact .quiet (.switch known distinct held other distinctNext) ⟨fun _ _ => rfl, rfl⟩
          (stack ▸ same)
  | resumed =>
      simp only [Kernel.runFrame, Option.some.injEq] at ran
      subst ran
      exact plain (interruptible true) (.pop rfl rfl rfl)
  | returnEnter =>
      simp only [Kernel.runFrame, Option.some.injEq] at ran
      subst ran
      exact plain (interruptible false) (.replace rfl rfl rfl)
  | returnUnlink =>
      simp only [Kernel.runFrame, Option.some.injEq] at ran
      subst ran
      exact plain (.unlink _ _) (.replace rfl rfl rfl)
  | returnState =>
      simp only [Kernel.runFrame, Option.some.injEq] at ran
      subst ran
      refine plain ?_ (.replace rfl rfl rfl)
      split
      · exact .modify _ _ _ rfl rfl
      · exact .refl _
  | returnJoin =>
      simp only [Kernel.runFrame, Option.some.injEq] at ran
      subst ran
      split
      · exact .tests stack (.cleanup known distinct _) ⟨fun _ _ => rfl, rfl⟩
      · exact .tests stack (.proceed known distinct (.refl _)) (.proceed (.refl _))
  | returnDone => simp only [Kernel.runFrame, reduceCtorEq] at ran
  | newCheck priority =>
      simp only [Kernel.runFrame, Option.some.injEq] at ran
      subst ran
      split
      · exact plain (.refl _) (.pop rfl rfl rfl)
      · exact plain (.refl _) (.replace rfl rfl rfl)
  | newSearch priority =>
      simp only [Kernel.runFrame, Option.some.injEq] at ran
      subst ran
      split
      · exact plain (.refl _) (.replace rfl rfl rfl)
      · exact plain (.refl _) (.pop rfl rfl rfl)
  | newFill pid priority =>
      simp only [Kernel.runFrame, Option.some.injEq] at ran
      subst ran
      have same : SameDuties (.newFill pid priority :: rest) rest := .pop rfl rfl rfl
      refine .quiet (.fill known distinct pid priority) ⟨fun t old => ?_, rfl⟩ (stack ▸ same)
      exact congrArg TaskStruct.joinState (Function.update_of_ne old.ne _ _)
  | joinPoll t =>
      simp only [Kernel.runFrame, Option.some.injEq] at ran
      subst ran
      refine plain (.refl _) ?_
      split
      · exact .replace rfl rfl rfl
      · exact .replace rfl rfl rfl
  | joinReset t =>
      simp only [Kernel.runFrame, Option.some.injEq] at ran
      subst ran
      have polls : SameDuties (.joinReset t :: rest) (.joinPoll t :: rest) := .replace rfl rfl rfl
      exact plain (.modify _ _ _ rfl rfl) (polls.trans (.push rfl rfl))
  | joinCleanup t =>
      simp only [Kernel.runFrame, Option.some.injEq] at ran
      subst ran
      exact .releases stack (.cleanup known distinct t) ⟨fun _ _ => rfl, rfl⟩

/-- **Every step**, unless it leaves a task on two CPUs. -/
theorem LifecycleStep.of_step {next : Kernel Cpu} {action : KernelAction Cpu}
    (known : kernel.Known) (distinct : Function.Injective kernel.current)
    (stepped : kernel.step action = some next) (distinctNext : Function.Injective next.current) :
    ∃ owner, LifecycleStep kernel next owner (kernel.event action) := by
  cases action with
  | run cpu =>
      obtain ⟨frame, rest, frames, ran⟩ := Kernel.step_run stepped
      exact ⟨_, .runFrame known distinct frames ran distinctNext⟩
  | tick cpu =>
      have stack := Kernel.stack_current distinct cpu
      have keeps := KeepsTasks.taskIsrTick kernel.table (kernel.current cpu)
      simp only [Kernel.step, Option.some.injEq] at stepped
      subst stepped
      refine ⟨kernel.current cpu, .quiet (.proceed known distinct keeps) (.proceed keeps) ?_⟩
      rw [stack]
      split
      · exact .push rfl rfl
      · exact ⟨rfl, rfl, id⟩
  | call cpu call =>
      obtain ⟨frames, stepped⟩ := Kernel.step_call stepped
      have stack : kernel.stack (kernel.current cpu) = [] :=
        (Kernel.stack_current distinct cpu).trans frames
      refine ⟨kernel.current cpu, ?_⟩
      have enters (frame : Frame) (target : frame.target = none)
          (returning : frame.returning = false) :
          LifecycleStep kernel (kernel.proceed cpu kernel.table [frame]) (kernel.current cpu)
            none :=
        .quiet (.proceed known distinct (.refl _)) (.proceed (.refl _))
          (stack ▸ .push target returning)
      cases call with
      | taskYield =>
          simp only [Kernel.enter, Option.some.injEq] at stepped
          exact stepped ▸ enters .yield rfl rfl
      | taskReturn =>
          simp only [Kernel.enter, Option.ite_none_right_eq_some, Option.some.injEq] at stepped
          obtain ⟨inTable, rfl⟩ := stepped
          exact .returns (.proceed known distinct (.refl _)) (.proceed (.refl _)) stack inTable
      | taskNew priority =>
          simp only [Kernel.enter, Option.some.injEq] at stepped
          exact stepped ▸ enters (.newCheck priority) rfl rfl
      | taskJoin t =>
          simp only [Kernel.enter, Option.ite_none_right_eq_some, Option.some.injEq] at stepped
          obtain ⟨⟨-, unjoined⟩, rfl⟩ := stepped
          have moves : kernel.Moves (kernel.proceed cpu kernel.table [.joinPoll t])
              (kernel.current cpu) [.joinPoll t] := .proceed known distinct (.refl _)
          exact .joins ⟨⟨moves.known.current, moves.known.slot, moves.known.fresh⟩,
            moves.old, moves.stack, moves.nextId, moves.pid, moves.created⟩ stack unjoined rfl
            fun _ _ => rfl
      | taskDetach t =>
          simp only [Kernel.enter, Option.ite_none_right_eq_some, Option.some.injEq] at stepped
          obtain ⟨⟨old, -⟩, rfl⟩ := stepped
          refine .detaches ⟨⟨known.current, known.slot, known.fresh⟩, known.current cpu,
            (Function.update_eq_self _ _).symm, le_rfl, fun u _ => ?_,
            fun u unused created => absurd created (Nat.not_lt.mpr unused)⟩ old rfl ?_
            fun u different => ?_
          · by_cases same : u = t
            · simp [TaskTable.modify, same]
            · simp [TaskTable.modify, same]
          · simp [TaskTable.modify]
          · simp [TaskTable.modify, different]

end Steps

/-! ## The invariant -/

section Invariant

variable {Cpu : Type}

/-- What the calls of a task say: it waits for one task at most, which it joined and
has not released; and it is in its return callback, or past the test there, once at
most. -/
structure StackOk (run : CleanupRun Cpu) (owner : TaskId) (frames : List Frame) : Prop where
  single : (targets frames).length ≤ 1
  waits : ∀ t ∈ targets frames, run.kernel.joiner t = some owner ∧ (run.tally t).joined = false
  once : frames.countP Frame.returning + (if (run.tally owner).tested then 1 else 0) ≤ 1
  tested : (run.tally owner).tested = true → .returnDone ∈ frames
  created : 0 < frames.countP Frame.returning → owner < run.kernel.table.nextId ∧
    (run.kernel.table.task owner).pid < maxConcurrentTasks

/-- What the tally of a task says. It was cleaned up once for a `task_join` that has
returned, and once for a return that found it detached. -/
structure TallyOk (run : CleanupRun Cpu) (t : TaskId) : Prop where
  fresh : run.kernel.table.nextId ≤ t → (run.tally t).detaches = 0
  joinState : t < run.kernel.table.nextId →
    (run.kernel.table.task t).pid < maxConcurrentTasks →
    ((run.kernel.table.task t).joinState = .detached ↔ 0 < (run.tally t).detaches)
  joins : (run.tally t).joins = (run.kernel.joiner t).elim 0 fun _ => 1
  joined : (run.tally t).joined = true → run.kernel.joiner t ≠ none
  cleanups : (run.tally t).cleanups = (if (run.tally t).joined then 1 else 0) +
    if (run.tally t).tested = true ∧ 0 < (run.tally t).detaches then 1 else 0

structure CleanupInvariant (run : CleanupRun Cpu) : Prop where
  known : run.kernel.Known
  stack : ∀ owner, StackOk run owner (run.kernel.stack owner)
  tally : ∀ t, TallyOk run t

variable {run after : CleanupRun Cpu} {owner : TaskId} {frames duties : List Frame}

/-- The calls of a task stay good when its duties stay, what it waits for stays
joined by it, and its own return makes no progress. -/
theorem StackOk.transfer {mover : TaskId} {moved : List Frame} (ok : StackOk run owner frames)
    (moves : run.kernel.Moves after.kernel mover moved) (same : SameDuties frames duties)
    (waits : ∀ t ∈ targets frames, run.kernel.joiner t = some owner →
      (run.tally t).joined = false →
      after.kernel.joiner t = some owner ∧ (after.tally t).joined = false)
    (tested : (after.tally owner).tested = (run.tally owner).tested) :
    StackOk after owner duties := by
  refine ⟨same.waits ▸ ok.single, fun t member => ?_, ?_, fun past => ?_, fun returning => ?_⟩
  · rw [same.waits] at member
    obtain ⟨joiner, unreleased⟩ := ok.waits t member
    exact waits t member joiner unreleased
  · rw [tested, same.returning]
    exact ok.once
  · exact same.returned (ok.tested (tested ▸ past))
  · rw [same.returning] at returning
    obtain ⟨old, inTable⟩ := ok.created returning
    exact ⟨old.trans_le moves.nextId, (moves.pid owner old).symm ▸ inTable⟩

/-- A step that detaches nobody leaves `join_state` as the tally of detaches says, for
the tasks it creates too. -/
theorem TallyOk.joinState_kept {mover t : TaskId} {moved : List Frame} (ok : TallyOk run t)
    (moves : run.kernel.Moves after.kernel mover moved)
    (joinState : t < run.kernel.table.nextId →
      (after.kernel.table.task t).joinState = (run.kernel.table.task t).joinState)
    (old : t < after.kernel.table.nextId)
    (inTable : (after.kernel.table.task t).pid < maxConcurrentTasks) :
    (after.kernel.table.task t).joinState = .detached ↔ 0 < (run.tally t).detaches := by
  by_cases older : t < run.kernel.table.nextId
  · rw [joinState older]
    exact ok.joinState older (moves.pid t older ▸ inTable)
  · have unused := Nat.le_of_not_lt older
    rw [moves.created t unused old, ok.fresh unused]
    simp

/-- The tally of a task stays good when nothing happens to the task. -/
theorem TallyOk.transfer {mover t : TaskId} {moved : List Frame} (ok : TallyOk run t)
    (moves : run.kernel.Moves after.kernel mover moved)
    (joinState : t < run.kernel.table.nextId →
      (after.kernel.table.task t).joinState = (run.kernel.table.task t).joinState)
    (joiner : after.kernel.joiner t = run.kernel.joiner t)
    (tally : after.tally t = run.tally t) : TallyOk after t := by
  refine ⟨fun unused => ?_, fun old inTable => ?_, ?_, ?_, ?_⟩
  · rw [tally]
    exact ok.fresh (moves.nextId.trans unused)
  · rw [tally]
    exact ok.joinState_kept moves joinState old inTable
  · rw [tally, joiner]
    exact ok.joins
  · rw [tally, joiner]
    exact ok.joined
  · rw [tally]
    exact ok.cleanups

/-- The calls of the tasks that do not move stay good when no task is released by
somebody else, or joined again. -/
theorem CleanupInvariant.others {mover : TaskId} {moved : List Frame}
    (invariant : CleanupInvariant run) (moves : run.kernel.Moves after.kernel mover moved)
    (waits : ∀ owner, owner ≠ mover → ∀ t, run.kernel.joiner t = some owner →
      (run.tally t).joined = false →
      after.kernel.joiner t = some owner ∧ (after.tally t).joined = false)
    (tested : ∀ owner, owner ≠ mover →
      (after.tally owner).tested = (run.tally owner).tested)
    (own : StackOk after mover moved) (owner : TaskId) :
    StackOk after owner (after.kernel.stack owner) := by
  rw [moves.stack]
  by_cases mine : owner = mover
  · subst mine
    rw [Function.update_self]
    exact own
  · rw [Function.update_of_ne mine]
    exact (invariant.stack owner).transfer moves ⟨rfl, rfl, id⟩
      (fun t _ => waits owner mine t) (tested owner mine)

/-- What `record` leaves as it was stays as it was for every task. -/
theorem record_same {Value : Type} (field : Tally → Value) (tally : TaskId → Tally) (t : TaskId)
    (event : LifecycleEvent) (same : field ((tally t).record event) = field (tally t))
    (u : TaskId) :
    field (Function.update tally t ((tally t).record event) u) = field (tally u) := by
  by_cases here : u = t
  · subst here
    rw [Function.update_self]
    exact same
  · rw [Function.update_of_ne here]

theorem CleanupInvariant.quiet {next : Kernel Cpu} (invariant : CleanupInvariant run)
    (moves : run.kernel.Moves next owner duties) (untouched : run.kernel.Untouched next)
    (own : StackOk ⟨next, run.tally⟩ owner duties) : CleanupInvariant ⟨next, run.tally⟩ := by
  refine ⟨moves.known, invariant.others moves (fun _ _ t joiner unreleased => ?_)
    (fun _ _ => rfl) own, fun t => ?_⟩
  · exact ⟨untouched.joiner ▸ joiner, unreleased⟩
  · exact (invariant.tally t).transfer moves (untouched.joinState t)
      (congrFun untouched.joiner t) rfl

/-- The tally of the task that something happens to, and those of the other tasks. -/
theorem CleanupInvariant.tallies {mover t : TaskId} {moved : List Frame} {next : Kernel Cpu}
    {event : LifecycleEvent} (invariant : CleanupInvariant run)
    (moves : run.kernel.Moves next mover moved)
    (joinState : ∀ u, u ≠ t → u < run.kernel.table.nextId →
      (next.table.task u).joinState = (run.kernel.table.task u).joinState)
    (joiner : ∀ u, u ≠ t → next.joiner u = run.kernel.joiner u)
    (own : TallyOk (run.record next (some (t, event))) t) (u : TaskId) :
    TallyOk (run.record next (some (t, event))) u := by
  by_cases here : u = t
  · exact here ▸ own
  · exact (invariant.tally u).transfer moves (joinState u here) (joiner u here)
      (Function.update_of_ne here _ _)

theorem CleanupInvariant.joins {next : Kernel Cpu} {t : TaskId} (invariant : CleanupInvariant run)
    (moves : run.kernel.Moves next owner [.joinPoll t]) (idle : run.kernel.stack owner = [])
    (unjoined : run.kernel.joiner t = none)
    (joiner : next.joiner = Function.update run.kernel.joiner t (some owner))
    (joinState : ∀ u, u < run.kernel.table.nextId →
      (next.table.task u).joinState = (run.kernel.table.task u).joinState) :
    CleanupInvariant (run.record next (some (t, .joins))) := by
  have ok := idle ▸ invariant.stack owner
  have before := invariant.tally t
  have unreleased : (run.tally t).joined = false := by
    by_contra released
    exact before.joined (by simpa using released) unjoined
  have joinedSame := record_same Tally.joined run.tally t .joins rfl
  have testedSame := record_same Tally.tested run.tally t .joins rfl
  refine ⟨moves.known, invariant.others moves (fun other _ u joined notReleased => ?_)
    (fun u _ => testedSame u) ?_, invariant.tallies moves (fun u _ => joinState u)
    (fun u different => ?_) ?_⟩
  · have different : u ≠ t := by
      rintro rfl
      exact nomatch unjoined.symm.trans joined
    refine ⟨?_, (joinedSame u).trans notReleased⟩
    exact (congrFun joiner u).trans ((Function.update_of_ne different _ _).trans joined)
  · refine ⟨le_rfl, fun u member => ?_, ?_, fun past => ?_, nofun⟩
    · obtain rfl : u = t := by simpa [targets, Frame.target] using member
      exact ⟨(congrFun joiner u).trans (Function.update_self _ _ _),
        (joinedSame u).trans unreleased⟩
    · have once := ok.once
      rw [← testedSame owner] at once
      exact once
    · exact absurd (ok.tested ((testedSame owner).symm.trans past)) List.not_mem_nil
  · exact (congrFun joiner u).trans (Function.update_of_ne different _ _)
  · have joined : next.joiner t = some owner := by rw [joiner, Function.update_self]
    have none : (run.tally t).joins = 0 := by rw [before.joins, unjoined, Option.elim_none]
    refine ⟨fun unused => ?_, fun old inTable => ?_, ?_, fun _ => ?_, ?_⟩
    · simpa [CleanupRun.record, Tally.record] using before.fresh (moves.nextId.trans unused)
    · have state := before.joinState_kept moves (joinState t) old inTable
      simpa [CleanupRun.record, Tally.record] using state
    · simp [CleanupRun.record, Tally.record, none, joined]
    · simp [CleanupRun.record, joined]
    · simpa [CleanupRun.record, Tally.record] using before.cleanups

theorem CleanupInvariant.detaches {next : Kernel Cpu} {t : TaskId}
    (invariant : CleanupInvariant run)
    (moves : run.kernel.Moves next owner (run.kernel.stack owner))
    (old : t < run.kernel.table.nextId) (joiner : next.joiner = run.kernel.joiner)
    (detached : (next.table.task t).joinState = .detached)
    (joinState : ∀ u, u ≠ t →
      (next.table.task u).joinState = (run.kernel.table.task u).joinState)
    (early : (run.tally t).tested = false) :
    CleanupInvariant (run.record next (some (t, .detaches))) := by
  have before := invariant.tally t
  have joinedSame := record_same Tally.joined run.tally t .detaches rfl
  have testedSame := record_same Tally.tested run.tally t .detaches rfl
  have waits (owner u : TaskId) (joined : run.kernel.joiner u = some owner)
      (notReleased : (run.tally u).joined = false) :
      (run.record next (some (t, .detaches))).kernel.joiner u = some owner ∧
      ((run.record next (some (t, .detaches))).tally u).joined = false :=
    ⟨(congrFun joiner u).trans joined, (joinedSame u).trans notReleased⟩
  refine ⟨moves.known, invariant.others moves (fun owner _ => waits owner) (fun u _ => testedSame u)
    ((invariant.stack owner).transfer moves ⟨rfl, rfl, id⟩ (fun u _ => waits owner u)
      (testedSame owner)),
    invariant.tallies moves (fun u different _ => joinState u different)
      (fun u _ => congrFun joiner u) ⟨fun unused => ?_, fun _ _ => ?_, ?_, ?_, ?_⟩⟩
  · exact absurd (moves.nextId.trans unused) (Nat.not_le.mpr old)
  · simp [CleanupRun.record, Tally.record, detached]
  · simpa [CleanupRun.record, Tally.record, joiner] using before.joins
  · simpa [CleanupRun.record, Tally.record, joiner] using before.joined
  · simpa [CleanupRun.record, Tally.record, early] using before.cleanups

/-- The test of `join_state`. The task is in the table and tests for the first time,
so it is cleaned up exactly if it was detached. -/
theorem CleanupInvariant.tests {next : Kernel Cpu} {rest : List Frame}
    (invariant : CleanupInvariant run) (stack : run.kernel.stack owner = .returnJoin :: rest)
    (moves : run.kernel.Moves next owner (.yield :: .returnDone :: rest))
    (untouched : run.kernel.Untouched next) :
    CleanupInvariant (run.record next
      (some (owner, .tests ((run.kernel.table.task owner).joinState = .detached)))) := by
  have ok := stack ▸ invariant.stack owner
  have before := invariant.tally owner
  obtain ⟨old, inTable⟩ := ok.created (by simp [Frame.returning])
  have state := before.joinState old inTable
  obtain ⟨last, first⟩ : rest.countP Frame.returning = 0 ∧ (run.tally owner).tested = false := by
    have once := ok.once
    simp only [List.countP_cons, Frame.returning, if_true] at once
    cases tested : (run.tally owner).tested with
    | false =>
        rw [tested] at once
        exact ⟨by simpa using once, rfl⟩
    | true =>
        rw [tested, if_pos rfl] at once
        omega
  have joinedSame := record_same Tally.joined run.tally owner
    (.tests ((run.kernel.table.task owner).joinState = .detached)) rfl
  have waits (user u : TaskId) (joined : run.kernel.joiner u = some user)
      (notReleased : (run.tally u).joined = false) :=
    And.intro ((congrFun untouched.joiner u).trans joined) ((joinedSame u).trans notReleased)
  refine ⟨moves.known, invariant.others moves (fun user _ => waits user)
    (fun user different => ?_) ⟨ok.single, fun u member => ?_, ?_, fun _ => ?_,
      fun returning => ?_⟩,
    invariant.tallies moves (fun u _ => untouched.joinState u)
      (fun u _ => congrFun untouched.joiner u) ⟨fun unused => ?_, fun _ _ => ?_, ?_, ?_, ?_⟩⟩
  · exact congrArg Tally.tested (Function.update_of_ne different _ _)
  · obtain ⟨joined, notReleased⟩ := ok.waits u member
    exact waits owner u joined notReleased
  · simp [CleanupRun.record, Tally.record, Frame.returning, last]
  · simp
  · simp [Frame.returning, last] at returning
  · exact absurd (moves.nextId.trans unused) (Nat.not_le.mpr old)
  · simpa [CleanupRun.record, Tally.record, untouched.joinState owner old] using state
  · simpa [CleanupRun.record, Tally.record, untouched.joiner] using before.joins
  · simpa [CleanupRun.record, Tally.record, untouched.joiner] using before.joined
  · have cleanups := before.cleanups
    simp only [first, Bool.false_eq_true, false_and, if_false, Nat.add_zero] at cleanups
    simp [CleanupRun.record, Tally.record, cleanups, state]

/-- A `task_join` ends. Nobody else waits for the task: whoever does joined it. -/
theorem CleanupInvariant.releases {next : Kernel Cpu} {t : TaskId} {rest : List Frame}
    (invariant : CleanupInvariant run) (stack : run.kernel.stack owner = .joinCleanup t :: rest)
    (moves : run.kernel.Moves next owner rest) (untouched : run.kernel.Untouched next) :
    CleanupInvariant (run.record next (some (t, .releases))) := by
  have ok := stack ▸ invariant.stack owner
  have before := invariant.tally t
  have member : t ∈ targets (.joinCleanup t :: rest) := List.mem_cons_self
  obtain ⟨joined, unreleased⟩ := ok.waits t member
  have alone : targets rest = [] := by
    have single := ok.single
    simp only [targets, List.filterMap_cons, Frame.target, List.length_cons] at single
    exact List.eq_nil_of_length_eq_zero (by simpa [targets] using single)
  have testedSame := record_same Tally.tested run.tally t .releases rfl
  refine ⟨moves.known, invariant.others moves (fun user other u joins notReleased => ?_)
    (fun user _ => testedSame user)
    ⟨by rw [alone]; exact Nat.zero_le _, by rw [alone]; exact List.forall_mem_nil _, ?_,
      fun past => ?_,
      fun returning => ?_⟩,
    invariant.tallies moves (fun u _ => untouched.joinState u)
      (fun u _ => congrFun untouched.joiner u) ⟨fun unused => ?_, fun old inTable => ?_, ?_, ?_,
        ?_⟩⟩
  · have different : u ≠ t := by
      rintro rfl
      exact other (Option.some.inj (joins.symm.trans joined))
    refine ⟨(congrFun untouched.joiner u).trans joins, ?_⟩
    exact (congrArg Tally.joined (Function.update_of_ne different _ _)).trans notReleased
  · have once := ok.once
    simp only [List.countP_cons, Frame.returning, Bool.false_eq_true, if_false, Nat.add_zero,
      ← testedSame owner] at once
    exact once
  · simpa using ok.tested ((testedSame owner).symm.trans past)
  · obtain ⟨old, inTable⟩ := ok.created (by simpa [Frame.returning] using returning)
    exact ⟨old.trans_le moves.nextId, (moves.pid owner old).symm ▸ inTable⟩
  · simpa [CleanupRun.record, Tally.record] using before.fresh (moves.nextId.trans unused)
  · have state := before.joinState_kept moves (untouched.joinState t) old inTable
    simpa [CleanupRun.record, Tally.record] using state
  · simpa [CleanupRun.record, Tally.record, untouched.joiner] using before.joins
  · simp [CleanupRun.record, untouched.joiner, joined]
  · have cleanups := before.cleanups
    simp only [unreleased, Bool.false_eq_true, if_false, Nat.zero_add] at cleanups
    simp [CleanupRun.record, Tally.record, cleanups, Nat.add_comm]

/-- **Every guarded step keeps the invariant**, unless it leaves a task on two CPUs. -/
theorem CleanupInvariant.step [DecidableEq Cpu] {action : KernelAction Cpu}
    (invariant : CleanupInvariant run) (allowed : CleanupGuard run action)
    (stepped : run.step action = some after)
    (distinct : Function.Injective after.kernel.current) : CleanupInvariant after := by
  obtain ⟨next, moved, rfl⟩ := Option.map_eq_some_iff.mp stepped
  have distinctNext : Function.Injective next.current := by
    cases happened : run.kernel.event action with
    | none => simpa only [happened, CleanupRun.record] using distinct
    | some subject => simpa only [happened, CleanupRun.record] using distinct
  obtain ⟨owner, means⟩ := LifecycleStep.of_step invariant.known allowed.1 moved distinctNext
  generalize happened : run.kernel.event action = event at means
  cases means with
  | quiet moves untouched same =>
      refine invariant.quiet moves untouched ((invariant.stack owner).transfer moves same
        (fun t _ joined unreleased => ⟨?_, unreleased⟩) rfl)
      exact (congrFun untouched.joiner t).trans joined
  | returns moves untouched idle inTable =>
      have ok := idle ▸ invariant.stack owner
      have first : (run.tally owner).tested = false := by
        by_contra tested
        exact absurd (ok.tested (by simpa using tested)) List.not_mem_nil
      refine invariant.quiet moves untouched ⟨Nat.zero_le _, nofun, ?_, fun past => ?_, fun _ => ?_⟩
      · simp [Frame.returning, first]
      · exact nomatch first.symm.trans past
      · exact ⟨moves.old.trans_le moves.nextId, (moves.pid owner moves.old).symm ▸ inTable⟩
  | joins moves idle unjoined joiner joinState =>
      exact invariant.joins moves idle unjoined joiner joinState
  | @detaches t moves old joiner detached joinState =>
      have early : (run.tally t).tested = false := by
        cases action with
        | call cpu call =>
            cases call with
            | taskDetach u =>
                obtain rfl : u = t := by simpa [Kernel.event] using happened
                exact allowed.2
            | taskYield | taskReturn | taskNew | taskJoin => simp [Kernel.event] at happened
        | tick cpu => simp [Kernel.event] at happened
        | run cpu =>
            simp only [Kernel.event] at happened
            split at happened <;> simp at happened
      exact invariant.detaches moves old joiner detached joinState early
  | tests stack moves untouched => exact invariant.tests stack moves untouched
  | releases stack moves untouched => exact invariant.releases stack moves untouched

end Invariant

end CatchOS.Tasks
