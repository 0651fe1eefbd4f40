import CatchOS.Lib.Dispatch
import CatchOS.Tasks.Scheduler
import Mathlib.Data.Fintype.Basic

/-!
# No task runs on two CPUs

`schedule` chooses a slot in one section and marks its task as running in a later
one, and a task that yields is ready before its CPU has switched away from it. Two
CPUs can therefore choose the same task, or a CPU can choose a task that another
one still runs.

When each scan that finds a task finds one that no other CPU runs, in a slot that
no other CPU has chosen and not yet committed (`ScanAlone`), the scheduler is an
instance of the workers of `CatchOS.Lib.Dispatch`: a CPU is a worker, a task a
job, and the top frame of a CPU says what the worker has decided
(`Kernel.dispatch`). Every step of the scheduler is an event there
(`Kernel.step_event`), so no task is the current task of two CPUs and only ready
tasks are marked as running (`scheduler_safe`). Two CPUs that scan before either
commits break both (`scheduler_unsafe`).
-/

set_option autoImplicit false

namespace CatchOS.Tasks

open CatchOS.Lib

/-! ## What a scan finds and a recharge keeps -/

namespace TaskTable

/-- A scan that finds a priority above zero finds a ready task with it. -/
theorem scheduleScan_spec (table : TaskTable) (found : 0 < table.scheduleScan.1) :
    ∃ t, table.slots table.scheduleScan.2 = some t ∧ (table.task t).state = .ready := by
  -- The best slot so far holds a ready task, or nothing was found yet.
  have loop (indices : List ℕ) (best : ℤ × ℕ)
      (sofar : 0 < best.1 → ∃ t, table.slots best.2 = some t ∧ (table.task t).state = .ready) :
      0 < (indices.foldl table.scanSlot best).1 →
      ∃ t, table.slots (indices.foldl table.scanSlot best).2 = some t ∧
        (table.task t).state = .ready := by
    induction indices generalizing best with
    | nil => exact sofar
    | cons i indices ih =>
        rw [List.foldl_cons]
        refine ih _ ?_
        intro positive
        unfold scanSlot at positive ⊢
        cases slot : table.slots i with
        | none =>
            simp only [slot] at positive ⊢
            exact sofar positive
        | some t =>
            simp only [slot] at positive ⊢
            by_cases better : (table.task t).state = .ready ∧ best.1 < (table.task t).dynamicPrio
            · simp only [if_pos better] at positive ⊢
              exact ⟨t, slot, better.1⟩
            · simp only [if_neg better] at positive ⊢
              exact sofar positive
  exact loop _ _ (fun positive => absurd positive (by decide)) found

/-- The tables agree but for priorities. -/
structure SameButPrio (table after : TaskTable) : Prop where
  slots : after.slots = table.slots
  pid : ∀ t, (after.task t).pid = (table.task t).pid
  state : ∀ t, (after.task t).state = (table.task t).state
  interruptible : ∀ t, (after.task t).interruptible = (table.task t).interruptible
  nextId : after.nextId = table.nextId

theorem SameButPrio.refl (table : TaskTable) : SameButPrio table table :=
  ⟨rfl, fun _ => rfl, fun _ => rfl, fun _ => rfl, rfl⟩

theorem SameButPrio.trans {first second third : TaskTable} (one : SameButPrio first second)
    (two : SameButPrio second third) : SameButPrio first third where
  slots := two.slots.trans one.slots
  pid t := (two.pid t).trans (one.pid t)
  state t := (two.state t).trans (one.state t)
  interruptible t := (two.interruptible t).trans (one.interruptible t)
  nextId := two.nextId.trans one.nextId

theorem setDynamicPrio_same (table : TaskTable) (t : TaskId) (prio : ℤ) :
    SameButPrio table (table.setDynamicPrio t prio) := by
  refine ⟨rfl, fun u => ?_, fun u => ?_, fun u => ?_, rfl⟩ <;>
    by_cases same : u = t <;> simp [setDynamicPrio, modify, same]

theorem rechargeSlot_same (table : TaskTable) (i : ℕ) :
    SameButPrio table (table.rechargeSlot i) := by
  have unchanged := SameButPrio.refl table
  unfold rechargeSlot
  cases table.slots i with
  | none => exact unchanged
  | some t =>
      by_cases ready : (table.task t).state = .ready
      · simp only [if_pos ready]
        exact setDynamicPrio_same table t _
      · simp only [if_neg ready]
        exact unchanged

theorem scheduleRecharge_same (table : TaskTable) :
    SameButPrio table table.scheduleRecharge := by
  have loop (indices : List ℕ) (start : TaskTable) :
      SameButPrio start (indices.foldl rechargeSlot start) := by
    induction indices generalizing start with
    | nil => exact .refl _
    | cons i indices ih =>
        rw [List.foldl_cons]
        exact (rechargeSlot_same start i).trans (ih _)
  exact loop _ table

/-- A tick counts, and nothing else; or the task is interruptible, may become
ready, and `schedule` is called. -/
theorem taskIsrTick_cases (table : TaskTable) (t : TaskId) :
    ((table.taskIsrTick t).2 = false ∧ SameButPrio table (table.taskIsrTick t).1) ∨
    ((table.taskIsrTick t).2 = true ∧ (table.task t).interruptible = true ∧
      ∃ change, (table.taskIsrTick t).1 = table.modify t change ∧
        (change (table.task t)).pid = (table.task t).pid ∧
        (change (table.task t)).state = makeReady (table.task t).state) := by
  unfold taskIsrTick
  by_cases continues : (table.task t).interruptible = false ∨
      0 < int32 ((table.task t).dynamicPrio - 1)
  · left
    simp only [if_pos continues]
    refine ⟨trivial, rfl, fun u => ?_, fun u => ?_, fun u => ?_, rfl⟩ <;>
      by_cases same : u = t <;> simp [modify, same]
  · right
    simp only [if_neg continues]
    refine ⟨trivial, ?_, _, rfl, rfl, rfl⟩
    have unmasked := (not_or.mp continues).1
    simpa using unmasked

end TaskTable

/-! ## The scheduler as workers and jobs -/

/-- The frames of `schedule` between its entry and the switch. -/
def Frame.busy : Frame → Bool
  | .scan | .commit _ _ | .switchTo _ => true
  | _ => false

/-- The frames of `task_yield`, `schedule` and `on_current_task_return_cb`. -/
def Frame.scheduling : Frame → Bool
  | .newCheck _ | .newSearch _ | .newFill _ _ | .joinPoll _ | .joinReset _ | .joinCleanup _ => false
  | _ => true

/-- What a CPU has decided, by its top frame. -/
def choiceOf : List Frame → Choice ℕ
  | .commit c next :: _ => if 0 < c then .chosen next else .none
  | .switchTo next :: _ => .claimed next
  | _ => .none

theorem choiceOf_of_not_busy {frames : List Frame} (quiet : ∀ frame ∈ frames, frame.busy = false) :
    choiceOf frames = .none := by
  cases frames with
  | nil => rfl
  | cons frame rest =>
      have top := quiet frame List.mem_cons_self
      cases frame <;> first | rfl | cases top

section Steps

variable {Cpu : Type} [DecidableEq Cpu]

def Kernel.dispatch (kernel : Kernel Cpu) : Dispatch Cpu TaskId ℕ where
  slots := kernel.table.slots
  home t := (kernel.table.task t).pid
  available t := (kernel.table.task t).state = .ready
  current := kernel.current
  choice cpu := choiceOf (kernel.frames cpu)

/-- The calls of the scheduler's own functions. -/
def SchedulingOnly (_kernel : Kernel Cpu) : KernelAction Cpu → Prop
  | .call _ .taskYield | .call _ .taskReturn | .tick _ | .run _ => True
  | .call _ (.taskNew _) | .call _ (.taskJoin _) | .call _ (.taskDetach _) => False

/-- A scan that finds a task finds one that is not the current task of another CPU,
in a slot that no other CPU has chosen and not yet committed. -/
def ScanAlone (kernel : Kernel Cpu) : KernelAction Cpu → Prop
  | .run cpu => (kernel.frames cpu).head? = some .scan → 0 < kernel.table.scheduleScan.1 →
      ∀ other, other ≠ cpu →
        kernel.table.slots kernel.table.scheduleScan.2 ≠ some (kernel.current other) ∧
        choiceOf (kernel.frames other) ≠ .chosen kernel.table.scheduleScan.2
  | .call _ _ | .tick _ => True

instance (kernel : Kernel Cpu) : ∀ action, Decidable (SchedulingOnly kernel action)
  | .call _ .taskYield | .call _ .taskReturn | .tick _ | .run _ => isTrue trivial
  | .call _ (.taskNew _) | .call _ (.taskJoin _) | .call _ (.taskDetach _) => isFalse id

instance [Fintype Cpu] (kernel : Kernel Cpu) : ∀ action, Decidable (ScanAlone kernel action)
  | .run _ => inferInstanceAs (Decidable (_ → _ → ∀ _, _ → _))
  | .call _ _ | .tick _ => isTrue trivial

/-- No task is the current task of two CPUs, and a CPU that is about to mark the
task of a slot as running finds a ready task there. -/
def SchedulerSafe (kernel : Kernel Cpu) : Prop :=
  Function.Injective kernel.current ∧
  ∀ cpu c next rest, kernel.frames cpu = .commit c next :: rest → 0 < c →
    ∃ t, kernel.table.slots next = some t ∧ (kernel.table.task t).state = .ready

/-! ## Frames stay in order -/

/-- Only the top frame is one of `schedule`, and then the task is not
interruptible. -/
structure Orderly (interruptible : Bool) (frames : List Frame) : Prop where
  scheduling : ∀ frame ∈ frames, frame.scheduling = true
  below : ∀ frame ∈ frames.tail, frame.busy = false
  top : ∀ frame ∈ frames.head?, frame.busy = true → interruptible = false

structure Settled (kernel : Kernel Cpu) : Prop where
  frames : ∀ cpu, Orderly (kernel.table.task (kernel.current cpu)).interruptible (kernel.frames cpu)
  context : ∀ t, ∀ frame ∈ kernel.context t, frame.scheduling = true ∧ frame.busy = false

/-- A step of a CPU that changes the table only at its current task, apart from
priorities. -/
structure OwnChange (kernel : Kernel Cpu) (cpu : Cpu) (table : TaskTable) : Prop where
  slots : table.slots = kernel.table.slots
  pid : ∀ t, (table.task t).pid = (kernel.table.task t).pid
  state : ∀ t, t ≠ kernel.current cpu → (table.task t).state = (kernel.table.task t).state
  interruptible : ∀ t, t ≠ kernel.current cpu →
    (table.task t).interruptible = (kernel.table.task t).interruptible

section Own

variable {kernel : Kernel Cpu} {cpu : Cpu} {table : TaskTable} {frames : List Frame}

omit [DecidableEq Cpu] in
theorem ownChange_modify (kernel : Kernel Cpu) (cpu : Cpu) (change : TaskStruct → TaskStruct)
    (pid : (change (kernel.table.task (kernel.current cpu))).pid =
      (kernel.table.task (kernel.current cpu)).pid) :
    OwnChange kernel cpu (kernel.table.modify (kernel.current cpu) change) := by
  refine ⟨rfl, fun t => ?_, fun t other => ?_, fun t other => ?_⟩
  · by_cases same : t = kernel.current cpu
    · simp [TaskTable.modify, same, pid]
    · simp [TaskTable.modify, same]
  · simp [TaskTable.modify, other]
  · simp [TaskTable.modify, other]

omit [DecidableEq Cpu] in
theorem ownChange_of_same (same : TaskTable.SameButPrio kernel.table table) :
    OwnChange kernel cpu table :=
  ⟨same.slots, same.pid, fun t _ => same.state t, fun t _ => same.interruptible t⟩

/-- The workers' view of a step that leaves the slots and the pids as they are. -/
theorem dispatch_proceed (kernel : Kernel Cpu) (cpu : Cpu) {table : TaskTable} (frames : List Frame)
    (slots : table.slots = kernel.table.slots)
    (pid : ∀ t, (table.task t).pid = (kernel.table.task t).pid) :
    (kernel.proceed cpu table frames).dispatch = { kernel.dispatch with
      available := fun t => (table.task t).state = .ready
      choice := Function.update kernel.dispatch.choice cpu (choiceOf frames) } := by
  have choices : (fun other => choiceOf (Function.update kernel.frames cpu frames other)) =
      Function.update kernel.dispatch.choice cpu (choiceOf frames) := by
    funext other
    by_cases same : other = cpu
    · simp [same]
    · simp [same, Kernel.dispatch]
  simp only [Kernel.dispatch, Kernel.proceed, slots, pid] at choices ⊢
  rw [choices]
  rfl

/-- A CPU that has decided nothing, before and after, changes its own task. -/
theorem OwnChange.event (change : OwnChange kernel cpu table)
    (undecided : choiceOf (kernel.frames cpu) = .none) (after : choiceOf frames = .none) :
    Dispatch.Event cpu kernel.dispatch (kernel.proceed cpu table frames).dispatch := by
  have event : Dispatch.Event cpu kernel.dispatch _ :=
    .own (decide ((table.task (kernel.current cpu)).state = .ready)) undecided
  have available : (fun t => decide ((table.task t).state = .ready)) =
      Function.update kernel.dispatch.available (kernel.current cpu)
        (decide ((table.task (kernel.current cpu)).state = .ready)) := by
    funext t
    by_cases same : t = kernel.current cpu
    · rw [same, Function.update_self]
    · rw [Function.update_of_ne same, change.state t same]
      rfl
  have choice : Function.update kernel.dispatch.choice cpu (choiceOf frames) =
      kernel.dispatch.choice := by
    rw [after, ← undecided]
    exact Function.update_eq_self _ _
  rw [dispatch_proceed kernel cpu frames change.slots change.pid, available, choice]
  exact event

/-- The frames of the other CPUs stay in order when a CPU changes its own task,
because it is not theirs. -/
theorem OwnChange.settled (change : OwnChange kernel cpu table) (settled : Settled kernel)
    (distinct : Function.Injective kernel.current)
    (orderly : Orderly (table.task (kernel.current cpu)).interruptible frames) :
    Settled (kernel.proceed cpu table frames) := by
  refine ⟨fun other => ?_, settled.context⟩
  by_cases same : other = cpu
  · subst same
    simpa [Kernel.proceed] using orderly
  · have notMine : kernel.current other ≠ kernel.current cpu := fun shared => same (distinct shared)
    simp only [Kernel.proceed, Function.update_of_ne same, change.interruptible _ notMine]
    exact settled.frames other

end Own

/-! ## Every step is an event -/

section Events

variable {kernel next : Kernel Cpu} {cpu : Cpu} {rest : List Frame}

/-- The frames under the top one are in order for any task. -/
theorem Orderly.pop {interruptible : Bool} {frame : Frame} {frames : List Frame}
    (orderly : Orderly interruptible (frame :: frames)) (value : Bool) : Orderly value frames := by
  have ⟨scheduling, below, _⟩ := orderly
  refine ⟨fun other member => scheduling other (List.mem_cons_of_mem _ member),
    fun other member => below other (List.mem_of_mem_tail member), fun other member busy => ?_⟩
  have quiet := below other (List.mem_of_mem_head? member)
  rw [quiet] at busy
  cases busy

theorem Orderly.cons {value interruptible : Bool} {frame top : Frame} {frames : List Frame}
    (orderly : Orderly interruptible (frame :: frames)) (scheduling : top.scheduling = true)
    (settled : top.busy = true → value = false) : Orderly value (top :: frames) := by
  refine ⟨fun other member => ?_, orderly.below, fun other member busy => ?_⟩
  · rcases List.mem_cons.mp member with rfl | below
    · exact scheduling
    · exact orderly.scheduling other (List.mem_cons_of_mem _ below)
  · obtain rfl : top = other := Option.some.inj member
    exact settled busy

/-- A frame is pushed on frames whose top is not one of `schedule`. -/
theorem Orderly.push {value interruptible : Bool} {top : Frame} {frames : List Frame}
    (orderly : Orderly interruptible frames) (quiet : ∀ frame ∈ frames.head?, frame.busy = false)
    (scheduling : top.scheduling = true) (settled : top.busy = true → value = false) :
    Orderly value (top :: frames) := by
  refine ⟨fun other member => ?_, fun other member => ?_, fun other member busy => ?_⟩
  · rcases List.mem_cons.mp member with rfl | below
    · exact scheduling
    · exact orderly.scheduling other below
  · cases frames with
    | nil => cases member
    | cons frame frames =>
        rcases List.mem_cons.mp member with rfl | below
        · exact quiet other rfl
        · exact orderly.below other below
  · obtain rfl : top = other := Option.some.inj member
    exact settled busy

theorem Orderly.choiceOf_rest {interruptible : Bool} {frame : Frame} {frames : List Frame}
    (orderly : Orderly interruptible (frame :: frames)) : choiceOf frames = .none :=
  choiceOf_of_not_busy orderly.below

/-- The workers' view of a context switch. -/
theorem Kernel.switch_dispatch (kernel : Kernel Cpu) (settled : Settled kernel) {t : TaskId} :
    { kernel.dispatch with
      current := Function.update kernel.dispatch.current cpu t
      choice := Function.update kernel.dispatch.choice cpu .none } =
    (kernel.switch cpu t rest).dispatch := by
  have quiet : choiceOf (kernel.context t) = .none :=
    choiceOf_of_not_busy fun frame member => (settled.context t frame member).2
  have choices : Function.update kernel.dispatch.choice cpu .none =
      fun other => choiceOf (Function.update kernel.frames cpu (kernel.context t) other) := by
    funext other
    by_cases same : other = cpu
    · simp [same, quiet]
    · simp [same, Kernel.dispatch]
  rw [choices]
  rfl

/-- The workers' view of the write section of `on_current_task_return_cb`. -/
theorem Kernel.unlink_dispatch (kernel : Kernel Cpu)
    (undecided : kernel.dispatch.choice cpu = .none) :
    { kernel.dispatch with
      slots := Function.update kernel.dispatch.slots
        (kernel.dispatch.home (kernel.dispatch.current cpu)) none } =
    (kernel.proceed cpu (kernel.table.unlink (kernel.current cpu))
      (.returnState :: rest)).dispatch := by
  have choices : kernel.dispatch.choice =
      fun other => choiceOf (Function.update kernel.frames cpu (.returnState :: rest) other) := by
    funext other
    by_cases same : other = cpu
    · simp [same, undecided, choiceOf]
    · simp [same, Kernel.dispatch]
  dsimp only
  rw [choices]
  rfl

/-- A context switch keeps the frames in order: those that are saved and those
that are resumed have none of `schedule` between entry and switch. -/
theorem Settled.switch (settled : Settled kernel) (t : TaskId) {interruptible : Bool}
    {frame : Frame}
    (orderly : Orderly interruptible (frame :: rest)) : Settled (kernel.switch cpu t rest) := by
  refine ⟨fun other => ?_, fun u => ?_⟩
  · by_cases same : other = cpu
    · subst same
      simp only [Kernel.switch, Function.update_self]
      refine ⟨fun frame member => (settled.context t frame member).1,
        fun frame member => (settled.context t frame (List.mem_of_mem_tail member)).2,
        fun frame member busy => ?_⟩
      rw [(settled.context t frame (List.mem_of_mem_head? member)).2] at busy
      cases busy
    · simp only [Kernel.switch, Function.update_of_ne same]
      exact settled.frames other
  · by_cases same : u = kernel.current cpu
    · subst same
      simp only [Kernel.switch, Function.update_self]
      intro saved member
      rcases List.mem_cons.mp member with rfl | below
      · exact ⟨rfl, rfl⟩
      · exact ⟨orderly.scheduling saved (List.mem_cons_of_mem _ below), orderly.below saved below⟩
    · simp only [Kernel.switch, Function.update_of_ne same]
      exact settled.context u

/-- The scan decides for the task it finds. -/
theorem Kernel.scan_event (settled : Settled kernel) (safe : kernel.dispatch.Safe)
    (frames : kernel.frames cpu = .scan :: rest)
    (alone : ScanAlone kernel (.run cpu))
    (ran : kernel.runFrame cpu rest .scan = some next) :
    Dispatch.Event cpu kernel.dispatch next.dispatch ∧ Settled next := by
  have distinct : Function.Injective kernel.current := safe.distinct
  have orderly := settled.frames cpu
  rw [frames] at orderly
  simp only [Kernel.runFrame, Option.some.injEq] at ran
  subst ran
  have settled' : Settled (kernel.proceed cpu kernel.table
      (.commit kernel.table.scheduleScan.1 kernel.table.scheduleScan.2 :: rest)) :=
    (ownChange_of_same (.refl _)).settled settled
      distinct (orderly.cons rfl fun _ => orderly.top _ rfl rfl)
  refine ⟨?_, settled'⟩
  have undecided : kernel.dispatch.choice cpu = .none := by
    change choiceOf (kernel.frames cpu) = .none
    rw [frames]
    rfl
  by_cases found : 0 < kernel.table.scheduleScan.1
  · obtain ⟨t, held, ready⟩ := kernel.table.scheduleScan_spec found
    have others := alone (by rw [frames]; rfl) found
    have event : Dispatch.Event cpu kernel.dispatch _ :=
      .choose undecided held (decide_eq_true ready)
        (fun other different shared =>
          (others other different).1 (by rw [held]; exact congrArg some shared.symm))
        (fun other different => (others other different).2)
    rw [dispatch_proceed kernel cpu _ rfl fun _ => rfl]
    simp only [choiceOf, if_pos found]
    exact event
  · rw [dispatch_proceed kernel cpu _ rfl fun _ => rfl]
    simp only [choiceOf, if_neg found]
    rw [← undecided, Function.update_eq_self]
    exact .rest

/-- The write section claims the task that was found, or recharges. -/
theorem Kernel.commit_event {c : ℤ} {slot : ℕ} (settled : Settled kernel)
    (safe : kernel.dispatch.Safe)
    (frames : kernel.frames cpu = .commit c slot :: rest)
    (ran : kernel.runFrame cpu rest (.commit c slot) = some next) :
    Dispatch.Event cpu kernel.dispatch next.dispatch ∧ Settled next := by
  have distinct : Function.Injective kernel.current := safe.distinct
  have orderly := settled.frames cpu
  rw [frames] at orderly
  by_cases found : 0 < c
  · simp only [Kernel.runFrame, if_pos found, Option.map_eq_some_iff] at ran
    obtain ⟨t, held, rfl⟩ := ran
    have chosen : kernel.dispatch.choice cpu = .chosen slot := by
      change choiceOf (kernel.frames cpu) = .chosen slot
      rw [frames]
      simp [choiceOf, found]
    have pid (u : TaskId) : ((kernel.table.setState t .running).task u).pid =
        (kernel.table.task u).pid := by
      by_cases same : u = t <;> simp [TaskTable.setState, TaskTable.modify, same]
    have interruptible (u : TaskId) :
        ((kernel.table.setState t .running).task u).interruptible =
          (kernel.table.task u).interruptible := by
      by_cases same : u = t <;> simp [TaskTable.setState, TaskTable.modify, same]
    have available : (fun u => decide (((kernel.table.setState t .running).task u).state =
        .ready)) = Function.update kernel.dispatch.available t false := by
      funext u
      by_cases same : u = t
      · simp [TaskTable.setState, TaskTable.modify, same]
      · simp [TaskTable.setState, TaskTable.modify, same, Kernel.dispatch]
    have event : Dispatch.Event cpu kernel.dispatch _ := .claim chosen held
    refine ⟨?_, ⟨fun other => ?_, settled.context⟩⟩
    · rw [dispatch_proceed kernel cpu _ (by rfl) pid, available]
      exact event
    · by_cases same : other = cpu
      · subst same
        simp only [Kernel.proceed, Function.update_self, interruptible]
        exact orderly.cons rfl fun _ => orderly.top _ rfl rfl
      · simp only [Kernel.proceed, Function.update_of_ne same, interruptible]
        exact settled.frames other
  · simp only [Kernel.runFrame, if_neg found, Option.some.injEq] at ran
    subst ran
    have change : OwnChange kernel cpu kernel.table.scheduleRecharge :=
      ownChange_of_same kernel.table.scheduleRecharge_same
    refine ⟨change.event (by rw [frames]; simp [choiceOf, found]) rfl,
      change.settled settled distinct ?_⟩
    refine orderly.cons rfl fun _ => ?_
    rw [kernel.table.scheduleRecharge_same.interruptible]
    exact orderly.top _ rfl rfl

/-- The CPU takes the task it has claimed. -/
theorem Kernel.switchTo_event {slot : ℕ} (settled : Settled kernel) (safe : kernel.dispatch.Safe)
    (frames : kernel.frames cpu = .switchTo slot :: rest)
    (ran : kernel.runFrame cpu rest (.switchTo slot) = some next) :
    Dispatch.Event cpu kernel.dispatch next.dispatch ∧ Settled next := by
  have distinct : Function.Injective kernel.current := safe.distinct
  have orderly := settled.frames cpu
  rw [frames] at orderly
  simp only [Kernel.runFrame, Option.map_eq_some_iff] at ran
  obtain ⟨t, held, rfl⟩ := ran
  have claimed : kernel.dispatch.choice cpu = .claimed slot := by
    change choiceOf (kernel.frames cpu) = .claimed slot
    rw [frames]
    rfl
  have event : Dispatch.Event cpu kernel.dispatch _ := .take claimed held
  by_cases self : kernel.current cpu = t
  · rw [if_pos self]
    refine ⟨?_, ?_⟩
    · rw [dispatch_proceed kernel cpu _ rfl fun _ => rfl]
      have stays : Function.update kernel.dispatch.current cpu t = kernel.dispatch.current := by
        rw [← self]
        exact Function.update_eq_self _ _
      rw [stays] at event
      exact event
    · refine (ownChange_of_same (.refl _)).settled
        settled distinct ?_
      exact orderly.cons rfl nofun
  · rw [if_neg self]
    exact ⟨kernel.switch_dispatch settled ▸ event, settled.switch t orderly⟩

/-- A task that returns vacates its slot. -/
theorem Kernel.returnUnlink_event (settled : Settled kernel)
    (frames : kernel.frames cpu = .returnUnlink :: rest)
    (ran : kernel.runFrame cpu rest .returnUnlink = some next) :
    Dispatch.Event cpu kernel.dispatch next.dispatch ∧ Settled next := by
  have orderly := settled.frames cpu
  rw [frames] at orderly
  simp only [Kernel.runFrame, Option.some.injEq] at ran
  subst ran
  have undecided : kernel.dispatch.choice cpu = .none := by
    change choiceOf (kernel.frames cpu) = .none
    rw [frames]
    rfl
  refine ⟨?_, ⟨fun other => ?_, settled.context⟩⟩
  · have event : Dispatch.Event cpu kernel.dispatch _ := .vacate undecided
    rw [kernel.unlink_dispatch undecided] at event
    exact event
  · by_cases same : other = cpu
    · subst same
      simp only [Kernel.proceed, Function.update_self]
      exact orderly.cons rfl nofun
    · simp only [Kernel.proceed, Function.update_of_ne same]
      exact settled.frames other

/-- **A frame of the scheduler is executed.** -/
theorem Kernel.runFrame_event {frame : Frame} (settled : Settled kernel)
    (safe : kernel.dispatch.Safe) (frames : kernel.frames cpu = frame :: rest)
    (alone : ScanAlone kernel (.run cpu)) (ran : kernel.runFrame cpu rest frame = some next) :
    Dispatch.Event cpu kernel.dispatch next.dispatch ∧ Settled next := by
  have distinct : Function.Injective kernel.current := safe.distinct
  have orderly := settled.frames cpu
  rw [frames] at orderly
  cases frame with
  | newCheck | newSearch | newFill | joinPoll | joinReset | joinCleanup =>
      cases orderly.scheduling _ List.mem_cons_self
  | returnDone => cases ran
  | yield =>
      cases ran
      have change : OwnChange kernel cpu (kernel.table.taskYield (kernel.current cpu)) :=
        ownChange_modify kernel cpu _ rfl
      refine ⟨change.event (by rw [frames]; rfl) rfl, change.settled settled distinct ?_⟩
      exact orderly.cons rfl nofun
  | schedule =>
      cases ran
      have change : OwnChange kernel cpu (kernel.table.setInterruptible (kernel.current cpu)
          false) :=
        ownChange_modify kernel cpu _ rfl
      refine ⟨change.event (by rw [frames]; rfl) rfl, change.settled settled distinct ?_⟩
      refine orderly.cons rfl fun _ => ?_
      simp [TaskTable.setInterruptible, TaskTable.modify]
  | scan => exact scan_event settled safe frames alone ran
  | commit c slot => exact commit_event settled safe frames ran
  | switchTo slot => exact switchTo_event settled safe frames ran
  | resumed =>
      cases ran
      have change : OwnChange kernel cpu (kernel.table.setInterruptible (kernel.current cpu)
          true) :=
        ownChange_modify kernel cpu _ rfl
      refine ⟨change.event (by rw [frames]; rfl) orderly.choiceOf_rest,
        change.settled settled distinct (orderly.pop _)⟩
  | returnEnter =>
      cases ran
      have change : OwnChange kernel cpu (kernel.table.setInterruptible (kernel.current cpu)
          false) :=
        ownChange_modify kernel cpu _ rfl
      refine ⟨change.event (by rw [frames]; rfl) rfl, change.settled settled distinct ?_⟩
      exact orderly.cons rfl nofun
  | returnUnlink => exact returnUnlink_event settled frames ran
  | returnState =>
      simp only [Kernel.runFrame, Option.some.injEq] at ran
      subst ran
      have change : OwnChange kernel cpu
          (if (kernel.table.task (kernel.current cpu)).state = .running then
            kernel.table.setState (kernel.current cpu) .terminated else kernel.table) := by
        split
        · exact ownChange_modify kernel cpu _ rfl
        · exact ownChange_of_same (.refl _)
      refine ⟨change.event (by rw [frames]; rfl) rfl, change.settled settled distinct ?_⟩
      exact orderly.cons rfl nofun
  | returnJoin =>
      have change : OwnChange kernel cpu kernel.table :=
        ownChange_of_same (.refl _)
      have event : Dispatch.Event cpu kernel.dispatch
          (kernel.proceed cpu kernel.table (.yield :: .returnDone :: rest)).dispatch :=
        change.event (by rw [frames]; rfl) rfl
      have bottom : Orderly (kernel.table.task (kernel.current cpu)).interruptible
        (.returnDone :: rest) := orderly.cons rfl nofun
      have settled' : Settled (kernel.proceed cpu kernel.table (.yield :: .returnDone :: rest)) :=
        change.settled settled distinct (bottom.push (by rintro _ ⟨rfl⟩; rfl) rfl nofun)
      simp only [Kernel.runFrame, Option.some.injEq] at ran
      subst ran
      split
      · exact ⟨event, settled'.frames, settled'.context⟩
      · exact ⟨event, settled'⟩

/-- A timer interrupt. On a CPU inside `schedule` it only counts. -/
theorem Kernel.tick_event (settled : Settled kernel) (safe : kernel.dispatch.Safe)
    (ticked : kernel.step (.tick cpu) = some next) :
    Dispatch.Event cpu kernel.dispatch next.dispatch ∧ Settled next := by
  have distinct : Function.Injective kernel.current := safe.distinct
  have orderly := settled.frames cpu
  simp only [Kernel.step, Option.some.injEq] at ticked
  subst ticked
  rcases kernel.table.taskIsrTick_cases (kernel.current cpu) with
    ⟨counts, same⟩ | ⟨reschedules, interruptible, change, changed, pid, -⟩
  · simp only [counts, Bool.false_eq_true, if_false]
    refine ⟨?_, (ownChange_of_same same).settled settled distinct ?_⟩
    · have unmoved : (kernel.proceed cpu (kernel.table.taskIsrTick (kernel.current cpu)).1
          (kernel.frames cpu)).dispatch = kernel.dispatch := by
        rw [dispatch_proceed kernel cpu _ same.slots same.pid]
        simp only [same.state]
        have choice : Function.update kernel.dispatch.choice cpu (choiceOf (kernel.frames cpu)) =
            kernel.dispatch.choice := Function.update_eq_self _ _
        rw [choice]
        rfl
      rw [unmoved]
      exact .rest
    · rw [same.interruptible]
      exact orderly
  · have quiet : ∀ frame ∈ (kernel.frames cpu).head?, frame.busy = false := by
      intro frame top
      by_contra busy
      have masked := orderly.top frame top (by simpa using busy)
      rw [interruptible] at masked
      cases masked
    have undecided : choiceOf (kernel.frames cpu) = .none := by
      refine choiceOf_of_not_busy ?_
      intro frame member
      cases frames : kernel.frames cpu with
      | nil => rw [frames] at member; cases member
      | cons top rest =>
          rw [frames] at member quiet orderly
          rcases List.mem_cons.mp member with rfl | below
          · exact quiet frame rfl
          · exact orderly.below frame below
    simp only [reschedules, if_true, changed]
    have own := ownChange_modify kernel cpu change pid
    refine ⟨own.event undecided rfl, own.settled settled distinct ?_⟩
    exact orderly.push quiet rfl fun busy => absurd busy Bool.false_ne_true

/-- **Every step of the scheduler is an event**, and keeps the frames in order. -/
theorem Kernel.step_event {action : KernelAction Cpu} (settled : Settled kernel)
    (safe : kernel.dispatch.Safe) (scheduling : SchedulingOnly kernel action)
    (alone : ScanAlone kernel action) (stepped : kernel.step action = some next) :
    next.dispatch.Safe ∧ Settled next := by
  cases action with
  | tick cpu =>
      obtain ⟨event, settled'⟩ := Kernel.tick_event settled safe stepped
      exact ⟨safe.event event, settled'⟩
  | run cpu =>
      obtain ⟨frame, rest, frames, ran⟩ := Kernel.step_run stepped
      obtain ⟨event, settled'⟩ := Kernel.runFrame_event settled safe frames alone ran
      exact ⟨safe.event event, settled'⟩
  | call cpu call =>
      obtain ⟨frames, stepped⟩ := Kernel.step_call stepped
      have entered (frame : Frame) (top : frame.scheduling = true) (quiet : frame.busy = false)
          (undecided : choiceOf [frame] = .none) :
          (kernel.proceed cpu kernel.table [frame]).dispatch.Safe ∧
          Settled (kernel.proceed cpu kernel.table [frame]) := by
        have change : OwnChange kernel cpu kernel.table :=
          ownChange_of_same (.refl _)
        refine ⟨safe.event (change.event (by rw [frames]; rfl) undecided),
          change.settled settled safe.distinct ?_⟩
        have orderly := settled.frames cpu
        rw [frames] at orderly
        exact orderly.push (by rintro _ ⟨⟩) top (by rw [quiet]; exact nofun)
      cases call with
      | taskYield =>
          cases stepped
          exact entered .yield rfl rfl rfl
      | taskReturn =>
          simp only [Kernel.enter, Option.ite_none_right_eq_some, Option.some.injEq] at stepped
          obtain ⟨-, rfl⟩ := stepped
          exact entered .returnEnter rfl rfl rfl
      | taskNew | taskJoin | taskDetach => exact absurd scheduling id

/-- **The scheduler is safe** in every run of its own functions in which each scan
finds a task that no other CPU runs or has chosen. -/
theorem scheduler_safe {kernel : Kernel Cpu}
    (reachable : (kernelSystem Cpu).ReachableUnder
      (fun kernel action => SchedulingOnly kernel action ∧ ScanAlone kernel action) kernel) :
    SchedulerSafe kernel := by
  have invariant : kernel.dispatch.Safe ∧ Settled kernel := by
    refine reachable.invariant (fun kernel => kernel.dispatch.Safe ∧ Settled kernel) ?_
      fun ⟨safe, settled⟩ allowed stepped =>
        Kernel.step_event settled safe allowed.1 allowed.2 stepped
    intro kernel booted
    have undecided (cpu : Cpu) : kernel.dispatch.choice cpu = .none := by
      change choiceOf (kernel.frames cpu) = .none
      rw [booted.user cpu]
      rfl
    refine ⟨⟨booted.distinct, fun slot t held => (booted.slot slot t held).2.1,
      fun slot t cpu held home => ?_, fun cpu slot chosen => ?_, fun cpu slot claimed => ?_⟩,
      ⟨fun cpu => ?_, fun t => ?_⟩⟩
    · have inside := (booted.slot slot t held).1
      have outside := booted.outside cpu
      change (kernel.table.task (kernel.current cpu)).pid = slot at home
      omega
    · rw [undecided cpu] at chosen
      cases chosen
    · rw [undecided cpu] at claimed
      cases claimed
    · rw [booted.user cpu]
      exact ⟨nofun, nofun, nofun⟩
    · rw [booted.context t]
      exact nofun
  obtain ⟨safe, -⟩ := invariant
  refine ⟨safe.distinct, fun cpu c slot rest frames found => ?_⟩
  have chosen : kernel.dispatch.choice cpu = .chosen slot := by
    change choiceOf (kernel.frames cpu) = .chosen slot
    rw [frames]
    simp [choiceOf, found]
  obtain ⟨t, held, ready, -⟩ := safe.chosen cpu slot chosen
  exact ⟨t, held, of_decide_eq_true ready⟩

end Events

end Steps

/-- Two CPUs on the tasks they started with, and one task in the table. -/
def twoCpusOneTask : Kernel (Fin 2) where
  table :=
    { slots := fun i => if i = 0 then some 2 else none
      nrTasks := 1
      task := fun t => if t = 2 then taskStructNew 0 10
        else ⟨99999, .running, 0, 1, true, .joinable, 0⟩
      nextId := 3 }
  current cpu := cpu
  frames _ := []
  context _ := []
  freed _ := false
  joiner _ := none

theorem twoCpusOneTask_booted : (kernelSystem (Fin 2)).initial twoCpusOneTask where
  distinct := fun _ _ same => Fin.ext same
  outside := by decide
  slot := by
    intro i t held
    by_cases first : i = 0
    · subst first
      obtain rfl : 2 = t := Option.some.inj held
      decide
    · simp [twoCpusOneTask, first] at held
  running := by decide
  user _ := rfl
  context _ := rfl
  freed _ := rfl
  joiner _ := rfl

/-- The first CPU has chosen the task of slot 0 while the second is at the entry
of `schedule`. -/
theorem scheduler_safe_one_chooses : ∃ kernel : Kernel (Fin 2),
    (kernelSystem (Fin 2)).ReachableUnder
      (fun kernel action => SchedulingOnly kernel action ∧ ScanAlone kernel action) kernel ∧
    kernel.frames 0 = [.commit 10 0] ∧ kernel.frames 1 = [.schedule] ∧ SchedulerSafe kernel := by
  obtain ⟨kernel, reachable, tested⟩ := System.exists_reachableUnder_of_replay
    (kernelSystem (Fin 2))
    (fun kernel action => SchedulingOnly kernel action ∧ ScanAlone kernel action)
    twoCpusOneTask_booted [.tick 0, .tick 1, .run 0, .run 0, .run 0, .run 0]
    (fun kernel => kernel.frames 0 = [.commit 10 0] ∧ kernel.frames 1 = [.schedule])
    (by decide +kernel)
  obtain ⟨chosen, entered⟩ := of_decide_eq_true tested
  exact ⟨kernel, reachable, chosen, entered, scheduler_safe reachable⟩

/-- **Two CPUs choose the same task.** Both scan before either of them marks the
task as running, and both switch to it. -/
theorem scheduler_unsafe : ¬ ∀ kernel, (kernelSystem (Fin 2)).ReachableUnder SchedulingOnly kernel →
    SchedulerSafe kernel := by
  intro safe
  obtain ⟨kernel, reachable, tested⟩ := System.exists_reachableUnder_of_replay
    (kernelSystem (Fin 2)) SchedulingOnly twoCpusOneTask_booted
    [.tick 0, .tick 1, .run 0, .run 0, .run 0, .run 0, .run 1, .run 1, .run 0, .run 1, .run 0,
      .run 1]
    (fun kernel => kernel.current 0 = kernel.current 1) (by decide +kernel)
  have shared : kernel.current 0 = kernel.current 1 := of_decide_eq_true tested
  exact absurd ((safe kernel reachable).1 shared) (by decide)

end CatchOS.Tasks
