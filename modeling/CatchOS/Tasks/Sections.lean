import CatchOS.Tasks.Scheduler

/-!
# The sections of the scheduler in single accesses

The store of `task_join` to `dynamic_prio` does not hold `lock_tasklist`, and neither do
those of `delay_rt` and of the semaphores to the fields of a task. They may come between
any two accesses of a section on another CPU. Here the sections that read `dynamic_prio`
are taken apart: `t->dynamic_prio--` of `task_isr_tick` is a load and a store, each turn
of the two loops of `schedule` loads and then stores, and what a load has found is kept in
the `SectionPoint` that a CPU is at. The lock itself is left out, since all that it does is
to take runs away.

A tick that comes inside a section waits for the lock that its own CPU holds, so it is no
step.

What a CPU does in a section that nobody disturbs is the section in one step, and so the
runs of the scheduler with sections in one step are runs here (`reachable_between`).
-/

set_option autoImplicit false

namespace CatchOS.Tasks

open CatchOS.Lib

/-! ## One changed `task_struct` -/

namespace TaskTable

variable (table : TaskTable) (t : TaskId)

theorem modify_self (change : TaskStruct → TaskStruct) :
    (table.modify t change).task t = change (table.task t) :=
  Function.update_self _ _ _

theorem modify_other {u : TaskId} (change : TaskStruct → TaskStruct) (other : u ≠ t) :
    (table.modify t change).task u = table.task u :=
  Function.update_of_ne other _ _

theorem modify_modify (first second : TaskStruct → TaskStruct) :
    (table.modify t first).modify t second = table.modify t fun task => second (first task) := by
  simp only [modify, Function.update_self, Function.update_idem]

theorem setDynamicPrio_self (prio : ℤ) :
    ((table.setDynamicPrio t prio).task t).dynamicPrio = prio := by
  rw [setDynamicPrio, modify_self]

theorem setDynamicPrio_static (prio : ℤ) (u : TaskId) :
    ((table.setDynamicPrio t prio).task u).staticPrio = (table.task u).staticPrio := by
  by_cases same : u = t
  · rw [same, setDynamicPrio, modify_self]
  · rw [setDynamicPrio, modify_other _ _ _ same]

end TaskTable

theorem Kernel.proceed_frames {Cpu : Type} [DecidableEq Cpu] (kernel : Kernel Cpu) (cpu : Cpu)
    (table : TaskTable) (frames : List Frame) :
    (kernel.proceed cpu table frames).frames cpu = frames :=
  Function.update_self _ _ _

/-! ## Points of a section -/

/-- What is next inside a section. -/
inductive SectionPoint where
  /-- `t->dynamic_prio--` has loaded the value and stores it. -/
  | tickStore (t : TaskId) (loaded : ℤ)
  /-- `DEC_TIL_ZERO(t->sleep_avg)`, and the test whether the task may be interrupted. -/
  | tickTest (t : TaskId)
  /-- `t->dynamic_prio = 0`, and the store to the state. -/
  | tickClear (t : TaskId)
  /-- A turn of the first loop of `schedule`, with `c` and `next`. -/
  | scan (best : ℤ × ℕ) (i : ℕ)
  /-- The test of the turn has passed, `c = t->dynamic_prio` is next. -/
  | scanTake (t : TaskId) (i : ℕ)
  /-- A turn of the second loop of `schedule`. -/
  | recharge (i : ℕ)
  /-- The turn has loaded the priority and stores the new one. -/
  | rechargeStore (t : TaskId) (loaded : ℤ) (i : ℕ)

/-- The first point of the section that is next in the frames. When `schedule` has found a
task its write section has no loop. -/
def sectionOf : List Frame → Option SectionPoint
  | .scan :: _ => some (.scan (-1, 0) 0)
  | .commit c _ :: _ => if 0 < c then none else some (.recharge 0)
  | _ => none

theorem sectionOf_some {frames : List Frame} {point : SectionPoint}
    (begins : sectionOf frames = some point) :
    (∃ rest, frames = .scan :: rest ∧ point = .scan (-1, 0) 0) ∨
      ∃ c slot rest, frames = .commit c slot :: rest ∧ ¬0 < c ∧ point = .recharge 0 := by
  unfold sectionOf at begins
  split at begins
  case h_1 rest =>
      exact .inl ⟨rest, rfl, (Option.some.inj begins).symm⟩
  case h_2 c slot rest =>
      split at begins
      case isTrue => cases begins
      case isFalse spent =>
        exact .inr ⟨c, slot, rest, rfl, spent, (Option.some.inj begins).symm⟩
  case h_3 => cases begins

/-- The scheduler, and the point of each CPU that is inside a section. -/
structure SectionKernel (Cpu : Type) where
  kernel : Kernel Cpu
  inside : Cpu → Option SectionPoint

/-- The actions of the scheduler; a task in none of its calls that enters or leaves
`delay_rt`, or blocks in `sem_wait`; and the store of `sem_signal`. -/
inductive SectionAction (Cpu : Type) where
  | kernel (action : KernelAction Cpu)
  | delayEnter (cpu : Cpu)
  | delayLeave (cpu : Cpu)
  | semBlock (cpu : Cpu)
  | semWake (t : TaskId)

section Steps

variable {Cpu : Type} [DecidableEq Cpu]

namespace SectionKernel

/-- The next access of the section is at the given point. -/
def goOn (state : SectionKernel Cpu) (cpu : Cpu) (table : TaskTable) (point : SectionPoint) :
    SectionKernel Cpu where
  kernel := { state.kernel with table := table }
  inside := Function.update state.inside cpu (some point)

/-- The section ends and leaves the CPU with these frames. -/
def leave (state : SectionKernel Cpu) (cpu : Cpu) (table : TaskTable) (frames : List Frame) :
    SectionKernel Cpu where
  kernel := state.kernel.proceed cpu table frames
  inside := Function.update state.inside cpu none

theorem goOn_inside (state : SectionKernel Cpu) (cpu : Cpu) (table : TaskTable)
    (point : SectionPoint) : (state.goOn cpu table point).inside cpu = some point :=
  Function.update_self _ _ _

theorem goOn_inside_other (state : SectionKernel Cpu) {cpu other : Cpu} (table : TaskTable)
    (point : SectionPoint) (different : other ≠ cpu) :
    (state.goOn cpu table point).inside other = state.inside other :=
  Function.update_of_ne different _ _

theorem leave_inside (state : SectionKernel Cpu) (cpu : Cpu) (table : TaskTable)
    (frames : List Frame) : (state.leave cpu table frames).inside cpu = none :=
  Function.update_self _ _ _

theorem leave_inside_other (state : SectionKernel Cpu) {cpu other : Cpu} (table : TaskTable)
    (frames : List Frame) (different : other ≠ cpu) :
    (state.leave cpu table frames).inside other = state.inside other :=
  Function.update_of_ne different _ _

/-- The access at a point. -/
def advance (state : SectionKernel Cpu) (cpu : Cpu) : SectionPoint → SectionKernel Cpu
  | .tickStore t loaded =>
      state.goOn cpu (state.kernel.table.setDynamicPrio t (int32 (loaded - 1))) (.tickTest t)
  | .tickTest t =>
      let table := state.kernel.table.modify t fun task =>
        { task with sleepAvg := int32 (task.sleepAvg - 1) }
      if (table.task t).interruptible = false ∨ 0 < (table.task t).dynamicPrio then
        state.leave cpu table (state.kernel.frames cpu)
      else state.goOn cpu table (.tickClear t)
  | .tickClear t =>
      let table := state.kernel.table.modify t fun task =>
        { task with dynamicPrio := 0, state := TaskTable.makeReady task.state }
      state.leave cpu table (.schedule :: state.kernel.frames cpu)
  | .scan best i =>
      let table := state.kernel.table
      if i < maxConcurrentTasks then
        match table.slots i with
        | some t =>
            if (table.task t).state = .ready ∧ best.1 < (table.task t).dynamicPrio then
              state.goOn cpu table (.scanTake t i)
            else state.goOn cpu table (.scan best (i + 1))
        | none => state.goOn cpu table (.scan best (i + 1))
      else state.leave cpu table (.commit best.1 best.2 :: (state.kernel.frames cpu).tail)
  | .scanTake t i =>
      let table := state.kernel.table
      state.goOn cpu table (.scan ((table.task t).dynamicPrio, i) (i + 1))
  | .recharge i =>
      let table := state.kernel.table
      if i < maxConcurrentTasks then
        match table.slots i with
        | some t =>
            if (table.task t).state = .ready then
              state.goOn cpu table (.rechargeStore t (table.task t).dynamicPrio i)
            else state.goOn cpu table (.recharge (i + 1))
        | none => state.goOn cpu table (.recharge (i + 1))
      else state.leave cpu table (.scan :: (state.kernel.frames cpu).tail)
  | .rechargeStore t loaded i =>
      let table := state.kernel.table
      state.goOn cpu
        (table.setDynamicPrio t (int32 (loaded / 2 + (table.task t).staticPrio)))
        (.recharge (i + 1))

/-- A task that is in no call of the kernel changes a field of its own, and continues with
these frames. -/
def userStore (state : SectionKernel Cpu) (cpu : Cpu) (change : TaskStruct → TaskStruct)
    (frames : List Frame) : Option (SectionKernel Cpu) :=
  match state.inside cpu, state.kernel.frames cpu with
  | none, [] =>
      some { state with
        kernel := state.kernel.proceed cpu
          (state.kernel.table.modify (state.kernel.current cpu) change) frames }
  | _, _ => none

def step (state : SectionKernel Cpu) : SectionAction Cpu → Option (SectionKernel Cpu)
  | .kernel (.tick cpu) =>
      match state.inside cpu with
      | some _ => none
      | none =>
          let t := state.kernel.current cpu
          some (state.goOn cpu state.kernel.table
            (.tickStore t (state.kernel.table.task t).dynamicPrio))
  | .kernel (.run cpu) =>
      match state.inside cpu with
      | some point => some (state.advance cpu point)
      | none =>
          match sectionOf (state.kernel.frames cpu) with
          | some point => some (state.goOn cpu state.kernel.table point)
          | none => (state.kernel.step (.run cpu)).map fun kernel => { state with kernel := kernel }
  | .kernel (.call cpu call) =>
      match state.inside cpu with
      | some _ => none
      | none =>
          (state.kernel.step (.call cpu call)).map fun kernel => { state with kernel := kernel }
  | .delayEnter cpu => state.userStore cpu (fun task => { task with interruptible := false }) []
  | .delayLeave cpu => state.userStore cpu (fun task => { task with interruptible := true }) []
  | .semBlock cpu => state.userStore cpu (fun task => { task with state := .waiting }) [.yield]
  | .semWake t =>
      some { state with
        kernel := { state.kernel with table := state.kernel.table.setState t .ready } }

end SectionKernel

/-- What `tasks_init` leaves, with the tasks that the CPUs start on: every other task was
created by `task_new`. -/
structure Kernel.BootedWith (boot : Cpu → TaskId) (kernel : Kernel Cpu) : Prop
    extends kernel.Booted where
  bootstrap : kernel.current = boot
  created : ∀ t < kernel.table.nextId, (∀ cpu, t ≠ boot cpu) →
    ∃ pid priority, kernel.table.task t = taskStructNew pid priority

/-- The scheduler after `tasks_init`, in single accesses. -/
def sectionSystem (boot : Cpu → TaskId) : System (SectionKernel Cpu) (SectionAction Cpu) where
  initial state := state.kernel.BootedWith boot ∧ ∀ cpu, state.inside cpu = none
  step := SectionKernel.step

theorem sectionSystem_step (boot : Cpu → TaskId) :
    (sectionSystem boot).step = SectionKernel.step := rfl

/-- The scheduler after `tasks_init`, with sections in one step. -/
def bootedSystem (boot : Cpu → TaskId) : System (Kernel Cpu) (KernelAction Cpu) where
  initial := Kernel.BootedWith boot
  step := Kernel.step

/-! ## Sections that nobody disturbs -/

namespace SectionKernel

/-- No CPU is inside a section. -/
def between (kernel : Kernel Cpu) : SectionKernel Cpu where
  kernel := kernel
  inside _ := none

/-- One CPU is inside a section. -/
def within (kernel : Kernel Cpu) (cpu : Cpu) (point : SectionPoint) : SectionKernel Cpu :=
  (between kernel).goOn cpu kernel.table point

variable {kernel next : Kernel Cpu} {cpu : Cpu}

@[simp] theorem within_kernel (kernel : Kernel Cpu) (cpu : Cpu) (point : SectionPoint) :
    (within kernel cpu point).kernel = kernel := rfl

@[simp] theorem within_inside (kernel : Kernel Cpu) (cpu : Cpu) (point : SectionPoint) :
    (within kernel cpu point).inside cpu = some point :=
  goOn_inside _ _ _ _

theorem within_goOn (kernel : Kernel Cpu) (cpu : Cpu) (point after : SectionPoint)
    (table : TaskTable) :
    (within kernel cpu point).goOn cpu table after =
      within { kernel with table := table } cpu after := by
  simp only [within, goOn, between, Function.update_idem]

theorem within_leave (kernel : Kernel Cpu) (cpu : Cpu) (point : SectionPoint)
    (table : TaskTable) (frames : List Frame) :
    (within kernel cpu point).leave cpu table frames =
      between (kernel.proceed cpu table frames) := by
  have left : Function.update (fun _ : Cpu => (none : Option SectionPoint)) cpu none =
      fun _ => none := Function.update_eq_self cpu _
  simp only [within, goOn, leave, between, Function.update_idem, left]

end SectionKernel

section Undisturbed

open SectionKernel

variable {boot : Cpu → TaskId} {guard : SectionKernel Cpu → SectionAction Cpu → Prop}
  {kernel next : Kernel Cpu} {cpu : Cpu}

/-- The CPU inside a section takes its next access. -/
theorem reachable_advance {point : SectionPoint}
    (inSection : ∀ state cpu, guard state (.kernel (.run cpu)))
    (reachable : (sectionSystem boot).ReachableUnder guard (within kernel cpu point)) :
    (sectionSystem boot).ReachableUnder guard ((within kernel cpu point).advance cpu point) := by
  apply System.ReachableUnder.step reachable (inSection _ cpu)
  change SectionKernel.step _ (.kernel (.run cpu)) = _
  simp only [SectionKernel.step, within_inside]

/-! ### The loops of `schedule` -/

/-- A turn of the first loop. -/
theorem reachable_scanSlot {best : ℤ × ℕ} {i : ℕ} (turn : i < maxConcurrentTasks)
    (inSection : ∀ state cpu, guard state (.kernel (.run cpu)))
    (reachable : (sectionSystem boot).ReachableUnder guard (within kernel cpu (.scan best i))) :
    (sectionSystem boot).ReachableUnder guard
      (within kernel cpu (.scan (kernel.table.scanSlot best i) (i + 1))) := by
  have after := reachable_advance inSection reachable
  cases slot : kernel.table.slots i with
  | none =>
      simp only [advance, within_kernel, if_pos turn, slot, within_goOn] at after
      simpa only [TaskTable.scanSlot, slot] using after
  | some t =>
      by_cases better : (kernel.table.task t).state = .ready ∧
          best.1 < (kernel.table.task t).dynamicPrio
      · simp only [advance, within_kernel, if_pos turn, slot, if_pos better, within_goOn] at after
        have taken := reachable_advance inSection after
        simp only [advance, within_kernel, within_goOn] at taken
        simpa only [TaskTable.scanSlot, slot, if_pos better] using taken
      · simp only [advance, within_kernel, if_pos turn, slot, if_neg better, within_goOn] at after
        simpa only [TaskTable.scanSlot, slot, if_neg better] using after

/-- The first loop, by induction on the turns that are left. -/
theorem reachable_scanLoop {best : ℤ × ℕ} {i turns : ℕ} (left : i + turns = maxConcurrentTasks)
    (inSection : ∀ state cpu, guard state (.kernel (.run cpu)))
    (reachable : (sectionSystem boot).ReachableUnder guard (within kernel cpu (.scan best i))) :
    let found := (List.range' i turns).foldl kernel.table.scanSlot best
    (sectionSystem boot).ReachableUnder guard (between (kernel.proceed cpu kernel.table
      (.commit found.1 found.2 :: (kernel.frames cpu).tail))) := by
  induction turns generalizing best i with
  | zero =>
      have ended : ¬i < maxConcurrentTasks := by omega
      have after := reachable_advance inSection reachable
      simp only [advance, within_kernel, if_neg ended, within_leave] at after
      exact after
  | succ turns ih =>
      have turn : i < maxConcurrentTasks := by omega
      exact ih (by omega) (reachable_scanSlot turn inSection reachable)

/-- A turn of the second loop. -/
theorem reachable_rechargeSlot {i : ℕ} (turn : i < maxConcurrentTasks)
    (inSection : ∀ state cpu, guard state (.kernel (.run cpu)))
    (reachable : (sectionSystem boot).ReachableUnder guard (within kernel cpu (.recharge i))) :
    (sectionSystem boot).ReachableUnder guard
      (within { kernel with table := kernel.table.rechargeSlot i } cpu (.recharge (i + 1))) := by
  have after := reachable_advance inSection reachable
  cases slot : kernel.table.slots i with
  | none =>
      simp only [advance, within_kernel, if_pos turn, slot, within_goOn] at after
      simpa only [TaskTable.rechargeSlot, slot] using after
  | some t =>
      by_cases ready : (kernel.table.task t).state = .ready
      · simp only [advance, within_kernel, if_pos turn, slot, if_pos ready, within_goOn] at after
        have stored := reachable_advance inSection after
        simp only [advance, within_kernel, within_goOn] at stored
        simpa only [TaskTable.rechargeSlot, slot, if_pos ready] using stored
      · simp only [advance, within_kernel, if_pos turn, slot, if_neg ready, within_goOn] at after
        simpa only [TaskTable.rechargeSlot, slot, if_neg ready] using after

/-- The second loop, by induction on the turns that are left. -/
theorem reachable_rechargeLoop {i turns : ℕ} (left : i + turns = maxConcurrentTasks)
    (inSection : ∀ state cpu, guard state (.kernel (.run cpu)))
    (reachable : (sectionSystem boot).ReachableUnder guard (within kernel cpu (.recharge i))) :
    (sectionSystem boot).ReachableUnder guard (between (kernel.proceed cpu
      ((List.range' i turns).foldl TaskTable.rechargeSlot kernel.table)
      (.scan :: (kernel.frames cpu).tail))) := by
  induction turns generalizing kernel i with
  | zero =>
      have ended : ¬i < maxConcurrentTasks := by omega
      have after := reachable_advance inSection reachable
      simp only [advance, within_kernel, if_neg ended, within_leave] at after
      exact after
  | succ turns ih =>
      have turn : i < maxConcurrentTasks := by omega
      exact ih (by omega) (reachable_rechargeSlot turn inSection reachable)

/-! ### The section of `task_isr_tick` -/

/-- The `task_struct` after the two decrements of `task_isr_tick`. -/
def ticked (task : TaskStruct) : TaskStruct :=
  { task with
    dynamicPrio := int32 (task.dynamicPrio - 1)
    sleepAvg := int32 (task.sleepAvg - 1) }

/-- The section after the load of `dynamic_prio`. -/
theorem reachable_tick (inSection : ∀ state cpu, guard state (.kernel (.run cpu)))
    (reachable : (sectionSystem boot).ReachableUnder guard (within kernel cpu
      (.tickStore (kernel.current cpu) (kernel.table.task (kernel.current cpu)).dynamicPrio)))
    (stepped : kernel.step (.tick cpu) = some next) :
    (sectionSystem boot).ReachableUnder guard (between next) := by
  generalize current : kernel.current cpu = t at reachable
  have table : (kernel.table.setDynamicPrio t
        (int32 ((kernel.table.task t).dynamicPrio - 1))).modify t
          (fun task => { task with sleepAvg := int32 (task.sleepAvg - 1) }) =
      kernel.table.modify t fun _ => ticked (kernel.table.task t) :=
    TaskTable.modify_modify _ _ _ _
  have task : (kernel.table.modify t fun _ => ticked (kernel.table.task t)).task t =
      ticked (kernel.table.task t) := TaskTable.modify_self _ _ _
  have stored := reachable_advance inSection reachable
  simp only [advance, within_kernel, within_goOn] at stored
  have tested := reachable_advance inSection stored
  simp only [advance, within_kernel, within_goOn, within_leave, table, task] at tested
  simp only [Kernel.step, current, Option.some.injEq] at stepped
  subst stepped
  by_cases kept : (ticked (kernel.table.task t)).interruptible = false ∨
      0 < (ticked (kernel.table.task t)).dynamicPrio
  · have coarse : kernel.table.taskIsrTick t =
        (kernel.table.modify t fun _ => ticked (kernel.table.task t), false) := if_pos kept
    rw [if_pos kept] at tested
    rw [coarse]
    exact tested
  · have coarse : kernel.table.taskIsrTick t =
        (kernel.table.modify t fun _ =>
          { ticked (kernel.table.task t) with
            dynamicPrio := 0
            state := TaskTable.makeReady (ticked (kernel.table.task t)).state }, true) :=
      if_neg kept
    rw [if_neg kept] at tested
    have cleared := reachable_advance inSection tested
    simp only [advance, within_kernel, within_leave, TaskTable.modify_modify] at cleared
    rw [coarse]
    exact cleared

/-! ### Whole runs -/

/-- A step of the scheduler with sections in one step, taken in single accesses. -/
theorem reachable_between_step {action : KernelAction Cpu}
    (inSection : ∀ state cpu, guard state (.kernel (.run cpu)))
    (reachable : (sectionSystem boot).ReachableUnder guard (between kernel))
    (allowed : guard (between kernel) (.kernel action))
    (stepped : kernel.step action = some next) :
    (sectionSystem boot).ReachableUnder guard (between next) := by
  cases action with
  | call cpu call =>
      apply reachable.step allowed
      simp only [sectionSystem_step, SectionKernel.step, between, stepped, Option.map_some]
  | tick cpu =>
      exact reachable_tick inSection (reachable.step allowed rfl) stepped
  | run cpu =>
      cases begins : sectionOf (kernel.frames cpu) with
      | none =>
          apply reachable.step allowed
          simp only [sectionSystem_step, SectionKernel.step, between, begins, stepped,
            Option.map_some]
      | some point =>
          have entered : (sectionSystem boot).ReachableUnder guard (within kernel cpu point) := by
            apply reachable.step allowed
            simp only [sectionSystem_step, SectionKernel.step, between, begins]
            rfl
          obtain ⟨rest, frames, rfl⟩ | ⟨c, slot, rest, frames, spent, rfl⟩ := sectionOf_some begins
          · simp only [Kernel.step, frames, Kernel.runFrame, Option.some.injEq] at stepped
            have scanned := reachable_scanLoop (Nat.zero_add _) inSection entered
            rw [frames, List.tail_cons, ← List.range_eq_range'] at scanned
            exact stepped ▸ scanned
          · simp only [Kernel.step, frames, Kernel.runFrame, if_neg spent,
              Option.some.injEq] at stepped
            have recharged := reachable_rechargeLoop (Nat.zero_add _) inSection entered
            rw [frames, List.tail_cons, ← List.range_eq_range'] at recharged
            exact stepped ▸ recharged

/-- **Sections in one step.** Every run of the scheduler in which a section is one step is
a run in single accesses, and so is every run under a guard that lets the accesses of a
section pass. -/
theorem reachable_between (inSection : ∀ state cpu, guard state (.kernel (.run cpu)))
    (reachable : (bootedSystem boot).ReachableUnder
      (fun kernel action => guard (between kernel) (.kernel action)) kernel) :
    (sectionSystem boot).ReachableUnder guard (between kernel) := by
  apply reachable.invariant fun kernel =>
    (sectionSystem boot).ReachableUnder guard (between kernel)
  · intro kernel booted
    exact .start ⟨booted, fun _ => rfl⟩
  · intro kernel action next reached allowed stepped
    exact reachable_between_step inSection reached allowed stepped

end Undisturbed

end Steps

end CatchOS.Tasks
