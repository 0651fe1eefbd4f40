import CatchOS.Tasks.Sections

/-!
# The bound on the dynamic priority

`schedule` promises that the count of a task never gets larger than twice its static
priority. The promise is kept as long as no tick decrements a count that is the least
`int32_t`: a task that is not interruptible is decremented without a limit, and below that
value the count wraps to the largest one.

* `PrioStep` says what every step but the stores of a tick and of a recharge does to the
  priorities: they stay, or become 0.
* `PrioHolds` carries a property of the count of one task over a run, with the values that
  CPUs inside a section have loaded of it. It is kept by a recharge (`RechargeKeeps`) and
  where the ticks of the run keep it.
* `dynamicPrio_bounded`: in every run whose ticks at a task can count down (`CountFits`)
  the bound holds, in every run the recharge stays within 32 bits, and a tick that cannot
  count down breaks the bound.
* `dynamicPrio_wraps`: a task that polls with `delay_rt` until its count has wrapped.
-/

set_option autoImplicit false

namespace CatchOS.Tasks

open CatchOS.Lib

variable {Cpu : Type}

/-! ## What a step does to the priorities -/

/-- A step keeps the static priorities, and no slot and no CPU gets a task that had no name
before it. -/
structure StaticKept (kernel next : Kernel Cpu) : Prop where
  nextId : kernel.table.nextId ≤ next.table.nextId
  static : ∀ t < kernel.table.nextId,
    (next.table.task t).staticPrio = (kernel.table.task t).staticPrio
  slot : ∀ i t, next.table.slots i = some t →
    kernel.table.slots i = some t ∨ t < next.table.nextId
  current : ∀ cpu, next.current cpu = kernel.current cpu ∨
    ∃ i, kernel.table.slots i = some (next.current cpu)

/-- A step also keeps the dynamic priorities or sets them to 0, which is where those of new
tasks start. -/
structure PrioStep (kernel next : Kernel Cpu) : Prop extends StaticKept kernel next where
  dynamic : ∀ t < kernel.table.nextId,
    (next.table.task t).dynamicPrio = (kernel.table.task t).dynamicPrio ∨
      (next.table.task t).dynamicPrio = 0
  born : ∀ t, kernel.table.nextId ≤ t → t < next.table.nextId →
    (next.table.task t).dynamicPrio = 0

namespace PrioStep

variable {kernel next : Kernel Cpu}

/-- The table stays, and a CPU may continue with a task of the table. -/
theorem of_same (table : next.table = kernel.table)
    (current : ∀ cpu, next.current cpu = kernel.current cpu ∨
      ∃ i, kernel.table.slots i = some (next.current cpu)) : PrioStep kernel next where
  nextId := le_of_eq (congrArg TaskTable.nextId table).symm
  static t _ := by rw [table]
  slot i t held := .inl (by rwa [table] at held)
  current := current
  dynamic t _ := .inl (by rw [table])
  born t unborn named := absurd (named.trans_eq (congrArg TaskTable.nextId table))
    (not_lt.mpr unborn)

/-- One `task_struct` changes. -/
theorem of_modify (u : TaskId) (change : TaskStruct → TaskStruct)
    (table : next.table = kernel.table.modify u change) (current : next.current = kernel.current)
    (static : ∀ task, (change task).staticPrio = task.staticPrio)
    (dynamic : ∀ task, (change task).dynamicPrio = task.dynamicPrio ∨
      (change task).dynamicPrio = 0) : PrioStep kernel next where
  nextId := le_of_eq (congrArg TaskTable.nextId table).symm
  static t _ := by
    rw [table]
    by_cases same : t = u
    · rw [same, TaskTable.modify_self, static]
    · rw [TaskTable.modify_other _ _ _ same]
  slot i t held := .inl (by rwa [table] at held)
  current cpu := .inl (congrFun current cpu)
  dynamic t _ := by
    rw [table]
    by_cases same : t = u
    · rw [same, TaskTable.modify_self]
      exact dynamic _
    · rw [TaskTable.modify_other _ _ _ same]
      exact .inl rfl
  born t unborn named := absurd (named.trans_eq (congrArg TaskTable.nextId table))
    (not_lt.mpr unborn)

theorem of_unlink {u : TaskId} (table : next.table = kernel.table.unlink u)
    (current : next.current = kernel.current) : PrioStep kernel next where
  nextId := le_of_eq (congrArg TaskTable.nextId table).symm
  static t _ := by rw [table]; rfl
  slot i t held := .inl (TaskTable.unlink_slot (table ▸ held))
  current cpu := .inl (congrFun current cpu)
  dynamic t _ := .inl (by rw [table]; rfl)
  born t unborn named := absurd (named.trans_eq (congrArg TaskTable.nextId table))
    (not_lt.mpr unborn)

/-- A new task comes into the table. -/
theorem of_fill {pid : ℕ} {priority : ℤ} (table : next.table = kernel.table.fill pid priority)
    (current : next.current = kernel.current) : PrioStep kernel next := by
  have nextId : next.table.nextId = kernel.table.nextId + 1 := congrArg TaskTable.nextId table
  refine ⟨⟨nextId ▸ Nat.le_succ _, ?_, ?_, fun cpu => .inl (congrFun current cpu)⟩, ?_, ?_⟩
  · intro t named
    rw [table, TaskTable.fill_task_old (ne_of_lt named)]
  · intro i t held
    obtain ⟨-, rfl⟩ | ⟨-, old⟩ := TaskTable.fill_slot (table ▸ held)
    · exact .inr (nextId ▸ Nat.lt_succ_self _)
    · exact .inl old
  · intro t named
    rw [table, TaskTable.fill_task_old (ne_of_lt named)]
    exact .inl rfl
  · intro t unborn named
    rw [nextId] at named
    obtain rfl : t = kernel.table.nextId := Nat.le_antisymm (Nat.le_of_lt_succ named) unborn
    rw [table, TaskTable.fill_task_new]
    rfl

end PrioStep

namespace Kernel

variable [DecidableEq Cpu] {kernel next : Kernel Cpu} {cpu : Cpu}

/-- Every frame but the recharge of `schedule`. -/
theorem runFrame_prio {frame : Frame} {rest : List Frame}
    (noRecharge : sectionOf (frame :: rest) = none)
    (stepped : kernel.runFrame cpu rest frame = some next) : PrioStep kernel next := by
  have here : ∀ other, kernel.current other = kernel.current other ∨
      ∃ i, kernel.table.slots i = some (kernel.current other) := fun _ => .inl rfl
  cases frame with
  | yield =>
      cases stepped
      exact .of_modify (kernel.current cpu)
        (fun task => { task with state := TaskTable.makeReady task.state, dynamicPrio := 0 })
        rfl rfl (fun _ => rfl) fun _ => .inr rfl
  | schedule =>
      cases stepped
      exact .of_modify (kernel.current cpu) (fun task => { task with interruptible := false })
        rfl rfl (fun _ => rfl) fun _ => .inl rfl
  | scan => cases noRecharge
  | commit c slot =>
      have found : 0 < c := by
        by_contra spent
        rw [sectionOf, if_neg spent] at noRecharge
        cases noRecharge
      simp only [runFrame, if_pos found, Option.map_eq_some_iff] at stepped
      obtain ⟨t, -, rfl⟩ := stepped
      exact .of_modify t (fun task => { task with state := .running })
        rfl rfl (fun _ => rfl) fun _ => .inl rfl
  | switchTo slot =>
      simp only [runFrame, Option.map_eq_some_iff] at stepped
      obtain ⟨t, held, rfl⟩ := stepped
      split
      case isTrue => exact .of_same rfl here
      case isFalse =>
        have comes : (kernel.switch cpu t rest).current cpu = t := Function.update_self _ _ _
        refine .of_same rfl fun other => ?_
        by_cases same : other = cpu
        · rw [same, comes]
          exact .inr ⟨slot, held⟩
        · exact .inl (Function.update_of_ne same _ _)
  | resumed =>
      cases stepped
      exact .of_modify (kernel.current cpu) (fun task => { task with interruptible := true })
        rfl rfl (fun _ => rfl) fun _ => .inl rfl
  | returnEnter =>
      cases stepped
      exact .of_modify (kernel.current cpu) (fun task => { task with interruptible := false })
        rfl rfl (fun _ => rfl) fun _ => .inl rfl
  | returnUnlink =>
      cases stepped
      exact .of_unlink rfl rfl
  | returnState =>
      cases stepped
      by_cases running : (kernel.table.task (kernel.current cpu)).state = .running
      · exact .of_modify (kernel.current cpu) (fun task => { task with state := .terminated })
          (if_pos running) rfl (fun _ => rfl) fun _ => .inl rfl
      · exact .of_same (if_neg running) here
  | returnJoin =>
      cases stepped
      by_cases detached : (kernel.table.task (kernel.current cpu)).joinState = .detached
      · simp only [if_pos detached]
        exact .of_same rfl here
      · simp only [if_neg detached]
        exact .of_same rfl here
  | returnDone => cases stepped
  | newCheck priority =>
      cases stepped
      exact .of_same rfl here
  | newSearch priority =>
      cases stepped
      exact .of_same rfl here
  | newFill pid priority =>
      cases stepped
      exact .of_fill rfl rfl
  | joinPoll t =>
      cases stepped
      exact .of_same rfl here
  | joinReset t =>
      cases stepped
      exact .of_modify t (fun task => { task with dynamicPrio := 0 })
        rfl rfl (fun _ => rfl) fun _ => .inr rfl
  | joinCleanup t =>
      cases stepped
      exact .of_same rfl here

/-- Entering a call. -/
theorem enter_prio {call : KernelCall} (stepped : kernel.enter cpu call = some next) :
    PrioStep kernel next := by
  have here : ∀ other, kernel.current other = kernel.current other ∨
      ∃ i, kernel.table.slots i = some (kernel.current other) := fun _ => .inl rfl
  cases call with
  | taskYield =>
      cases stepped
      exact .of_same rfl here
  | taskReturn =>
      simp only [enter, Option.ite_none_right_eq_some] at stepped
      obtain ⟨-, stepped⟩ := stepped
      cases stepped
      exact .of_same rfl here
  | taskNew priority =>
      cases stepped
      exact .of_same rfl here
  | taskJoin t =>
      simp only [enter, Option.ite_none_right_eq_some] at stepped
      obtain ⟨-, stepped⟩ := stepped
      cases stepped
      exact .of_same rfl here
  | taskDetach t =>
      simp only [enter, Option.ite_none_right_eq_some] at stepped
      obtain ⟨-, stepped⟩ := stepped
      cases stepped
      exact .of_modify t (fun task => { task with joinState := .detached })
        rfl rfl (fun _ => rfl) fun _ => .inl rfl

end Kernel

/-! ## A property of the count over a run -/

section Runs

variable {Fits : ℤ → ℤ → Prop} {t : TaskId} {state next : SectionKernel Cpu} {cpu : Cpu}

/-- A property of a count beside its static priority that holds of 0 and is kept by a
recharge. -/
structure RechargeKeeps (Fits : ℤ → ℤ → Prop) : Prop where
  zero : ∀ static, Fits static 0
  recharge : ∀ static count, Fits static count → Fits static (int32 (count / 2 + static))

/-- What a CPU inside a section is about to store is good for the task. -/
def SectionPoint.Good (Fits : ℤ → ℤ → Prop) (t : TaskId) (table : TaskTable) :
    SectionPoint → Prop
  | .tickStore u loaded =>
      u < table.nextId ∧ (u = t → Fits (table.task t).staticPrio (int32 (loaded - 1)))
  | .rechargeStore u loaded _ =>
      u < table.nextId ∧ (u = t → Fits (table.task t).staticPrio loaded)
  | .tickTest _ | .tickClear _ | .scan _ _ | .scanTake _ _ | .recharge _ => True

/-- The count of the task has the property, and so has what is about to be stored to it.
The slots and the CPUs hold tasks that were created. -/
structure PrioHolds (Fits : ℤ → ℤ → Prop) (t : TaskId) (state : SectionKernel Cpu) : Prop where
  slot : ∀ i u, state.kernel.table.slots i = some u → u < state.kernel.table.nextId
  current : ∀ cpu, state.kernel.current cpu < state.kernel.table.nextId
  count : t < state.kernel.table.nextId →
    Fits (state.kernel.table.task t).staticPrio (state.kernel.table.task t).dynamicPrio
  point : ∀ cpu point, state.inside cpu = some point → point.Good Fits t state.kernel.table

/-- What is about to be stored stays good when the static priorities stay. -/
theorem SectionPoint.Good.keep {point : SectionPoint} {kernel after : Kernel Cpu}
    (good : point.Good Fits t kernel.table) (kept : StaticKept kernel after) :
    point.Good Fits t after.table := by
  have stays {u : TaskId} {value : ℤ} (named : u < kernel.table.nextId)
      (fits : u = t → Fits (kernel.table.task t).staticPrio value) :
      u < after.table.nextId ∧ (u = t → Fits (after.table.task t).staticPrio value) := by
    refine ⟨Nat.lt_of_lt_of_le named kept.nextId, fun same => ?_⟩
    rw [kept.static t (same ▸ named)]
    exact fits same
  cases point with
  | tickStore u loaded => exact stays good.1 good.2
  | rechargeStore u loaded i => exact stays good.1 good.2
  | tickTest u => trivial
  | tickClear u => trivial
  | scan best i => trivial
  | scanTake u i => trivial
  | recharge i => trivial

namespace PrioHolds

/-- A step that keeps the static priorities, with the count after it and with the points
that CPUs have come to. -/
theorem move (holds : PrioHolds Fits t state) (kept : StaticKept state.kernel next.kernel)
    (count : t < next.kernel.table.nextId →
      Fits (next.kernel.table.task t).staticPrio (next.kernel.table.task t).dynamicPrio)
    (inside : ∀ cpu point, next.inside cpu = some point →
      state.inside cpu = some point ∨ point.Good Fits t state.kernel.table) :
    PrioHolds Fits t next where
  slot i u held := by
    obtain old | new := kept.slot i u held
    · exact Nat.lt_of_lt_of_le (holds.slot i u old) kept.nextId
    · exact new
  current cpu := by
    obtain same | ⟨i, held⟩ := kept.current cpu
    · rw [same]
      exact Nat.lt_of_lt_of_le (holds.current cpu) kept.nextId
    · exact Nat.lt_of_lt_of_le (holds.slot i _ held) kept.nextId
  count := count
  point cpu point here := by
    obtain old | good := inside cpu point here
    · exact (holds.point cpu point old).keep kept
    · exact good.keep kept

/-- A step that keeps the count or sets it to 0. -/
theorem keep (law : RechargeKeeps Fits) (holds : PrioHolds Fits t state)
    (step : PrioStep state.kernel next.kernel)
    (inside : ∀ cpu point, next.inside cpu = some point →
      state.inside cpu = some point ∨ point.Good Fits t state.kernel.table) :
    PrioHolds Fits t next := by
  refine holds.move step.toStaticKept (fun named => ?_) inside
  by_cases old : t < state.kernel.table.nextId
  · rw [step.static t old]
    obtain same | zero := step.dynamic t old
    · rw [same]
      exact holds.count old
    · rw [zero]
      exact law.zero _
  · rw [step.born t (Nat.le_of_not_lt old) named]
    exact law.zero _

variable [DecidableEq Cpu]

/-- The points after a section has gone on. -/
theorem inside_goOn {table : TaskTable} {point : SectionPoint}
    (good : point.Good Fits t state.kernel.table) :
    ∀ other found, (state.goOn cpu table point).inside other = some found →
      state.inside other = some found ∨ found.Good Fits t state.kernel.table := by
  intro other found here
  by_cases same : other = cpu
  · rw [same, SectionKernel.goOn_inside, Option.some.injEq] at here
    exact .inr (here ▸ good)
  · rw [SectionKernel.goOn_inside_other _ _ _ same] at here
    exact .inl here

/-- The points after a section has ended. -/
theorem inside_leave {table : TaskTable} {frames : List Frame} :
    ∀ other found, (state.leave cpu table frames).inside other = some found →
      state.inside other = some found ∨ found.Good Fits t state.kernel.table := by
  intro other found here
  by_cases same : other = cpu
  · rw [same, SectionKernel.leave_inside] at here
    cases here
  · rw [SectionKernel.leave_inside_other _ _ _ same] at here
    exact .inl here

/-- A store of a value that is good for the task. -/
theorem store (holds : PrioHolds Fits t state) {u : TaskId} {value : ℤ} {point : SectionPoint}
    (fits : u = t → Fits (state.kernel.table.task t).staticPrio value)
    (good : point.Good Fits t state.kernel.table) :
    PrioHolds Fits t (state.goOn cpu (state.kernel.table.setDynamicPrio u value) point) := by
  have static := state.kernel.table.setDynamicPrio_static u value
  have kept : StaticKept state.kernel
      (state.goOn cpu (state.kernel.table.setDynamicPrio u value) point).kernel :=
    ⟨le_refl _, fun v _ => static v, fun i v held => .inl held, fun other => .inl rfl⟩
  refine holds.move kept (fun named => ?_) (inside_goOn good)
  change Fits ((state.kernel.table.setDynamicPrio u value).task t).staticPrio
    ((state.kernel.table.setDynamicPrio u value).task t).dynamicPrio
  rw [static]
  by_cases same : t = u
  · rw [← same, TaskTable.setDynamicPrio_self]
    exact fits same.symm
  · rw [TaskTable.setDynamicPrio, TaskTable.modify_other _ _ _ same]
    exact holds.count named

/-- A section goes on and stores nothing. -/
theorem goOn (law : RechargeKeeps Fits) (holds : PrioHolds Fits t state) {point : SectionPoint}
    (good : point.Good Fits t state.kernel.table) :
    PrioHolds Fits t (state.goOn cpu state.kernel.table point) :=
  holds.keep law (.of_same rfl fun _ => .inl rfl) (inside_goOn good)

/-- A section ends and stores nothing. -/
theorem leave (law : RechargeKeeps Fits) (holds : PrioHolds Fits t state) (frames : List Frame) :
    PrioHolds Fits t (state.leave cpu state.kernel.table frames) :=
  holds.keep law (.of_same rfl fun _ => .inl rfl) inside_leave

/-- One access inside a section. -/
theorem advance (law : RechargeKeeps Fits) (holds : PrioHolds Fits t state) {point : SectionPoint}
    (here : state.inside cpu = some point) : PrioHolds Fits t (state.advance cpu point) := by
  have good := holds.point cpu point here
  cases point with
  | tickStore u loaded => exact holds.store good.2 trivial
  | rechargeStore u loaded i =>
      refine holds.store (fun own => ?_) trivial
      rw [own]
      exact law.recharge _ _ (good.2 own)
  | tickTest u =>
      have decremented (next : Kernel Cpu) (current : next.current = state.kernel.current)
          (table : next.table = state.kernel.table.modify u fun task =>
            { task with sleepAvg := int32 (task.sleepAvg - 1) }) :
          PrioStep state.kernel next :=
        .of_modify u _ table current (fun _ => rfl) fun _ => .inl rfl
      simp only [SectionKernel.advance]
      split
      case isTrue => exact holds.keep law (decremented _ rfl rfl) inside_leave
      case isFalse => exact holds.keep law (decremented _ rfl rfl) (inside_goOn trivial)
  | tickClear u =>
      have cleared : PrioStep state.kernel (state.advance cpu (.tickClear u)).kernel :=
        .of_modify u (fun task =>
            { task with dynamicPrio := 0, state := TaskTable.makeReady task.state })
          rfl rfl (fun _ => rfl) fun _ => .inr rfl
      exact holds.keep law cleared inside_leave
  | scan best i =>
      simp only [SectionKernel.advance]
      split
      case isTrue =>
        split
        case h_1 u slot =>
          split
          case isTrue => exact holds.goOn law trivial
          case isFalse => exact holds.goOn law trivial
        case h_2 => exact holds.goOn law trivial
      case isFalse => exact holds.leave law _
  | scanTake u i => exact holds.goOn law trivial
  | recharge i =>
      simp only [SectionKernel.advance]
      split
      case isTrue =>
        split
        case h_1 u slot =>
          split
          case isTrue =>
            -- The priority that is loaded is that of a task of the table.
            have named := holds.slot i u slot
            refine holds.goOn law ⟨named, fun own => ?_⟩
            rw [own] at named ⊢
            exact holds.count named
          case isFalse => exact holds.goOn law trivial
        case h_2 => exact holds.goOn law trivial
      case isFalse => exact holds.leave law _

/-- A task changes a field of its own that is not a priority. -/
theorem userStore (law : RechargeKeeps Fits) (holds : PrioHolds Fits t state)
    {change : TaskStruct → TaskStruct} {frames : List Frame}
    (stepped : state.userStore cpu change frames = some next)
    (static : ∀ task, (change task).staticPrio = task.staticPrio)
    (dynamic : ∀ task, (change task).dynamicPrio = task.dynamicPrio) : PrioHolds Fits t next := by
  unfold SectionKernel.userStore at stepped
  split at stepped
  case h_1 =>
    cases stepped
    have changed : PrioStep state.kernel (state.kernel.proceed cpu
        (state.kernel.table.modify (state.kernel.current cpu) change) frames) :=
      .of_modify _ change rfl rfl static fun task => .inl (dynamic task)
    exact holds.keep law changed fun other found here => .inl here
  case h_2 => cases stepped

/-- The load of a tick, when the count of the task can go down. -/
theorem tick (law : RechargeKeeps Fits) (holds : PrioHolds Fits t state)
    (down : state.kernel.current cpu = t →
      Fits (state.kernel.table.task t).staticPrio (state.kernel.table.task t).dynamicPrio →
      Fits (state.kernel.table.task t).staticPrio
        (int32 ((state.kernel.table.task t).dynamicPrio - 1)))
    (stepped : state.step (.kernel (.tick cpu)) = some next) : PrioHolds Fits t next := by
  cases here : state.inside cpu with
  | some point =>
      simp only [SectionKernel.step, here] at stepped
      cases stepped
  | none =>
      simp only [SectionKernel.step, here, Option.some.injEq] at stepped
      subst stepped
      have named := holds.current cpu
      refine holds.goOn law ⟨named, fun own => ?_⟩
      rw [own] at named ⊢
      exact down own (holds.count named)

theorem run (law : RechargeKeeps Fits) (holds : PrioHolds Fits t state)
    (stepped : state.step (.kernel (.run cpu)) = some next) : PrioHolds Fits t next := by
  cases here : state.inside cpu with
  | some point =>
      simp only [SectionKernel.step, here, Option.some.injEq] at stepped
      exact stepped ▸ holds.advance law here
  | none =>
      cases begins : sectionOf (state.kernel.frames cpu) with
      | some point =>
          simp only [SectionKernel.step, here, begins, Option.some.injEq] at stepped
          subst stepped
          have good : point.Good Fits t state.kernel.table := by
            obtain ⟨rest, -, rfl⟩ | ⟨c, slot, rest, -, -, rfl⟩ := sectionOf_some begins
            · trivial
            · trivial
          exact holds.goOn law good
      | none =>
          simp only [SectionKernel.step, here, begins, Option.map_eq_some_iff] at stepped
          obtain ⟨after, ran, rfl⟩ := stepped
          obtain ⟨frame, rest, frames, ran⟩ := Kernel.step_run ran
          exact holds.keep law (Kernel.runFrame_prio (frames ▸ begins) ran)
            fun other found there => .inl there

theorem call (law : RechargeKeeps Fits) (holds : PrioHolds Fits t state) {call : KernelCall}
    (stepped : state.step (.kernel (.call cpu call)) = some next) : PrioHolds Fits t next := by
  cases here : state.inside cpu with
  | some point =>
      simp only [SectionKernel.step, here] at stepped
      cases stepped
  | none =>
      simp only [SectionKernel.step, here, Option.map_eq_some_iff] at stepped
      obtain ⟨after, called, rfl⟩ := stepped
      exact holds.keep law (Kernel.enter_prio (Kernel.step_call called).2)
        fun other found there => .inl there

/-- Every step keeps the property, a tick at the task if its count can go down. -/
theorem step (law : RechargeKeeps Fits) (holds : PrioHolds Fits t state)
    {action : SectionAction Cpu}
    (down : ∀ cpu, action = .kernel (.tick cpu) → state.kernel.current cpu = t →
      Fits (state.kernel.table.task t).staticPrio (state.kernel.table.task t).dynamicPrio →
      Fits (state.kernel.table.task t).staticPrio
        (int32 ((state.kernel.table.task t).dynamicPrio - 1)))
    (stepped : state.step action = some next) : PrioHolds Fits t next := by
  cases action with
  | kernel action =>
      cases action with
      | tick cpu => exact holds.tick law (down cpu rfl) stepped
      | run cpu => exact holds.run law stepped
      | call cpu call => exact holds.call law stepped
  | delayEnter cpu => exact holds.userStore law stepped (fun _ => rfl) fun _ => rfl
  | delayLeave cpu => exact holds.userStore law stepped (fun _ => rfl) fun _ => rfl
  | semBlock cpu => exact holds.userStore law stepped (fun _ => rfl) fun _ => rfl
  | semWake u =>
      cases stepped
      have woken : PrioStep state.kernel
          { state.kernel with table := state.kernel.table.setState u .ready } :=
        .of_modify u (fun task => { task with state := .ready }) rfl rfl (fun _ => rfl)
          fun _ => .inl rfl
      exact holds.keep law woken fun other found there => .inl there

/-- What `tasks_init` leaves: the count of a task that was created is 0. -/
theorem start (law : RechargeKeeps Fits) {boot : Cpu → TaskId} (created : ∀ cpu, t ≠ boot cpu)
    (initial : (sectionSystem boot).initial state) : PrioHolds Fits t state where
  slot i u held := (initial.1.slot i u held).2.2.2
  current cpu := (initial.1.running cpu).2
  count named := by
    obtain ⟨pid, priority, new⟩ := initial.1.created t named created
    rw [new]
    exact law.zero _
  point cpu point here := by
    rw [initial.2 cpu] at here
    cases here

end PrioHolds

end Runs

/-! ## The bound -/

/-- A count that is an `int32_t`. -/
def WithinInt32 (_static count : ℤ) : Prop :=
  -(2 ^ 31) ≤ count ∧ count < 2 ^ 31

/-- The bound that `schedule` promises, for the static priorities it is promised for. -/
def WithinBound (static count : ℤ) : Prop :=
  WithinInt32 static count ∧ (0 ≤ static → static ≤ 2 ^ 30 → count ≤ 2 * static)

/-- The sum of a recharge is an `int32_t`. The shift rounds downward, so it halves the range
of a negative count too. -/
theorem recharge_fits {static count : ℤ} (nonneg : 0 ≤ static) (atMost : static ≤ 2 ^ 30)
    (fits : WithinInt32 static count) :
    -(2 ^ 31) ≤ count / 2 + static ∧ count / 2 + static < 2 ^ 31 := by
  obtain ⟨lower, upper⟩ := fits
  omega

theorem withinInt32_keeps : RechargeKeeps WithinInt32 where
  zero _ := by
    constructor
    · decide
    · decide
  recharge _ _ _ := int32_bounds _

theorem withinBound_keeps : RechargeKeeps WithinBound where
  zero static := ⟨withinInt32_keeps.zero static, fun nonneg _ => by omega⟩
  recharge static count fits := by
    refine ⟨int32_bounds _, fun nonneg atMost => ?_⟩
    have sum := recharge_fits nonneg atMost fits.1
    have bound := fits.2 nonneg atMost
    rw [int32_eq sum.1 sum.2]
    omega

section Bound

variable [DecidableEq Cpu] {boot : Cpu → TaskId} {state : SectionKernel Cpu} {t : TaskId}

/-- A tick at the task finds a count that can go down, or a task whose bound is above every
`int32_t`. -/
def CountFits (t : TaskId) (state : SectionKernel Cpu) : SectionAction Cpu → Prop
  | .kernel (.tick cpu) => state.kernel.current cpu = t →
      -(2 ^ 31) < (state.kernel.table.task t).dynamicPrio ∨
        2 ^ 30 ≤ (state.kernel.table.task t).staticPrio
  | .kernel (.run _) | .kernel (.call _ _) | .delayEnter _ | .delayLeave _ | .semBlock _
  | .semWake _ => True

instance (t : TaskId) (state : SectionKernel Cpu) : ∀ action, Decidable (CountFits t state action)
  | .kernel (.tick _) => inferInstanceAs (Decidable (_ → _ ∨ _))
  | .kernel (.run _) | .kernel (.call _ _) | .delayEnter _ | .delayLeave _ | .semBlock _
  | .semWake _ => isTrue trivial

/-- A task that `task_new` has created, with a priority that the bound is about. -/
structure CreatedWithin (boot : Cpu → TaskId) (state : SectionKernel Cpu) (t : TaskId) : Prop where
  named : t < state.kernel.table.nextId
  created : ∀ cpu, t ≠ boot cpu
  nonneg : 0 ≤ (state.kernel.table.task t).staticPrio
  atMost : (state.kernel.table.task t).staticPrio ≤ 2 ^ 30

/-- The sum of a recharge of the task is an `int32_t`, also with a count that a CPU inside
its recharge has loaded. -/
def RechargeFits (state : SectionKernel Cpu) (t : TaskId) : Prop :=
  ∀ loaded, (loaded = (state.kernel.table.task t).dynamicPrio ∨
      ∃ cpu i, state.inside cpu = some (.rechargeStore t loaded i)) →
    -(2 ^ 31) ≤ loaded / 2 + (state.kernel.table.task t).staticPrio ∧
      loaded / 2 + (state.kernel.table.task t).staticPrio < 2 ^ 31

/-- In every run the counts are those of an `int32_t`. -/
theorem prioHolds_int32 (created : ∀ cpu, t ≠ boot cpu)
    (reachable : (sectionSystem boot).Reachable state) : PrioHolds WithinInt32 t state := by
  apply reachable.invariant (PrioHolds WithinInt32 t)
  · intro state initial
    exact PrioHolds.start withinInt32_keeps created initial
  · intro state action next holds _ stepped
    exact holds.step withinInt32_keeps (fun _ _ _ _ => int32_bounds _) stepped

/-- In every run whose ticks can count down the counts are within the bound. -/
theorem prioHolds_bound (created : ∀ cpu, t ≠ boot cpu)
    (reachable : (sectionSystem boot).ReachableUnder (CountFits t) state) :
    PrioHolds WithinBound t state := by
  apply reachable.invariant (PrioHolds WithinBound t)
  · intro state initial
    exact PrioHolds.start withinBound_keeps created initial
  · intro state action next holds allowed stepped
    refine holds.step withinBound_keeps ?_ stepped
    rintro cpu rfl current ⟨int32Count, bound⟩
    refine ⟨int32_bounds _, fun nonneg atMost => ?_⟩
    have upper := int32_bounds ((state.kernel.table.task t).dynamicPrio - 1)
    obtain down | large := allowed current
    · have before := bound nonneg atMost
      have above := int32Count.2
      rw [int32_eq (by omega) (by omega)]
      omega
    · omega

/-- The bound for the scheduler with sections in one step. -/
theorem Kernel.dynamicPrio_le {kernel : Kernel Cpu}
    (task : CreatedWithin boot (.between kernel) t)
    (reachable : (bootedSystem boot).ReachableUnder
      (fun kernel action => CountFits t (.between kernel) (.kernel action)) kernel) :
    (kernel.table.task t).dynamicPrio ≤ 2 * (kernel.table.task t).staticPrio := by
  have apart := reachable_between (fun _ _ => trivial) reachable
  have holds := (prioHolds_bound task.created apart).count task.named
  exact holds.2 task.nonneg task.atMost

/-- A tick that finds the least `int32_t` stores the largest one. -/
theorem tick_wraps {cpu : Cpu} (ready : state.inside cpu = none)
    (current : state.kernel.current cpu = t)
    (least : (state.kernel.table.task t).dynamicPrio = -(2 ^ 31)) :
    ∃ loaded next, state.step (.kernel (.tick cpu)) = some loaded ∧
      loaded.step (.kernel (.run cpu)) = some next ∧
      (next.kernel.table.task t).dynamicPrio = 2 ^ 31 - 1 ∧
      (next.kernel.table.task t).staticPrio = (state.kernel.table.task t).staticPrio := by
  have load : state.step (.kernel (.tick cpu)) =
      some (state.goOn cpu state.kernel.table (.tickStore t (-(2 ^ 31)))) := by
    simp only [SectionKernel.step, ready, current, least]
  have run : (state.goOn cpu state.kernel.table (.tickStore t (-(2 ^ 31)))).step
      (.kernel (.run cpu)) = some ((state.goOn cpu state.kernel.table
        (.tickStore t (-(2 ^ 31)))).advance cpu (.tickStore t (-(2 ^ 31)))) := by
    simp only [SectionKernel.step, SectionKernel.goOn_inside]
  refine ⟨_, _, load, run, ?_, ?_⟩
  · exact (TaskTable.setDynamicPrio_self _ _ _).trans rfl
  · exact TaskTable.setDynamicPrio_static _ _ _ _

/-- **The bound on the dynamic priority.** For a task that was created with a static
priority between 0 and `2 ^ 30`: in every run whose ticks at it can count down, its count is
at most twice that priority; in every run the sum of a recharge is an `int32_t`; and in
every run a tick that cannot count down leaves a count above the bound. -/
theorem dynamicPrio_bounded (task : CreatedWithin boot state t) :
    ((sectionSystem boot).ReachableUnder (CountFits t) state →
      (state.kernel.table.task t).dynamicPrio ≤ 2 * (state.kernel.table.task t).staticPrio) ∧
    ((sectionSystem boot).Reachable state → RechargeFits state t) ∧
    ((sectionSystem boot).Reachable state → ∀ cpu, state.inside cpu = none →
      ¬CountFits t state (.kernel (.tick cpu)) →
      ∃ loaded next, state.step (.kernel (.tick cpu)) = some loaded ∧
        loaded.step (.kernel (.run cpu)) = some next ∧
        2 * (next.kernel.table.task t).staticPrio < (next.kernel.table.task t).dynamicPrio) := by
  refine ⟨fun reachable => ?_, fun reachable => ?_, fun reachable cpu ready wraps => ?_⟩
  · have holds := (prioHolds_bound task.created reachable).count task.named
    exact holds.2 task.nonneg task.atMost
  · have holds := prioHolds_int32 task.created reachable
    rintro loaded (rfl | ⟨cpu, i, here⟩)
    · exact recharge_fits task.nonneg task.atMost (holds.count task.named)
    · exact recharge_fits task.nonneg task.atMost ((holds.point cpu _ here).2 rfl)
  · have count := (prioHolds_int32 task.created reachable).count task.named
    simp only [CountFits, Classical.not_imp, not_or, not_lt, not_le] at wraps
    obtain ⟨current, low, small⟩ := wraps
    obtain ⟨loaded, next, load, store, dynamic, static⟩ :=
      tick_wraps ready current (le_antisymm low count.1)
    refine ⟨loaded, next, load, store, ?_⟩
    rw [dynamic, static]
    omega

end Bound

/-! ## A task that polls -/

/-- One CPU after `tasks_init`, with its idle task in slot 0. -/
def oneIdleTask : Kernel (Fin 1) where
  table :=
    { slots := fun i => if i = 0 then some 1 else none
      nrTasks := 1
      task := fun t => if t = 1 then taskStructNew 0 1
        else ⟨99999, .running, 0, 1, true, .joinable, 0⟩
      nextId := 2 }
  current _ := 0
  frames _ := []
  context _ := []
  freed _ := false
  joiner _ := none

theorem oneIdleTask_booted : oneIdleTask.BootedWith fun _ => 0 where
  distinct _ _ _ := Subsingleton.elim _ _
  outside := by decide
  slot := by
    intro i t held
    by_cases first : i = 0
    · subst first
      obtain rfl : 1 = t := Option.some.inj held
      decide
    · simp [oneIdleTask, first] at held
  running := by decide
  user _ := rfl
  context _ := rfl
  freed _ := rfl
  joiner _ := rfl
  bootstrap := rfl
  created t named other := by
    have positive : 1 ≤ t := Nat.one_le_iff_ne_zero.mpr (other 0)
    have new : t = 1 := Nat.le_antisymm (Nat.le_of_lt_succ named) positive
    exact ⟨0, 1, if_pos new⟩

/-- A call or a step of a CPU. -/
def NoTick (_kernel : Kernel (Fin 1)) : KernelAction (Fin 1) → Prop
  | .call _ _ | .run _ => True
  | .tick _ => False

instance (kernel : Kernel (Fin 1)) : ∀ action, Decidable (NoTick kernel action)
  | .call _ _ | .run _ => isTrue trivial
  | .tick _ => isFalse id

/-- The task is on the CPU, in none of the calls of the scheduler. -/
structure Polling (kernel : Kernel (Fin 1)) (interruptible : Bool) (count : ℤ) : Prop where
  frames : kernel.frames 0 = []
  current : kernel.current 0 = 2
  nextId : kernel.table.nextId = 3
  idle : (kernel.table.task 1).staticPrio = 1
  static : (kernel.table.task 2).staticPrio = 10
  count : (kernel.table.task 2).dynamicPrio = count
  interruptible : (kernel.table.task 2).interruptible = interruptible

/-- The CPU creates a task with the priority 10 and yields. A recharge gives the task a count
of 10, and `schedule` chooses it. -/
theorem polling_started {guard : SectionKernel (Fin 1) → SectionAction (Fin 1) → Prop}
    (allowed : ∀ kernel action, NoTick kernel action → ∀ state, guard state (.kernel action)) :
    ∃ kernel, (sectionSystem fun _ => 0).ReachableUnder guard (.between kernel) ∧
      Polling kernel true 10 := by
  obtain ⟨kernel, reachable, tested⟩ := System.exists_reachableUnder_of_replay
    (bootedSystem fun _ => 0) NoTick oneIdleTask_booted
    [.call 0 (.taskNew 10), .run 0, .run 0, .run 0,
      .call 0 .taskYield, .run 0, .run 0, .run 0, .run 0, .run 0, .run 0, .run 0]
    (fun kernel => kernel.frames 0 = [] ∧ kernel.current 0 = 2 ∧ kernel.table.nextId = 3 ∧
      (kernel.table.task 1).staticPrio = 1 ∧ (kernel.table.task 2).staticPrio = 10 ∧
      (kernel.table.task 2).dynamicPrio = 10 ∧ (kernel.table.task 2).interruptible = true)
    (by decide +kernel)
  obtain ⟨frames, current, nextId, idle, static, count, interruptible⟩ := of_decide_eq_true tested
  refine ⟨kernel, reachable_between (fun state cpu => ?_) (reachable.mono ?_),
    ⟨frames, current, nextId, idle, static, count, interruptible⟩⟩
  · exact allowed kernel (.run cpu) trivial state
  · exact fun kernel action noTick => allowed kernel action noTick _

namespace Polling

variable {kernel : Kernel (Fin 1)} {count : ℤ} {interruptible : Bool}

/-- The fields of the task change, but its static priority does not. -/
theorem proceed (polling : Polling kernel interruptible count) (change : TaskStruct → TaskStruct)
    (static : ∀ task, (change task).staticPrio = task.staticPrio) :
    Polling (kernel.proceed 0 (kernel.table.modify 2 change) [])
      (change (kernel.table.task 2)).interruptible
      (change (kernel.table.task 2)).dynamicPrio where
  frames := Kernel.proceed_frames _ _ _ _
  current := polling.current
  nextId := polling.nextId
  idle := by
    change ((kernel.table.modify 2 change).task 1).staticPrio = 1
    rw [TaskTable.modify_other _ _ _ (by decide)]
    exact polling.idle
  static := by
    change ((kernel.table.modify 2 change).task 2).staticPrio = 10
    rw [TaskTable.modify_self, static]
    exact polling.static
  count := congrArg TaskStruct.dynamicPrio (TaskTable.modify_self _ _ _)
  interruptible := congrArg TaskStruct.interruptible (TaskTable.modify_self _ _ _)

/-- `delay_rt` is entered or left. -/
theorem setInterruptible (polling : Polling kernel interruptible count) (value : Bool) :
    ∃ next, (SectionKernel.between kernel).userStore 0
        (fun task => { task with interruptible := value }) [] = some (.between next) ∧
      Polling next value count := by
  have moved := polling.proceed (fun task => { task with interruptible := value }) fun _ => rfl
  rw [polling.count] at moved
  refine ⟨_, ?_, moved⟩
  simp only [SectionKernel.userStore, SectionKernel.between, polling.frames, polling.current]

/-- A tick that comes inside `delay_rt` only decrements the count. -/
theorem tick (polling : Polling kernel false count) :
    ∃ next, kernel.step (.tick 0) = some next ∧ Polling next false (int32 (count - 1)) := by
  have ticking : kernel.table.taskIsrTick 2 =
      (kernel.table.modify 2 fun _ => ticked (kernel.table.task 2), false) :=
    if_pos (.inl polling.interruptible)
  have moved := polling.proceed ticked fun _ => rfl
  have count' : (ticked (kernel.table.task 2)).dynamicPrio = int32 (count - 1) := by
    rw [← polling.count]
    rfl
  rw [count'] at moved
  refine ⟨_, ?_, polling.interruptible ▸ moved⟩
  simp only [Kernel.step, polling.current, polling.frames, ticking]
  rfl

/-- `delay_rt` with a time of one tick. -/
theorem delay (polling : Polling kernel true count)
    (reachable : (sectionSystem fun _ => 0).Reachable (.between kernel)) :
    ∃ next, (sectionSystem fun _ => 0).Reachable (.between next) ∧
      Polling next true (int32 (count - 1)) := by
  obtain ⟨entered, enters, polling⟩ := polling.setInterruptible false
  have enter : (sectionSystem fun _ => 0).step (.between kernel) (.delayEnter 0) =
      some (.between entered) := enters
  have inside := reachable.step trivial enter
  obtain ⟨after, ticks, polling⟩ := polling.tick
  have decremented : (sectionSystem fun _ => 0).Reachable (.between after) :=
    reachable_between_step (fun _ _ => trivial) inside trivial ticks
  obtain ⟨next, leaves, polling⟩ := polling.setInterruptible true
  have left : (sectionSystem fun _ => 0).step (.between after) (.delayLeave 0) =
      some (.between next) := leaves
  exact ⟨next, decremented.step trivial left, polling⟩

/-- The idle task and the task that polls were created with priorities in the range of the
bound. -/
theorem created (polling : Polling kernel interruptible count) {t : TaskId}
    (named : t < kernel.table.nextId) (other : t ≠ 0) :
    CreatedWithin (fun _ => 0) (.between kernel) t := by
  have names : ∀ n : ℕ, n < 3 → n ≠ 0 → n = 1 ∨ n = 2 := by omega
  have idle := polling.idle
  have static := polling.static
  obtain rfl | rfl := names t (polling.nextId ▸ named) other
  · exact ⟨named, fun _ => other, by rw [SectionKernel.between, idle]; decide,
      by rw [SectionKernel.between, idle]; decide⟩
  · exact ⟨named, fun _ => other, by rw [SectionKernel.between, static]; decide,
      by rw [SectionKernel.between, static]; decide⟩

end Polling

/-- The task polls on until its count is the least `int32_t`. -/
theorem polled (turns : ℕ) (down : (turns : ℤ) ≤ 2 ^ 31 + 10) :
    ∃ kernel, (sectionSystem fun _ => 0).Reachable (.between kernel) ∧
      Polling kernel true (10 - turns) := by
  induction turns with
  | zero =>
      have started : ∃ kernel, (sectionSystem fun _ => 0).Reachable (.between kernel) ∧
          Polling kernel true 10 := polling_started fun _ _ _ _ => trivial
      exact started
  | succ turns ih =>
      obtain ⟨kernel, reachable, polling⟩ := ih (by omega)
      obtain ⟨next, reached, polling⟩ := polling.delay reachable
      have count : int32 (10 - (turns : ℤ) - 1) = 10 - (turns + 1 : ℕ) := by
        rw [int32_eq (by omega) (by omega)]
        omega
      exact ⟨next, reached, count ▸ polling⟩

/-- **A task that polls gets a count far above its bound.** It calls `delay_rt` again and
again, and every tick comes inside a `delay_rt`: after `2 ^ 31 + 11` ticks its count is the
largest `int32_t`, where the bound of its priority is 20. -/
theorem dynamicPrio_wraps :
    ¬∀ state : SectionKernel (Fin 1), (sectionSystem fun _ => 0).Reachable state →
      (∀ t < state.kernel.table.nextId, t ≠ 0 → CreatedWithin (fun _ => 0) state t) →
      ∀ t < state.kernel.table.nextId, t ≠ 0 →
        (state.kernel.table.task t).dynamicPrio ≤ 2 * (state.kernel.table.task t).staticPrio ∧
          RechargeFits state t := by
  intro bounded
  obtain ⟨kernel, reachable, polling⟩ := polled (2 ^ 31 + 10) (by decide)
  obtain ⟨wrapped, reached, polling⟩ := polling.delay reachable
  have named : 2 < wrapped.table.nextId := by
    rw [polling.nextId]
    decide
  have count : (wrapped.table.task 2).dynamicPrio = 2 ^ 31 - 1 := polling.count
  have bound := (bounded _ reached (fun _ => polling.created) 2 named (by decide)).1
  change (wrapped.table.task 2).dynamicPrio ≤ 2 * (wrapped.table.task 2).staticPrio at bound
  rw [count, polling.static] at bound
  exact absurd bound (by decide)

/-- The task that starts to poll has a count of 10, and 20 is its bound. -/
theorem dynamicPrio_bounded_started : ∃ state : SectionKernel (Fin 1),
    (state.kernel.table.task 2).dynamicPrio = 10 ∧
      (state.kernel.table.task 2).dynamicPrio ≤ 2 * (state.kernel.table.task 2).staticPrio ∧
      RechargeFits state 2 := by
  have started : ∃ kernel,
      (sectionSystem fun _ => 0).ReachableUnder (CountFits 2) (.between kernel) ∧
        Polling kernel true 10 := by
    apply polling_started
    intro kernel action noTick state
    cases action with
    | call cpu call => trivial
    | run cpu => trivial
    | tick cpu => exact absurd noTick id
  obtain ⟨kernel, reachable, polling⟩ := started
  have named : 2 < kernel.table.nextId := by
    rw [polling.nextId]
    decide
  have bounded := dynamicPrio_bounded (polling.created named (by decide))
  exact ⟨_, polling.count, bounded.1 reachable,
    bounded.2.1 (reachable.mono fun _ _ _ => trivial)⟩

end CatchOS.Tasks
