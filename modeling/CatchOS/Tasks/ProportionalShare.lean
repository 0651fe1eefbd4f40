import CatchOS.Lib.Rounds
import CatchOS.Tasks.AtomicKernel

/-!
# The share of each task

One CPU and a table of tasks that stay runnable: the only calls are ticks. From a state in
which every priority is spent, `schedule` recharges all tasks to their static priorities
and runs them one after another until each has used up its own; then it recharges again.

The tasks are ordered by decreasing static priority, the lowest pid first among equals
(`Ordered`). Between two ticks the CPU runs a task of this order with some of its ticks
left, the tasks before it have none and those after it have all of theirs (`InRound`).
With this relation the ticks go through the weighted rounds of `CatchOS.Lib.Rounds`, so
every round gives each task one slice, as long as its static priority
(`proportional_share`).
-/

set_option autoImplicit false

namespace CatchOS.Tasks

open CatchOS.Lib

namespace TaskTable

/-- The ticks that a task has in a round. -/
def share (table : TaskTable) (t : TaskId) : ℕ := (table.task t).staticPrio.toNat

/-- The order in which tasks run in a round. -/
def Precedes (table : TaskTable) (t u : TaskId) : Prop :=
  (table.task u).staticPrio < (table.task t).staticPrio ∨
    (table.task u).staticPrio = (table.task t).staticPrio ∧
      (table.task t).pid < (table.task u).pid

/-- The tasks of the table in this order. -/
structure Ordered (table : TaskTable) (order : List TaskId) : Prop where
  listed : ∀ t, t ∈ order ↔ ∃ i, table.slots i = some t
  sorted : order.Pairwise table.Precedes

/-- The comparison that sorts them. -/
def runsBefore (table : TaskTable) (t u : TaskId) : Bool :=
  decide ((table.task u).staticPrio < (table.task t).staticPrio ∨
    (table.task u).staticPrio = (table.task t).staticPrio ∧
      (table.task t).pid ≤ (table.task u).pid)

theorem runsBefore_trans (table : TaskTable) (t u v : TaskId)
    (first : table.runsBefore t u = true) (second : table.runsBefore u v = true) :
    table.runsBefore t v = true := by
  simp only [runsBefore, decide_eq_true_eq] at *
  omega

theorem runsBefore_total (table : TaskTable) (t u : TaskId) :
    (table.runsBefore t u || table.runsBefore u t) = true := by
  simp only [runsBefore, Bool.or_eq_true, decide_eq_true_eq]
  omega

/-- The tasks of the table, sorted. -/
def runOrder (table : TaskTable) : List TaskId :=
  ((List.range maxConcurrentTasks).filterMap table.slots).mergeSort table.runsBefore

theorem mem_runOrder {table : TaskTable} (slotted : table.Slotted) (t : TaskId) :
    t ∈ table.runOrder ↔ ∃ i, table.slots i = some t := by
  rw [runOrder, (List.mergeSort_perm _ _).mem_iff, List.mem_filterMap]
  constructor
  · rintro ⟨i, -, slot⟩
    exact ⟨i, slot⟩
  · rintro ⟨i, slot⟩
    exact ⟨i, List.mem_range.mpr (slotted i t slot).1, slot⟩

theorem runOrder_nodup {table : TaskTable} (slotted : table.Slotted) : table.runOrder.Nodup := by
  rw [runOrder, (List.mergeSort_perm _ _).nodup_iff]
  refine List.Nodup.filterMap (fun i j t first second => ?_) List.nodup_range
  exact (slotted i t first).2.symm.trans (slotted j t second).2

/-- Two tasks of the table have different pids, so the order is strict. -/
theorem ordered_runOrder {table : TaskTable} (slotted : table.Slotted) :
    table.Ordered table.runOrder := by
  refine ⟨mem_runOrder slotted, ?_⟩
  have sorted : table.runOrder.Pairwise fun t u => table.runsBefore t u = true :=
    List.pairwise_mergeSort (runsBefore_trans table) (runsBefore_total table) _
  refine (sorted.and (runOrder_nodup slotted)).imp_of_mem fun {t u} first second both => ?_
  obtain ⟨i, slot⟩ := (mem_runOrder slotted t).mp first
  obtain ⟨j, slot'⟩ := (mem_runOrder slotted u).mp second
  have pids : (table.task t).pid ≠ (table.task u).pid := by
    intro same
    rw [(slotted i t slot).2, (slotted j u slot').2] at same
    rw [same, slot', Option.some_inj] at slot
    exact both.2 slot.symm
  rcases of_decide_eq_true both.1 with less | ⟨equal, below⟩
  · exact Or.inl less
  · exact Or.inr ⟨equal, lt_of_le_of_ne below pids⟩

end TaskTable

namespace AtomicKernel

variable {Sem : Type}

/-- The tick of the only CPU; its `schedule` may scan twice. -/
def tick [DecidableEq Sem] (kernel : AtomicKernel Sem) : Option (AtomicKernel Sem) :=
  kernel.step 1 0 .taskIsrTick 2

/-- Some tasks are in the table, all of them ready and without a tick left, and the CPU
calls `schedule`. -/
structure Runnable (kernel : AtomicKernel Sem) : Prop where
  slotted : kernel.table.Slotted
  nonempty : ∃ i t, kernel.table.slots i = some t
  ready : ∀ i t, kernel.table.slots i = some t → (kernel.table.task t).state = .ready
  spent : ∀ i t, kernel.table.slots i = some t → (kernel.table.task t).dynamicPrio = 0
  positive : ∀ i t, kernel.table.slots i = some t → 1 ≤ (kernel.table.task t).staticPrio
  word : ∀ i t, kernel.table.slots i = some t → (kernel.table.task t).staticPrio < 2 ^ 31
  startup : ∀ i t, kernel.table.slots i = some t → kernel.started t = false →
    (kernel.table.task t).interruptible = true
  started : kernel.started (kernel.current 0) = true

/-! ## The table between two ticks -/

/-- The tasks of the table have kept their pids and static priorities, and have the
given dynamic priorities. -/
structure Shares (base : TaskTable) (kernel : AtomicKernel Sem) (prio : TaskId → ℤ) : Prop where
  slots : kernel.table.slots = base.slots
  pid : ∀ t, (kernel.table.task t).pid = (base.task t).pid
  static : ∀ t, (kernel.table.task t).staticPrio = (base.task t).staticPrio
  startup : ∀ i t, base.slots i = some t → kernel.started t = false →
    (kernel.table.task t).interruptible = true
  prio : ∀ i t, base.slots i = some t → (kernel.table.task t).dynamicPrio = prio t
  started : kernel.started (kernel.current 0) = true

/-- The CPU is in `schedule`, and every task in the table is ready. -/
structure AllReady (base : TaskTable) (kernel : AtomicKernel Sem) (prio : TaskId → ℤ) : Prop
    extends Shares base kernel prio where
  ready : ∀ i t, base.slots i = some t → (kernel.table.task t).state = .ready

/-- The CPU runs one of the tasks, and the others are ready. -/
structure Runs (base : TaskTable) (kernel : AtomicKernel Sem) (t : TaskId)
    (prio : TaskId → ℤ) : Prop extends Shares base kernel prio where
  listed : ∃ i, base.slots i = some t
  current : kernel.current 0 = t
  running : Running (kernel.table.task t)
  ready : ∀ i u, base.slots i = some u → u ≠ t → (kernel.table.task u).state = .ready

/-- The task of the greatest priority, with the lowest pid among equals. -/
structure Best (base : TaskTable) (prio : TaskId → ℤ) (t : TaskId) : Prop where
  listed : ∃ i, base.slots i = some t
  most : ∀ i u, base.slots i = some u → prio u ≤ prio t
  first : ∀ i u, base.slots i = some u → prio u = prio t → (base.task t).pid ≤ (base.task u).pid

variable {base : TaskTable} {kernel : AtomicKernel Sem} {prio prio' : TaskId → ℤ} {t : TaskId}

theorem Shares.slotted (shares : Shares base kernel prio) (slotted : base.Slotted) :
    kernel.table.Slotted := by
  intro i t slot
  rw [shares.slots] at slot
  rw [shares.pid]
  exact slotted i t slot

theorem AllReady.ready_iff (all : AllReady base kernel prio) :
    kernel.table.Ready t ↔ ∃ i, base.slots i = some t := by
  rw [TaskTable.Ready, all.slots]
  constructor
  · exact And.left
  · intro listed
    obtain ⟨i, slot⟩ := listed
    exact ⟨⟨i, slot⟩, all.ready i t slot⟩

/-- `schedule` can pick only the best task. -/
theorem AllReady.picked_eq (all : AllReady base kernel prio) (slotted : base.Slotted)
    (best : Best base prio t) {u : TaskId} (picked : kernel.table.Picked u) : u = t := by
  obtain ⟨i, slot⟩ := best.listed
  obtain ⟨j, other⟩ := all.ready_iff.mp picked.ready
  have isReady := all.ready_iff.mpr best.listed
  have most := picked.most t isReady
  rw [all.prio i t slot, all.prio j u other] at most
  have same : prio u = prio t := le_antisymm (best.most j u other) most
  have first := picked.first t isReady (by rw [all.prio i t slot, all.prio j u other, same])
  rw [all.pid, all.pid] at first
  have pids := le_antisymm first (best.first j u other same)
  rw [(slotted i t slot).2, (slotted j u other).2] at pids
  rw [pids, slot, Option.some_inj] at other
  exact other.symm

/-! ## `schedule` -/

/-- One task changes, but not its pid and its static priority. -/
theorem Shares.retask (shares : Shares base kernel prio) {u : TaskId} {task : TaskStruct}
    (pid : task.pid = (kernel.table.task u).pid)
    (static : task.staticPrio = (kernel.table.task u).staticPrio)
    (startup : kernel.started u = false → task.interruptible = true)
    (own : ∀ i, base.slots i = some u → task.dynamicPrio = prio' u)
    (others : ∀ v, v ≠ u → prio' v = prio v) : Shares base (kernel.retask u task) prio' := by
  have self := kernel.retask_self u task
  have other {v : TaskId} (different : v ≠ u) := kernel.retask_other task different
  refine ⟨shares.slots, fun v => ?_, fun v => ?_, fun i v slot unstarted => ?_,
    fun i v slot => ?_, shares.started⟩
  · by_cases same : v = u
    · rw [same, self, pid, shares.pid]
    · rw [other same, shares.pid]
  · by_cases same : v = u
    · rw [same, self, static, shares.static]
    · rw [other same, shares.static]
  · by_cases same : v = u
    · rw [same] at unstarted ⊢
      rw [self]
      exact startup unstarted
    · rw [other same]
      exact shares.startup i v slot unstarted
  · by_cases same : v = u
    · rw [same] at slot ⊢
      rw [self, own i slot]
    · rw [other same, shares.prio i v slot, others v same]

theorem AllReady.masked (all : AllReady base kernel prio) :
    AllReady base
      { kernel with table := kernel.table.setInterruptible (kernel.current 0) false } prio := by
  have shares : Shares base
      { kernel with table := kernel.table.setInterruptible (kernel.current 0) false } prio := by
    refine all.toShares.retask rfl rfl (fun unstarted => ?_) (fun i slot => ?_) fun _ _ => rfl
    · rw [all.started] at unstarted
      cases unstarted
    · exact all.prio i _ slot
  refine ⟨shares, fun i t slot => ?_⟩
  change (Function.update kernel.table.task (kernel.current 0) _ t).state = .ready
  by_cases same : t = kernel.current 0
  · rw [same] at slot ⊢
    rw [Function.update_self]
    exact all.ready i _ slot
  · rw [Function.update_of_ne same]
    exact all.ready i t slot

/-- A recharge gives every task its static priority. -/
theorem AllReady.recharge (all : AllReady base kernel prio) (slotted : base.Slotted)
    (spent : ∀ i t, base.slots i = some t → prio t = 0)
    (positive : ∀ i t, base.slots i = some t → 1 ≤ (base.task t).staticPrio)
    (word : ∀ i t, base.slots i = some t → (base.task t).staticPrio < 2 ^ 31) :
    AllReady base { kernel with table := kernel.table.scheduleRecharge }
      fun t => (base.task t).staticPrio := by
  have same := kernel.table.scheduleRecharge_same
  have own := all.toShares.slotted slotted
  refine ⟨⟨same.slots.trans all.slots, fun t => ?_, fun t => ?_, fun i t slot unstarted => ?_,
    fun i t slot => ?_, all.started⟩, fun i t slot => ?_⟩
  · rw [same.pid, all.pid]
  · rw [TaskTable.scheduleRecharge_static own, all.static]
  · rw [same.interruptible]
    exact all.startup i t slot unstarted
  · rw [TaskTable.scheduleRecharge_prio own (all.ready_iff.mpr ⟨i, slot⟩), all.static]
    · rw [all.prio i t slot, spent i t slot]
    · rw [all.static]
      exact positive i t slot
    · rw [all.static]
      exact word i t slot
  · rw [same.state]
    exact all.ready i t slot

/-- The CPU continues with one of the tasks. -/
theorem AllReady.resume (all : AllReady base kernel prio) (listed : ∃ i, base.slots i = some t)
    (nonneg : 0 ≤ prio t) (bounded : prio t < 2 ^ 31) :
    Runs base (kernel.resume 0 t) t prio := by
  obtain ⟨place, held⟩ := listed
  have self := kernel.resume_self 0 t
  have other {u : TaskId} (different : u ≠ t) := kernel.resume_other 0 different
  have current := kernel.resume_current 0 t
  have changed : Shares base (kernel.retask t (resumed (kernel.table.task t))) prio :=
    all.toShares.retask rfl rfl (fun _ => rfl) (fun _ _ => all.prio place t held) fun _ _ => rfl
  have shares : Shares base (kernel.resume 0 t) prio := by
    refine ⟨changed.slots, changed.pid, changed.static, fun i u slot unstarted => ?_,
      changed.prio, ?_⟩
    · refine changed.startup i u slot ?_
      change Function.update kernel.started t true u = false at unstarted
      by_cases same : u = t
      · rw [same, Function.update_self] at unstarted
        cases unstarted
      · rwa [Function.update_of_ne same] at unstarted
    · rw [current]
      exact Function.update_self _ _ _
  refine ⟨shares, ⟨place, held⟩, current, ?_, fun i u slot different => ?_⟩
  · rw [self]
    refine ⟨rfl, rfl, ?_, ?_⟩
    · exact nonneg.trans_eq (all.prio place t held).symm
    · exact (all.prio place t held).trans_lt bounded
  · rw [other different]
    exact all.ready i u slot

/-- With a tick left, `schedule` continues with the best task. -/
theorem AllReady.schedule_charged (all : AllReady base kernel prio) (slotted : base.Slotted)
    (best : Best base prio t) (positive : 0 < prio t) (bounded : prio t < 2 ^ 31) :
    ∃ next, kernel.schedule 0 2 = some next ∧ Runs base next t prio := by
  have masked := all.masked
  obtain ⟨i, slot⟩ := best.listed
  obtain ⟨u, picked, -, returned⟩ := TaskTable.scheduleLoop_of_charged
    (masked.toShares.slotted slotted) (masked.ready_iff.mpr best.listed)
    (by rw [masked.prio i t slot]; exact positive)
  rw [masked.picked_eq slotted best picked] at returned
  refine ⟨_, ?_, masked.resume best.listed positive.le bounded⟩
  rw [schedule, returned 1, Option.map_some, ← switchTo_eq_resume (masked.startup i t slot)]

/-- With no tick left, `schedule` recharges and continues with the best task. -/
theorem AllReady.schedule_spent (all : AllReady base kernel prio) (slotted : base.Slotted)
    (spent : ∀ i t, base.slots i = some t → prio t = 0)
    (positive : ∀ i t, base.slots i = some t → 1 ≤ (base.task t).staticPrio)
    (word : ∀ i t, base.slots i = some t → (base.task t).staticPrio < 2 ^ 31)
    (best : Best base (fun t => (base.task t).staticPrio) t) :
    ∃ next, kernel.schedule 0 2 = some next
      ∧ Runs base next t fun t => (base.task t).staticPrio := by
  have masked := all.masked
  have recharged := masked.recharge slotted spent positive word
  obtain ⟨i, slot⟩ := best.listed
  obtain ⟨u, picked, -, returned⟩ := TaskTable.scheduleLoop_of_spent
    (masked.toShares.slotted slotted) (masked.ready_iff.mpr best.listed) (by
      intro u ready
      obtain ⟨j, other⟩ := masked.ready_iff.mp ready
      rw [masked.prio j u other, masked.static]
      exact ⟨spent j u other, positive j u other, word j u other⟩)
  rw [recharged.picked_eq slotted best picked] at returned
  have least := positive i t slot
  refine ⟨_, ?_, recharged.resume best.listed (by omega) (word i t slot)⟩
  rw [schedule, returned 0, Option.map_some, ← switchTo_eq_resume (recharged.startup i t slot)]

/-! ## The tick -/

section Ticks

variable [DecidableEq Sem]

/-- The tick and the `schedule` it may call. -/
theorem tick_eq {table : TaskTable} {calls : Bool}
    (ticked : kernel.table.taskIsrTick (kernel.current 0) = (table, calls)) :
    kernel.tick = if calls then { kernel with table := table }.schedule 0 2
      else some { kernel with table := table } := by
  simp only [tick, step, enter, ticked, Option.bind_some, Nat.zero_lt_one, if_true]

/-- A tick that leaves the task others takes one away. -/
theorem Runs.tick_count (runs : Runs base kernel t prio) (left : 1 < prio t) :
    ∃ next, kernel.tick = some next ∧ Runs base next t (Function.update prio t (prio t - 1)) := by
  obtain ⟨i, slot⟩ := runs.listed
  have own := runs.prio i t slot
  have bounded := runs.running.bounded
  have isCurrent := runs.current
  subst isCurrent
  have ticked := TaskTable.taskIsrTick_running runs.running
  rw [if_pos (by rw [own]; exact left)] at ticked
  refine ⟨_, tick_eq ticked, ?_, runs.listed, rfl, ?_, fun j u other different => ?_⟩
  · refine runs.toShares.retask rfl rfl (fun _ => runs.running.interruptible) (fun _ _ => ?_)
      fun v different => Function.update_of_ne different _ _
    rw [Function.update_self, own]
  · change Running ((kernel.retask (kernel.current 0) _).table.task (kernel.current 0))
    rw [retask_self]
    refine ⟨runs.running.state, runs.running.interruptible, ?_, ?_⟩
    · change 0 ≤ (kernel.table.task (kernel.current 0)).dynamicPrio - 1
      omega
    · change (kernel.table.task (kernel.current 0)).dynamicPrio - 1 < 2 ^ 31
      omega
  · change ((kernel.retask (kernel.current 0) _).table.task u).state = .ready
    rw [kernel.retask_other _ different]
    exact runs.ready j u other different

/-- The last tick of a task leaves every task ready. -/
theorem Runs.tick_last (runs : Runs base kernel t prio) (last : prio t = 1) :
    ∃ called, kernel.tick = called.schedule 0 2
      ∧ AllReady base called (Function.update prio t 0) := by
  obtain ⟨i, slot⟩ := runs.listed
  have own := runs.prio i t slot
  have isCurrent := runs.current
  subst isCurrent
  have ticked := TaskTable.taskIsrTick_running runs.running
  rw [if_neg (by rw [own, last]; decide)] at ticked
  refine ⟨_, tick_eq ticked, ?_, fun j u other => ?_⟩
  · refine runs.toShares.retask rfl rfl (fun _ => runs.running.interruptible) (fun _ _ => ?_)
      fun v different => Function.update_of_ne different _ _
    rw [Function.update_self]
  · change ((kernel.retask (kernel.current 0) _).table.task u).state = .ready
    by_cases same : u = kernel.current 0
    · rw [same, retask_self]
    · rw [kernel.retask_other _ same]
      exact runs.ready j u other same

end Ticks

/-! ## The rounds -/

/-- The dynamic priorities in a round: the running task has `left` ticks, the tasks after
it have all of theirs. -/
def prioAt (base : TaskTable) (t : TaskId) (left : ℕ) (rest : List TaskId) (u : TaskId) : ℤ :=
  if u = t then left else if u ∈ rest then (base.task u).staticPrio else 0

/-- Where the CPU is in a round. -/
def InRound (base : TaskTable) (order : List TaskId) (kernel : AtomicKernel Sem) (t : TaskId)
    (left : ℕ) (rest : List TaskId) : Prop :=
  (∃ before, order = before ++ t :: rest) ∧ Runs base kernel t (prioAt base t left rest)

/-- What is needed of the tasks in the table. -/
structure Weighted (base : TaskTable) (order : List TaskId) : Prop
    extends base.Ordered order where
  slotted : base.Slotted
  positive : ∀ i t, base.slots i = some t → 1 ≤ (base.task t).staticPrio
  word : ∀ i t, base.slots i = some t → (base.task t).staticPrio < 2 ^ 31

theorem Runs.congr (runs : Runs base kernel t prio)
    (same : ∀ i u, base.slots i = some u → prio u = prio' u) : Runs base kernel t prio' :=
  { runs with prio := fun i u slot => (runs.prio i u slot).trans (same i u slot) }

theorem prioAt_self (base : TaskTable) (t : TaskId) (left : ℕ) (rest : List TaskId) :
    prioAt base t left rest t = left :=
  if_pos rfl

theorem update_prioAt (base : TaskTable) (t : TaskId) (left left' : ℕ) (rest : List TaskId) :
    Function.update (prioAt base t left rest) t left' = prioAt base t left' rest := by
  funext u
  by_cases same : u = t
  · rw [same, Function.update_self, prioAt_self]
  · rw [Function.update_of_ne same, prioAt, prioAt, if_neg same, if_neg same]

variable {order rest : List TaskId} {first u : TaskId} {others : List TaskId}

theorem Weighted.nodup (weighted : Weighted base order) : order.Nodup := by
  refine weighted.sorted.imp fun {t u} precedes same => ?_
  rw [same] at precedes
  rcases precedes with less | ⟨-, below⟩
  · exact lt_irrefl _ less
  · exact lt_irrefl _ below

theorem Weighted.share_eq (weighted : Weighted base order) (isTask : t ∈ order) :
    (base.share t : ℤ) = (base.task t).staticPrio := by
  obtain ⟨i, slot⟩ := (weighted.listed t).mp isTask
  have positive := weighted.positive i t slot
  exact Int.toNat_of_nonneg (by omega)

theorem Weighted.share_pos (weighted : Weighted base order) (isTask : t ∈ order) :
    1 ≤ base.share t := by
  obtain ⟨i, slot⟩ := (weighted.listed t).mp isTask
  have positive := weighted.positive i t slot
  have share := weighted.share_eq isTask
  omega

/-- The tasks after the running one are in their order. -/
theorem Weighted.sorted_rest (weighted : Weighted base order) {before : List TaskId}
    (place : order = before ++ t :: rest) : rest.Pairwise base.Precedes := by
  have sorted := weighted.sorted
  rw [place] at sorted
  exact (List.pairwise_cons.mp (List.pairwise_append.mp sorted).2.1).2

theorem Weighted.not_mem_rest (weighted : Weighted base order) {before : List TaskId}
    (place : order = before ++ t :: rest) : t ∉ rest := by
  have nodup := weighted.nodup
  rw [place] at nodup
  exact (List.nodup_cons.mp (List.nodup_append.mp nodup).2.1).1

theorem prioAt_rest (base : TaskTable) (left : ℕ) (notAgain : t ∉ rest) (waits : u ∈ rest) :
    prioAt base t left rest u = (base.task u).staticPrio := by
  have other : u ≠ t := by
    intro same
    rw [same] at waits
    exact notAgain waits
  rw [prioAt, if_neg other, if_pos waits]

theorem prioAt_done (done : u ∉ rest) : prioAt base t 0 rest u = 0 := by
  rw [prioAt, if_neg done, Nat.cast_zero, ite_self]

/-- The first task of a round is the best one after a recharge. -/
theorem Weighted.best_first (weighted : Weighted base (first :: others)) :
    Best base (fun t => (base.task t).staticPrio) first := by
  have after := (List.pairwise_cons.mp weighted.sorted).1
  refine ⟨(weighted.listed first).mp List.mem_cons_self, fun i u slot => ?_,
    fun i u slot same => ?_⟩
  · rcases List.mem_cons.mp ((weighted.listed u).mpr ⟨i, slot⟩) with rfl | later
    · exact le_refl _
    · rcases after u later with less | ⟨equal, -⟩
      · exact less.le
      · exact equal.le
  · rcases List.mem_cons.mp ((weighted.listed u).mpr ⟨i, slot⟩) with rfl | later
    · exact le_refl _
    · rcases after u later with less | ⟨-, below⟩
      · exact absurd same less.ne
      · exact below.le

/-- The next task of a round is the best one when the one before it has no tick left. -/
theorem Weighted.best_next (weighted : Weighted base order) {before : List TaskId}
    (place : order = before ++ t :: u :: rest) :
    Best base (prioAt base t 0 (u :: rest)) u := by
  have isTask : u ∈ order := by
    rw [place]
    exact List.mem_append_right _ (List.mem_cons_of_mem _ List.mem_cons_self)
  obtain ⟨i, slot⟩ := (weighted.listed u).mp isTask
  have positive := weighted.positive i u slot
  have after := (List.pairwise_cons.mp (weighted.sorted_rest place)).1
  have own := prioAt_rest base 0 (weighted.not_mem_rest place) List.mem_cons_self
  refine ⟨⟨i, slot⟩, fun j v other => ?_, fun j v other same => ?_⟩
  · by_cases waits : v ∈ u :: rest
    · rw [own, prioAt_rest base 0 (weighted.not_mem_rest place) waits]
      rcases List.mem_cons.mp waits with rfl | later
      · exact le_refl _
      · rcases after v later with less | ⟨equal, -⟩
        · exact less.le
        · exact equal.le
    · rw [own, prioAt_done waits]
      omega
  · by_cases waits : v ∈ u :: rest
    · rw [own, prioAt_rest base 0 (weighted.not_mem_rest place) waits] at same
      rcases List.mem_cons.mp waits with rfl | later
      · exact le_refl _
      · rcases after v later with less | ⟨-, below⟩
        · exact absurd same less.ne
        · exact below.le
    · rw [own, prioAt_done waits] at same
      omega

/-- When no task has a tick left, a round begins. -/
theorem AllReady.begin_round (all : AllReady base kernel prio)
    (weighted : Weighted base (first :: others))
    (spent : ∀ i t, base.slots i = some t → prio t = 0) :
    ∃ next, kernel.schedule 0 2 = some next
      ∧ InRound base (first :: others) next first (base.share first) others := by
  obtain ⟨next, returned, begins⟩ := all.schedule_spent weighted.slotted spent
    weighted.positive weighted.word weighted.best_first
  refine ⟨next, returned, ⟨[], rfl⟩, begins.congr fun i u slot => ?_⟩
  have isTask := (weighted.listed u).mpr ⟨i, slot⟩
  by_cases same : u = first
  · rw [same, prioAt_self, weighted.share_eq List.mem_cons_self]
  · rw [prioAt_rest base _ (List.nodup_cons.mp weighted.nodup).1
      ((List.mem_cons.mp isTask).resolve_left same)]

section Rounds

variable [DecidableEq Sem]

theorem InRound.count {left : ℕ} (inRound : InRound base order kernel t (left + 2) rest) :
    ∃ next, kernel.tick = some next ∧ InRound base order next t (left + 1) rest := by
  obtain ⟨place, runs⟩ := inRound
  have own := prioAt_self base t (left + 2) rest
  obtain ⟨next, ticked, counted⟩ := runs.tick_count (by rw [own]; omega)
  have less : prioAt base t (left + 2) rest t - 1 = ((left + 1 : ℕ) : ℤ) := by
    rw [own]
    omega
  rw [less, update_prioAt] at counted
  exact ⟨next, ticked, place, counted⟩

theorem InRound.turn (weighted : Weighted base order)
    (inRound : InRound base order kernel t 1 (u :: rest)) :
    ∃ next, kernel.tick = some next ∧ InRound base order next u (base.share u) rest := by
  obtain ⟨⟨before, place⟩, runs⟩ := inRound
  obtain ⟨called, ticked, all⟩ := runs.tick_last (prioAt_self base t 1 (u :: rest))
  have notAgain := weighted.not_mem_rest place
  have own := prioAt_rest base 0 notAgain List.mem_cons_self
  have best := weighted.best_next place
  obtain ⟨i, slot⟩ := best.listed
  have positive := weighted.positive i u slot
  rw [← Nat.cast_zero, update_prioAt] at all
  obtain ⟨next, returned, continues⟩ := all.schedule_charged weighted.slotted best
    (by rw [own]; omega) (by rw [own]; exact weighted.word i u slot)
  have place' : order = (before ++ [t]) ++ u :: rest := by
    rw [place, List.append_assoc]
    rfl
  refine ⟨next, ticked.trans returned, ⟨before ++ [t], place'⟩,
    continues.congr fun j v other => ?_⟩
  by_cases same : v = u
  · rw [same, own, prioAt_self, weighted.share_eq ((weighted.listed u).mpr ⟨i, slot⟩)]
  · by_cases later : v ∈ rest
    · rw [prioAt_rest base 0 notAgain (List.mem_cons_of_mem _ later),
        prioAt_rest base _ (weighted.not_mem_rest place') later]
    · rw [prioAt_done (fun waits => later ((List.mem_cons.mp waits).resolve_left same)), prioAt,
        if_neg same, if_neg later]

theorem InRound.wrap (weighted : Weighted base (first :: others))
    (inRound : InRound base (first :: others) kernel t 1 []) :
    ∃ next, kernel.tick = some next
      ∧ InRound base (first :: others) next first (base.share first) others := by
  obtain ⟨-, runs⟩ := inRound
  obtain ⟨called, ticked, all⟩ := runs.tick_last (prioAt_self base t 1 [])
  rw [← Nat.cast_zero, update_prioAt] at all
  obtain ⟨next, returned, begins⟩ := all.begin_round weighted fun i u slot =>
    prioAt_done List.not_mem_nil
  exact ⟨next, ticked.trans returned, begins⟩

/-- The ticks go through the weighted rounds of the order. -/
theorem inRound_rotates (weighted : Weighted base (first :: others)) :
    Rotates (@tick Sem _) (fun kernel => kernel.current 0) base.share first others
      (InRound base (first :: others)) where
  shows := fun inRound => inRound.2.current
  count := InRound.count
  turn := InRound.turn weighted
  wrap := InRound.wrap weighted
  positive := fun _ isTask => weighted.share_pos isTask

/-- Each round runs every task once, in one slice of as many ticks as its static priority
says, by decreasing static priority and the lowest pid first among equals; in `k` rounds
after the first `schedule`, a task has `k` times its static priority in ticks. -/
def SharesProportionally (kernel : AtomicKernel Sem) : Prop :=
  ∃ order first, kernel.table.Ordered order ∧ kernel.schedule 0 2 = some first ∧
    ∀ k, ∃ last,
      observe tick (fun kernel => kernel.current 0) (k * (order.map kernel.table.share).sum) first
        = some ((List.replicate k (roundOf kernel.table.share order)).flatten, last)
      ∧ ∀ i t, kernel.table.slots i = some t →
          (List.replicate k (roundOf kernel.table.share order)).flatten.count t
            = k * kernel.table.share t

/-- **Tasks that stay runnable have their share.** -/
theorem proportional_share (runnable : kernel.Runnable) : kernel.SharesProportionally := by
  have ordered := TaskTable.ordered_runOrder runnable.slotted
  obtain ⟨i, t, slot⟩ := runnable.nonempty
  have isTask := (ordered.listed t).mpr ⟨i, slot⟩
  obtain ⟨first, others, isOrder⟩ := List.exists_cons_of_ne_nil (List.ne_nil_of_mem isTask)
  rw [isOrder] at ordered
  have weighted : Weighted kernel.table (first :: others) :=
    ⟨ordered, runnable.slotted, runnable.positive, runnable.word⟩
  have all : AllReady kernel.table kernel fun _ => 0 :=
    ⟨⟨rfl, fun _ => rfl, fun _ => rfl, runnable.startup, runnable.spent, runnable.started⟩,
      runnable.ready⟩
  obtain ⟨started, returned, begins⟩ := all.begin_round weighted fun _ _ _ => rfl
  refine ⟨first :: others, started, ordered, returned, fun k => ?_⟩
  obtain ⟨last, observed, -⟩ := (inRound_rotates weighted).rounds begins k
  refine ⟨last, observed, fun j u held => ?_⟩
  exact count_rounds weighted.nodup ((ordered.listed u).mpr ⟨j, held⟩) k

end Rounds

/-- Three tasks, the second with the static priority 2 and the others with 1, and a CPU
that runs a task outside the table. -/
def threeTasks : AtomicKernel Unit where
  table := ⟨fun i => if i < 3 then some i else none, 3,
    fun t => if t < 3 then taskStructNew t (if t = 1 then 2 else 1) else
      bootstrapTask (taskStructNew 0 0), 4⟩
  current _ := 3
  bootstrap _ := 3
  idle _ := 0
  started t := decide (t = 3)
  sem _ := semInit 0

theorem threeTasks_runnable : threeTasks.Runnable := by
  have slots {i : ℕ} {t : TaskId} (slot : threeTasks.table.slots i = some t) :
      t = i ∧ i < 3 := by
    change (if i < 3 then some i else none) = some t at slot
    split at slot
    case isTrue below => exact ⟨(Option.some_inj.mp slot).symm, below⟩
    case isFalse => cases slot
  have listed {i : ℕ} (below : i < 3) :
      threeTasks.table.task i = taskStructNew i (if i = 1 then 2 else 1) := if_pos below
  refine ⟨fun i t slot => ?_, ⟨0, 0, rfl⟩, fun i t slot => ?_, fun i t slot => ?_,
    fun i t slot => ?_, fun i t slot => ?_, fun i t slot _ => ?_, rfl⟩
  all_goals
    obtain ⟨rfl, below⟩ := slots slot
    rw [listed below]
  · exact ⟨below.trans (by decide), rfl⟩
  · rfl
  · rfl
  · change 1 ≤ if t = 1 then (2 : ℤ) else 1
    split <;> decide
  · change (if t = 1 then (2 : ℤ) else 1) < 2 ^ 31
    split <;> decide
  · rfl

/-- The second task has two ticks of every four. -/
theorem proportional_share_three_tasks :
    threeTasks.SharesProportionally
      ∧ (threeTasks.schedule 0 2).bind (fun first =>
          (observe tick (fun kernel => kernel.current 0) 8 first).map Prod.fst)
        = some [1, 1, 0, 2, 1, 1, 0, 2] :=
  ⟨proportional_share threeTasks_runnable, by decide +kernel⟩

end AtomicKernel

end CatchOS.Tasks
