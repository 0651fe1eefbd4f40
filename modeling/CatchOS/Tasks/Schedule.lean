import CatchOS.Lib.FirstMax
import CatchOS.Tasks.SchedulerSafety

/-!
# What `schedule` chooses

The loop of `schedule` when nothing comes between its sections: a scan of the table,
and a recharge of all ready tasks whenever the scan finds no priority above zero. The
scan keeps the first maximum (`CatchOS.Lib.FirstMax`), so the task it finds is `Picked`:
ready, of the greatest priority, and of the lowest pid with it.

The loop ends at once when a ready task has a priority above zero
(`scheduleLoop_of_charged`). When all are at zero, the recharge gives every ready task
its static priority, and the loop ends at the next scan (`scheduleLoop_of_spent`).
Without a ready task it would not end.
-/

set_option autoImplicit false

namespace CatchOS.Tasks

open CatchOS.Lib

/-- A task that is executed between two calls. -/
structure Running (task : TaskStruct) : Prop where
  state : task.state = .running
  interruptible : task.interruptible = true
  nonneg : 0 ≤ task.dynamicPrio
  bounded : task.dynamicPrio < 2 ^ 31

namespace TaskTable

/-- The loop of `schedule`, with the number of scans it is given: the table in which the
task of the chosen slot is marked as running, and this task. -/
def scheduleLoop : ℕ → TaskTable → Option (TaskTable × TaskId)
  | 0, _ => none
  | turns + 1, table =>
      let found := table.scheduleScan
      if 0 < found.1 then
        (table.slots found.2).map fun t => (table.setState t .running, t)
      else scheduleLoop turns table.scheduleRecharge

/-- Every task in the table is in the slot of its pid. -/
def Slotted (table : TaskTable) : Prop :=
  ∀ i t, table.slots i = some t → i < maxConcurrentTasks ∧ (table.task t).pid = i

/-- A task in the table that `schedule` may choose. -/
def Ready (table : TaskTable) (t : TaskId) : Prop :=
  (∃ i, table.slots i = some t) ∧ (table.task t).state = .ready

/-- The choice of `schedule`: a ready task of the greatest dynamic priority among the
ready tasks, and of the lowest pid among those with it. -/
structure Picked (table : TaskTable) (t : TaskId) : Prop where
  ready : table.Ready t
  most : ∀ u, table.Ready u → (table.task u).dynamicPrio ≤ (table.task t).dynamicPrio
  first : ∀ u, table.Ready u → (table.task u).dynamicPrio = (table.task t).dynamicPrio →
    (table.task t).pid ≤ (table.task u).pid

variable {table : TaskTable} {t u : TaskId}

/-! ## The scan -/

/-- The priority that a slot competes with. -/
def slotPrio (table : TaskTable) (i : ℕ) : Option ℤ :=
  match table.slots i with
  | some t =>
      if (table.task t).state = .ready then some (table.task t).dynamicPrio else none
  | none => none

theorem slotPrio_ready (ready : (table.task t).state = .ready) {i : ℕ}
    (slot : table.slots i = some t) : table.slotPrio i = some (table.task t).dynamicPrio := by
  simp only [slotPrio, slot, ready, if_true]

theorem scanSlot_eq (table : TaskTable) : table.scanSlot = keepGreater table.slotPrio := by
  funext best i
  unfold scanSlot keepGreater slotPrio
  cases table.slots i with
  | none => rfl
  | some t =>
      by_cases ready : (table.task t).state = .ready
      · simp only [ready, true_and, if_true]
      · simp only [ready, false_and, if_false]

theorem scheduleScan_firstMax (table : TaskTable) :
    FirstMax table.slotPrio (List.range maxConcurrentTasks) (-1) table.scheduleScan := by
  rw [scheduleScan, scanSlot_eq]
  exact FirstMax.of_foldl _ _ _ _ List.pairwise_lt_range

/-- The scan finds at least the priority of every ready task. -/
theorem le_scheduleScan (slotted : table.Slotted) (ready : table.Ready t) :
    (table.task t).dynamicPrio ≤ table.scheduleScan.1 := by
  obtain ⟨⟨i, slot⟩, isReady⟩ := ready
  exact table.scheduleScan_firstMax.most i (List.mem_range.mpr (slotted i t slot).1) _
    (slotPrio_ready isReady slot)

/-- A scan that finds a priority of at least zero finds the first maximum. -/
theorem scheduleScan_picked (slotted : table.Slotted) (found : -1 < table.scheduleScan.1) :
    ∃ t, table.slots table.scheduleScan.2 = some t
      ∧ (table.task t).dynamicPrio = table.scheduleScan.1 ∧ table.Picked t := by
  have max := table.scheduleScan_firstMax
  have hasPrio := (max.found found).2
  unfold slotPrio at hasPrio
  cases slot : table.slots table.scheduleScan.2 with
  | none =>
      rw [slot] at hasPrio
      cases hasPrio
  | some t =>
      simp only [slot, Option.ite_none_right_eq_some, Option.some_inj] at hasPrio
      obtain ⟨ready, prio⟩ := hasPrio
      refine ⟨t, rfl, prio, ⟨⟨_, slot⟩, ready⟩, fun u isReady => ?_, fun u isReady same => ?_⟩
      · rw [prio]
        exact le_scheduleScan slotted isReady
      · obtain ⟨⟨i, other⟩, otherReady⟩ := isReady
        obtain ⟨inside, pid⟩ := slotted i u other
        rw [(slotted _ t slot).2, pid]
        refine max.first found i (List.mem_range.mpr inside) ?_
        rw [slotPrio_ready otherReady other, same, prio]

/-! ## The recharge -/

/-- What a recharge makes of a task in the table. -/
def recharged (task : TaskStruct) : TaskStruct :=
  if task.state = .ready then
    { task with dynamicPrio := int32 (task.dynamicPrio / 2 + task.staticPrio) }
  else task

theorem rechargeSlot_full {i : ℕ} (slot : table.slots i = some t) :
    table.rechargeSlot i = table.modify t recharged := by
  have turn : table.rechargeSlot i
      = if (table.task t).state = .ready then
          table.setDynamicPrio t
            (int32 ((table.task t).dynamicPrio / 2 + (table.task t).staticPrio))
        else table := by
    rw [rechargeSlot, slot]
  rw [turn, modify, recharged]
  split
  · rfl
  · rw [Function.update_eq_self]

theorem rechargeSlot_empty {i : ℕ} (empty : table.slots i = none) :
    table.rechargeSlot i = table := by
  simp only [rechargeSlot, empty]

/-- The tasks after `n` turns of the recharge. -/
def rechargedBelow (table : TaskTable) (n : ℕ) (u : TaskId) : TaskStruct :=
  if (table.task u).pid < n ∧ table.slots (table.task u).pid = some u then
    recharged (table.task u)
  else table.task u

/-- A slot in its turn adds its own task. -/
theorem rechargedBelow_succ (slotted : table.Slotted) {n : ℕ} (slot : table.slots n = some t) :
    table.rechargedBelow (n + 1)
      = Function.update (table.rechargedBelow n) t (recharged (table.task t)) := by
  have pid : (table.task t).pid = n := (slotted n t slot).2
  funext u
  by_cases own : u = t
  · subst own
    rw [Function.update_self, rechargedBelow, if_pos]
    exact ⟨by omega, by rw [pid, slot]⟩
  · rw [Function.update_of_ne own, rechargedBelow, rechargedBelow]
    refine if_congr (and_congr_left fun held => ?_) rfl rfl
    have other : (table.task u).pid ≠ n := by
      intro same
      rw [same, slot, Option.some_inj] at held
      exact own held.symm
    omega

theorem rechargedBelow_empty {n : ℕ} (empty : table.slots n = none) :
    table.rechargedBelow (n + 1) = table.rechargedBelow n := by
  funext u
  refine if_congr (and_congr_left fun held => ?_) rfl rfl
  have other : (table.task u).pid ≠ n := by
    intro same
    rw [same, empty] at held
    cases held
  omega

/-- The induction is on the turns: each one recharges the task of its slot, which no
earlier turn has changed. -/
theorem recharge_turns (slotted : table.Slotted) (n : ℕ) :
    (List.range n).foldl rechargeSlot table
      = { table with task := table.rechargedBelow n } := by
  induction n with
  | zero =>
      have nothing : table.rechargedBelow 0 = table.task := by
        funext u
        exact if_neg fun both => Nat.not_lt_zero _ both.1
      rw [nothing]
      rfl
  | succ n ih =>
      rw [List.range_succ, List.foldl_append, ih]
      change rechargeSlot _ n = _
      cases slot : table.slots n with
      | none => rw [rechargedBelow_empty slot, rechargeSlot_empty (by exact slot)]
      | some t =>
          have untouched : table.rechargedBelow n t = table.task t := by
            refine if_neg fun both => ?_
            rw [(slotted n t slot).2] at both
            exact Nat.lt_irrefl n both.1
          rw [rechargedBelow_succ slotted slot, rechargeSlot_full (by exact slot), modify]
          change { table with task := Function.update _ t (recharged (table.rechargedBelow n t)) }
            = _
          rw [untouched]

/-- The recharge changes the priorities of the ready tasks in the table only. -/
theorem scheduleRecharge_task (slotted : table.Slotted) (u : TaskId) :
    table.scheduleRecharge.task u
      = if table.slots (table.task u).pid = some u then recharged (table.task u)
        else table.task u := by
  rw [scheduleRecharge, recharge_turns slotted]
  refine if_congr ⟨And.right, fun held => ⟨?_, held⟩⟩ rfl rfl
  exact (slotted _ u held).1

theorem scheduleRecharge_slots (table : TaskTable) :
    table.scheduleRecharge.slots = table.slots :=
  table.scheduleRecharge_same.slots

/-- Being in the table, ready, and in the slot of the pid are left as they are. -/
theorem scheduleRecharge_ready : table.scheduleRecharge.Ready t ↔ table.Ready t := by
  rw [Ready, Ready, scheduleRecharge_slots, table.scheduleRecharge_same.state]

theorem Slotted.scheduleRecharge (slotted : table.Slotted) : table.scheduleRecharge.Slotted := by
  intro i t slot
  rw [scheduleRecharge_slots] at slot
  rw [table.scheduleRecharge_same.pid]
  exact slotted i t slot

/-- A task that is not ready is left as it is. -/
theorem scheduleRecharge_other (slotted : table.Slotted)
    (notReady : (table.task t).state ≠ .ready) :
    table.scheduleRecharge.task t = table.task t := by
  rw [scheduleRecharge_task slotted, recharged, if_neg notReady, ite_self]

theorem scheduleRecharge_static (slotted : table.Slotted) (t : TaskId) :
    (table.scheduleRecharge.task t).staticPrio = (table.task t).staticPrio := by
  rw [scheduleRecharge_task slotted, recharged]
  split
  · split <;> rfl
  · rfl

/-- A ready task whose priority is zero receives its static priority. -/
theorem scheduleRecharge_prio (slotted : table.Slotted) (ready : table.Ready t)
    (spent : (table.task t).dynamicPrio = 0) (positive : 1 ≤ (table.task t).staticPrio)
    (bounded : (table.task t).staticPrio < 2 ^ 31) :
    (table.scheduleRecharge.task t).dynamicPrio = (table.task t).staticPrio := by
  obtain ⟨⟨i, slot⟩, isReady⟩ := ready
  have held : table.slots (table.task t).pid = some t := by rwa [(slotted i t slot).2]
  rw [scheduleRecharge_task slotted, if_pos held, recharged, if_pos isReady]
  change int32 ((table.task t).dynamicPrio / 2 + (table.task t).staticPrio) = _
  rw [spent, Int.zero_ediv, zero_add, int32_eq (by omega) bounded]

/-! ## The loop -/

/-- More turns do not change what the loop returns. -/
theorem scheduleLoop_more {turns : ℕ} {chosen : TaskTable × TaskId}
    (returned : table.scheduleLoop turns = some chosen) (more : ℕ) :
    table.scheduleLoop (turns + more) = some chosen := by
  induction turns generalizing table with
  | zero => cases returned
  | succ turns ih =>
      rw [Nat.add_right_comm]
      unfold scheduleLoop at returned ⊢
      simp only at returned ⊢
      split at returned
      case isTrue above => rwa [if_pos above]
      case isFalse spent =>
        rw [if_neg spent]
        exact ih returned

/-- With a ready task above zero the loop ends at the first scan. -/
theorem scheduleLoop_of_charged (slotted : table.Slotted) (ready : table.Ready u)
    (charged : 0 < (table.task u).dynamicPrio) :
    ∃ t, table.Picked t ∧ 0 < (table.task t).dynamicPrio
      ∧ ∀ turns, table.scheduleLoop (turns + 1) = some (table.setState t .running, t) := by
  have above : 0 < table.scheduleScan.1 := charged.trans_le (le_scheduleScan slotted ready)
  obtain ⟨t, slot, prio, picked⟩ := scheduleScan_picked slotted (by omega)
  refine ⟨t, picked, by rwa [prio], fun turns => ?_⟩
  rw [scheduleLoop]
  rw [if_pos above, slot, Option.map_some]

/-- With all ready tasks at zero, and at least one, the loop ends after one recharge. -/
theorem scheduleLoop_of_spent (slotted : table.Slotted) (ready : table.Ready u)
    (spent : ∀ t, table.Ready t → (table.task t).dynamicPrio = 0
      ∧ 1 ≤ (table.task t).staticPrio ∧ (table.task t).staticPrio < 2 ^ 31) :
    ∃ t, table.scheduleRecharge.Picked t
      ∧ 0 < (table.scheduleRecharge.task t).dynamicPrio
      ∧ ∀ turns, table.scheduleLoop (turns + 2)
          = some (table.scheduleRecharge.setState t .running, t) := by
  have nothing : ¬ 0 < table.scheduleScan.1 := by
    intro above
    obtain ⟨t, -, prio, picked⟩ := scheduleScan_picked slotted (by omega)
    rw [← prio, (spent t picked.ready).1] at above
    exact lt_irrefl 0 above
  obtain ⟨zero, positive, bounded⟩ := spent u ready
  have charged : 0 < (table.scheduleRecharge.task u).dynamicPrio := by
    rw [scheduleRecharge_prio slotted ready zero positive bounded]
    omega
  obtain ⟨t, picked, prio, returned⟩ :=
    scheduleLoop_of_charged slotted.scheduleRecharge (scheduleRecharge_ready.mpr ready) charged
  refine ⟨t, picked, prio, fun turns => ?_⟩
  rw [scheduleLoop]
  rw [if_neg nothing, returned turns]


/-! ## The tick -/

/-- A tick takes one from the priority of the running task. It calls `schedule` when
nothing is left, with the task ready. -/
theorem taskIsrTick_running (running : Running (table.task t)) :
    table.taskIsrTick t
      = if 1 < (table.task t).dynamicPrio then
          (table.modify t fun _ =>
            { table.task t with
              dynamicPrio := (table.task t).dynamicPrio - 1
              sleepAvg := int32 ((table.task t).sleepAvg - 1) }, false)
        else
          (table.modify t fun _ =>
            { table.task t with
              dynamicPrio := 0
              sleepAvg := int32 ((table.task t).sleepAvg - 1)
              state := .ready }, true) := by
  have nonneg := running.nonneg
  have bounded := running.bounded
  have left : int32 ((table.task t).dynamicPrio - 1) = (table.task t).dynamicPrio - 1 :=
    int32_eq (by omega) (by omega)
  unfold taskIsrTick
  simp only [left, running.interruptible, running.state, makeReady, Bool.true_eq_false, false_or,
    Int.sub_pos]

end TaskTable

end CatchOS.Tasks
