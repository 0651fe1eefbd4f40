import CatchOS.Lib.Transition
import CatchOS.Tasks.TaskStruct
import Mathlib.Data.Finset.Card
import Mathlib.Data.Finset.Range
import Mathlib.Logic.Function.Basic

/-!
# The task table

`_tasks` and `_nr_tasks` of `tasks.c`, and the three sections under
`lock_tasklist` that change or search them: `task_new` looks for a free slot under
the read lock and fills it under a later write lock, and
`on_current_task_return_cb` empties the slot of the task that returns.

Any number of calls of `task_new` are in progress at once. Between the two
sections of a call other calls run theirs, so the slot a call has chosen may be
taken when the call fills it. Between them the call also makes its two requests for
memory, and it does not look at what `mmu_mmap` returned: without a structure it
stores `NULL` in the slot and counts a task that is not there, and without a stack
it stores the frame of the task below the address `stack_size`.

In runs in which neither happens (`TableGuard`) every live task is in the slot of
its pid and the count is right (`task_table_accounted`). A write section keeps the
accounts exactly if its slot is free and it has a structure
(`TableInvariant.fill_accounted_iff`); two calls are enough to lose a slot
otherwise (`task_table_overwritten`).
-/

set_option autoImplicit false

namespace CatchOS.Tasks

open CatchOS.Lib

/-- `_tasks` and `_nr_tasks`, and the `task_struct` behind each name. Names from
`nextId` on have not been given out. -/
structure TaskTable where
  slots : ℕ → Option TaskId
  nrTasks : ℤ
  task : TaskId → TaskStruct
  nextId : TaskId

namespace TaskTable

/-- The loop of `task_new`: the lowest index below the limit whose slot is
`NULL`. -/
def findFree (table : TaskTable) : Option ℕ :=
  (List.range maxConcurrentTasks).find? fun i => (table.slots i).isNone

/-- The write section of `task_new`, after the task was set up. -/
def fill (table : TaskTable) (pid : ℕ) (priority : ℤ) : TaskTable where
  slots := Function.update table.slots pid (some table.nextId)
  nrTasks := int32 (table.nrTasks + 1)
  task := Function.update table.task table.nextId (taskStructNew pid priority)
  nextId := table.nextId + 1

/-- The write section of `task_new` when `newtask` is `NULL`. -/
def fillNull (table : TaskTable) (pid : ℕ) : TaskTable :=
  { table with
    slots := Function.update table.slots pid none
    nrTasks := int32 (table.nrTasks + 1) }

/-- The write section of `on_current_task_return_cb`. -/
def unlink (table : TaskTable) (t : TaskId) : TaskTable :=
  { table with
    slots := Function.update table.slots (table.task t).pid none
    nrTasks := int32 (table.nrTasks - 1) }

section Slots

variable {table : TaskTable} {pid i : ℕ} {priority : ℤ} {t u : TaskId}

theorem fill_task_new (table : TaskTable) (pid : ℕ) (priority : ℤ) :
    (table.fill pid priority).task table.nextId = taskStructNew pid priority :=
  Function.update_self _ _ _

theorem fill_task_old (old : t ≠ table.nextId) :
    (table.fill pid priority).task t = table.task t :=
  Function.update_of_ne old _ _

/-- A filled slot holds the new task, the others what they held. -/
theorem fill_slot (slot : (table.fill pid priority).slots i = some t) :
    i = pid ∧ t = table.nextId ∨ i ≠ pid ∧ table.slots i = some t := by
  change Function.update table.slots pid _ i = some t at slot
  by_cases here : i = pid
  · rw [here, Function.update_self, Option.some_inj] at slot
    exact Or.inl ⟨here, slot.symm⟩
  · rw [Function.update_of_ne here] at slot
    exact Or.inr ⟨here, slot⟩

theorem fill_kept (free : table.slots pid = none) (slot : table.slots i = some t) :
    (table.fill pid priority).slots i = some t := by
  refine (Function.update_of_ne (fun here => ?_) _ _).trans slot
  rw [here, free] at slot
  cases slot

theorem unlink_slot (slot : (table.unlink u).slots i = some t) : table.slots i = some t := by
  change Function.update table.slots (table.task u).pid none i = some t at slot
  by_cases here : i = (table.task u).pid
  · rw [here, Function.update_self] at slot
    cases slot
  · rwa [Function.update_of_ne here] at slot

theorem unlink_kept (held : table.slots (table.task u).pid = some u)
    (slot : table.slots i = some t) (other : t ≠ u) : (table.unlink u).slots i = some t := by
  refine (Function.update_of_ne (fun here => ?_) _ _).trans slot
  rw [here, held, Option.some_inj] at slot
  exact other slot.symm

end Slots

/-- The slots that are not `NULL`. -/
def occupied (table : TaskTable) : Finset ℕ :=
  (Finset.range maxConcurrentTasks).filter fun i => (table.slots i).isSome

theorem mem_occupied {table : TaskTable} {i : ℕ} :
    i ∈ table.occupied ↔ i < maxConcurrentTasks ∧ (table.slots i).isSome = true := by
  rw [occupied, Finset.mem_filter, Finset.mem_range]

theorem occupied_le (table : TaskTable) : table.occupied.card ≤ maxConcurrentTasks := by
  have bound := Finset.card_filter_le (Finset.range maxConcurrentTasks)
    fun i => (table.slots i).isSome = true
  rwa [Finset.card_range] at bound

/-- A slot that is found is free. -/
theorem findFree_some {table : TaskTable} {pid : ℕ} (found : table.findFree = some pid) :
    pid < maxConcurrentTasks ∧ table.slots pid = none := by
  have free := List.find?_some found
  have member := List.mem_of_find?_eq_some found
  exact ⟨List.mem_range.mp member, Option.isNone_iff_eq_none.mp free⟩

theorem occupied_fill {table : TaskTable} {pid : ℕ} (priority : ℤ)
    (inside : pid < maxConcurrentTasks) :
    (table.fill pid priority).occupied = insert pid table.occupied := by
  ext i
  rw [mem_occupied, Finset.mem_insert, mem_occupied]
  by_cases same : i = pid
  · simp [same, inside, fill]
  · simp [same, fill]

theorem occupied_fillNull (table : TaskTable) (pid : ℕ) :
    (table.fillNull pid).occupied = table.occupied.erase pid := by
  ext i
  rw [mem_occupied, Finset.mem_erase, mem_occupied]
  by_cases same : i = pid
  · simp [same, fillNull]
  · simp [same, fillNull]

theorem occupied_unlink (table : TaskTable) (t : TaskId) :
    (table.unlink t).occupied = table.occupied.erase (table.task t).pid := by
  ext i
  rw [mem_occupied, Finset.mem_erase, mem_occupied]
  by_cases same : i = (table.task t).pid
  · simp [same, unlink]
  · simp [same, unlink]

end TaskTable

/-! ## Calls of `task_new` and returns -/

/-- Where a call of `task_new` is. -/
inductive NewPoint where
  | idle
  | search (priority : ℤ)
  /-- The two calls of `mmu_mmap` are next, and the task is set up. -/
  | request (pid : ℕ) (priority : ℤ)
  /-- The write section is next; `given` says that `newtask` is not `NULL`. -/
  | fill (pid : ℕ) (priority : ℤ) (given : Bool)
  deriving DecidableEq

/-- The table, the calls in progress, and the tasks that `task_new` returned and
that have not returned themselves. -/
structure TableRun (Caller : Type) where
  table : TaskTable
  point : Caller → NewPoint
  live : TaskId → Bool

inductive TableAction (Caller : Type) where
  | taskNew (caller : Caller) (priority : ℤ)
  | run (caller : Caller)
  /-- Which of the requests return a block. Without a stack the stores go to `stack_size` and
  below, wherever that is; `left` is the table that they leave. -/
  | request (caller : Caller) (structGiven stackGiven : Bool) (left : TaskTable)
  | taskReturn (t : TaskId)

section Steps

variable {Caller : Type} [DecidableEq Caller]

namespace TableRun

def moveTo (run : TableRun Caller) (caller : Caller) (point : NewPoint) : TableRun Caller :=
  { run with point := Function.update run.point caller point }

/-- The requests have returned, and the task is set up. -/
def setUp (run : TableRun Caller) (caller : Caller) (pid : ℕ) (priority : ℤ)
    (structGiven stackGiven : Bool) (left : TaskTable) : TableRun Caller :=
  { run with table := if stackGiven then run.table else left }.moveTo caller
    (.fill pid priority structGiven)

/-- The last section of `task_new`, and its return. -/
def fill (run : TableRun Caller) (caller : Caller) (pid : ℕ) (priority : ℤ) (given : Bool) :
    TableRun Caller where
  table := if given then run.table.fill pid priority else run.table.fillNull pid
  point := Function.update run.point caller .idle
  live := if given then Function.update run.live run.table.nextId true else run.live

/-- A task returns. -/
def unlink (run : TableRun Caller) (t : TaskId) : TableRun Caller :=
  { run with
    table := run.table.unlink t
    live := Function.update run.live t false }

/-- A call first compares `_nr_tasks` with the limit, then searches the table, requests its
memory, and fills a slot; it returns `NULL` at the limit and when no slot is free. A live task
may return. -/
def step (run : TableRun Caller) : TableAction Caller → Option (TableRun Caller)
  | .taskNew caller priority =>
      if run.point caller = .idle then
        if run.table.nrTasks = maxConcurrentTasks then some run
        else some (run.moveTo caller (.search priority))
      else none
  | .run caller =>
      match run.point caller with
      | .idle | .request _ _ => none
      | .search priority =>
          match run.table.findFree with
          | none => some (run.moveTo caller .idle)
          | some pid => some (run.moveTo caller (.request pid priority))
      | .fill pid priority given => some (run.fill caller pid priority given)
  | .request caller structGiven stackGiven left =>
      match run.point caller with
      | .request pid priority =>
          some (run.setUp caller pid priority structGiven stackGiven left)
      | .idle | .search _ | .fill _ _ _ => none
  | .taskReturn t => if run.live t then some (run.unlink t) else none

/-- **What a step does**, with the condition under which it is possible. -/
inductive Steps (run : TableRun Caller) : TableAction Caller → TableRun Caller → Prop where
  | full {caller : Caller} {priority : ℤ} : Steps run (.taskNew caller priority) run
  | start {caller : Caller} {priority : ℤ} :
      Steps run (.taskNew caller priority) (run.moveTo caller (.search priority))
  | noSlot {caller : Caller} : Steps run (.run caller) (run.moveTo caller .idle)
  | found {caller : Caller} {pid : ℕ} {priority : ℤ} : run.table.findFree = some pid →
      Steps run (.run caller) (run.moveTo caller (.request pid priority))
  | setUp {caller : Caller} {pid : ℕ} {priority : ℤ} {structGiven stackGiven : Bool}
      {left : TaskTable} : run.point caller = .request pid priority →
      Steps run (.request caller structGiven stackGiven left)
        (run.setUp caller pid priority structGiven stackGiven left)
  | fill {caller : Caller} {pid : ℕ} {priority : ℤ} {given : Bool} :
      run.point caller = .fill pid priority given →
      Steps run (.run caller) (run.fill caller pid priority given)
  | unlink {t : TaskId} : run.live t = true → Steps run (.taskReturn t) (run.unlink t)

theorem steps_of_step {run next : TableRun Caller} {action : TableAction Caller}
    (stepped : run.step action = some next) : run.Steps action next := by
  cases action with
  | taskNew caller priority =>
      simp only [step, Option.ite_none_right_eq_some] at stepped
      obtain ⟨-, stepped⟩ := stepped
      split at stepped
      · exact Option.some.inj stepped ▸ .full
      · exact Option.some.inj stepped ▸ .start
  | run caller =>
      cases point : run.point caller with
      | idle | request pid priority => simp only [step, point, reduceCtorEq] at stepped
      | search priority =>
          cases found : run.table.findFree with
          | none =>
              simp only [step, point, found, Option.some.injEq] at stepped
              exact stepped ▸ .noSlot
          | some pid =>
              simp only [step, point, found, Option.some.injEq] at stepped
              exact stepped ▸ .found found
      | fill pid priority given =>
          simp only [step, point, Option.some.injEq] at stepped
          exact stepped ▸ .fill point
  | request caller structGiven stackGiven left =>
      cases point : run.point caller with
      | idle | search priority | fill pid priority given =>
          simp only [step, point, reduceCtorEq] at stepped
      | request pid priority =>
          simp only [step, point, Option.some.injEq] at stepped
          exact stepped ▸ .setUp point
  | taskReturn t =>
      simp only [step, Option.ite_none_right_eq_some, Option.some.injEq] at stepped
      exact stepped.2 ▸ .unlink stepped.1

end TableRun

/-- The table is empty and no call is in progress. -/
def tableSystem (Caller : Type) [DecidableEq Caller] :
    System (TableRun Caller) (TableAction Caller) where
  initial run := (∀ i, run.table.slots i = none) ∧ run.table.nrTasks = 0 ∧
    (∀ caller, run.point caller = .idle) ∧ (∀ t, run.live t = false)
  step := TableRun.step

/-! ## Accounting -/

/-- A call fills only a slot that is still free, and both its requests return a block. -/
def TableGuard (run : TableRun Caller) : TableAction Caller → Prop
  | .run caller => ∀ pid priority given, run.point caller = .fill pid priority given →
      run.table.slots pid = none
  | .request _ structGiven stackGiven _ => structGiven = true ∧ stackGiven = true
  | .taskNew _ _ | .taskReturn _ => True

instance (run : TableRun Caller) : ∀ action, Decidable (TableGuard run action)
  | .run caller =>
      match h : run.point caller with
      | .fill pid priority given => decidable_of_iff (run.table.slots pid = none) (by
          constructor
          · rintro free _ _ _ filling
            rw [h, NewPoint.fill.injEq] at filling
            rw [← filling.1]
            exact free
          · intro allowed
            exact allowed pid priority given h)
      | .idle | .search _ | .request _ _ =>
          isTrue fun _ _ _ filling => by rw [h] at filling; cases filling
  | .request _ structGiven stackGiven _ =>
      inferInstanceAs (Decidable (structGiven = true ∧ stackGiven = true))
  | .taskNew _ _ | .taskReturn _ => isTrue trivial

/-- Every live task is in the slot of its own pid, two live tasks have different
pids, and `_nr_tasks` is the number of slots in use and at most the limit. -/
def TableAccounted (run : TableRun Caller) : Prop :=
  (∀ t, run.live t = true → (run.table.task t).pid < maxConcurrentTasks ∧
    run.table.slots (run.table.task t).pid = some t) ∧
  (∀ t u, run.live t = true → run.live u = true →
    (run.table.task t).pid = (run.table.task u).pid → t = u) ∧
  run.table.nrTasks = run.table.occupied.card ∧ run.table.nrTasks ≤ maxConcurrentTasks

/-- A slot that was chosen is one of the table, and a call that goes on has its structure. -/
def NewPoint.Sound : NewPoint → Prop
  | .idle | .search _ => True
  | .request pid _ => pid < maxConcurrentTasks
  | .fill pid _ given => pid < maxConcurrentTasks ∧ given = true

structure TableInvariant (run : TableRun Caller) : Prop where
  slot : ∀ i t, run.table.slots i = some t ↔ run.live t = true ∧ (run.table.task t).pid = i
  bound : ∀ t, run.live t = true → (run.table.task t).pid < maxConcurrentTasks
  fresh : ∀ t, run.live t = true → t < run.table.nextId
  sound : ∀ caller, (run.point caller).Sound
  count : run.table.nrTasks = run.table.occupied.card

namespace TableInvariant

variable {run next : TableRun Caller} {action : TableAction Caller} {caller : Caller}

omit [DecidableEq Caller] in
/-- **The accounts of the table** follow from the invariant. -/
theorem accounted (invariant : TableInvariant run) : TableAccounted run := by
  have ⟨slot, bound, _, _, count⟩ := invariant
  refine ⟨fun t live => ⟨bound t live, (slot _ t).mpr ⟨live, rfl⟩⟩,
    fun t u liveT liveU same => ?_, count, ?_⟩
  · have first := (slot _ t).mpr ⟨liveT, rfl⟩
    have second := (slot _ u).mpr ⟨liveU, rfl⟩
    rw [same, second, Option.some.injEq] at first
    exact first.symm
  · rw [count]
    exact_mod_cast run.table.occupied_le

/-- A call goes on to a point that is sound. -/
theorem update (sound : ∀ caller, (run.point caller).Sound) {point : NewPoint}
    (isSound : point.Sound) (other : Caller) :
    (Function.update run.point caller point other).Sound := by
  by_cases same : other = caller
  · rw [same, Function.update_self]
    exact isSound
  · rw [Function.update_of_ne same]
    exact sound other

omit [DecidableEq Caller] in
/-- The next count is exact. -/
theorem count_succ (invariant : TableInvariant run) :
    int32 (run.table.nrTasks + 1) = run.table.occupied.card + 1 := by
  have size := run.table.occupied_le
  unfold maxConcurrentTasks at size
  rw [invariant.count, int32_eq (by omega) (by omega)]

/-- Filling a free slot gives a new live task its own slot. -/
theorem fill (invariant : TableInvariant run) {pid : ℕ} {priority : ℤ}
    (inside : pid < maxConcurrentTasks) (free : run.table.slots pid = none) :
    TableInvariant (run.fill caller pid priority true) := by
  have ⟨slot, bound, fresh, sound, _⟩ := invariant
  have unused : run.live run.table.nextId ≠ true := fun live => lt_irrefl _ (fresh _ live)
  refine ⟨fun i t => ?_, fun t live => ?_, fun t live => ?_, update sound trivial, ?_⟩
  · by_cases new : t = run.table.nextId
    · subst new
      by_cases here : i = pid
      · simp [TableRun.fill, TaskTable.fill, taskStructNew, here]
      · have before := slot i run.table.nextId
        simp only [TableRun.fill, TaskTable.fill, taskStructNew, Function.update_of_ne here,
          Function.update_self, before, if_true]
        exact ⟨fun old => absurd old.1 unused, fun own => absurd own.2.symm here⟩
    · simp only [TableRun.fill, TaskTable.fill, Function.update_of_ne new, if_true]
      by_cases here : i = pid
      · subst here
        rw [Function.update_self, ← slot i t, free]
        simp [Ne.symm new]
      · rw [Function.update_of_ne here]
        exact slot i t
  · by_cases new : t = run.table.nextId
    · subst new
      simpa [TableRun.fill, TaskTable.fill, taskStructNew] using inside
    · simp only [TableRun.fill, TaskTable.fill, Function.update_of_ne new, if_true] at live ⊢
      exact bound t live
  · by_cases new : t = run.table.nextId
    · subst new
      exact Nat.lt_succ_self _
    · simp only [TableRun.fill, TaskTable.fill, Function.update_of_ne new, if_true] at live ⊢
      exact (fresh t live).trans (Nat.lt_succ_self _)
  · have notUsed : pid ∉ run.table.occupied := by simp [TaskTable.mem_occupied, free]
    have grown : (run.table.fill pid priority).occupied.card = run.table.occupied.card + 1 := by
      rw [TaskTable.occupied_fill priority inside, Finset.card_insert_of_notMem notUsed]
    refine invariant.count_succ.trans ?_
    exact_mod_cast grown.symm

/-- **A write section** keeps the accounts exactly if its slot is free and it has a structure. -/
theorem fill_accounted_iff (invariant : TableInvariant run) {pid : ℕ} {priority : ℤ}
    {given : Bool} (inside : pid < maxConcurrentTasks) :
    TableAccounted (run.fill caller pid priority given) ↔
      run.table.slots pid = none ∧ given = true := by
  constructor
  · intro accounted
    have given' : given = true := by
      by_contra missing
      rw [Bool.not_eq_true] at missing
      subst missing
      have counted : int32 (run.table.nrTasks + 1) = (run.table.fillNull pid).occupied.card :=
        accounted.2.2.1
      have fewer := Finset.card_erase_le (s := run.table.occupied) (a := pid)
      rw [invariant.count_succ, TaskTable.occupied_fillNull] at counted
      omega
    refine ⟨Option.eq_none_iff_forall_ne_some.mpr fun t held => ?_, given'⟩
    -- The task that had the slot is live and has lost it.
    obtain ⟨live, pid'⟩ := (invariant.slot pid t).mp held
    have old : t ≠ run.table.nextId := (invariant.fresh t live).ne
    have still := (accounted.1 t (by simp [TableRun.fill, given', old, live])).2
    simp [TableRun.fill, TaskTable.fill, given', old, pid', Ne.symm old] at still
  · rintro ⟨free, rfl⟩
    exact (invariant.fill inside free).accounted

omit [DecidableEq Caller] in
/-- Emptying the slot of a live task leaves the others theirs. -/
theorem unlink (invariant : TableInvariant run) {t : TaskId} (live : run.live t = true) :
    TableInvariant (run.unlink t) := by
  have ⟨slot, bound, fresh, chosen, count⟩ := invariant
  have own := (slot _ t).mpr ⟨live, rfl⟩
  have others {u : TaskId} (lives : Function.update run.live t false u = true) :
      u ≠ t ∧ run.live u = true := by
    by_cases same : u = t
    · simp [same] at lives
    · rw [Function.update_of_ne same] at lives
      exact ⟨same, lives⟩
  refine ⟨fun i u => ?_, fun u lives => bound u (others lives).2,
    fun u lives => fresh u (others lives).2, chosen, ?_⟩
  · simp only [TableRun.unlink, TaskTable.unlink]
    by_cases same : u = t
    · subst same
      by_cases here : i = (run.table.task u).pid
      · simp [here]
      · simp only [Function.update_of_ne here, Function.update_self, slot]
        exact ⟨fun old => absurd old.2.symm here, fun new => absurd new.1 (by decide)⟩
    · rw [Function.update_of_ne same]
      by_cases here : i = (run.table.task t).pid
      · rw [← slot i u, here, Function.update_self, own]
        simp [Ne.symm same]
      · rw [Function.update_of_ne here]
        exact slot i u
  · have used : (run.table.task t).pid ∈ run.table.occupied := by
      simp [TaskTable.mem_occupied, own, bound t live]
    have shrunk : (run.table.unlink t).occupied.card + 1 = run.table.occupied.card := by
      rw [TaskTable.occupied_unlink, Finset.card_erase_add_one used]
    have size := run.table.occupied_le
    unfold maxConcurrentTasks at size
    change int32 (run.table.nrTasks - 1) = _
    rw [count, int32_eq (by omega) (by omega)]
    simp only [TableRun.unlink]
    omega

theorem step (invariant : TableInvariant run) (allowed : TableGuard run action)
    (stepped : run.step action = some next) : TableInvariant next := by
  have ⟨slot, bound, fresh, sound, count⟩ := invariant
  cases TableRun.steps_of_step stepped with
  | full => exact invariant
  | start | noSlot => exact ⟨slot, bound, fresh, update sound trivial, count⟩
  | found found =>
      exact ⟨slot, bound, fresh, update sound (TaskTable.findFree_some found).1, count⟩
  | @setUp caller pid priority structGiven stackGiven left point =>
      obtain ⟨rfl, rfl⟩ := allowed
      have inside := sound caller
      rw [point] at inside
      exact ⟨slot, bound, fresh, update sound ⟨inside, rfl⟩, count⟩
  | @fill caller pid priority given point =>
      have inside := sound caller
      rw [point] at inside
      obtain ⟨inside, rfl⟩ := inside
      exact invariant.fill inside (allowed pid priority true point)
  | unlink live => exact invariant.unlink live

theorem of_reachable (reachable : (tableSystem Caller).ReachableUnder TableGuard run) :
    TableInvariant run := by
  refine reachable.invariant TableInvariant ?_ fun invariant allowed stepped =>
    invariant.step allowed stepped
  rintro run ⟨empty, zero, idle, none⟩
  refine ⟨fun i t => ?_, fun t live => ?_, fun t live => ?_, fun caller => ?_, ?_⟩
  · simp [empty, none]
  · simp [none] at live
  · simp [none] at live
  · rw [idle]
    exact trivial
  · have nothing : run.table.occupied = ∅ := by
      ext i
      simp [TaskTable.mem_occupied, empty]
    rw [zero, nothing]
    rfl

end TableInvariant

/-- **The table is accounted for** in every run in which a call fills only a slot
that is still free, and the requests of a call return blocks. -/
theorem task_table_accounted {run : TableRun Caller}
    (reachable : (tableSystem Caller).ReachableUnder TableGuard run) : TableAccounted run :=
  (TableInvariant.of_reachable reachable).accounted

end Steps

/-- Two callers and an empty table. -/
def emptyTable : TableRun (Fin 2) where
  table := ⟨fun _ => none, 0, fun _ => taskStructNew 0 0, 0⟩
  point _ := .idle
  live _ := false

theorem emptyTable_initial : (tableSystem (Fin 2)).initial emptyTable :=
  ⟨fun _ => rfl, rfl, fun _ => rfl, fun _ => rfl⟩

/-- The two calls search one after the other, the second after the first has
filled its slot; then the first task returns. -/
theorem task_table_accounted_after_return : ∃ run : TableRun (Fin 2),
    (tableSystem (Fin 2)).ReachableUnder TableGuard run ∧
    run.live 1 = true ∧ run.table.slots 0 = none ∧ TableAccounted run := by
  let request (caller : Fin 2) : TableAction (Fin 2) := .request caller true true emptyTable.table
  let actions : List (TableAction (Fin 2)) := [.taskNew 0 10, .taskNew 1 10, .run 0, request 0,
    .run 0, .run 1, request 1, .run 1, .taskReturn 0]
  obtain ⟨run, reachable, tested⟩ := System.exists_reachableUnder_of_replay (tableSystem (Fin 2))
    TableGuard emptyTable_initial actions
    (fun run => run.live 1 = true ∧ run.table.slots 0 = none) (by decide)
  obtain ⟨live, empty⟩ := of_decide_eq_true tested
  exact ⟨run, reachable, live, empty, task_table_accounted reachable⟩

/-- **A slot is filled twice.** Both calls find slot 0 free before either of them
fills it. -/
theorem task_table_overwritten :
    ¬ ∀ run, (tableSystem (Fin 2)).Reachable run → TableAccounted run := by
  intro accounted
  let request (caller : Fin 2) : TableAction (Fin 2) := .request caller true true emptyTable.table
  let actions : List (TableAction (Fin 2)) := [.taskNew 0 10, .taskNew 1 10, .run 0, .run 1,
    request 0, request 1, .run 0, .run 1]
  obtain ⟨run, reachable, tested⟩ := System.exists_reachableUnder_of_replay (tableSystem (Fin 2))
    (fun _ _ => True) emptyTable_initial actions
    (fun run => run.live 0 = true ∧ run.live 1 = true ∧
      (run.table.task 0).pid = (run.table.task 1).pid) (by decide)
  obtain ⟨first, second, same⟩ := of_decide_eq_true tested
  exact absurd ((accounted run reachable).2.1 0 1 first second same) (by decide)

end CatchOS.Tasks
