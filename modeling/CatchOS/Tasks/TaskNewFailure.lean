import CatchOS.Mmu.Mmap
import CatchOS.Tasks.CpuSwitchTo
import CatchOS.Tasks.TaskTable

/-!
# Failures of `task_new`

`task_new` (`tasks.c`) returns `NULL` when there are too many tasks or no slot is free, before it
has done anything. Its two requests for memory are not looked at: it stores through what
`mmu_mmap` returned, fills the slot with it and counts the task. So a call whose task cannot be
used has failed cleanly only if it did not get as far as that (`taskNew_failsCleanly_iff`).

What the stores through `newtask` and through `esp` do to the memory is `taskNew`; `through` are the
pointers that they go through.

In `TaskTable` the sections of `task_new` are steps of their own, on names of tasks. A call that no
other one interrupts is such steps, also when its requests fail (`taskNewOutcome_runs`).
-/

set_option autoImplicit false

namespace CatchOS.Tasks

open CatchOS.Lib CatchOS.Mmu

/-! ## The function -/

/-- `_tasks` and `_nr_tasks`, and the heap. -/
structure TaskList where
  tasks : ℕ → ℕ
  nrTasks : ℤ
  heap : Heap

/-- The loop of `task_new`: the first slot that is `NULL`. -/
def TaskList.findFree (list : TaskList) : Option ℕ :=
  (List.range maxConcurrentTasks).find? fun i => list.tasks i = 0

/-- The arguments of `task_new`, and the flags of the caller. -/
structure TaskCall where
  fp : Word
  arg : Word
  stackSize : Word
  priority : Word
  flags : Word

/-- What a call returns, what its second request returned, the pointers it has stored through, and
the state afterwards. -/
structure TaskNewResult where
  returned : ℕ
  stack : ℕ
  through : List ℕ
  list : TaskList

/-- `task_new`, with the outcomes of its two requests. -/
def taskNewOutcome (entries : Entries) (list : TaskList) (call : TaskCall)
    (structOutcome stackOutcome : Option ℕ) : Option TaskNewResult :=
  if list.nrTasks = maxConcurrentTasks then some ⟨0, 0, [], list⟩
  else
    match list.findFree with
    | none => some ⟨0, 0, [], list⟩
    | some pid =>
        (mmuMmapOutcome list.heap taskStructSize structOutcome).bind fun (newtask, heap) =>
        (mmuMmapOutcome heap call.stackSize.toNat stackOutcome).map fun (stackBottom, heap) =>
          let new : NewTask := ⟨call.fp, call.arg, call.stackSize, call.priority,
            BitVec.ofNat 32 pid, BitVec.ofNat 32 newtask, BitVec.ofNat 32 stackBottom, call.flags⟩
          { returned := newtask
            stack := stackBottom
            through := [newtask, stackBottom]
            list :=
              { tasks := Function.update list.tasks pid newtask
                nrTasks := int32 (list.nrTasks + 1)
                heap := heap.store (taskNew entries heap.memory new) } }

/-! ## Failing -/

/-- The task can be used: it has a structure and a stack. -/
structure TaskNewResult.Usable (result : TaskNewResult) (stackSize : Word) : Prop where
  returned : result.returned ≠ 0
  struct : ⟨result.returned, taskStructSize⟩ ∈ result.list.heap.blocks
  stackNotNull : result.stack ≠ 0
  stack : ⟨result.stack, stackSize.toNat⟩ ∈ result.list.heap.blocks

/-- The call has left nothing behind. -/
structure TaskNewResult.Clean (result : TaskNewResult) (before : TaskList) : Prop where
  returned : result.returned = 0
  through : 0 ∉ result.through
  tasks : result.list.tasks = before.tasks
  nrTasks : result.list.nrTasks = before.nrTasks
  blocks : result.list.heap.blocks = before.heap.blocks

/-- A call that does not return a task that can be used has left nothing behind. -/
def TaskNewResult.FailsCleanly (result : TaskNewResult) (before : TaskList)
    (stackSize : Word) : Prop :=
  ¬result.Usable stackSize → result.Clean before

section Failures

variable {entries : Entries} {list : TaskList} {call : TaskCall}
  {structOutcome stackOutcome : Option ℕ} {result : TaskNewResult}

/-- Before the requests nothing has happened. -/
theorem clean_self (list : TaskList) : TaskNewResult.Clean ⟨0, 0, [], list⟩ list :=
  ⟨rfl, List.not_mem_nil, rfl, rfl, rfl⟩

/-- What a call that makes its requests has done with their outcomes. -/
structure Requested (call : TaskCall) (structOutcome stackOutcome : Option ℕ)
    (result : TaskNewResult) : Prop where
  returned : result.returned = structOutcome.getD 0
  stack : result.stack = stackOutcome.getD 0
  through : result.through = [result.returned, result.stack]
  structLive : ∀ address, structOutcome = some address →
    address ≠ 0 ∧ ⟨address, taskStructSize⟩ ∈ result.list.heap.blocks
  stackLive : ∀ address, stackOutcome = some address →
    address ≠ 0 ∧ ⟨address, call.stackSize.toNat⟩ ∈ result.list.heap.blocks

/-- The outcome of one request: the pointer, and the block if there is one. -/
theorem mmuMmapOutcome_block {heap after : Heap} {size pointer : ℕ} {outcome : Option ℕ}
    (called : mmuMmapOutcome heap size outcome = some (pointer, after)) :
    pointer = outcome.getD 0 ∧ (∀ block ∈ heap.blocks, block ∈ after.blocks) ∧
      ∀ address, outcome = some address → address ≠ 0 ∧ ⟨address, size⟩ ∈ after.blocks := by
  cases outcome with
  | none =>
      obtain ⟨rfl, rfl⟩ := mmuMmapOutcome_none called
      refine ⟨rfl, fun _ member => member, fun address absent => ?_⟩
      exact absurd absent.symm (Option.some_ne_none address)
  | some address =>
      obtain ⟨rfl, notNull, mapped⟩ := mmuMmapOutcome_some called
      have blocks := (mmuMmap_spec mapped).2.2
      refine ⟨rfl, fun block member => ?_, fun other same => ?_⟩
      · rw [blocks]
        exact List.mem_cons_of_mem _ member
      · rw [← Option.some.inj same, blocks]
        exact ⟨notNull, List.mem_cons_self⟩

/-- **A call** returns before its requests, or makes both of them. -/
theorem taskNewOutcome_cases
    (called : taskNewOutcome entries list call structOutcome stackOutcome = some result) :
    (list.nrTasks = maxConcurrentTasks ∨ list.findFree = none) ∧ result = ⟨0, 0, [], list⟩ ∨
    (list.nrTasks ≠ maxConcurrentTasks ∧ list.findFree ≠ none) ∧
      Requested call structOutcome stackOutcome result := by
  unfold taskNewOutcome at called
  by_cases full : list.nrTasks = maxConcurrentTasks
  · rw [if_pos full] at called
    exact .inl ⟨.inl full, (Option.some.inj called).symm⟩
  rw [if_neg full] at called
  cases free : list.findFree with
  | none =>
      rw [free] at called
      exact .inl ⟨.inr rfl, (Option.some.inj called).symm⟩
  | some pid =>
      rw [free] at called
      obtain ⟨⟨newtask, heap⟩, first, called⟩ := Option.bind_eq_some_iff.mp called
      obtain ⟨⟨stackBottom, heap'⟩, second, rfl⟩ := Option.map_eq_some_iff.mp called
      obtain ⟨isStruct, -, structLive⟩ := mmuMmapOutcome_block first
      obtain ⟨isStack, kept, stackLive⟩ := mmuMmapOutcome_block second
      refine .inr ⟨⟨full, Option.some_ne_none pid⟩, isStruct, isStack, rfl, ?_, stackLive⟩
      intro address same
      exact ⟨(structLive address same).1, kept _ (structLive address same).2⟩

/-- **When a failing call leaves nothing behind**: exactly if it returns before its requests, or
both of them succeed. -/
theorem taskNew_failsCleanly_iff
    (called : taskNewOutcome entries list call structOutcome stackOutcome = some result) :
    result.FailsCleanly list call.stackSize ↔
      list.nrTasks = maxConcurrentTasks ∨ list.findFree = none ∨
        structOutcome ≠ none ∧ stackOutcome ≠ none := by
  rcases taskNewOutcome_cases called with ⟨early, rfl⟩ | ⟨⟨notFull, free⟩, requested⟩
  · refine iff_of_true (fun _ => clean_self list) ?_
    rcases early with full | noSlot
    · exact .inl full
    · exact .inr (.inl noSlot)
  · rw [or_iff_right notFull, or_iff_right free]
    obtain ⟨returned, stack, through, structLive, stackLive⟩ := requested
    constructor
    · -- a request that failed was stored through, so the call is neither usable nor clean
      intro failsCleanly
      have notNull (isNull : result.returned = 0 ∨ result.stack = 0) : False := by
        have clean := failsCleanly fun usable =>
          isNull.elim usable.returned usable.stackNotNull
        apply clean.through
        rw [through]
        rcases isNull with noStruct | noStack
        · rw [noStruct]
          exact List.mem_cons_self
        · rw [noStack]
          exact List.mem_cons_of_mem _ List.mem_cons_self
      constructor
      · rintro rfl
        exact notNull (.inl returned)
      · rintro rfl
        exact notNull (.inr stack)
    · rintro ⟨structGiven, stackGiven⟩ unusable
      obtain ⟨newtask, isStruct⟩ := Option.ne_none_iff_exists'.mp structGiven
      obtain ⟨stackBottom, isStack⟩ := Option.ne_none_iff_exists'.mp stackGiven
      rw [isStruct, Option.getD_some] at returned
      rw [isStack, Option.getD_some] at stack
      obtain ⟨structNotNull, structBlock⟩ := structLive newtask isStruct
      obtain ⟨stackNotNull, stackBlock⟩ := stackLive stackBottom isStack
      refine absurd ?_ unusable
      exact ⟨returned ▸ structNotNull, returned ▸ structBlock, stack ▸ stackNotNull,
        stack ▸ stackBlock⟩

end Failures

/-! ## The table of tasks -/

/-- The slots hold the addresses of their tasks, and the count is the same. -/
structure TaskList.Mirrors (list : TaskList) (table : TaskTable) (address : TaskId → ℕ) : Prop where
  slots : ∀ i, list.tasks i = (table.slots i).elim 0 address
  nonnull : ∀ i t, table.slots i = some t → address t ≠ 0
  named : ∀ i t, table.slots i = some t → t < table.nextId
  nrTasks : list.nrTasks = table.nrTasks

namespace TaskList.Mirrors

variable {list : TaskList} {table : TaskTable} {address : TaskId → ℕ}

/-- The loop finds the same slot. -/
theorem findFree (mirrors : list.Mirrors table address) : list.findFree = table.findFree := by
  have same : (fun i => decide (list.tasks i = 0)) = fun i => (table.slots i).isNone := by
    funext i
    rw [mirrors.slots i]
    cases slot : table.slots i with
    | none => rfl
    | some t => exact decide_eq_false (mirrors.nonnull i t slot)
  simp only [TaskList.findFree, TaskTable.findFree, same]

/-- The write section, with the result of the request for the structure. -/
theorem fill (mirrors : list.Mirrors table address) {pid newtask : ℕ} {priority : ℤ} {heap : Heap}
    {structOutcome : Option ℕ} (isStruct : newtask = structOutcome.getD 0)
    (given : ∀ block, structOutcome = some block → block ≠ 0) :
    Mirrors ⟨Function.update list.tasks pid newtask, int32 (list.nrTasks + 1), heap⟩
      (if structOutcome.isSome then table.fill pid priority else table.fillNull pid)
      (Function.update address table.nextId newtask) := by
  have ⟨slots, nonnull, named, nrTasks⟩ := mirrors
  have old {i : ℕ} {t : TaskId} (slot : table.slots i = some t) :
      Function.update address table.nextId newtask t = address t :=
    Function.update_of_ne (named i t slot).ne _ _
  have kept (i : ℕ) : list.tasks i =
      (table.slots i).elim 0 (Function.update address table.nextId newtask) := by
    rw [slots i]
    cases slot : table.slots i with
    | none => rfl
    | some t => exact (old slot).symm
  cases structOutcome with
  | none =>
      obtain rfl : newtask = 0 := isStruct
      have others {i : ℕ} {t : TaskId}
          (slot : Function.update table.slots pid none i = some t) : table.slots i = some t := by
        by_cases here : i = pid
        · rw [here, Function.update_self] at slot
          cases slot
        · rwa [Function.update_of_ne here] at slot
      refine ⟨fun i => ?_, fun i t slot => ?_, fun i t slot => named i t (others slot), ?_⟩
      · by_cases here : i = pid
        · simp [here, TaskTable.fillNull]
        · simpa [here, TaskTable.fillNull] using kept i
      · rw [old (others slot)]
        exact nonnull i t (others slot)
      · exact congrArg (fun count => int32 (count + 1)) nrTasks
  | some block =>
      obtain rfl : newtask = block := isStruct
      refine ⟨fun i => ?_, fun i t slot => ?_, fun i t slot => ?_, ?_⟩
      · by_cases here : i = pid
        · simp [here, TaskTable.fill]
        · simpa [here, TaskTable.fill] using kept i
      · rcases TaskTable.fill_slot slot with ⟨-, rfl⟩ | ⟨-, before⟩
        · rw [Function.update_self]
          exact given newtask rfl
        · rw [old before]
          exact nonnull i t before
      · rcases TaskTable.fill_slot slot with ⟨-, rfl⟩ | ⟨-, before⟩
        · exact Nat.lt_succ_self _
        · exact (named i t before).trans (Nat.lt_succ_self _)
      · exact congrArg (fun count => int32 (count + 1)) nrTasks

end TaskList.Mirrors

/-- **A call of `task_new`** that no other one interrupts is a run of the table's steps. -/
theorem taskNewOutcome_runs {Caller : Type} [DecidableEq Caller] {run : TableRun Caller}
    {caller : Caller} {address : TaskId → ℕ} {entries : Entries} {list : TaskList}
    {call : TaskCall} {structOutcome stackOutcome : Option ℕ} {result : TaskNewResult}
    (mirrors : list.Mirrors run.table address)
    (idle : run.point caller = .idle)
    (called : taskNewOutcome entries list call structOutcome stackOutcome = some result) :
    ∃ rest next, Runs (fun run action next => run.step action = some next) run
        (.taskNew caller call.priority.toInt :: rest) next ∧
      next.point caller = .idle ∧ ∃ address', result.list.Mirrors next.table address' := by
  unfold taskNewOutcome at called
  by_cases full : list.nrTasks = maxConcurrentTasks
  · rw [if_pos full] at called
    obtain rfl := Option.some.inj called
    refine ⟨[], run, .cons ?_ (.nil run), idle, address, mirrors⟩
    simp only [TableRun.step, idle, mirrors.nrTasks.symm.trans full, if_true]
  rw [if_neg full, mirrors.findFree] at called
  rw [mirrors.nrTasks] at full
  have started : run.step (.taskNew caller call.priority.toInt) =
      some (run.moveTo caller (.search call.priority.toInt)) := by
    simp only [TableRun.step, idle, full, if_true, if_false]
  cases free : run.table.findFree with
  | none =>
      rw [free] at called
      obtain rfl := Option.some.inj called
      have searched : (run.moveTo caller (.search call.priority.toInt)).step (.run caller) =
          some (run.moveTo caller .idle) := by
        simp only [TableRun.step, TableRun.moveTo, Function.update_self, free,
          Function.update_idem]
      exact ⟨_, _, .cons started (.cons searched (.nil _)), Function.update_self _ _ _, address,
        mirrors⟩
  | some pid =>
      rw [free] at called
      obtain ⟨⟨newtask, heap⟩, first, called⟩ := Option.bind_eq_some_iff.mp called
      obtain ⟨⟨stackBottom, heap'⟩, -, rfl⟩ := Option.map_eq_some_iff.mp called
      obtain ⟨isStruct, -, structLive⟩ := mmuMmapOutcome_block first
      have searched : (run.moveTo caller (.search call.priority.toInt)).step (.run caller) =
          some (run.moveTo caller (.request pid call.priority.toInt)) := by
        simp only [TableRun.step, TableRun.moveTo, Function.update_self, free,
          Function.update_idem]
      have requested : (run.moveTo caller (.request pid call.priority.toInt)).step
            (.request caller structOutcome.isSome stackOutcome.isSome run.table) =
          some (run.moveTo caller (.fill pid call.priority.toInt structOutcome.isSome)) := by
        simp only [TableRun.step, TableRun.moveTo, TableRun.setUp, Function.update_self, ite_self,
          Function.update_idem]
      have filled : (run.moveTo caller (.fill pid call.priority.toInt structOutcome.isSome)).step
            (.run caller) =
              some (run.fill caller pid call.priority.toInt structOutcome.isSome) := by
        simp only [TableRun.step, TableRun.moveTo, TableRun.fill, Function.update_self,
          Function.update_idem]
      exact ⟨_, _, .cons started (.cons searched (.cons requested (.cons filled (.nil _)))),
        Function.update_self _ _ _, _,
        mirrors.fill isStruct fun block isBlock => (structLive block isBlock).1⟩

/-- No task yet, and an empty heap. -/
def noTasks : TaskList where
  tasks _ := 0
  nrTasks := 0
  heap := ⟨fun _ => 0, [], .nil, inside_nil⟩

def smallTask : TaskCall := ⟨0x1000, 0, 0x600, 1, 0x202⟩

theorem taskNew_failsCleanly_iff_exhausted :
    ∃ result, taskNewOutcome ⟨0x101000, 0x102000⟩ noTasks smallTask none none = some result ∧
      (result.FailsCleanly noTasks smallTask.stackSize ↔
        noTasks.nrTasks = maxConcurrentTasks ∨ noTasks.findFree = none ∨
          (none : Option ℕ) ≠ none ∧ (none : Option ℕ) ≠ none) :=
  ⟨_, rfl, taskNew_failsCleanly_iff rfl⟩

/-- Without memory the call stores through `NULL`, and counts a task that is not there. -/
theorem smallTask_failsDirty :
    ∃ result, taskNewOutcome ⟨0x101000, 0x102000⟩ noTasks smallTask none none = some result ∧
      result.returned = 0 ∧ 0 ∈ result.through ∧ result.list.nrTasks = 1 ∧
      ¬result.FailsCleanly noTasks smallTask.stackSize := by
  refine ⟨_, rfl, rfl, List.mem_cons_self, rfl, fun failsCleanly => ?_⟩
  exact (failsCleanly fun usable => usable.returned rfl).through List.mem_cons_self

end CatchOS.Tasks
