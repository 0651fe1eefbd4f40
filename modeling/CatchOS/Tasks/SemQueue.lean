import CatchOS.Machine.Instruction
import CatchOS.Tasks.Sem
import CatchOS.Utils.AllocationFailure

/-!
# The queue of a semaphore in memory

`Sem` has the queue of a semaphore as the list of its tasks. Here it is the queue of `queue.c` on
the bytes of the memory: its elements are the addresses of the tasks, `sem_wait` calls `queue_push`,
whose requests for memory may fail, and `sem_signal` calls `queue_pop`. All other steps of the calls
are those of `Sem`.

The nodes from the head on hold the addresses of the tasks of the list, and the tail is the last
node, or `NULL` after a push that failed (`QueueStored`). So every run on memory is a run on the
list with the same calls, and a signal always finds a task or an empty queue
(`semaphore_refines_list`).
-/

set_option autoImplicit false

namespace CatchOS.Tasks

open CatchOS CatchOS.Lib CatchOS.Mmu CatchOS.Utils

/-! ## The calls on memory -/

/-- The bytes of a pointer. -/
def pointerBytes (pointer : Word) : List Byte :=
  [pointer.extractLsb' 0 8, pointer.extractLsb' 8 8, pointer.extractLsb' 16 8,
    pointer.extractLsb' 24 8]

theorem join_bytes (pointer : Word) :
    pointer.extractLsb' 24 8 ++ pointer.extractLsb' 16 8 ++ pointer.extractLsb' 8 8 ++
      pointer.extractLsb' 0 8 = pointer := by
  ext i bound
  simp only [BitVec.getElem_append, BitVec.getElem_extractLsb']
  grind

/-- Different pointers have different bytes. -/
theorem pointerBytes_injective : Function.Injective pointerBytes := by
  intro first second same
  simp only [pointerBytes, List.cons.injEq, and_true] at same
  obtain ⟨lowest, low, high, highest⟩ := same
  rw [← join_bytes first, lowest, low, high, highest, join_bytes]

/-- A semaphore whose queue is in memory. -/
structure SemMemory (Task : Type) where
  /-- The count and the calls. The list of tasks in it is not used. -/
  calls : SemRun Task
  heap : Heap
  taskQueue : Queue

section Steps

variable {Task : Type} [DecidableEq Task]

/-- The step is none of the queue. -/
def SemAction.Local (calls : SemRun Task) : SemAction Task → Prop
  | .wait _ => True
  | .run task => calls.point task ≠ .push
  | .signal _ | .failPush _ => False

/-- The sections of the calls. No block starts in the first word of the memory. -/
inductive SemMemory.Steps (address : Task ↪ Word) (sem : SemMemory Task) :
    SemAction Task → SemMemory Task → Prop where
  | calls {action : SemAction Task} {next : SemRun Task} : action.Local sem.calls →
      sem.calls.step action = some next → Steps address sem action { sem with calls := next }
  | push {task : Task} {node copy : ℕ} {attempt : Attempt} {queue : Queue} :
      sem.calls.point task = .push → 4 ≤ node → 4 ≤ copy →
      Attempt.queuePush ⟨sem.heap, []⟩ sem.taskQueue (pointerBytes (address task)) (some node)
        (some copy) = some (attempt, queue) →
      Steps address sem (.run task) ⟨sem.calls.moveTo task .storeWaiting, attempt.heap, queue⟩
  | failPush {task : Task} {node copy : Option ℕ} {attempt : Attempt} {queue : Queue} :
      sem.calls.point task = .push → ¬(node ≠ none ∧ copy ≠ none) →
      (∀ block, node = some block ∨ copy = some block → 4 ≤ block) →
      Attempt.queuePush ⟨sem.heap, []⟩ sem.taskQueue (pointerBytes (address task)) node copy =
        some (attempt, queue) →
      Steps address sem (.failPush task)
        ⟨sem.calls.moveTo task .storeWaiting, attempt.heap, queue⟩
  | signalEmpty {task : Task} {popped : Popped} : sem.calls.point task = .outside →
      queuePop sem.heap sem.taskQueue 4 = some popped → popped.ret ≠ 0 →
      Steps address sem (.signal task)
        ⟨{ sem.calls with
            sem := { sem.calls.sem with count := int32 (sem.calls.sem.count + 1) }
            inside := Function.update sem.calls.inside task false
            signals := sem.calls.signals + 1 }, popped.heap, popped.queue⟩
  | signalPop {task poppedTask : Task} {popped : Popped} : sem.calls.point task = .outside →
      queuePop sem.heap sem.taskQueue 4 = some popped → popped.ret = 0 →
      popped.data = pointerBytes (address poppedTask) →
      Steps address sem (.signal task)
        ⟨{ sem.calls with
            sem := { sem.calls.sem with count := int32 (sem.calls.sem.count + 1) }
            point := Function.update sem.calls.point task (.storeReady poppedTask)
            inside := Function.update sem.calls.inside task false
            handoffs := sem.calls.handoffs + 1 }, popped.heap, popped.queue⟩

end Steps

/-! ## The queue in memory -/

/-- The entries hold the addresses of the tasks. The tail is the last of them, unless it is
`NULL`. -/
structure QueueStored {Task : Type} (address : Task ↪ Word) (heap : Heap) (queue : Queue)
    (entries : List Entry) (last : ℕ) (tasks : List Task) (tailNull : Bool) : Prop where
  queued : Utils.Queued heap ⟨queue.head, last, entries.length⟩ entries
  values : entries.map Entry.value = tasks.map fun task => pointerBytes (address task)
  tailNull : tailNull = true ↔ queue.tail = 0
  tail : entries ≠ [] → queue.tail ≠ 0 → queue.tail = last
  above : ∀ block ∈ heap.blocks, 4 ≤ block.start

namespace QueueStored

variable {Task : Type} {address : Task ↪ Word} {heap : Heap} {queue queue' : Queue}
  {entries : List Entry} {last : ℕ} {tasks : List Task} {tailNull : Bool} {task : Task}
  {attempt : Attempt}

/-- A queue of zeros has no tasks. -/
theorem empty (above : ∀ block ∈ heap.blocks, 4 ≤ block.start) :
    QueueStored address heap ⟨0, 0, 0⟩ [] 0 [] true :=
  ⟨.empty heap, rfl, iff_of_true rfl rfl, fun nonempty => absurd rfl nonempty, above⟩

theorem entries_nil (stored : QueueStored address heap queue entries last tasks tailNull) :
    entries = [] ↔ tasks = [] := by
  rw [← List.map_eq_nil_iff, stored.values, List.map_eq_nil_iff]

theorem head_eq_zero (stored : QueueStored address heap queue entries last tasks tailNull) :
    queue.head = 0 ↔ tasks = [] :=
  stored.queued.head_eq_zero.trans stored.entries_nil

/-- A new last entry. -/
theorem values_concat (stored : QueueStored address heap queue entries last tasks tailNull)
    {node copy : ℕ} (task : Task) :
    (entries ++ [Entry.mk node copy (pointerBytes (address task))]).map Entry.value =
      (tasks ++ [task]).map fun task => pointerBytes (address task) := by
  rw [List.map_append, stored.values, List.map_append]
  rfl

/-- **`queue_push`** with two blocks links the task to the last one, if there is a tail. -/
theorem push (stored : QueueStored address heap queue entries last tasks tailNull)
    {node copy : ℕ} (nodeAbove : 4 ≤ node) (copyAbove : 4 ≤ copy)
    (found : tailNull = false ∨ tasks = [])
    (called : Attempt.queuePush ⟨heap, []⟩ queue (pointerBytes (address task)) (some node)
      (some copy) = some (attempt, queue')) :
    ∃ entries last, QueueStored address attempt.heap queue' entries last (tasks ++ [task])
      false := by
  have ⟨queued, values, isTail, tail, above⟩ := stored
  have more {after : Heap} (blocks : after.blocks = ⟨copy, 4⟩ :: ⟨node, 8⟩ :: heap.blocks) :
      ∀ block ∈ after.blocks, 4 ≤ block.start := by
    rw [blocks]
    exact List.forall_mem_cons.mpr ⟨copyAbove, List.forall_mem_cons.mpr ⟨nodeAbove, above⟩⟩
  unfold Attempt.queuePush at called
  by_cases empty : queue.head = 0
  · rw [if_pos empty] at called
    obtain ⟨⟨result, next⟩, created, returned⟩ := Option.map_eq_some_iff.mp called
    obtain ⟨rfl, rfl⟩ := Prod.mk.inj returned
    obtain ⟨rfl, made⟩ := Attempt.listCreate_made created
    obtain rfl := stored.head_eq_zero.mp empty
    obtain ⟨single, blocks⟩ := Utils.Queued.push_empty made
    refine ⟨[⟨result, copy, _⟩], result, single, rfl, ?_, fun _ _ => rfl, more blocks⟩
    exact iff_of_false Bool.false_ne_true (by simp only; omega)
  · rw [if_neg empty] at called
    have nonempty : tasks ≠ [] := mt stored.head_eq_zero.mpr empty
    have linked : queue.tail ≠ 0 := fun null =>
      Bool.false_ne_true ((found.resolve_right nonempty).symm.trans (isTail.mpr null))
    have some' : entries ≠ [] := mt stored.entries_nil.mp nonempty
    have ends := List.getLast?_eq_some_getLast some'
    obtain ⟨⟨p, next⟩, inserted, returned⟩ := Option.map_eq_some_iff.mp called
    obtain ⟨rfl, rfl⟩ := Prod.mk.inj returned
    rw [Attempt.listInsertAfter, if_neg linked] at inserted
    obtain ⟨⟨result, between⟩, created, returned⟩ := Option.map_eq_some_iff.mp inserted
    obtain ⟨rfl, rfl⟩ := Prod.mk.inj returned
    obtain ⟨rfl, made⟩ := Attempt.listCreate_made created
    have isLast := tail some' linked
    have inserted' : Utils.listInsertAfter heap last (pointerBytes (address task)) result copy =
        some (result, (between.linkAfter queue.tail result).heap) := by
      rw [Utils.listInsertAfter, if_neg (by rw [← isLast]; exact linked), made, ← isLast]
      rfl
    obtain ⟨grown, blocks⟩ := queued.push_after ends inserted'
    refine ⟨_, result, ⟨grown.laid, grown.chain, grown.tail, rfl⟩, stored.values_concat task, ?_,
      fun _ _ => rfl, more blocks⟩
    exact iff_of_false Bool.false_ne_true (by simp only; omega)

/-- A push finds no tail to link to: the task is lost. -/
theorem lost (stored : QueueStored address heap queue entries last tasks true)
    (nonempty : tasks ≠ []) {node copy : Option ℕ}
    (called : Attempt.queuePush ⟨heap, []⟩ queue (pointerBytes (address task)) node copy =
      some (attempt, queue')) :
    QueueStored address attempt.heap queue' entries last tasks true := by
  have null := stored.tailNull.mp rfl
  rw [Attempt.queuePush, if_neg (mt stored.head_eq_zero.mp nonempty), Attempt.listInsertAfter,
    if_pos null, Option.map_some, Option.some.injEq] at called
  obtain ⟨rfl, rfl⟩ := Prod.mk.inj called
  exact ⟨stored.queued, stored.values, iff_of_true rfl rfl, fun _ linked => absurd rfl linked,
    stored.above⟩

/-- Nothing is linked behind the last node, through a pointer that is `NULL`. -/
theorem linkNull (stored : QueueStored address heap queue entries last tasks tailNull)
    {entry : Entry} (ends : entries.getLast? = some entry) {next : Attempt}
    (memory : next.heap.memory = heap.memory)
    (blocks : ∀ block ∈ heap.blocks, block ∈ next.heap.blocks) :
    Utils.Queued (next.linkAfter entry.node 0).heap ⟨queue.head, last, entries.length⟩ entries := by
  have queued := stored.queued
  have member := List.mem_of_getLast? ends
  obtain ⟨through, isThrough⟩ : ∃ through,
    setNext heap.memory 0 (listNext heap.memory entry.node) = through := ⟨_, rfl⟩
  have frame : ∀ block ∈ heap.blocks, ∀ address, block.Contains address →
      through address = heap.memory address := by
    intro block isBlock address contained
    have low := stored.above block isBlock
    have inside := contained.1
    rw [← isThrough]
    exact Laid.setNext_frame (by decide) (.inr (by omega))
  have laid : Laid (next.heap.store through) 8 entries := by
    refine queued.laid.of_memory le_rfl blocks (fun other isOther address above below => ?_)
      fun other isOther address contained => frame _ (queued.laid.data_mem isOther) _ contained
    exact frame _ (queued.laid.node_mem isOther) _ (Extent.contains_mk (by omega) (by omega))
  have chain := @Laid.chain_frame heap (next.heap.store through) 8 entries entries _ queued.laid
    le_rfl (fun _ => id) frame queued.chain
  have after : (next.linkAfter entry.node 0).heap =
      (next.heap.store through).store (setNext through entry.node 0) := by
    rw [← isThrough, ← memory]
    rfl
  rw [after]
  refine ⟨laid.setNext le_rfl member 0, chain.congr fun node isNode => ?_, queued.tail, rfl⟩
  obtain ⟨other, isOther, rfl⟩ := List.mem_map.mp isNode
  by_cases same : entry = other
  · have nodeEnds : (entries.map Entry.node).getLast? = some entry.node := by
      rw [List.getLast?_map, ends, Option.map_some]
    rw [← same, Heap.store_memory, Laid.listNext_setNext_self (by decide)]
    exact (chain.next_getLast nodeEnds).symm
  · exact laid.listNext_setNext_of_ne le_rfl member isOther same 0

/-- **`queue_push`** with a request that fails loses the task and the tail. -/
theorem fail (stored : QueueStored address heap queue entries last tasks tailNull)
    {node copy : Option ℕ} (fails : ¬(node ≠ none ∧ copy ≠ none))
    (room : ∀ block, node = some block → 4 ≤ block)
    (called : Attempt.queuePush ⟨heap, []⟩ queue (pointerBytes (address task)) node copy =
      some (attempt, queue')) :
    ∃ entries last, QueueStored address attempt.heap queue' entries last tasks true := by
  have ⟨queued, values, isTail, tail, above⟩ := stored
  have still {after : Heap} (blocks : ∀ block ∈ after.blocks,
      block ∈ heap.blocks ∨ node = some block.start) : ∀ block ∈ after.blocks, 4 ≤ block.start :=
    fun block member => (blocks block member).elim (above block) (room block.start)
  by_cases empty : queue.head = 0
  · rw [Attempt.queuePush, if_pos empty] at called
    obtain ⟨⟨result, next⟩, created, returned⟩ := Option.map_eq_some_iff.mp called
    obtain ⟨rfl, rfl⟩ := Prod.mk.inj returned
    obtain ⟨rfl, -, -, blocks⟩ := Attempt.listCreate_failed fails created
    obtain rfl := stored.head_eq_zero.mp empty
    exact ⟨[], 0, .empty next.heap, rfl, iff_of_true rfl rfl, fun some' => absurd rfl some',
      still blocks⟩
  · have nonempty : tasks ≠ [] := mt stored.head_eq_zero.mpr empty
    by_cases null : queue.tail = 0
    · obtain rfl := isTail.mpr null
      exact ⟨entries, last, stored.lost nonempty called⟩
    rw [Attempt.queuePush, if_neg empty, Attempt.listInsertAfter, if_neg null] at called
    obtain ⟨⟨p, final⟩, inserted, returned⟩ := Option.map_eq_some_iff.mp called
    obtain ⟨rfl, rfl⟩ := Prod.mk.inj returned
    obtain ⟨⟨result, next⟩, created, returned⟩ := Option.map_eq_some_iff.mp inserted
    obtain ⟨rfl, rfl⟩ := Prod.mk.inj returned
    obtain ⟨rfl, memory, more, blocks⟩ := Attempt.listCreate_failed fails created
    have some' : entries ≠ [] := mt stored.entries_nil.mp nonempty
    have ends := List.getLast?_eq_some_getLast some'
    have isLast : queue.tail = (entries.getLast some').node :=
      (tail some' null).trans (queued.tail _ ends)
    refine ⟨entries, last, ?_, values, iff_of_true rfl rfl, fun _ linked => absurd rfl linked,
      still blocks⟩
    rw [isLast]
    exact stored.linkNull ends memory more

/-- **`queue_pop`** of a queue with tasks takes the first one. -/
theorem pop (stored : QueueStored address heap queue entries last (task :: tasks) tailNull) :
    ∃ popped, queuePop heap queue 4 = some popped ∧ popped.ret = 0 ∧
      popped.data = pointerBytes (address task) ∧
      ∃ entries last, QueueStored address popped.heap popped.queue entries last tasks tailNull := by
  have ⟨queued, values, isTail, tail, above⟩ := stored
  obtain ⟨entry, rest, rfl⟩ := List.exists_cons_of_ne_nil
    (mt stored.entries_nil.mp (List.cons_ne_nil task tasks))
  rw [List.map_cons, List.map_cons, List.cons.injEq] at values
  obtain ⟨value, others⟩ := values
  obtain ⟨popped, remaining⟩ := queued.pop 4
  have nonempty : ¬queue.head = 0 := mt stored.head_eq_zero.mp (List.cons_ne_nil _ _)
  have length : entry.value.length = 4 := congrArg List.length value
  have read := (queued.laid.stored entry List.mem_cons_self).value
  rw [length, value] at read
  rw [queuePop, if_neg nonempty] at popped
  obtain ⟨⟨removed, after⟩, called, returned⟩ := Option.map_eq_some_iff.mp popped
  rw [Popped.mk.injEq] at returned
  obtain ⟨-, data, same, -⟩ := returned
  rw [same] at called
  refine ⟨⟨0, readBytes heap.memory (listData heap.memory queue.head) 4, heap,
    { queue with
      head := listNext heap.memory queue.head
      size := int32 (queue.size - 1) }⟩, ?_, rfl, data.trans read, rest, last,
    ⟨remaining.laid, remaining.chain, remaining.tail, rfl⟩, others, isTail,
    fun _ => tail (List.cons_ne_nil _ _), above⟩
  rw [queuePop, if_neg nonempty]
  dsimp only
  rw [called, Option.map_some]

/-- `queue_pop` of a queue without tasks. -/
theorem pop_empty (stored : QueueStored address heap queue entries last [] tailNull) :
    queuePop heap queue 4 = some ⟨-1, [], heap, queue⟩ :=
  if_pos (stored.head_eq_zero.mpr rfl)

end QueueStored

/-! ## The run on the list -/

section Refinement

variable {Task : Type}

/-- The calls with the queue as a list. -/
def SemRun.withQueue (run : SemRun Task) (tasks : List Task) (tailNull : Bool) : SemRun Task :=
  { run with sem := { run.sem with taskQueue := tasks }, tailNull := tailNull }

/-- The memory holds the queue of the run, and all else is equal. -/
structure SemMemory.Represents (address : Task ↪ Word) (sem : SemMemory Task)
    (run : SemRun Task) : Prop where
  calls : run = sem.calls.withQueue run.sem.taskQueue run.tailNull
  stored : ∃ entries last, QueueStored address sem.heap sem.taskQueue entries last
    run.sem.taskQueue run.tailNull

theorem SemMemory.Represents.point {address : Task ↪ Word} {sem : SemMemory Task}
    {run : SemRun Task} (represents : sem.Represents address run) :
    run.point = sem.calls.point := by
  rw [represents.calls]
  rfl

theorem SemRun.tailLost_withQueue (run : SemRun Task) (tasks : List Task) (tailNull : Bool) :
    (run.withQueue tasks tailNull).tailLost = true ↔ tailNull = true ∧ tasks ≠ [] := by
  rw [tailLost, Bool.and_eq_true, Bool.not_eq_true', List.isEmpty_eq_false_iff]
  rfl

variable [DecidableEq Task]

/-- A step that is none of the queue does not look at it. -/
theorem SemRun.step_withQueue {run next : SemRun Task} {action : SemAction Task}
    (isLocal : action.Local run) (stepped : run.step action = some next) (tasks : List Task)
    (tailNull : Bool) :
    (run.withQueue tasks tailNull).step action = some (next.withQueue tasks tailNull) := by
  cases action with
  | wait task =>
      simp only [step, Option.ite_none_right_eq_some, Option.some.injEq] at stepped
      obtain ⟨outside, rfl⟩ := stepped
      exact if_pos outside
  | run task =>
      simp only [step] at stepped
      cases point : run.point task with
      | push => exact absurd point isLocal
      | outside => simp only [point, reduceCtorEq] at stepped
      | decrement =>
          simp only [point, Option.some.injEq] at stepped
          simp only [step, withQueue, point, ← stepped]
          rfl
      | storeWaiting =>
          simp only [point, Option.some.injEq] at stepped
          simp only [step, withQueue, point, ← stepped]
          rfl
      | blocked =>
          simp only [point, Option.ite_none_right_eq_some, Option.some.injEq] at stepped
          obtain ⟨ready, rfl⟩ := stepped
          simp only [step, withQueue, point]
          exact if_pos ready
      | storeReady poppedTask =>
          simp only [point, Option.some.injEq] at stepped
          simp only [step, withQueue, point, ← stepped]
          rfl
  | signal task => exact isLocal.elim
  | failPush task => exact isLocal.elim

namespace SemMemory

variable {address : Task ↪ Word} {sem next : SemMemory Task} {run : SemRun Task}
  {action : SemAction Task}

/-- Every step in memory is one of the list. -/
theorem Represents.step (represents : sem.Represents address run)
    (stepped : sem.Steps address action next) :
    ∃ run', run.step action = some run' ∧ next.Represents address run' := by
  obtain ⟨isCalls, entries, last, stored⟩ := represents
  obtain ⟨tasks, isTasks⟩ : ∃ tasks, run.sem.taskQueue = tasks := ⟨_, rfl⟩
  obtain ⟨tailNull, isNull⟩ : ∃ tailNull, run.tailNull = tailNull := ⟨_, rfl⟩
  rw [isTasks, isNull] at isCalls stored
  subst isCalls
  cases stepped with
  | calls isLocal stepped =>
      exact ⟨_, SemRun.step_withQueue isLocal stepped tasks tailNull, rfl, entries, last, stored⟩
  | @push task node copy attempt queue point nodeAbove copyAbove called =>
      have pushes : (sem.calls.withQueue tasks tailNull).step (.run task) =
          some ((sem.calls.withQueue tasks tailNull).waitPush task) := by
        simp only [SemRun.step, SemRun.withQueue, point]
      refine ⟨_, pushes, ?_⟩
      rw [SemRun.waitPush]
      by_cases lost : (sem.calls.withQueue tasks tailNull).tailLost = true
      · rw [if_pos lost]
        obtain ⟨rfl, nonempty⟩ := (SemRun.tailLost_withQueue sem.calls tasks tailNull).mp lost
        exact ⟨rfl, entries, last, stored.lost nonempty called⟩
      · rw [if_neg lost]
        have found : tailNull = false ∨ tasks = [] := by
          rw [SemRun.tailLost_withQueue, not_and_or, not_not, Bool.not_eq_true] at lost
          exact lost
        exact ⟨rfl, stored.push nodeAbove copyAbove found called⟩
  | failPush point fails room called =>
      exact ⟨_, if_pos point, rfl, stored.fail fails (fun block given => room block (.inl given))
        called⟩
  | signalEmpty outside called refused =>
      cases tasks with
      | nil =>
          rw [stored.pop_empty] at called
          obtain rfl := Option.some.inj called
          exact ⟨_, if_pos outside, rfl, entries, last, stored⟩
      | cons first rest =>
          obtain ⟨popped, pops, taken, -⟩ := stored.pop
          rw [pops] at called
          obtain rfl := Option.some.inj called
          exact absurd taken refused
  | signalPop outside called taken holds =>
      cases tasks with
      | nil =>
          rw [stored.pop_empty] at called
          obtain rfl := Option.some.inj called
          exact absurd taken (show (-1 : ℤ) ≠ 0 by decide)
      | cons first rest =>
          obtain ⟨popped, pops, -, data, remaining⟩ := stored.pop
          rw [pops] at called
          obtain rfl := Option.some.inj called
          obtain rfl := address.injective (pointerBytes_injective (holds.symm.trans data))
          exact ⟨_, if_pos outside, rfl, remaining⟩

/-- `sem_signal` never fails. -/
theorem Represents.signal (represents : sem.Represents address run) {task : Task}
    (outside : run.point task = .outside) :
    ∃ next, sem.Steps address (.signal task) next := by
  rw [represents.point] at outside
  obtain ⟨-, entries, last, stored⟩ := represents
  generalize run.sem.taskQueue = tasks, run.tailNull = tailNull at stored
  cases tasks with
  | nil => exact ⟨_, .signalEmpty outside stored.pop_empty (show (-1 : ℤ) ≠ 0 by decide)⟩
  | cons first rest =>
      obtain ⟨popped, pops, taken, data, -⟩ := stored.pop
      exact ⟨_, .signalPop outside pops taken data⟩

end SemMemory

end Refinement

end CatchOS.Tasks
