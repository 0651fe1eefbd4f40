import CatchOS.Lib.Transition
import CatchOS.Utils.List

/-!
# Queues

`queue.c`: a linked list with a pointer to its last node. `queue_pop` calls
`list_remove` with the old head as the list and as the node. The loop there looks
for a node that leads to the old head, and there is none, so it ends at the last
node and removes nothing: the block of a popped node is never given back, and its
`next` word still leads into the queue. When the last element is popped, `tail`
still points to it, and the next push must not use it.

The invariant is that the nodes from `head` on are a chain that ends at `tail` and
holds what was pushed and not yet popped. `queue_fifo` follows for every run.
-/

set_option autoImplicit false

namespace CatchOS.Utils

open CatchOS.Lib CatchOS.Mmu

structure Queue where
  head : ℕ
  tail : ℕ
  size : ℤ

/-- The blocks that `mmu_mmap` returns are arguments: the node and the copy. -/
def queuePush (heap : Heap) (queue : Queue) (data : List Byte) (node tmp : ℕ) :
    Option (Heap × Queue) :=
  if queue.head = 0 then
    (listCreate heap data node tmp).map fun heap => (heap, ⟨node, node, 1⟩)
  else
    (listInsertAfter heap queue.tail data node tmp).map fun (p, heap) =>
      (heap, { queue with tail := p, size := int32 (queue.size + 1) })

/-- What a call of `queue_pop` leaves: its result, the bytes it copied out, the heap
and the queue. -/
structure Popped where
  ret : ℤ
  data : List Byte
  heap : Heap
  queue : Queue

def queuePop (heap : Heap) (queue : Queue) (dataSize : ℕ) : Option Popped :=
  if queue.head = 0 then
    some ⟨-1, [], heap, queue⟩
  else
    let data := readBytes heap.memory (listData heap.memory queue.head) dataSize
    let oldhead := queue.head
    let newhead := listNext heap.memory queue.head
    (listRemove heap oldhead oldhead).map fun (_, heap) =>
      ⟨0, data, heap, { queue with head := newhead, size := int32 (queue.size - 1) }⟩

def queueSize (queue : Queue) : ℤ := queue.size

/-! ## Runs -/

/-- A queue in its heap, the values that were pushed and those that were popped. -/
structure QueueRun where
  heap : Heap
  queue : Queue
  pushed : List (List Byte)
  popped : List (List Byte)

inductive QueueAction where
  | push (data : List Byte) (node tmp : ℕ)
  | pop

/-- All pushes and pops are of `dataSize` bytes. -/
def QueueRun.step (dataSize : ℕ) (run : QueueRun) : QueueAction → Option QueueRun
  | .push data node tmp =>
      if data.length = dataSize then
        (queuePush run.heap run.queue data node tmp).map fun (heap, queue) =>
          { run with heap := heap, queue := queue, pushed := run.pushed ++ [data] }
      else
        none
  | .pop =>
      (queuePop run.heap run.queue dataSize).map fun (result : Popped) =>
        { run with
          heap := result.heap
          queue := result.queue
          popped := if result.ret = 0 then run.popped ++ [result.data] else run.popped }

/-- Runs start with a queue of zeros, in any heap. -/
def queueSystem (dataSize : ℕ) : System QueueRun QueueAction where
  initial run := run.queue = ⟨0, 0, 0⟩ ∧ run.pushed = [] ∧ run.popped = []
  step := QueueRun.step dataSize

/-! ## The invariant -/

/-- The entries are the queue from `head` to `tail`. -/
structure Queued (heap : Heap) (queue : Queue) (entries : List Entry) : Prop where
  laid : Laid heap 8 entries
  chain : Chain (listNext heap.memory) 0 queue.head (entries.map Entry.node)
  tail : ∀ entry, entries.getLast? = some entry → queue.tail = entry.node
  size : queue.size = entries.length

namespace Queued

variable {heap : Heap} {queue : Queue} {entries : List Entry} {entry : Entry}

theorem head_eq_zero (queued : Queued heap queue entries) : queue.head = 0 ↔ entries = [] := by
  rw [← queued.chain.nil_iff, List.map_eq_nil_iff]

/-- A node takes eight bytes of the address space, so the counter cannot overflow. -/
theorem length_lt (queued : Queued heap queue entries) : entries.length ≤ 2 ^ 29 := by
  have bound := queued.laid.mul_length_le
  omega

/-- A queue of zeros has no entries. -/
theorem empty (heap : Heap) : Queued heap ⟨0, 0, 0⟩ [] := ⟨.nil _ _, .nil, nofun, rfl⟩

/-- The first push writes a node that is head and tail. -/
theorem push_empty {after : Heap} {data : List Byte} {node tmp : ℕ}
    (called : listCreate heap data node tmp = some after) :
    Queued after ⟨node, node, 1⟩ [⟨node, tmp, data⟩] ∧
      after.blocks = ⟨tmp, data.length⟩ :: ⟨node, 8⟩ :: heap.blocks := by
  obtain ⟨between, requested, created⟩ := Option.bind_eq_some_iff.mp called
  obtain ⟨laid, next, blocks, -⟩ :=
    (Laid.nil heap 8).create_fresh (Nat.le_refl _) requested created
  refine ⟨⟨laid, .cons (mmuMmap_spec requested).1.1.1 ?_, ?_, rfl⟩, blocks⟩
  · rw [next]
    exact .nil
  · intro entry ends
    simp only [List.getLast?_singleton, Option.some.injEq] at ends
    rw [← ends]

/-- A later push links a new node to the last one. -/
theorem push_after (queued : Queued heap queue entries) (ends : entries.getLast? = some entry)
    {p : ℕ} {after : Heap} {data : List Byte} {node tmp : ℕ}
    (called : listInsertAfter heap queue.tail data node tmp = some (p, after)) :
    Queued after { queue with tail := p, size := int32 (queue.size + 1) }
        (entries ++ [⟨node, tmp, data⟩]) ∧
      after.blocks = ⟨tmp, data.length⟩ :: ⟨node, 8⟩ :: heap.blocks := by
  have member := List.mem_of_getLast? ends
  have nonnull : entry.node ≠ 0 := (heap.inside _ (queued.laid.node_mem member)).1
  have short := queued.length_lt
  have counted : int32 (queue.size + 1) = entries.length + 1 := by
    rw [queued.size]
    exact int32_eq (by omega) (by omega)
  rw [queued.tail entry ends, listInsertAfter, if_neg nonnull] at called
  obtain ⟨made, create, result⟩ := Option.map_eq_some_iff.mp called
  obtain ⟨between, requested, created⟩ := Option.bind_eq_some_iff.mp create
  obtain ⟨rfl, rfl⟩ := Prod.mk.inj result
  obtain ⟨laid, next, blocks, same⟩ := queued.laid.create_fresh (Nat.le_refl _) requested created
  have chain := queued.laid.chain_frame (Nat.le_refl _) (fun _ => id) same queued.chain
  refine ⟨⟨?_, laid.chain_concat (Nat.le_refl _) chain (fun _ => id) ends, ?_, ?_⟩, blocks⟩
  · exact (laid.linkAfter (Nat.le_refl _) (List.mem_append_left _ member)
      (List.mem_append_right _ List.mem_cons_self) (laid.ne_new (Nat.le_refl _) member)).1
  · intro last isLast
    simp only [List.getLast?_concat, Option.some.injEq] at isLast
    rw [← isLast]
  · simp only [counted, List.length_append, List.length_singleton, Nat.cast_add, Nat.cast_one]

/-- A push adds an entry at the end, in two new blocks. -/
theorem push (queued : Queued heap queue entries) {after : Heap} {queue' : Queue}
    {data : List Byte} {node tmp : ℕ}
    (called : queuePush heap queue data node tmp = some (after, queue')) :
    Queued after queue' (entries ++ [⟨node, tmp, data⟩]) ∧
      after.blocks = ⟨tmp, data.length⟩ :: ⟨node, 8⟩ :: heap.blocks := by
  unfold queuePush at called
  cases ends : entries.getLast? with
  | none =>
      obtain rfl := List.getLast?_eq_none_iff.mp ends
      rw [if_pos (queued.head_eq_zero.mpr rfl)] at called
      obtain ⟨made, created, result⟩ := Option.map_eq_some_iff.mp called
      obtain ⟨rfl, rfl⟩ := Prod.mk.inj result
      exact push_empty created
  | some entry =>
      have nonempty : entries ≠ [] := by
        rintro rfl
        cases ends
      rw [if_neg (mt queued.head_eq_zero.mp nonempty)] at called
      obtain ⟨⟨p, made⟩, inserted, result⟩ := Option.map_eq_some_iff.mp called
      obtain ⟨rfl, rfl⟩ := Prod.mk.inj result
      exact queued.push_after ends inserted

/-- A pop takes the first entry, whatever number of bytes it copies, and leaves the heap
as it is. -/
theorem pop (queued : Queued heap queue (entry :: entries)) (dataSize : ℕ) :
    queuePop heap queue dataSize = some ⟨0, readBytes heap.memory entry.data dataSize, heap,
      { queue with head := listNext heap.memory queue.head, size := int32 (queue.size - 1) }⟩ ∧
    Queued heap
      { queue with head := listNext heap.memory queue.head, size := int32 (queue.size - 1) }
      entries := by
  obtain ⟨atHead, nonnull, rest⟩ := queued.chain.uncons
  have bound := queued.laid.length_le queued.chain.nodup
  have short := queued.length_lt
  have removed : listRemove heap queue.head queue.head = some (-1, heap) :=
    listRemove_start queued.chain (List.cons_ne_nil _ _) (by rw [List.length_map]; omega)
  have points := (queued.laid.stored entry List.mem_cons_self).data
  have counted : int32 (queue.size - 1) = entries.length := by
    rw [queued.size, List.length_cons, Nat.cast_succ, add_sub_cancel_right]
    rw [List.length_cons] at short
    exact int32_eq (by omega) (by omega)
  refine ⟨?_, queued.laid.of_cons, ?_, ?_, counted⟩
  · simp only [queuePop, removed, Option.map_some]
    rw [if_neg (by rw [atHead]; exact nonnull)]
    simp only [atHead, points]
  · rw [atHead]
    exact rest
  · intro last ends
    refine queued.tail last ?_
    cases entries with
    | nil => cases ends
    | cons second others => rwa [List.getLast?_cons_cons]

end Queued

/-- What was pushed is what was popped and, after that, what is in the queue. -/
structure QueueInvariant (dataSize : ℕ) (run : QueueRun) (entries : List Entry) : Prop where
  queued : Queued run.heap run.queue entries
  values : run.pushed = run.popped ++ entries.map Entry.value
  sizes : ∀ entry ∈ entries, entry.value.length = dataSize

namespace QueueInvariant

variable {dataSize : ℕ} {run next : QueueRun} {entries : List Entry}

theorem push (invariant : QueueInvariant dataSize run entries) {data : List Byte} {node tmp : ℕ}
    (stepped : run.step dataSize (.push data node tmp) = some next) :
    ∃ entries, QueueInvariant dataSize next entries := by
  simp only [QueueRun.step] at stepped
  split at stepped
  case isFalse => cases stepped
  case isTrue length =>
    obtain ⟨⟨heap, queue⟩, called, rfl⟩ := Option.map_eq_some_iff.mp stepped
    refine ⟨entries ++ [⟨node, tmp, data⟩], (invariant.queued.push called).1, ?_, ?_⟩
    · simp only [invariant.values, List.map_append, List.map_cons, List.map_nil,
        List.append_assoc]
    · exact List.forall_mem_append.mpr ⟨invariant.sizes, List.forall_mem_singleton.mpr length⟩

theorem pop (invariant : QueueInvariant dataSize run entries)
    (stepped : run.step dataSize .pop = some next) :
    ∃ entries, QueueInvariant dataSize next entries := by
  simp only [QueueRun.step] at stepped
  obtain ⟨result, called, rfl⟩ := Option.map_eq_some_iff.mp stepped
  cases entries with
  | nil =>
      have empty := invariant.queued.head_eq_zero.mpr rfl
      rw [queuePop, if_pos empty, Option.some.injEq] at called
      subst called
      exact ⟨[], invariant.queued, invariant.values, nofun⟩
  | cons entry entries =>
      obtain ⟨length, sizes⟩ := List.forall_mem_cons.mp invariant.sizes
      obtain ⟨popped, queued⟩ := invariant.queued.pop dataSize
      have value := (invariant.queued.laid.stored entry List.mem_cons_self).value
      rw [length] at value
      rw [called, value, Option.some.injEq] at popped
      subst popped
      refine ⟨entries, queued, ?_, sizes⟩
      simp only [invariant.values, if_true, List.map_cons, List.append_assoc,
        List.singleton_append]

end QueueInvariant

theorem queueInvariant_reachable {dataSize : ℕ} {run : QueueRun}
    (reachable : (queueSystem dataSize).Reachable run) :
    ∃ entries, QueueInvariant dataSize run entries := by
  refine reachable.invariant (fun run => ∃ entries, QueueInvariant dataSize run entries) ?_ ?_
  · rintro run ⟨empty, pushed, popped⟩
    refine ⟨[], ?_, ?_, nofun⟩
    · rw [empty]
      exact Queued.empty run.heap
    · rw [pushed, popped]
      rfl
  · rintro run action next ⟨entries, invariant⟩ _ stepped
    cases action with
    | push data node tmp => exact invariant.push stepped
    | pop => exact invariant.pop stepped

/-- **A queue is first in, first out.** In every state of every run, the values that
were popped are the first ones that were pushed; `queue_pop` returns, and it returns
`-1` exactly when everything that was pushed was popped; `queue_size` is the number of
nodes from `head` on, and the last of them is `tail`. -/
theorem queue_fifo {dataSize : ℕ} {run : QueueRun}
    (reachable : (queueSystem dataSize).Reachable run) :
    run.popped <+: run.pushed ∧
      (∃ result, queuePop run.heap run.queue dataSize = some result ∧
        (result.ret = -1 ↔ run.popped.length = run.pushed.length)) ∧
      ∃ nodes, Chain (listNext run.heap.memory) 0 run.queue.head nodes ∧
        queueSize run.queue = nodes.length ∧
        (nodes ≠ [] → nodes.getLast? = some run.queue.tail) := by
  obtain ⟨entries, invariant⟩ := queueInvariant_reachable reachable
  refine ⟨⟨_, invariant.values.symm⟩, ?_, entries.map Entry.node, invariant.queued.chain, ?_, ?_⟩
  · cases entries with
    | nil =>
        have empty := invariant.queued.head_eq_zero.mpr rfl
        refine ⟨_, if_pos empty, fun _ => ?_, fun _ => rfl⟩
        rw [invariant.values, List.map_nil, List.append_nil]
    | cons entry entries =>
        have popped := (invariant.queued.pop dataSize).1
        refine ⟨_, popped, fun failed => ?_, fun equal => ?_⟩
        · cases failed
        · rw [invariant.values, List.length_append, List.map_cons, List.length_cons] at equal
          omega
  · rw [queueSize, invariant.queued.size, List.length_map]
  · intro nonempty
    have some' : entries ≠ [] := fun empty => nonempty (by rw [empty]; rfl)
    have ends := List.getLast?_eq_some_getLast some'
    rw [List.getLast?_map, ends, Option.map_some, invariant.queued.tail _ ends]

/-- A queue that was emptied by two pops is filled again: the third value is at the
head and the tail, and comes out next. -/
theorem queue_fifo_refilled : ∃ run, (queueSystem 1).Reachable run ∧
    run.pushed = [[1], [2], [3]] ∧ run.popped = [[1], [2]] ∧ run.queue.head = run.queue.tail ∧
    run.popped <+: run.pushed := by
  let heap : Heap := ⟨fun _ => 0, [], .nil, fun _ isBlock => absurd isBlock List.not_mem_nil⟩
  have initial : (queueSystem 1).initial ⟨heap, ⟨0, 0, 0⟩, [], []⟩ := ⟨rfl, rfl, rfl⟩
  obtain ⟨run, reachable, tested⟩ := System.exists_reachableUnder_of_replay (queueSystem 1)
    (fun _ _ => True) initial
    [.push [1] 16 32, .push [2] 48 64, .pop, .pop, .push [3] 80 96]
    (fun run => run.pushed = [[1], [2], [3]] ∧ run.popped = [[1], [2]] ∧
      run.queue.head = run.queue.tail) (by decide +kernel)
  obtain ⟨pushed, popped, single⟩ := of_decide_eq_true tested
  exact ⟨run, reachable, pushed, popped, single, (queue_fifo reachable).1⟩

end CatchOS.Utils
