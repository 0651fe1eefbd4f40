import CatchOS.Utils.Queue

/-!
# The blocks of a queue

The header of `queue.c` says that a pop frees the element it returns. A queue that does
so owns two blocks for each element, the node and the copy, and no other block. What
`queue_pop` calls to free the node removes nothing (`Queued.pop`), so a pop that
returns an element leaves two blocks that no queue leads to.

Runs are of calls with any numbers of bytes. In every run the heap has at least two
blocks for each element, and it has more from the first pop on that returned an element.
So the queue owns just its elements in the runs that pop only from an empty queue, and in
no others: `owned_iff_reachable_pops_empty`.
-/

set_option autoImplicit false

namespace CatchOS.Utils

open CatchOS.Lib CatchOS.Mmu

/-- A call, with the blocks that `mmu_mmap` returns to a push. -/
inductive QueueCall where
  | push (data : List Byte) (node tmp : ℕ)
  | pop (dataSize : ℕ)

/-- A queue and its heap. -/
structure QueueState where
  heap : Heap
  queue : Queue

def QueueState.call (state : QueueState) : QueueCall → Option QueueState
  | .push data node tmp =>
      (queuePush state.heap state.queue data node tmp).map fun (heap, queue) => ⟨heap, queue⟩
  | .pop dataSize =>
      (queuePop state.heap state.queue dataSize).map fun (result : Popped) =>
        ⟨result.heap, result.queue⟩

/-- Runs start with a queue of zeros, in a heap with the blocks of `others`. -/
def queueCalls (others : List Extent) : System QueueState QueueCall where
  initial state := state.queue = ⟨0, 0, 0⟩ ∧ state.heap.blocks = others
  step := QueueState.call

/-- The live blocks are the node and the copy of each element, and those of `others`. -/
def QueueState.Owned (others : List Extent) (state : QueueState) : Prop :=
  ∃ entries, Queued state.heap state.queue entries ∧
    state.heap.blocks.Perm (entries.flatMap (Entry.extents 8) ++ others)

/-- A pop is called with an empty queue. -/
def PopsEmpty (state : QueueState) : QueueCall → Prop
  | .push .. => True
  | .pop _ => state.queue.head = 0

instance (state : QueueState) : (call : QueueCall) → Decidable (PopsEmpty state call)
  | .push .. => .isTrue trivial
  | .pop _ => inferInstanceAs (Decidable (state.queue.head = 0))

/-! ## How many blocks there are -/

theorem length_flatMap_extents (width : ℕ) (entries : List Entry) :
    (entries.flatMap (Entry.extents width)).length = 2 * entries.length := by
  induction entries with
  | nil => rfl
  | cons entry entries ih =>
      rw [List.flatMap_cons, List.length_append, ih, List.length_cons, Entry.extents,
        List.length_cons, List.length_singleton]
      omega

/-- The elements of a queue are its nodes from `head` on, so there is one number of them. -/
theorem Queued.length_unique {heap : Heap} {queue : Queue} {entries others : List Entry}
    (queued : Queued heap queue entries) (other : Queued heap queue others) :
    entries.length = others.length := by
  have same := congrArg List.length (queued.chain.unique other.chain)
  rwa [List.length_map, List.length_map] at same

/-! ## Runs that leak nothing -/

section Owned

variable {others : List Extent} {state next : QueueState}

/-- The two blocks of a push are those of the new element. -/
theorem QueueState.Owned.push (owned : state.Owned others) {data : List Byte} {node tmp : ℕ}
    (called : state.call (.push data node tmp) = some next) : next.Owned others := by
  obtain ⟨entries, queued, perm⟩ := owned
  obtain ⟨⟨heap, queue⟩, pushed, rfl⟩ := Option.map_eq_some_iff.mp called
  obtain ⟨queued, blocks⟩ := queued.push pushed
  refine ⟨entries ++ [⟨node, tmp, data⟩], queued, ?_⟩
  rw [blocks, List.flatMap_append, List.flatMap_singleton, Entry.extents, List.append_assoc]
  refine (List.Perm.swap _ _ _).trans ?_
  exact ((perm.cons _).cons _).trans (List.perm_append_comm_assoc [_, _] _ _)

theorem owned_of_popsEmpty (popsEmpty : (queueCalls others).ReachableUnder PopsEmpty state) :
    state.Owned others := by
  refine popsEmpty.invariant (QueueState.Owned others) ?_ ?_
  · rintro state ⟨empty, blocks⟩
    refine ⟨[], ?_, ?_⟩
    · rw [empty]
      exact Queued.empty state.heap
    · rw [blocks]
      exact List.Perm.refl _
  · intro state call next owned allowed called
    cases call with
    | push data node tmp => exact owned.push called
    | pop dataSize =>
        obtain ⟨result, popped, rfl⟩ := Option.map_eq_some_iff.mp called
        have empty : state.queue.head = 0 := allowed
        rw [queuePop, if_pos empty, Option.some.injEq] at popped
        subst popped
        exact owned

end Owned

/-! ## Runs that leak -/

/-- Two blocks or more for each element. With exactly two, no pop has returned an
element. -/
structure BlocksInvariant (others : List Extent) (state : QueueState) (entries : List Entry) :
    Prop where
  queued : Queued state.heap state.queue entries
  atLeast : 2 * entries.length + others.length ≤ state.heap.blocks.length
  exactly : state.heap.blocks.length = 2 * entries.length + others.length →
    (queueCalls others).ReachableUnder PopsEmpty state

namespace BlocksInvariant

variable {others : List Extent} {state next : QueueState} {entries : List Entry}

theorem push (invariant : BlocksInvariant others state entries) {data : List Byte} {node tmp : ℕ}
    (called : state.call (.push data node tmp) = some next) :
    ∃ entries, BlocksInvariant others next entries := by
  have allowed : PopsEmpty state (.push data node tmp) := trivial
  have stepped := called
  obtain ⟨⟨heap, queue⟩, pushed, rfl⟩ := Option.map_eq_some_iff.mp called
  obtain ⟨queued, blocks⟩ := invariant.queued.push pushed
  have atLeast := invariant.atLeast
  have grown : heap.blocks.length = state.heap.blocks.length + 2 := by
    rw [blocks, List.length_cons, List.length_cons]
  have longer (entry : Entry) : (entries ++ [entry]).length = entries.length + 1 :=
    List.length_append
  refine ⟨entries ++ [⟨node, tmp, data⟩], queued, ?_, ?_⟩
  · rw [longer, grown]
    omega
  · rw [longer, grown]
    intro exactly
    exact .step (invariant.exactly (by omega)) allowed stepped

theorem pop (invariant : BlocksInvariant others state entries) {dataSize : ℕ}
    (called : state.call (.pop dataSize) = some next) :
    ∃ entries, BlocksInvariant others next entries := by
  obtain ⟨result, popped, rfl⟩ := Option.map_eq_some_iff.mp called
  cases entries with
  | nil =>
      have empty := invariant.queued.head_eq_zero.mpr rfl
      rw [queuePop, if_pos empty, Option.some.injEq] at popped
      subst popped
      exact ⟨[], invariant.queued, invariant.atLeast, invariant.exactly⟩
  | cons entry entries =>
      obtain ⟨returned, queued⟩ := invariant.queued.pop dataSize
      rw [popped, Option.some.injEq] at returned
      subst returned
      -- The blocks stay and there is one element less: there are more than two for each.
      have more : 2 * entries.length + others.length < state.heap.blocks.length := by
        have atLeast := invariant.atLeast
        rw [List.length_cons] at atLeast
        omega
      exact ⟨entries, queued, more.le, fun exactly => absurd exactly more.ne'⟩

end BlocksInvariant

theorem blocksInvariant_reachable {others : List Extent} {state : QueueState}
    (reachable : (queueCalls others).Reachable state) :
    ∃ entries, BlocksInvariant others state entries := by
  refine reachable.invariant (fun state => ∃ entries, BlocksInvariant others state entries) ?_ ?_
  · rintro state ⟨empty, blocks⟩
    refine ⟨[], ?_, ?_, fun _ => .start ⟨empty, blocks⟩⟩
    · rw [empty]
      exact Queued.empty state.heap
    · rw [blocks, List.length_nil]
      omega
  · rintro state call next ⟨entries, invariant⟩ _ called
    cases call with
    | push data node tmp => exact invariant.push called
    | pop dataSize => exact invariant.pop called

/-- **A queue leaks what it pops.** In every state of every run, the live blocks are those
of the elements that are in the queue if and only if no pop was called on a queue that had
an element. -/
theorem owned_iff_reachable_pops_empty {others : List Extent} {state : QueueState}
    (reachable : (queueCalls others).Reachable state) :
    state.Owned others ↔ (queueCalls others).ReachableUnder PopsEmpty state := by
  refine ⟨?_, owned_of_popsEmpty⟩
  rintro ⟨entries, queued, perm⟩
  obtain ⟨counted, invariant⟩ := blocksInvariant_reachable reachable
  have length := perm.length_eq
  rw [List.length_append, length_flatMap_extents, queued.length_unique invariant.queued] at length
  exact invariant.exactly length

/-- A heap without blocks. -/
def emptyHeap : Heap := ⟨fun _ => 0, [], .nil, nofun⟩

/-- Two pushes that meet the condition leave four blocks, those of the two elements. -/
theorem owned_two_pushes : ∃ state, (queueCalls []).ReachableUnder PopsEmpty state ∧
    state.heap.blocks.length = 4 ∧ state.Owned [] := by
  have initial : (queueCalls []).initial ⟨emptyHeap, ⟨0, 0, 0⟩⟩ := ⟨rfl, rfl⟩
  obtain ⟨state, reachable, tested⟩ := System.exists_reachableUnder_of_replay (queueCalls [])
    PopsEmpty initial [.pop 4, .push [1, 0, 0, 0] 16 32, .push [2] 48 64]
    (fun state => state.heap.blocks.length = 4) (by decide +kernel)
  have anyRun := reachable.mono fun _ _ _ => trivial
  exact ⟨state, reachable, of_decide_eq_true tested,
    (owned_iff_reachable_pops_empty anyRun).mpr reachable⟩

/-- One push and one pop: the queue is empty, and both blocks of its element are live. -/
theorem popped_element_not_owned : ∃ state, (queueCalls []).Reachable state ∧
    state.queue.head = 0 ∧ state.heap.blocks = [⟨32, 4⟩, ⟨16, 8⟩] ∧ ¬state.Owned [] := by
  have initial : (queueCalls []).initial ⟨emptyHeap, ⟨0, 0, 0⟩⟩ := ⟨rfl, rfl⟩
  obtain ⟨state, reachable, tested⟩ := System.exists_reachableUnder_of_replay (queueCalls [])
    (fun _ _ => True) initial [.push [1, 0, 0, 0] 16 32, .pop 4]
    (fun state => state.queue.head = 0 ∧ state.heap.blocks = [⟨32, 4⟩, ⟨16, 8⟩])
    (by decide +kernel)
  obtain ⟨empty, blocks⟩ := of_decide_eq_true tested
  refine ⟨state, reachable, empty, blocks, ?_⟩
  rintro ⟨entries, queued, perm⟩
  obtain rfl := queued.head_eq_zero.mp empty
  rw [blocks] at perm
  exact absurd perm.length_eq (by decide)

end CatchOS.Utils
