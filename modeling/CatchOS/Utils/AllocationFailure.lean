import CatchOS.Utils.HashtableKeys
import CatchOS.Utils.Queue

/-!
# Containers and failing allocations

The functions that insert into a list, a queue and a hash table, with the results of their
calls of `mmu_mmap` as arguments: a block, or `NULL`. They ask for a node and for a copy of the
data. `list_create` and `list_create_noalloc` check both results and report a failure with
`NULL`, and none of their callers looks at it.

An insertion survives if it stores nothing through `NULL` and either adds one element, or
leaves the container and the blocks of the heap as they were. `insertions_survive_iff` says
when: a list without a last node is left alone, and in every other case both calls of
`mmu_mmap` have to succeed.
-/

set_option autoImplicit false

namespace CatchOS.Utils

open CatchOS.Lib CatchOS.Mmu

/-! ## The functions -/

/-- The heap, and the pointers that were stored through so far. -/
structure Attempt where
  heap : Heap
  through : List ℕ

namespace Attempt

/-- `mmu_mmap` with the given outcome. -/
def mmap (attempt : Attempt) (size : ℕ) (outcome : Option ℕ) : Option (ℕ × Attempt) :=
  (mmuMmapOutcome attempt.heap size outcome).map fun (address, heap) =>
    (address, ⟨heap, attempt.through⟩)

/-- A store through a pointer, with the memory after it. -/
def store (attempt : Attempt) (pointer : ℕ) (memory : Memory) : Attempt :=
  ⟨attempt.heap.store memory, pointer :: attempt.through⟩

/-- The last statements of `list_create_noalloc`. -/
def fill (attempt : Attempt) (data : List Byte) (newnode tmp : ℕ) : Attempt :=
  let attempt := attempt.store tmp (writeBytes attempt.heap.memory tmp data)
  let attempt := attempt.store newnode (setData attempt.heap.memory newnode tmp)
  attempt.store newnode (setNext attempt.heap.memory newnode 0)

def listCreateNoalloc (attempt : Attempt) (data : List Byte) (newnode : ℕ) (copy : Option ℕ) :
    Option (ℕ × Attempt) :=
  (attempt.mmap data.length copy).map fun (tmp, attempt) =>
    if tmp = 0 then (0, attempt) else (newnode, attempt.fill data newnode tmp)

/-- What follows the first call of `mmu_mmap` is as in `list_create_noalloc`. -/
def listCreate (attempt : Attempt) (data : List Byte) (node copy : Option ℕ) :
    Option (ℕ × Attempt) :=
  (attempt.mmap 8 node).bind fun (node, attempt) =>
    if node = 0 then some (0, attempt) else attempt.listCreateNoalloc data node copy

/-- The last statements of the functions that insert after a node. -/
def linkAfter (attempt : Attempt) (node newnode : ℕ) : Attempt :=
  let attempt := attempt.store newnode
    (setNext attempt.heap.memory newnode (listNext attempt.heap.memory node))
  attempt.store node (setNext attempt.heap.memory node newnode)

def listInsertAfter (attempt : Attempt) (node : ℕ) (data : List Byte) (newnode copy : Option ℕ) :
    Option (ℕ × Attempt) :=
  if node = 0 then some (0, attempt)
  else
    (attempt.listCreate data newnode copy).map fun (newnode, attempt) =>
      (newnode, attempt.linkAfter node newnode)

/-- The result of `list_create_noalloc` is not used. -/
def listInsertAfterNoalloc (attempt : Attempt) (node : ℕ) (data : List Byte) (newnode : ℕ)
    (copy : Option ℕ) : Option (ℕ × Attempt) :=
  if node = 0 then some (0, attempt)
  else
    (attempt.listCreateNoalloc data newnode copy).map fun (_, attempt) =>
      (newnode, attempt.linkAfter node newnode)

def listInsertBackNoalloc (attempt : Attempt) (node : ℕ) (data : List Byte) (newnode : ℕ)
    (copy : Option ℕ) : Option (ℕ × Attempt) :=
  (listGetTail attempt.heap node).bind fun tail =>
    attempt.listInsertAfterNoalloc tail data newnode copy

def listInsertBack (attempt : Attempt) (node : ℕ) (data : List Byte) (newnode copy : Option ℕ) :
    Option (ℕ × Attempt) :=
  (listGetTail attempt.heap node).bind fun tail => attempt.listInsertAfter tail data newnode copy

def listInsertBefore (attempt : Attempt) (list : ℕ) (data : List Byte)
    (newnode copy : Option ℕ) : Option (ℕ × Attempt) :=
  (attempt.listCreate data newnode copy).map fun (newnode, attempt) =>
    (newnode, attempt.store newnode (setNext attempt.heap.memory newnode list))

def queuePush (attempt : Attempt) (queue : Queue) (data : List Byte) (node copy : Option ℕ) :
    Option (Attempt × Queue) :=
  if queue.head = 0 then
    (attempt.listCreate data node copy).map fun (node, attempt) => (attempt, ⟨node, node, 1⟩)
  else
    (attempt.listInsertAfter queue.tail data node copy).map fun (p, attempt) =>
      (attempt, { queue with tail := p, size := int32 (queue.size + 1) })

def hashtableInsert (attempt : Attempt) (ht : Hashtable) (key data : List Byte)
    (node copy : Option ℕ) : Option Attempt :=
  let index := ht.hash key ht.size
  if nodeAt attempt.heap.memory ht index = 0 then
    (attempt.mmap htPairSize node).bind fun (node, attempt) =>
      let attempt := attempt.store ht.nodes
        (storeWord attempt.heap.memory (nodeSlot ht index) node)
      (attempt.listCreateNoalloc data (nodeAt attempt.heap.memory ht index) copy).map
        fun (_, attempt) =>
          let node := nodeAt attempt.heap.memory ht index
          attempt.store node (storeKey attempt.heap.memory node key)
  else
    (attempt.mmap htPairSize node).bind fun (newnode, attempt) =>
      let attempt := attempt.store newnode (setNext attempt.heap.memory newnode 0)
      (attempt.listInsertBackNoalloc (nodeAt attempt.heap.memory ht index) data newnode copy).map
        fun (_, attempt) => attempt.store newnode (storeKey attempt.heap.memory newnode key)

end Attempt

/-! ## Surviving -/

/-- What the calls of `mmu_mmap` for a node of the given width and for a copy of the data
return: fresh blocks that are apart, or `NULL`. -/
structure Outcomes (heap : Heap) (width : ℕ) (data : List Byte) where
  node : Option ℕ
  copy : Option ℕ
  supply : heap.Supply
    (node.toList.map (fun start => ⟨start, width⟩) ++
      copy.toList.map fun start => ⟨start, data.length⟩)

/-- Both calls return a block. -/
def Outcomes.Succeed {heap : Heap} {width : ℕ} {data : List Byte}
    (outcomes : Outcomes heap width data) : Prop :=
  outcomes.node ≠ none ∧ outcomes.copy ≠ none

/-- The blocks of the heap and what is in them are as they were. -/
structure Unchanged (before after : Heap) : Prop where
  blocks : after.blocks = before.blocks
  bytes : ∀ block ∈ before.blocks, ∀ address, block.Contains address →
    after.memory address = before.memory address

/-- The blocks of a new entry were added to the heap, with a copy of the data. -/
structure Grown (before after : Heap) (width : ℕ) (data : List Byte) (new : Entry) : Prop where
  value : new.value = data
  blocks : after.blocks = new.dataExtent :: new.nodeExtent width :: before.blocks

/-- The entries are the list from the given node on. -/
structure Listed (heap : Heap) (list : ℕ) (entries : List Entry) : Prop where
  laid : Laid heap 8 entries
  chain : Chain (listNext heap.memory) 0 list (entries.map Entry.node)

/-- A call that inserts into a list, with the first node afterwards. -/
def ListSurvives (heap : Heap) (entries : List Entry) (data : List Byte)
    (call : Option (ℕ × Attempt)) : Prop :=
  ∃ list after, call = some (list, after) ∧ 0 ∉ after.through ∧
    (Unchanged heap after.heap ∨
      ∃ front back new, entries = front ++ back ∧
        Listed after.heap list (front ++ new :: back) ∧ Grown heap after.heap 8 data new)

def QueueSurvives (heap : Heap) (queue : Queue) (entries : List Entry) (data : List Byte)
    (call : Option (Attempt × Queue)) : Prop :=
  ∃ after queue', call = some (after, queue') ∧ 0 ∉ after.through ∧
    (Unchanged heap after.heap ∧ queue' = queue ∨
      ∃ new, Queued after.heap queue' (entries ++ [new]) ∧ Grown heap after.heap 8 data new)

def TableSurvives (heap : Heap) (ht : Hashtable) (pairs : List Pair) (key data : List Byte)
    (call : Option Attempt) : Prop :=
  ∃ after, call = some after ∧ 0 ∉ after.through ∧
    (Unchanged heap after.heap ∨
      ∃ entry, KeyTable after.heap ht (pairs ++ [⟨key, entry⟩]) ∧
        Grown heap after.heap htPairSize data entry)

/-! ## Calls whose requests succeed -/

namespace Attempt

variable {attempt : Attempt} {after : Heap} {data : List Byte} {node newnode tmp result : ℕ}

/-- Nothing was stored through `NULL`. -/
def Safe (attempt : Attempt) : Prop := 0 ∉ attempt.through

theorem Safe.store (safe : attempt.Safe) {pointer : ℕ} (nonnull : pointer ≠ 0) (memory : Memory) :
    (attempt.store pointer memory).Safe := by
  intro member
  rcases List.mem_cons.mp member with same | earlier
  · exact nonnull same.symm
  · exact safe earlier

theorem Safe.fill (safe : attempt.Safe) (nonnull : newnode ≠ 0) (copied : tmp ≠ 0) :
    (attempt.fill data newnode tmp).Safe :=
  ((safe.store copied _).store nonnull _).store nonnull _

theorem Safe.linkAfter (safe : attempt.Safe) (nonnull : node ≠ 0) (newNonnull : newnode ≠ 0) :
    (attempt.linkAfter node newnode).Safe :=
  (safe.store newNonnull _).store nonnull _

theorem mmap_some {size address : ℕ} (called : mmuMmap attempt.heap ⟨address, size⟩ = some after) :
    attempt.mmap size (some address) = some (address, ⟨after, attempt.through⟩) := by
  rw [mmap, mmuMmapOutcome, called]
  rfl

theorem mmap_made {size address pointer : ℕ} {next : Attempt}
    (called : attempt.mmap size (some address) = some (pointer, next)) :
    pointer = address ∧ address ≠ 0 ∧ mmuMmap attempt.heap ⟨address, size⟩ = some next.heap := by
  obtain ⟨⟨_, heap⟩, mapped, returned⟩ := Option.map_eq_some_iff.mp called
  obtain ⟨rfl, rfl⟩ := Prod.mk.inj returned
  exact mmuMmapOutcome_some mapped

theorem mmap_blocks {size address pointer : ℕ} {next : Attempt}
    (called : attempt.mmap size (some address) = some (pointer, next)) :
    next.heap.blocks = ⟨address, size⟩ :: attempt.heap.blocks :=
  (mmuMmap_spec (mmap_made called).2.2).2.2

/-- A call that returns the result with the heap, and stored nothing through `NULL`. -/
def Returns (call : Option (ℕ × Attempt)) (result : ℕ) (heap : Heap) : Prop :=
  ∃ next, call = some (result, next) ∧ next.heap = heap ∧ next.Safe

theorem listCreateNoalloc_some (safe : attempt.Safe) (nonnull : newnode ≠ 0)
    (called : Utils.listCreateNoalloc attempt.heap data newnode tmp = some after) :
    Returns (attempt.listCreateNoalloc data newnode (some tmp)) newnode after := by
  obtain ⟨between, requested, rfl⟩ := Option.map_eq_some_iff.mp called
  have copied : tmp ≠ 0 := (mmuMmap_spec requested).1.1.1
  have before : Safe ⟨between, attempt.through⟩ := safe
  refine ⟨fill ⟨between, attempt.through⟩ data newnode tmp, ?_, rfl, before.fill nonnull copied⟩
  rw [listCreateNoalloc, mmap_some requested, Option.map_some]
  exact congrArg some (if_neg copied)

theorem listCreate_some (safe : attempt.Safe)
    (called : Utils.listCreate attempt.heap data node tmp = some after) :
    node ≠ 0 ∧ Returns (attempt.listCreate data (some node) (some tmp)) node after := by
  obtain ⟨between, requested, created⟩ := Option.bind_eq_some_iff.mp called
  have nonnull : node ≠ 0 := (mmuMmap_spec requested).1.1.1
  refine ⟨nonnull, ?_⟩
  have before : Safe ⟨between, attempt.through⟩ := safe
  rw [listCreate, mmap_some requested, Option.bind_some]
  dsimp only
  rw [if_neg nonnull]
  exact listCreateNoalloc_some before nonnull created

/-- The requests of `list_create` that return, with the heap they leave. -/
theorem listCreate_made {next : Attempt}
    (called : attempt.listCreate data (some newnode) (some tmp) = some (result, next)) :
    result = newnode ∧ Utils.listCreate attempt.heap data newnode tmp = some next.heap := by
  obtain ⟨⟨pointer, between⟩, requested, created⟩ := Option.bind_eq_some_iff.mp called
  obtain ⟨rfl, nonnull, mapped⟩ := mmap_made requested
  dsimp only at created
  rw [if_neg nonnull] at created
  obtain ⟨⟨copied, after⟩, second, filled⟩ := Option.map_eq_some_iff.mp created
  obtain ⟨rfl, nonnull', mapped'⟩ := mmap_made second
  dsimp only at filled
  rw [if_neg nonnull'] at filled
  obtain ⟨rfl, rfl⟩ := Prod.mk.inj filled
  refine ⟨rfl, ?_⟩
  rw [Utils.listCreate, mapped, Option.bind_some, Utils.listCreateNoalloc, mapped']
  rfl

/-- A new node is linked after another one. -/
theorem Returns.link {call : Option (ℕ × Attempt)} {made : Heap} {last : ℕ × Attempt → ℕ × Attempt}
    (created : Returns call newnode made)
    (links : ∀ next, last (newnode, next) = (newnode, next.linkAfter node newnode))
    (nonnull : node ≠ 0) (newNonnull : newnode ≠ 0) :
    Returns (call.map last) newnode (made.store (Utils.linkAfter made.memory node newnode)) := by
  obtain ⟨next, step, rfl, safe⟩ := created
  refine ⟨next.linkAfter node newnode, ?_, rfl, safe.linkAfter nonnull newNonnull⟩
  rw [step, Option.map_some, links]

theorem listInsertAfter_some (safe : attempt.Safe)
    (called : Utils.listInsertAfter attempt.heap node data newnode tmp = some (result, after)) :
    Returns (attempt.listInsertAfter node data (some newnode) (some tmp)) result after := by
  rw [Utils.listInsertAfter] at called
  rw [listInsertAfter]
  split at called
  case isTrue null =>
    obtain ⟨rfl, rfl⟩ := Prod.mk.inj (Option.some.inj called)
    rw [if_pos null]
    exact ⟨attempt, rfl, rfl, safe⟩
  case isFalse nonnull =>
    obtain ⟨made, created, returned⟩ := Option.map_eq_some_iff.mp called
    obtain ⟨rfl, rfl⟩ := Prod.mk.inj returned
    obtain ⟨newNonnull, createdNode⟩ := listCreate_some safe created
    rw [if_neg nonnull]
    exact createdNode.link (fun _ => rfl) nonnull newNonnull

theorem listInsertAfterNoalloc_some (safe : attempt.Safe) (newNonnull : newnode ≠ 0)
    (called :
      Utils.listInsertAfterNoalloc attempt.heap node data newnode tmp = some (result, after)) :
    Returns (attempt.listInsertAfterNoalloc node data newnode (some tmp)) result after := by
  rw [Utils.listInsertAfterNoalloc] at called
  rw [listInsertAfterNoalloc]
  split at called
  case isTrue null =>
    obtain ⟨rfl, rfl⟩ := Prod.mk.inj (Option.some.inj called)
    rw [if_pos null]
    exact ⟨attempt, rfl, rfl, safe⟩
  case isFalse nonnull =>
    obtain ⟨made, created, returned⟩ := Option.map_eq_some_iff.mp called
    obtain ⟨rfl, rfl⟩ := Prod.mk.inj returned
    rw [if_neg nonnull]
    exact (listCreateNoalloc_some safe newNonnull created).link (fun _ => rfl) nonnull newNonnull

theorem listInsertBackNoalloc_some (safe : attempt.Safe) (newNonnull : newnode ≠ 0)
    (called :
      Utils.listInsertBackNoalloc attempt.heap node data newnode tmp = some (result, after)) :
    Returns (attempt.listInsertBackNoalloc node data newnode (some tmp)) result after := by
  obtain ⟨tail, found, inserted⟩ := Option.bind_eq_some_iff.mp called
  rw [listInsertBackNoalloc, found, Option.bind_some]
  exact listInsertAfterNoalloc_some safe newNonnull inserted

/-! ## Calls with a request that fails -/

variable {next : Attempt} {newOutcome copy : Option ℕ}

/-- A call of `list_create` with a request that fails writes nothing, and may leave a block
behind. -/
theorem listCreate_failed (fails : ¬(newOutcome ≠ none ∧ copy ≠ none))
    (called : attempt.listCreate data newOutcome copy = some (result, next)) :
    result = 0 ∧ next.heap.memory = attempt.heap.memory ∧
      (∀ block ∈ attempt.heap.blocks, block ∈ next.heap.blocks) ∧
      ∀ block ∈ next.heap.blocks,
        block ∈ attempt.heap.blocks ∨ newOutcome = some block.start := by
  cases newOutcome with
  | none =>
      obtain ⟨rfl, rfl⟩ := Prod.mk.inj (Option.some.inj called)
      exact ⟨rfl, rfl, fun _ => id, fun _ => .inl⟩
  | some start =>
      obtain rfl : copy = none := by
        by_contra given
        exact fails ⟨Option.some_ne_none _, given⟩
      obtain ⟨⟨pointer, between⟩, requested, created⟩ := Option.bind_eq_some_iff.mp called
      obtain ⟨rfl, nonnull, mapped⟩ := mmap_made requested
      dsimp only at created
      rw [if_neg nonnull] at created
      obtain ⟨rfl, rfl⟩ := Prod.mk.inj (Option.some.inj created)
      obtain ⟨-, memory, blocks⟩ := mmuMmap_spec mapped
      rw [blocks]
      refine ⟨rfl, memory, fun _ => List.mem_cons_of_mem _, fun block member => ?_⟩
      rcases List.mem_cons.mp member with rfl | old
      · exact .inr rfl
      · exact .inl old

/-- `list_create` reports a failure. -/
theorem listCreate_null (fails : ¬(newOutcome ≠ none ∧ copy ≠ none))
    (called : attempt.listCreate data newOutcome copy = some (result, next)) : result = 0 :=
  (listCreate_failed fails called).1

/-- `list_insert_after` does not look at the report. -/
theorem listInsertAfter_through (fails : ¬(newOutcome ≠ none ∧ copy ≠ none)) (nonnull : node ≠ 0)
    (called : attempt.listInsertAfter node data newOutcome copy = some (result, next)) :
    0 ∈ next.through := by
  rw [listInsertAfter, if_neg nonnull] at called
  obtain ⟨⟨pointer, between⟩, created, returned⟩ := Option.map_eq_some_iff.mp called
  obtain ⟨-, rfl⟩ := Prod.mk.inj returned
  rw [listCreate_null fails created]
  exact List.mem_cons_of_mem _ List.mem_cons_self

theorem listInsertBefore_through (fails : ¬(newOutcome ≠ none ∧ copy ≠ none)) {list : ℕ}
    (called : attempt.listInsertBefore list data newOutcome copy = some (result, next)) :
    0 ∈ next.through := by
  obtain ⟨⟨pointer, between⟩, created, returned⟩ := Option.map_eq_some_iff.mp called
  obtain ⟨-, rfl⟩ := Prod.mk.inj returned
  rw [listCreate_null fails created]
  exact List.mem_cons_self

/-- What was stored through stays recorded. -/
theorem listCreateNoalloc_mono
    (called : attempt.listCreateNoalloc data newnode copy = some (result, next)) :
    ∀ pointer ∈ attempt.through, pointer ∈ next.through := by
  obtain ⟨⟨tmp, between⟩, requested, returned⟩ := Option.map_eq_some_iff.mp called
  obtain ⟨⟨address, heap⟩, -, mapped⟩ := Option.map_eq_some_iff.mp requested
  obtain ⟨rfl, rfl⟩ := Prod.mk.inj mapped
  dsimp only at returned
  intro pointer member
  split at returned
  · obtain ⟨-, rfl⟩ := Prod.mk.inj returned
    exact member
  · obtain ⟨-, rfl⟩ := Prod.mk.inj returned
    exact List.mem_cons_of_mem _ (List.mem_cons_of_mem _ (List.mem_cons_of_mem _ member))

theorem listInsertBackNoalloc_mono
    (called : attempt.listInsertBackNoalloc node data newnode copy = some (result, next)) :
    ∀ pointer ∈ attempt.through, pointer ∈ next.through := by
  obtain ⟨tail, -, inserted⟩ := Option.bind_eq_some_iff.mp called
  rw [listInsertAfterNoalloc] at inserted
  split at inserted
  · obtain ⟨-, rfl⟩ := Prod.mk.inj (Option.some.inj inserted)
    exact fun _ => id
  · obtain ⟨⟨made, between⟩, created, returned⟩ := Option.map_eq_some_iff.mp inserted
    obtain ⟨-, rfl⟩ := Prod.mk.inj returned
    intro pointer member
    exact List.mem_cons_of_mem _ (List.mem_cons_of_mem _ (listCreateNoalloc_mono created _ member))

/-- With `NULL` as the node it does nothing, or stores through it. -/
theorem listCreateNoalloc_null
    (called : attempt.listCreateNoalloc data 0 copy = some (result, next)) :
    next = attempt ∨ 0 ∈ next.through := by
  cases copy with
  | none =>
      obtain ⟨-, rfl⟩ := Prod.mk.inj (Option.some.inj called)
      exact .inl rfl
  | some address =>
      obtain ⟨⟨tmp, between⟩, requested, returned⟩ := Option.map_eq_some_iff.mp called
      obtain ⟨⟨pointer, heap⟩, mapped, rest⟩ := Option.map_eq_some_iff.mp requested
      obtain ⟨rfl, rfl⟩ := Prod.mk.inj rest
      obtain ⟨rfl, nonnull, -⟩ := mmuMmapOutcome_some mapped
      dsimp only at returned
      rw [if_neg nonnull] at returned
      obtain ⟨-, rfl⟩ := Prod.mk.inj returned
      exact .inr List.mem_cons_self

/-- Without a copy the node is linked all the same, and there is no further block. -/
theorem listInsertBackNoalloc_none
    (called : attempt.listInsertBackNoalloc node data newnode none = some (result, next)) :
    next.heap.blocks = attempt.heap.blocks := by
  obtain ⟨tail, -, inserted⟩ := Option.bind_eq_some_iff.mp called
  rw [listInsertAfterNoalloc] at inserted
  split at inserted
  · obtain ⟨-, rfl⟩ := Prod.mk.inj (Option.some.inj inserted)
    rfl
  · obtain ⟨-, rfl⟩ := Prod.mk.inj (Option.some.inj inserted)
    rfl

end Attempt

/-! ## Lists -/

/-- The two blocks of calls that succeed. -/
theorem Outcomes.requests {heap : Heap} {width : ℕ} {data : List Byte}
    (outcomes : Outcomes heap width data) (succeed : outcomes.Succeed) :
    ∃ node tmp between, outcomes.node = some node ∧ outcomes.copy = some tmp ∧
      mmuMmap heap ⟨node, width⟩ = some between ∧ between.Fresh ⟨tmp, data.length⟩ := by
  obtain ⟨node, isNode⟩ := Option.ne_none_iff_exists'.mp succeed.1
  obtain ⟨tmp, isCopy⟩ := Option.ne_none_iff_exists'.mp succeed.2
  have supply := outcomes.supply
  rw [isNode, isCopy] at supply
  obtain ⟨between, requested⟩ := mmuMmap_fresh (supply.1 ⟨node, width⟩ List.mem_cons_self)
  refine ⟨node, tmp, between, isNode, isCopy, requested, ?_⟩
  exact (supply.next (mmuMmap_spec requested).2.2).1 _ List.mem_cons_self

theorem Unchanged.refl (heap : Heap) : Unchanged heap heap := ⟨rfl, fun _ _ _ _ => rfl⟩

/-- `list_create` returns when both requests do. -/
theorem listCreate_returns {heap between : Heap} {data : List Byte} {node tmp : ℕ}
    (requested : mmuMmap heap ⟨node, 8⟩ = some between) (fresh : between.Fresh ⟨tmp, data.length⟩) :
    ∃ after, listCreate heap data node tmp = some after := by
  rw [listCreate, requested, Option.bind_some]
  exact listCreateNoalloc_returns fresh node

namespace Listed

variable {heap after : Heap} {list : ℕ} {entries front back : List Entry} {entry : Entry}
  {data : List Byte} {node tmp : ℕ}

/-- A new first node. -/
theorem insertBefore (listed : Listed heap list entries)
    (called : listCreate heap data node tmp = some after) :
    Listed (after.store (setNext after.memory node list)) node (⟨node, tmp, data⟩ :: entries) ∧
      Grown heap after 8 data ⟨node, tmp, data⟩ := by
  obtain ⟨between, requested, created⟩ := Option.bind_eq_some_iff.mp called
  obtain ⟨laid, -, blocks, same⟩ := listed.laid.create_fresh le_rfl requested created
  have isNew : ⟨node, tmp, data⟩ ∈ entries ++ [⟨node, tmp, data⟩] :=
    List.mem_append_right _ List.mem_cons_self
  have chain := listed.laid.chain_frame le_rfl (fun _ => id) same listed.chain
  have word : list < 2 ^ 32 := by
    cases entries with
    | nil =>
        rw [listed.chain.nil_iff.mp rfl]
        decide
    | cons first others =>
        have fits := listed.laid.node_fits List.mem_cons_self
        rw [listed.chain.uncons.1]
        omega
  refine ⟨⟨?_, ?_⟩, rfl, blocks⟩
  · exact (laid.setNext le_rfl isNew list).perm (List.perm_append_singleton _ _)
  · have nonnull : node ≠ 0 := (mmuMmap_spec requested).1.1.1
    refine .cons nonnull ?_
    rw [Heap.store_memory, Laid.listNext_setNext_self word]
    refine chain.congr fun place member => ?_
    obtain ⟨entry, isEntry, rfl⟩ := List.mem_map.mp member
    exact laid.listNext_setNext_of_ne le_rfl isNew (List.mem_append_left _ isEntry)
      (laid.ne_new le_rfl isEntry).symm list

/-- A new node after another one. -/
theorem insertAfter (listed : Listed heap list (front ++ entry :: back))
    (called : listCreate heap data node tmp = some after) :
    Listed (after.store (linkAfter after.memory entry.node node)) list
        (front ++ entry :: ⟨node, tmp, data⟩ :: back) ∧
      Grown heap after 8 data ⟨node, tmp, data⟩ := by
  obtain ⟨between, requested, created⟩ := Option.bind_eq_some_iff.mp called
  obtain ⟨laid, -, blocks, same⟩ := listed.laid.create_fresh le_rfl requested created
  have chain := listed.laid.chain_frame le_rfl (fun _ => id) same listed.chain
  have isEntry : entry ∈ front ++ entry :: back := List.mem_append_right _ List.mem_cons_self
  have nonnull : node ≠ 0 := (mmuMmap_spec requested).1.1.1
  obtain ⟨linked, toNew, onward, others⟩ := @Laid.linkAfter _ _ _ _ laid le_rfl
    ⟨node, tmp, data⟩ (List.mem_append_left _ isEntry) (List.mem_append_right _ List.mem_cons_self)
    (laid.ne_new le_rfl isEntry)
  refine ⟨⟨linked.perm ?_, ?_⟩, rfl, blocks⟩
  · rw [List.append_assoc, List.cons_append]
    exact (List.perm_append_singleton _ _).cons entry |>.append_left front
  · simp only [List.map_append, List.map_cons] at chain ⊢
    refine chain.insertAfter ?_ toNew nonnull onward
    intro place member different
    have isPlace : place ∈ (front ++ entry :: back).map Entry.node := by
      rwa [List.map_append, List.map_cons]
    obtain ⟨other, isOther, rfl⟩ := List.mem_map.mp isPlace
    exact others other (List.mem_append_left _ isOther)
      (fun equal => different (congrArg Entry.node equal)) (laid.ne_new le_rfl isOther)

/-- The last node of a list, or `NULL`. -/
theorem tail (listed : Listed heap list entries) :
    ∃ last, listGetTail heap list = some last ∧ (last = 0 ∨ last ∈ entries.map Entry.node) ∧
      (last = 0 ↔ list = 0) := by
  have count := listed.laid.length_le listed.chain.nodup
  have enough : (entries.map Entry.node).length < heap.blocks.length + 1 := by
    rw [List.length_map]
    exact Nat.lt_succ_of_le count
  cases ends : (entries.map Entry.node).getLast? with
  | none =>
      have empty := listed.chain.nil_iff.mp (List.getLast?_eq_none_iff.mp ends)
      refine ⟨0, listGetTailLoop_eq listed.chain ?_ enough, .inl rfl, iff_of_true rfl empty⟩
      rw [List.getLast?_cons, ends, Option.getD_none]
  | some last =>
      have isLast := List.mem_of_getLast? ends
      have nonempty : list ≠ 0 := by
        intro null
        rw [listed.chain.nil_iff.mpr null] at isLast
        cases isLast
      refine ⟨last, listGetTailLoop_eq listed.chain ?_ enough, .inr isLast,
        iff_of_false (listed.chain.ne_null last isLast) nonempty⟩
      rw [List.getLast?_cons, ends, Option.getD_some]

end Listed

section Lists

variable {heap : Heap} {list node : ℕ} {entries : List Entry} {data : List Byte}

/-- **`list_insert_after`** survives if there is no node, or both requests succeed. -/
theorem listInsertAfter_survives (listed : Listed heap list entries)
    (member : node = 0 ∨ node ∈ entries.map Entry.node) (outcomes : Outcomes heap 8 data) :
    ListSurvives heap entries data
        ((Attempt.listInsertAfter ⟨heap, []⟩ node data outcomes.node outcomes.copy).map
          fun (_, after) => (list, after)) ↔
      node = 0 ∨ outcomes.Succeed := by
  constructor
  · rintro ⟨first, after, called, safe, -⟩
    obtain ⟨⟨result, next⟩, inserted, returned⟩ := Option.map_eq_some_iff.mp called
    obtain ⟨-, rfl⟩ := Prod.mk.inj returned
    by_contra neither
    rw [not_or] at neither
    exact safe (Attempt.listInsertAfter_through neither.2 neither.1 inserted)
  · intro either
    by_cases null : node = 0
    · refine ⟨list, ⟨heap, []⟩, ?_, List.not_mem_nil, .inl (Unchanged.refl heap)⟩
      rw [Attempt.listInsertAfter, if_pos null, Option.map_some]
    · obtain ⟨entry, isEntry, rfl⟩ := List.mem_map.mp (member.resolve_left null)
      obtain ⟨front, back, rfl⟩ := List.append_of_mem isEntry
      obtain ⟨new, tmp, between, isNode, isCopy, requested, fresh⟩ :=
        outcomes.requests (either.resolve_left null)
      obtain ⟨made, created⟩ := listCreate_returns requested fresh
      obtain ⟨linked, grown⟩ := listed.insertAfter created
      have called : listInsertAfter heap entry.node data new tmp =
          some (new, made.store (linkAfter made.memory entry.node new)) := by
        rw [listInsertAfter, if_neg null, created, Option.map_some]
      have safe : Attempt.Safe ⟨heap, []⟩ := List.not_mem_nil
      obtain ⟨next, step, same, nextSafe⟩ := Attempt.listInsertAfter_some safe called
      refine ⟨list, next, ?_, nextSafe, .inr ⟨front ++ [entry], back, ⟨new, tmp, data⟩, ?_, ?_⟩⟩
      · rw [isNode, isCopy, step, Option.map_some]
      · rw [List.append_assoc, List.singleton_append]
      · rw [same, List.append_assoc, List.singleton_append]
        exact ⟨linked, grown.value, grown.blocks⟩

/-- **`list_insert_back`** survives if the list is empty, or both requests succeed. -/
theorem listInsertBack_survives (listed : Listed heap list entries)
    (outcomes : Outcomes heap 8 data) :
    ListSurvives heap entries data
        ((Attempt.listInsertBack ⟨heap, []⟩ list data outcomes.node outcomes.copy).map
          fun (_, after) => (list, after)) ↔
      list = 0 ∨ outcomes.Succeed := by
  obtain ⟨last, found, place, null⟩ := listed.tail
  rw [Attempt.listInsertBack, found, Option.bind_some, listInsertAfter_survives listed place, null]

/-- **`list_insert_before`** survives if both requests succeed. -/
theorem listInsertBefore_survives (listed : Listed heap list entries)
    (outcomes : Outcomes heap 8 data) :
    ListSurvives heap entries data
        (Attempt.listInsertBefore ⟨heap, []⟩ list data outcomes.node outcomes.copy) ↔
      outcomes.Succeed := by
  constructor
  · rintro ⟨first, after, called, safe, -⟩
    by_contra fails
    exact safe (Attempt.listInsertBefore_through fails called)
  · intro succeed
    obtain ⟨new, tmp, between, isNode, isCopy, requested, fresh⟩ := outcomes.requests succeed
    obtain ⟨made, created⟩ := listCreate_returns requested fresh
    obtain ⟨linked, grown⟩ := listed.insertBefore created
    have safe : Attempt.Safe ⟨heap, []⟩ := List.not_mem_nil
    obtain ⟨nonnull, next, step, same, nextSafe⟩ := Attempt.listCreate_some safe created
    subst same
    refine ⟨new, _, ?_, nextSafe.store nonnull _, .inr ⟨[], entries, ⟨new, tmp, data⟩, rfl, linked,
      grown.value, grown.blocks⟩⟩
    rw [Attempt.listInsertBefore, isNode, isCopy, step, Option.map_some]

end Lists

/-! ## Queues -/

/-- A queue with elements has a last node. -/
theorem Queued.tail_ne_zero {heap : Heap} {queue : Queue} {entries : List Entry}
    (queued : Queued heap queue entries) (nonempty : queue.head ≠ 0) : queue.tail ≠ 0 := by
  have some' : entries ≠ [] := mt queued.head_eq_zero.mpr nonempty
  have ends := List.getLast?_eq_some_getLast some'
  rw [queued.tail _ ends]
  exact (heap.inside _ (queued.laid.node_mem (List.mem_of_getLast? ends))).1

/-- **`queue_push`** survives if both requests succeed. -/
theorem queuePush_survives {heap : Heap} {queue : Queue} {entries : List Entry} {data : List Byte}
    (queued : Queued heap queue entries) (outcomes : Outcomes heap 8 data) :
    QueueSurvives heap queue entries data
        (Attempt.queuePush ⟨heap, []⟩ queue data outcomes.node outcomes.copy) ↔
      outcomes.Succeed := by
  constructor
  · rintro ⟨after, queue', called, safe, result⟩
    by_contra fails
    rw [Attempt.queuePush] at called
    split at called
    case isTrue empty =>
      obtain ⟨⟨node, next⟩, created, returned⟩ := Option.map_eq_some_iff.mp called
      obtain ⟨rfl, rfl⟩ := Prod.mk.inj returned
      rw [Attempt.listCreate_null fails created] at result
      rcases result with ⟨-, same⟩ | ⟨new, grown, -⟩
      -- The size is one, and there is no element.
      · have size := queued.size
        rw [← same, queued.head_eq_zero.mp empty] at size
        exact absurd size (by decide)
      · have nothing := grown.head_eq_zero.mp rfl
        exact List.append_ne_nil_of_right_ne_nil _ (List.cons_ne_nil _ _) nothing
    case isFalse nonempty =>
      obtain ⟨⟨p, next⟩, inserted, returned⟩ := Option.map_eq_some_iff.mp called
      obtain ⟨rfl, -⟩ := Prod.mk.inj returned
      exact safe (Attempt.listInsertAfter_through fails (queued.tail_ne_zero nonempty) inserted)
  · intro succeed
    obtain ⟨node, tmp, between, isNode, isCopy, requested, fresh⟩ := outcomes.requests succeed
    obtain ⟨made, created⟩ := listCreate_returns requested fresh
    have safe : Attempt.Safe ⟨heap, []⟩ := List.not_mem_nil
    rw [isNode, isCopy, Attempt.queuePush]
    by_cases empty : queue.head = 0
    · have called : queuePush heap queue data node tmp = some (made, ⟨node, node, 1⟩) := by
        rw [queuePush, if_pos empty, created, Option.map_some]
      obtain ⟨grown, blocks⟩ := queued.push called
      obtain ⟨-, next, step, rfl, nextSafe⟩ := Attempt.listCreate_some safe created
      refine ⟨next, _, ?_, nextSafe, .inr ⟨_, grown, rfl, blocks⟩⟩
      rw [if_pos empty, step, Option.map_some]
    · have inserted : listInsertAfter heap queue.tail data node tmp =
          some (node, made.store (linkAfter made.memory queue.tail node)) := by
        rw [listInsertAfter, if_neg (queued.tail_ne_zero empty), created, Option.map_some]
      have called : queuePush heap queue data node tmp =
          some (made.store (linkAfter made.memory queue.tail node),
            { queue with tail := node, size := int32 (queue.size + 1) }) := by
        rw [queuePush, if_neg empty, inserted, Option.map_some]
      obtain ⟨grown, blocks⟩ := queued.push called
      obtain ⟨next, step, same, nextSafe⟩ := Attempt.listInsertAfter_some safe inserted
      rw [← same] at grown blocks
      refine ⟨next, _, ?_, nextSafe, .inr ⟨_, grown, rfl, blocks⟩⟩
      rw [if_neg empty, step, Option.map_some]

/-! ## Hash tables -/

section Tables

variable {heap : Heap} {ht : Hashtable} {pairs : List Pair} {key data : List Byte}

/-- An insertion that returns without a node has stored through `NULL`. -/
theorem hashtableInsert_through (table : KeyTable heap ht pairs) {copy : Option ℕ} {after : Attempt}
    (called : Attempt.hashtableInsert ⟨heap, []⟩ ht key data none copy = some after) :
    0 ∈ after.through := by
  rw [Attempt.hashtableInsert] at called
  split at called
  case isTrue empty =>
    have index := table.buckets.hash key
    have slot := table.buckets.nodeAt_storeWord index index (show 0 < 2 ^ 32 by decide) heap.memory
    rw [if_pos rfl] at slot
    obtain ⟨⟨_, next⟩, created, rfl⟩ := Option.map_eq_some_iff.mp called
    have created : Attempt.listCreateNoalloc (Attempt.store ⟨heap, []⟩ ht.nodes
        (storeWord heap.memory (nodeSlot ht (ht.hash key ht.size)) 0)) data
        (nodeAt (storeWord heap.memory (nodeSlot ht (ht.hash key ht.size)) 0) ht
          (ht.hash key ht.size)) copy = some (_, next) := created
    rw [slot] at created
    rcases Attempt.listCreateNoalloc_null created with rfl | through
    · dsimp only [Attempt.store, Heap.store_memory]
      rw [slot]
      exact List.mem_cons_self
    · exact List.mem_cons_of_mem _ through
  case isFalse nonempty =>
    obtain ⟨⟨_, next⟩, inserted, rfl⟩ := Option.map_eq_some_iff.mp called
    refine List.mem_cons_of_mem _ (Attempt.listInsertBackNoalloc_mono inserted 0 ?_)
    exact List.mem_cons_self

/-- An insertion that returns without a copy has added one block. -/
theorem hashtableInsert_none {node : ℕ} {after : Attempt}
    (called : Attempt.hashtableInsert ⟨heap, []⟩ ht key data (some node) none = some after) :
    after.heap.blocks = ⟨node, htPairSize⟩ :: heap.blocks := by
  rw [Attempt.hashtableInsert] at called
  split at called
  case isTrue empty =>
    obtain ⟨⟨address, between⟩, requested, rest⟩ := Option.bind_eq_some_iff.mp called
    obtain rfl := Option.some.inj rest
    exact Attempt.mmap_blocks requested
  case isFalse nonempty =>
    obtain ⟨⟨address, between⟩, requested, rest⟩ := Option.bind_eq_some_iff.mp called
    obtain ⟨⟨_, next⟩, inserted, rfl⟩ := Option.map_eq_some_iff.mp rest
    exact (Attempt.listInsertBackNoalloc_none inserted).trans (Attempt.mmap_blocks requested)

/-- An insertion with both blocks returns what it should. -/
theorem hashtableInsert_some {between : Heap} {node tmp : ℕ} (buckets : Buckets heap ht pairs)
    (requested : mmuMmap heap ⟨node, htPairSize⟩ = some between)
    (fresh : between.Fresh ⟨tmp, data.length⟩) :
    ∃ next, Attempt.hashtableInsert ⟨heap, []⟩ ht key data (some node) (some tmp) = some next ∧
      next.Safe ∧ hashtableInsert heap ht key data node tmp = some next.heap ∧
      next.heap.blocks = ⟨tmp, data.length⟩ :: ⟨node, htPairSize⟩ :: heap.blocks := by
  have nonnull : node ≠ 0 := (mmuMmap_spec requested).1.1.1
  have arrayNonnull : ht.nodes ≠ 0 := (heap.inside _ buckets.array).1
  have safe : Attempt.Safe ⟨between, []⟩ := List.not_mem_nil
  have mapped : Attempt.mmap ⟨heap, []⟩ htPairSize (some node) = some (node, ⟨between, []⟩) :=
    Attempt.mmap_some requested
  rw [Attempt.hashtableInsert]
  by_cases empty : nodeAt heap.memory ht (ht.hash key ht.size) = 0
  · obtain ⟨slot, after, link, called, again, linked⟩ := buckets.placeFirst empty requested fresh
    obtain ⟨next, step, rfl, nextSafe⟩ :=
      Attempt.listCreateNoalloc_some (safe.store arrayNonnull _) nonnull called
    refine ⟨next.store node (storeKey next.heap.memory node key), ?_, nextSafe.store nonnull _, ?_,
      linked.blocks⟩
    · rw [if_pos empty, mapped, Option.bind_some]
      dsimp only [Attempt.store, Heap.store_memory] at step ⊢
      rw [slot, step, Option.map_some, again]
    · simp only [hashtableInsert, if_pos empty, requested, Option.bind_some, Heap.store_memory,
        slot, called, Option.map_some, again]
      rfl
  · obtain ⟨after, link, called, linked⟩ := buckets.linkLast empty requested fresh
    obtain ⟨next, step, rfl, nextSafe⟩ :=
      Attempt.listInsertBackNoalloc_some (safe.store nonnull _) nonnull called
    refine ⟨next.store node (storeKey next.heap.memory node key), ?_, nextSafe.store nonnull _, ?_,
      linked.blocks⟩
    · rw [if_neg empty, mapped, Option.bind_some]
      dsimp only [Attempt.store, Heap.store_memory] at step ⊢
      rw [step, Option.map_some]
    · simp only [hashtableInsert, if_neg empty, requested, Option.bind_some, Heap.store_memory,
        called, Option.map_some]
      rfl

/-- **`hashtable_insert`** survives if both requests succeed. -/
theorem hashtableInsert_survives (table : KeyTable heap ht pairs)
    (outcomes : Outcomes heap htPairSize data) :
    TableSurvives heap ht pairs key data
        (Attempt.hashtableInsert ⟨heap, []⟩ ht key data outcomes.node outcomes.copy) ↔
      outcomes.Succeed := by
  constructor
  · rintro ⟨after, called, safe, result⟩
    cases isNode : outcomes.node with
    | none =>
        rw [isNode] at called
        exact absurd (hashtableInsert_through table called) safe
    | some node =>
        refine ⟨by rw [isNode]; exact Option.some_ne_none _, fun isCopy => ?_⟩
        rw [isNode, isCopy] at called
        have added := congrArg List.length (hashtableInsert_none called)
        rw [List.length_cons] at added
        rcases result with unchanged | ⟨entry, -, grown⟩
        · rw [unchanged.blocks] at added
          omega
        · rw [grown.blocks, List.length_cons, List.length_cons] at added
          omega
  · intro succeed
    obtain ⟨node, tmp, between, isNode, isCopy, requested, fresh⟩ := outcomes.requests succeed
    obtain ⟨next, called, safe, inserted, blocks⟩ :=
      @hashtableInsert_some _ _ _ key _ _ _ _ table.buckets requested fresh
    rw [isNode, isCopy]
    exact ⟨next, called, safe, .inr ⟨_, table.insert inserted, rfl, blocks⟩⟩

end Tables

/-! ## All insertions -/

/-- **Insertions and failing allocations**: `list_insert_after` without a node and
`list_insert_back` into an empty list leave everything alone. Apart from that an insertion
survives if and only if both of its requests succeed. -/
theorem insertions_survive_iff (heap : Heap) (data : List Byte) :
    (∀ list entries, Listed heap list entries → ∀ outcomes : Outcomes heap 8 data,
      (∀ node, node = 0 ∨ node ∈ entries.map Entry.node →
        (ListSurvives heap entries data
            ((Attempt.listInsertAfter ⟨heap, []⟩ node data outcomes.node outcomes.copy).map
              fun (_, after) => (list, after)) ↔
          node = 0 ∨ outcomes.Succeed)) ∧
      (ListSurvives heap entries data
          ((Attempt.listInsertBack ⟨heap, []⟩ list data outcomes.node outcomes.copy).map
            fun (_, after) => (list, after)) ↔
        list = 0 ∨ outcomes.Succeed) ∧
      (ListSurvives heap entries data
          (Attempt.listInsertBefore ⟨heap, []⟩ list data outcomes.node outcomes.copy) ↔
        outcomes.Succeed)) ∧
    (∀ queue entries, Queued heap queue entries → ∀ outcomes : Outcomes heap 8 data,
      (QueueSurvives heap queue entries data
          (Attempt.queuePush ⟨heap, []⟩ queue data outcomes.node outcomes.copy) ↔
        outcomes.Succeed)) ∧
    ∀ ht pairs key, KeyTable heap ht pairs → ∀ outcomes : Outcomes heap htPairSize data,
      (TableSurvives heap ht pairs key data
          (Attempt.hashtableInsert ⟨heap, []⟩ ht key data outcomes.node outcomes.copy) ↔
        outcomes.Succeed) := by
  refine ⟨fun list entries listed outcomes => ⟨fun node member => ?_, ?_, ?_⟩, ?_, ?_⟩
  · exact listInsertAfter_survives listed member outcomes
  · exact listInsertBack_survives listed outcomes
  · exact listInsertBefore_survives listed outcomes
  · exact fun queue entries queued outcomes => queuePush_survives queued outcomes
  · exact fun ht pairs key table outcomes => hashtableInsert_survives table outcomes

theorem Listed.nil (heap : Heap) : Listed heap 0 [] := ⟨Laid.nil heap 8, .nil⟩

/-- With a block for the node and for the copy the three containers get their first element. -/
theorem insertions_survive_first : ∃ start ht, hashtableInit bareHeap none 1 16 = some (start, ht) ∧
    ListSurvives start [] [7] (Attempt.listInsertBefore ⟨start, []⟩ 0 [7] (some 64) (some 512)) ∧
    QueueSurvives start ⟨0, 0, 0⟩ [] [7]
      (Attempt.queuePush ⟨start, []⟩ ⟨0, 0, 0⟩ [7] (some 64) (some 512)) ∧
    TableSurvives start ht [] [65] [7]
      (Attempt.hashtableInsert ⟨start, []⟩ ht [65] [7] (some 64) (some 512)) := by
  have fresh : bareHeap.Fresh ⟨16, 4 * 1⟩ := by decide
  obtain ⟨start, created, tabled, blocks, -⟩ :=
    @Tabled.init bareHeap none 1 16 fresh (hashFnv_lt Nat.one_pos)
  have supply {width : ℕ} (all : bareHeap.Supply [⟨16, 4⟩, ⟨64, width⟩, ⟨512, 1⟩]) :
      start.Supply [⟨64, width⟩, ⟨512, 1⟩] := all.next blocks
  obtain ⟨lists, queues, tables⟩ := insertions_survive_iff start [7]
  refine ⟨start, _, created, ?_, ?_, ?_⟩
  · exact (lists 0 [] (Listed.nil start) ⟨some 64, some 512, supply (by decide)⟩).2.2.mpr
      ⟨Option.some_ne_none _, Option.some_ne_none _⟩
  · exact (queues _ [] (Queued.empty start) ⟨some 64, some 512, supply (by decide)⟩).mpr
      ⟨Option.some_ne_none _, Option.some_ne_none _⟩
  · exact (tables _ [] [65] (KeyTable.nil tabled.buckets)
      ⟨some 64, some 512, supply (by decide)⟩).mpr ⟨Option.some_ne_none _, Option.some_ne_none _⟩

/-- `queue_push` without memory: the queue has the size 1 and no element. -/
theorem queuePush_lost : Queued bareHeap ⟨0, 0, 0⟩ [] ∧
    Attempt.queuePush ⟨bareHeap, []⟩ ⟨0, 0, 0⟩ [7] none none =
      some (⟨bareHeap, []⟩, ⟨0, 0, 1⟩) ∧
    ¬QueueSurvives bareHeap ⟨0, 0, 0⟩ [] [7]
      (Attempt.queuePush ⟨bareHeap, []⟩ ⟨0, 0, 0⟩ [7] none none) := by
  have supply : bareHeap.Supply [] := by decide
  refine ⟨Queued.empty bareHeap, rfl, fun survives => ?_⟩
  have succeed := (queuePush_survives (Queued.empty bareHeap) ⟨none, none, supply⟩).mp survives
  exact succeed.1 rfl

end CatchOS.Utils
