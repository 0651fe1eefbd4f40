import CatchOS.Mmu.LiballocRuns
import CatchOS.Mmu.Mmap

/-!
# The heap as blocks of memory

`mmu_mmap`, `mmu_mremap` and `mmu_munmap` of `mmu.c` are `malloc`, `realloc` and `free` of the
heap. The lists, queues and tables of the kernel are modelled over `mmuMmap` and `mmuMunmap`, which
know nothing of headers and pages: a request returns any block that is fresh, or `NULL`, and a block
that is given back is there no more.

Every run of the heap is one of that model, with the same calls and the same addresses
(`heap_refines_mmap`). `Heap.Serves` says what each call may do there. The bytes that belong to no
block may change in every call, for there the headers are. What `realloc` does is told by the block
that is given back, the one that is requested, and the bytes that both have.
-/

set_option autoImplicit false

namespace CatchOS.Mmu

open CatchOS CatchOS.Lib

universe u

/-- Before the first request there is no block. -/
def Heap.bare (memory : Memory) : Heap := ⟨memory, [], .nil, inside_nil⟩

/-- What a call may do to a heap of blocks. -/
inductive Heap.Serves (heap : Heap) : HeapAction → Heap → Prop where
  | malloc {size ret : ℕ} {outcome : Option ℕ} {memory : Memory} {next : Heap} :
      SameBlocks heap.blocks heap.memory memory →
      mmuMmapOutcome (heap.store memory) size outcome = some (ret, next) →
      Heap.Serves heap (.malloc size) next
  | calloc {nobj size ret : ℕ} {memory : Memory} {next : Heap} :
      SameBlocks heap.blocks heap.memory memory →
      mmuMmap (heap.store memory) ⟨ret, nobj * size⟩ = some next →
      readBytes next.memory ret (nobj * size) = List.replicate (nobj * size) 0 →
      Heap.Serves heap (.calloc nobj size) next
  | realloc {old : Allocation} {size ret : ℕ} {outcome : Option ℕ} {memory : Memory}
      {next : Heap} : old.extent ∈ heap.blocks →
      SameBlocks (mmuMunmap heap old.pointer).blocks heap.memory memory →
      mmuMmapOutcome ((mmuMunmap heap old.pointer).store memory) size outcome = some (ret, next) →
      (size ≠ 0 → ret ≠ 0) →
      (ret ≠ 0 → readBytes next.memory ret (min old.bytes.length size) = old.bytes.take size) →
      Heap.Serves heap (.realloc old size) next
  | free {old : Allocation} {memory : Memory} : old.extent ∈ heap.blocks →
      SameBlocks (mmuMunmap heap old.pointer).blocks heap.memory memory →
      Heap.Serves heap (.free old) ((mmuMunmap heap old.pointer).store memory)
  | store {old : Allocation} {i : ℕ} {byte : Byte} : old.extent ∈ heap.blocks →
      i < old.bytes.length →
      Heap.Serves heap (.store old i byte)
        (heap.store (Function.update heap.memory (offset old.pointer i) byte))

/-! ## One call -/

theorem mmuMmapOutcome_of_ne_zero {heap next : Heap} {size ret : ℕ} {outcome : Option ℕ}
    (called : mmuMmapOutcome heap size outcome = some (ret, next)) (nonnull : ret ≠ 0) :
    mmuMmap heap ⟨ret, size⟩ = some next := by
  cases outcome with
  | none => exact absurd (congrArg Prod.fst (Option.some.inj called)).symm nonnull
  | some address =>
      obtain ⟨rfl, -, mapped⟩ := mmuMmapOutcome_some called
      exact mapped

/-- What a call returned: `NULL`, or a block that begins with the bytes that are known. -/
theorem HeapRun.received_cases {Source : Type u} {live : List Allocation} {known : List Byte}
    {size ret : ℕ} {heap : Liballoc Source} (short : known.length ≤ size) :
    (ret = 0 ∧ HeapRun.received live known size (ret, heap) = ⟨heap, live⟩) ∨
      (ret ≠ 0 ∧ ∃ rest, (known ++ rest).length = size ∧
        HeapRun.received live known size (ret, heap) = ⟨heap, ⟨ret, known ++ rest⟩ :: live⟩) := by
  unfold HeapRun.received
  by_cases null : ret = 0
  · exact .inl ⟨null, if_pos null⟩
  · refine .inr ⟨null, _, ?_, if_neg null⟩
    rw [List.length_append, length_readBytes]
    omega

/-- The heap of blocks has the blocks that the callers hold, and the memory is the same. -/
structure Represents {Source : Type u} (run : HeapRun Source) (heap : Heap) : Prop where
  memory : heap.memory = run.heap.memory
  blocks : heap.blocks.Perm (run.live.map Allocation.extent)

section Call

variable {Source : Type u} {source : PageSource Source} {run next : HeapRun Source} {heap : Heap}
  {old : Allocation} {live : List Allocation} {known : List Byte} {size : ℕ}

namespace HeapInvariant

/-- The blocks that are held before and after have the same bytes. -/
theorem sameBlocks (invariant : HeapInvariant source run) (invariant' : HeapInvariant source next)
    (before : live ⊆ run.live) (after : live ⊆ next.live) :
    SameBlocks (live.map Allocation.extent) run.heap.memory next.heap.memory := by
  rintro block member address ⟨above, below⟩
  obtain ⟨allocation, isLive, rfl⟩ := List.mem_map.mp member
  have bytes := invariant.bytes allocation (before isLive)
  have bytes' := invariant'.bytes allocation (after isLive)
  have bounds :=
    invariant.heap.bounds (List.mem_map_of_mem (f := Allocation.extent) (before isLive))
  simp only [Allocation.extent] at above below bounds
  have same := congrArg (fun bytes => bytes[address - allocation.pointer]?)
    (bytes'.trans bytes.symm)
  have bound : address - allocation.pointer < allocation.bytes.length := by omega
  have here : offset allocation.pointer (address - allocation.pointer) = address := by
    rw [offset_eq (by omega)]
    omega
  simp only [readBytes, List.getElem?_map, List.getElem?_range bound, Option.map_some,
    Option.some.injEq, here] at same
  exact same

/-- Giving the block of an allocation back leaves those of the others. -/
theorem munmap_blocks (invariant : HeapInvariant source run) (represents : Represents run heap)
    (member : old ∈ run.live) :
    (mmuMunmap heap old.pointer).blocks.Perm ((run.live.erase old).map Allocation.extent) := by
  have split : heap.blocks.Perm (old.extent :: (run.live.erase old).map Allocation.extent) :=
    represents.blocks.trans ((List.perm_cons_erase member).map Allocation.extent)
  have nodup := (invariant.split member).nodup
  rw [List.map_cons, List.nodup_cons] at nodup
  have kept : ((run.live.erase old).map Allocation.extent).filter
      (fun block => block.start ≠ old.pointer) = (run.live.erase old).map Allocation.extent := by
    refine List.filter_eq_self.mpr fun block isBlock => decide_eq_true ?_
    intro same
    exact nodup.1 (List.mem_map.mpr ⟨block, isBlock, same⟩)
  have filtered := split.filter fun block => decide (block.start ≠ old.pointer)
  rw [List.filter_cons_of_neg (by simp [Allocation.extent]), kept] at filtered
  exact filtered

/-- The block that a call returned is fresh among those that were held. -/
theorem fresh {allocation : Allocation} (invariant : HeapInvariant source next)
    (held : next.live = allocation :: live)
    (blocks : heap.blocks.Perm (live.map Allocation.extent)) :
    heap.Fresh allocation.extent := by
  have isHeap := invariant.heap
  rw [held, List.map_cons] at isHeap
  have bounds := isHeap.bounds List.mem_cons_self
  refine ⟨⟨by omega, by omega, by omega⟩, fun other member => ?_⟩
  exact (List.pairwise_cons.mp isHeap.apart).1 other (blocks.subset member)

/-- The request that a call makes of the heap of blocks, with the memory that it leaves. -/
theorem request {ret : ℕ} {after : Liballoc Source} (invariant : HeapInvariant source run)
    (invariant' : HeapInvariant source next) (short : known.length ≤ size)
    (returned : HeapRun.received live known size (ret, after) = next) (held : live ⊆ run.live)
    (memory : heap.memory = run.heap.memory)
    (blocks : heap.blocks.Perm (live.map Allocation.extent)) :
    SameBlocks heap.blocks heap.memory after.memory ∧
      ∃ outcome heap', mmuMmapOutcome (heap.store after.memory) size outcome = some (ret, heap') ∧
        Represents next heap' ∧ (ret ≠ 0 → readBytes heap'.memory ret known.length = known) := by
  have same (still : live ⊆ next.live) (isAfter : next.heap = after) :
      SameBlocks heap.blocks heap.memory after.memory := by
    rw [memory, ← isAfter]
    intro block member
    exact invariant.sameBlocks invariant' held still block (blocks.subset member)
  rcases @HeapRun.received_cases _ live known size ret after short with
    ⟨null, received⟩ | ⟨nonnull, rest, length, received⟩
  · obtain rfl : ⟨after, live⟩ = next := received.symm.trans returned
    exact ⟨same (List.Subset.refl _) rfl, none, heap.store after.memory, by rw [null]; rfl,
      ⟨rfl, blocks⟩, fun nonnull => absurd null nonnull⟩
  · obtain rfl : ⟨after, ⟨ret, known ++ rest⟩ :: live⟩ = next := received.symm.trans returned
    have isFresh : (heap.store after.memory).Fresh _ := invariant'.fresh rfl blocks
    simp only [Allocation.extent, length] at isFresh
    obtain ⟨heap', mapped⟩ := mmuMmap_fresh isFresh
    obtain ⟨-, isMemory, more⟩ := mmuMmap_spec mapped
    refine ⟨same (List.subset_cons_self _ _) rfl, some ret, heap',
      by rw [mmuMmapOutcome, mapped, Option.map_some], ⟨isMemory, ?_⟩, fun _ => ?_⟩
    · rw [more, List.map_cons]
      simp only [Allocation.extent, length]
      exact blocks.cons _
    · have read := invariant'.bytes ⟨ret, known ++ rest⟩ List.mem_cons_self
      have front := congrArg (List.take known.length) read
      rw [readBytes_take, List.take_left, List.length_append,
        Nat.min_eq_left (Nat.le_add_right _ _)] at front
      rw [isMemory]
      exact front

/-- **One call** of the heap is one of the heap of blocks. -/
theorem serves {action : HeapAction} (invariant : HeapInvariant source run)
    (represents : Represents run heap) (allowed : run.Allowed source.toHooks action)
    (stepped : run.step source.toHooks action = some next) :
    ∃ heap', Heap.Serves heap action heap' ∧ Represents next heap' := by
  have invariant' := invariant.step allowed stepped
  have memory := represents.memory
  have isBlock {old : Allocation} (member : old ∈ run.live) : old.extent ∈ heap.blocks :=
    represents.blocks.mem_iff.mpr (List.mem_map_of_mem member)
  cases action with
  | malloc size =>
      obtain ⟨⟨ret, after⟩, -, returned⟩ := Option.map_eq_some_iff.mp stepped
      obtain ⟨same, outcome, heap', mapped, represents', -⟩ := invariant.request invariant'
        (Nat.zero_le _) returned (List.Subset.refl _) memory represents.blocks
      exact ⟨heap', .malloc same mapped, represents'⟩
  | calloc nobj size =>
      obtain ⟨⟨ret, after⟩, called, returned⟩ := Option.map_eq_some_iff.mp stepped
      obtain ⟨ret', _, called', nonnull, -⟩ := invariant.heap.calloc allowed.1 allowed.2
      obtain rfl : ret' = ret := congrArg Prod.fst (Option.some.inj (called'.symm.trans called))
      obtain ⟨same, outcome, heap', mapped, represents', zeros⟩ := invariant.request invariant'
        (Nat.le_of_eq List.length_replicate) returned (List.Subset.refl _) memory represents.blocks
      rw [List.length_replicate] at zeros
      have mapped' := mmuMmapOutcome_of_ne_zero mapped nonnull
      exact ⟨heap', .calloc same mapped' (zeros nonnull), represents'⟩
  | realloc old size =>
      simp only [HeapRun.step] at stepped
      split at stepped
      case isFalse => cases stepped
      case isTrue member =>
          obtain ⟨⟨ret, after⟩, called, returned⟩ := Option.map_eq_some_iff.mp stepped
          obtain ⟨ret', _, called', -, outcome⟩ :=
            (invariant.split member).realloc allowed.1 allowed.2
          obtain rfl : ret' = ret := congrArg Prod.fst (Option.some.inj (called'.symm.trans called))
          have nonnull (some' : size ≠ 0) : ret' ≠ 0 :=
            outcome.elim (fun null => absurd null.2.1 some') fun given => given.1
          have short : (old.bytes.take size).length = min old.bytes.length size := by
            rw [List.length_take, Nat.min_comm]
          obtain ⟨same, outcome, heap', mapped, represents', copied⟩ :=
            @request _ _ _ _ (mmuMunmap heap old.pointer) _ _ _ _ _ invariant invariant'
              (short ▸ Nat.min_le_right _ _) returned List.erase_subset memory
              (invariant.munmap_blocks represents member)
          rw [short] at copied
          exact ⟨heap', .realloc (isBlock member) same mapped nonnull copied, represents'⟩
  | free old =>
      simp only [HeapRun.step] at stepped
      split at stepped
      case isFalse => cases stepped
      case isTrue member =>
          obtain rfl := Option.some.inj stepped
          have left := invariant.munmap_blocks represents member
          refine ⟨_, .free (isBlock member) fun block isLeft => ?_, ⟨rfl, left⟩⟩
          rw [memory]
          exact invariant.sameBlocks invariant' List.erase_subset (List.Subset.refl _) block
            (left.subset isLeft)
  | store old i byte =>
      simp only [HeapRun.step] at stepped
      split at stepped
      case isFalse => cases stepped
      case isTrue inside =>
          obtain rfl := Option.some.inj stepped
          refine ⟨_, .store (isBlock inside.1) inside.2, ⟨by rw [Heap.store_memory, memory], ?_⟩⟩
          have order := (List.perm_cons_erase inside.1).map Allocation.extent
          rw [List.map_cons]
          simp only [Allocation.extent, List.length_set]
          exact represents.blocks.trans order

end HeapInvariant

end Call

/-! ## All calls -/

section Refines

variable {Source : Type u} {source : PageSource Source} {start run : HeapRun Source}
  {actions : List HeapAction}

/-- An allowed call. -/
def HeapCall (source : PageSource Source) (run : HeapRun Source) (action : HeapAction)
    (next : HeapRun Source) : Prop :=
  run.Allowed source.toHooks action ∧ run.step source.toHooks action = some next

/-- **The heap refines the blocks of `mmu_mmap`.** Every run of the heap is, call by call, a run of
the heap of blocks in which a request returns whatever fresh block there is. The blocks at its end
are those that the callers hold, with the bytes that they put there. -/
theorem heap_refines_mmap (initial : (heapSystem source).initial start)
    (ran : Runs (HeapCall source) start actions run) :
    ∃ heap, Runs Heap.Serves (Heap.bare start.heap.memory) actions heap ∧
      heap.blocks.Perm (run.live.map Allocation.extent) ∧
      ∀ allocation ∈ run.live,
        readBytes heap.memory allocation.pointer allocation.bytes.length = allocation.bytes := by
  have started := heapInvariant_reachable (.start initial)
  obtain ⟨memory, pages, owns, rfl⟩ := initial
  let Related (run : HeapRun Source) (heap : Heap) := HeapInvariant source run ∧ Represents run heap
  have matched {run : HeapRun Source} {action : HeapAction} {next : HeapRun Source} {heap : Heap}
      (related : Related run heap) (called : HeapCall source run action next) :
      ∃ heap', heap.Serves action heap' ∧ Related next heap' := by
    obtain ⟨heap', served, represents⟩ := related.1.serves related.2 called.1 called.2
    exact ⟨heap', served, related.1.step called.1 called.2, represents⟩
  have related : Related ⟨Liballoc.initial memory pages, []⟩ (Heap.bare memory) :=
    ⟨started, rfl, .nil⟩
  obtain ⟨heap, served, invariant, represents⟩ := ran.simulation matched related
  refine ⟨heap, served, represents.blocks, fun allocation member => ?_⟩
  rw [represents.memory]
  exact invariant.bytes allocation member

/-- On the small machine a block of 100 bytes is requested and given back. -/
theorem heap_refines_mmap_one_block : ∃ start allocation heap,
    Runs Heap.Serves (Heap.bare start) [.malloc 100, .free allocation] heap ∧
      allocation.bytes.length = 100 ∧ heap.blocks = [] := by
  obtain ⟨next, allocation, stepped, live, length⟩ := exists_first_step
  have member : allocation ∈ next.live := live ▸ List.mem_singleton_self _
  have requested : HeapCall smallSource _ (.malloc 100) next :=
    ⟨show 100 + 80 < 2 ^ 32 by decide, stepped⟩
  have returned : HeapCall smallSource next (.free allocation) _ := ⟨trivial, if_pos member⟩
  obtain ⟨heap, served, blocks, -⟩ := heap_refines_mmap
    ⟨fun _ => 0#8, startedPaging, startedPaging_holds, rfl⟩
    (.cons requested (.cons returned (.nil _)))
  refine ⟨_, allocation, heap, served, length, ?_⟩
  rw [live, List.erase_cons_head, List.map_nil] at blocks
  exact blocks.eq_nil

end Refines

end CatchOS.Mmu
