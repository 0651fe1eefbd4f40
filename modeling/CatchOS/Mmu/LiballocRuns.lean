import CatchOS.Mmu.LiballocPages
import CatchOS.Mmu.LiballocRealloc

/-!
# Every run of the heap

The heap and its callers: they request blocks, change the size of a block, give blocks back, and
write the bytes of the blocks they hold, in any order. Next to the heap a run keeps what its
callers know: the address of every block that they hold, and the bytes they put there. What a
call returns is not known before, and `calloc` returns zeros.

The heap is that of the blocks that are held (`HeapInvariant`), so no two of them have a byte in
common, and a block has the bytes of its owner, whatever the others did since (`heap_safety`).
Nothing is lost either: a run of pages is held only as long as one of the blocks is in it, and
when all blocks were given back so were all pages (`heap_returns_pages`).

A request is below 4 GiB by what the headers take. `calloc` and `realloc` do not look at the answer
of `malloc`: with `NULL` they clear, or fill with the old bytes, the memory from the address 0 on,
where the kernel is with its code, the globals of the heap and the page tables. After that nothing
holds any more, so the runs are those in which such a call gets its block (`HeapRun.Allowed`).
`malloc` itself may fail at any time.
-/

set_option autoImplicit false

namespace CatchOS.Mmu

open CatchOS CatchOS.Lib

universe u

/-! ## Runs -/

/-- A block that a caller holds, and the bytes in it. -/
structure Allocation where
  pointer : ℕ
  bytes : List Byte
  deriving DecidableEq

def Allocation.extent (allocation : Allocation) : Extent :=
  ⟨allocation.pointer, allocation.bytes.length⟩

/-- The heap, and what its callers hold. -/
structure HeapRun (Source : Type u) where
  heap : Liballoc Source
  live : List Allocation

inductive HeapAction where
  | malloc (size : ℕ)
  | calloc (nobj size : ℕ)
  | realloc (old : Allocation) (size : ℕ)
  | free (old : Allocation)
  | store (old : Allocation) (i : ℕ) (byte : Byte)

namespace HeapRun

variable {Source : Type u} (hooks : Hooks Source)

/-- The result of a call that took the old blocks away: a new block with the bytes that are known
of it, and for the rest those that it has, unless it is `NULL`. -/
def received (live : List Allocation) (known : List Byte) (size : ℕ) :
    ℕ × Liballoc Source → HeapRun Source
  | (ret, heap) =>
      if ret = 0 then
        ⟨heap, live⟩
      else
        let rest := readBytes heap.memory (offset ret known.length) (size - known.length)
        ⟨heap, ⟨ret, known ++ rest⟩ :: live⟩

/-- Only a block that is held may be changed or given back, and only inside its bounds. -/
def step (run : HeapRun Source) : HeapAction → Option (HeapRun Source)
  | .malloc size => (Liballoc.malloc hooks run.heap size).map (received run.live [] size)
  | .calloc nobj size =>
      (Liballoc.calloc hooks run.heap nobj size).map
        (received run.live (List.replicate (nobj * size) 0) (nobj * size))
  | .realloc old size =>
      if old ∈ run.live then
        (Liballoc.realloc hooks run.heap old.pointer size).map
          (received (run.live.erase old) (old.bytes.take size) size)
      else
        none
  | .free old =>
      if old ∈ run.live then
        some ⟨Liballoc.free hooks run.heap old.pointer, run.live.erase old⟩
      else
        none
  | .store old i byte =>
      if old ∈ run.live ∧ i < old.bytes.length then
        some
          ⟨{ run.heap with
              memory := Function.update run.heap.memory (offset old.pointer i) byte },
            ⟨old.pointer, old.bytes.set i byte⟩ :: run.live.erase old⟩
      else
        none

end HeapRun

/-- A request leaves room for its headers in 32 bits, and `calloc` and `realloc` get the block that
they ask for. -/
def HeapRun.Allowed {Source : Type u} (hooks : Hooks Source) (run : HeapRun Source) :
    HeapAction → Prop
  | .malloc size => size + 80 < 2 ^ 32
  | .calloc nobj size =>
      nobj * size + 80 < 2 ^ 32 ∧ Liballoc.Gives hooks run.heap (nobj * size)
  | .realloc old size =>
      size + 80 < 2 ^ 32 ∧ (old.bytes.length < size → Liballoc.Gives hooks run.heap size)
  | .free _ => True
  | .store _ _ _ => True

section System

variable {Source : Type u} (source : PageSource Source)

/-- Runs start with no block, in any memory. -/
def heapSystem : System (HeapRun Source) HeapAction where
  initial run := ∃ memory pages, source.Owns pages [] ∧ run = ⟨Liballoc.initial memory pages, []⟩
  step := HeapRun.step source.toHooks

/-- The runs of allowed calls. -/
abbrev HeapReached (run : HeapRun Source) : Prop :=
  (heapSystem source).ReachableUnder (HeapRun.Allowed source.toHooks) run

/-! ## The invariant -/

/-- The heap is that of the blocks that are held, and they have the bytes of their owners. -/
structure HeapInvariant (run : HeapRun Source) : Prop where
  heap : Liballoc.HeapOf source run.heap (run.live.map Allocation.extent)
  bytes : ∀ allocation ∈ run.live,
    readBytes run.heap.memory allocation.pointer allocation.bytes.length = allocation.bytes

end System

namespace HeapInvariant

variable {Source : Type u} {source : PageSource Source} {run next : HeapRun Source}
  {old : Allocation} {heap : Liballoc Source} {live : List Allocation}

/-- The blocks in another order. -/
theorem perm (invariant : HeapInvariant source run) (perm : live.Perm run.live) :
    HeapInvariant source ⟨run.heap, live⟩ :=
  ⟨invariant.heap.perm (perm.map _), fun allocation member =>
    invariant.bytes allocation (perm.subset member)⟩

/-- The other blocks have their bytes after a call that left them alone. -/
theorem bytes_of_same (invariant : HeapInvariant source run) {fewer : List Allocation}
    (subset : fewer ⊆ run.live) {memory : Memory}
    (same : SameBlocks (fewer.map Allocation.extent) run.heap.memory memory) :
    ∀ allocation ∈ fewer,
      readBytes memory allocation.pointer allocation.bytes.length = allocation.bytes := by
  intro allocation member
  have isBlock := List.mem_map_of_mem (f := Allocation.extent) member
  have bounds := invariant.heap.bounds (List.mem_map_of_mem (subset member))
  exact (same.readBytes isBlock bounds.2.2 (Nat.le_refl _)).trans
    (invariant.bytes allocation (subset member))

/-- What a call leaves alone, and what it returns. -/
theorem received {known : List Byte} {size ret : ℕ} (short : known.length ≤ size)
    (others : ∀ allocation ∈ live,
      readBytes heap.memory allocation.pointer allocation.bytes.length = allocation.bytes)
    (outcome : (ret = 0 ∧ Liballoc.HeapOf source heap (live.map Allocation.extent)) ∨
      (ret ≠ 0 ∧ Liballoc.HeapOf source heap (⟨ret, size⟩ :: live.map Allocation.extent) ∧
        readBytes heap.memory ret known.length = known)) :
    HeapInvariant source (HeapRun.received live known size (ret, heap)) := by
  unfold HeapRun.received
  rcases outcome with ⟨null, kept⟩ | ⟨nonnull, kept, read⟩
  · simp only [null, if_true]
    exact ⟨kept, others⟩
  · simp only [nonnull, if_false]
    have rest := length_readBytes heap.memory (offset ret known.length) (size - known.length)
    have length : (known ++ readBytes heap.memory (offset ret known.length)
        (size - known.length)).length = size := by
      rw [List.length_append, rest]
      omega
    refine ⟨?_, List.forall_mem_cons.mpr ⟨?_, others⟩⟩
    · simp only [List.map_cons, Allocation.extent, length]
      exact kept
    · simp only [length]
      have split : size = known.length + (size - known.length) := by omega
      rw [split, readBytes_add, read, Nat.add_sub_cancel_left]

theorem malloc (invariant : HeapInvariant source run) {size : ℕ}
    (allowed : run.Allowed source.toHooks (.malloc size))
    (stepped : run.step source.toHooks (.malloc size) = some next) : HeapInvariant source next := by
  obtain ⟨ret, after, called, outcome⟩ := invariant.heap.malloc allowed
  simp only [HeapRun.step, called, Option.map_some, Option.some.injEq] at stepped
  subst stepped
  refine received (Nat.zero_le _) (invariant.bytes_of_same (List.Subset.refl _) ?_) ?_
  · rcases outcome with ⟨-, -, unwritten⟩ | ⟨-, -, same⟩
    · exact fun _ _ address _ => congrFun unwritten address
    · exact same.sameBlocks
  · rcases outcome with ⟨null, kept, -⟩ | ⟨nonnull, kept, -⟩
    · exact .inl ⟨null, kept⟩
    · exact .inr ⟨nonnull, kept, rfl⟩

theorem calloc (invariant : HeapInvariant source run) {nobj size : ℕ}
    (allowed : run.Allowed source.toHooks (.calloc nobj size))
    (stepped : run.step source.toHooks (.calloc nobj size) = some next) :
    HeapInvariant source next := by
  obtain ⟨ret, after, called, nonnull, kept, same, zeros⟩ :=
    invariant.heap.calloc allowed.1 allowed.2
  have length : (List.replicate (nobj * size) (0 : Byte)).length = nobj * size :=
    List.length_replicate
  simp only [HeapRun.step, called, Option.map_some, Option.some.injEq] at stepped
  subst stepped
  refine received (Nat.le_of_eq length)
    (invariant.bytes_of_same (List.Subset.refl _) same.sameBlocks) (.inr ⟨nonnull, kept, ?_⟩)
  rw [length]
  exact zeros

/-- One block and the others. -/
theorem split (invariant : HeapInvariant source run) (member : old ∈ run.live) :
    Liballoc.HeapOf source run.heap (old.extent :: (run.live.erase old).map Allocation.extent) :=
  invariant.heap.perm ((List.perm_cons_erase member).symm.map Allocation.extent)

theorem realloc (invariant : HeapInvariant source run) {size : ℕ}
    (allowed : run.Allowed source.toHooks (.realloc old size))
    (stepped : run.step source.toHooks (.realloc old size) = some next) :
    HeapInvariant source next := by
  simp only [HeapRun.step] at stepped
  split at stepped
  case isFalse => cases stepped
  case isTrue member =>
      have heap := invariant.split member
      have others := List.erase_subset (a := old) (l := run.live)
      have length : (old.bytes.take size).length = min old.bytes.length size := by
        rw [List.length_take, Nat.min_comm]
      have short : (old.bytes.take size).length ≤ size := by omega
      obtain ⟨ret, after, called, same, outcome⟩ := heap.realloc allowed.1 allowed.2
      have called' : Liballoc.realloc source.toHooks run.heap old.pointer size =
          some (ret, after) := called
      have others' := invariant.bytes_of_same others same.sameBlocks
      rw [called', Option.map_some, Option.some.injEq] at stepped
      subst stepped
      rcases outcome with ⟨null, -, kept⟩ | ⟨nonnull, kept, copied⟩
      · exact received short others' (.inl ⟨null, kept⟩)
      · refine received short others' (.inr ⟨nonnull, kept, ?_⟩)
        rw [length]
        refine copied.trans ?_
        rw [Nat.min_comm, ← readBytes_take]
        exact congrArg (List.take size) (invariant.bytes old member)

theorem free (invariant : HeapInvariant source run)
    (stepped : run.step source.toHooks (.free old) = some next) : HeapInvariant source next := by
  simp only [HeapRun.step] at stepped
  split at stepped
  case isFalse => cases stepped
  case isTrue member =>
      simp only [Option.some.injEq] at stepped
      subst stepped
      obtain ⟨kept, same⟩ := (invariant.split member).free
      exact ⟨kept, invariant.bytes_of_same List.erase_subset same.sameBlocks⟩

theorem store (invariant : HeapInvariant source run) {i : ℕ} {byte : Byte}
    (stepped : run.step source.toHooks (.store old i byte) = some next) :
    HeapInvariant source next := by
  simp only [HeapRun.step] at stepped
  split at stepped
  case isFalse => cases stepped
  case isTrue inside =>
      obtain ⟨member, bound⟩ := inside
      simp only [Option.some.injEq] at stepped
      subst stepped
      have heap := invariant.split member
      obtain ⟨-, -, fits⟩ := heap.bounds List.mem_cons_self
      simp only [Allocation.extent] at fits
      have one : writeBytes run.heap.memory (old.pointer + i) [byte] =
          Function.update run.heap.memory (offset old.pointer i) byte := by
        rw [writeBytes, writeBytes, offset_eq (by omega), offset_eq (by omega), Nat.add_zero]
      obtain ⟨kept, same⟩ := @Liballoc.HeapOf.write _ _ _ _ _ heap (old.pointer + i) [byte]
        (Nat.le_add_right _ _) (by simp only [Allocation.extent, List.length_singleton]; omega)
      rw [one] at kept same
      refine ⟨?_, List.forall_mem_cons.mpr ⟨?_,
        invariant.bytes_of_same List.erase_subset same.sameBlocks⟩⟩
      · simp only [List.map_cons, Allocation.extent, List.length_set]
        exact kept
      · simp only [List.length_set]
        rw [readBytes_update (by omega) bound, invariant.bytes old member]

/-- Every call keeps the invariant. -/
theorem step (invariant : HeapInvariant source run) {action : HeapAction}
    (allowed : run.Allowed source.toHooks action)
    (stepped : run.step source.toHooks action = some next) : HeapInvariant source next := by
  cases action with
  | malloc size => exact invariant.malloc allowed stepped
  | calloc nobj size => exact invariant.calloc allowed stepped
  | realloc old size => exact invariant.realloc allowed stepped
  | free old => exact invariant.free stepped
  | store old i byte => exact invariant.store stepped

end HeapInvariant

/-! ## Safety -/

/-- The block that is changed or given back is held. -/
def HeapAction.Held {Source : Type u} (run : HeapRun Source) : HeapAction → Prop
  | .malloc _ => True
  | .calloc _ _ => True
  | .realloc old _ => old ∈ run.live
  | .free old => old ∈ run.live
  | .store old i _ => old ∈ run.live ∧ i < old.bytes.length

section Safety

variable {Source : Type u} {source : PageSource Source} {run : HeapRun Source}

theorem heapInvariant_reachable (reachable : HeapReached source run) :
    HeapInvariant source run := by
  refine reachable.invariant (HeapInvariant source) ?_ ?_
  · rintro run ⟨memory, pages, owns, rfl⟩
    exact ⟨.initial owns, fun _ member => absurd member List.not_mem_nil⟩
  · intro run action next invariant allowed stepped
    exact invariant.step allowed stepped

theorem heapReached_step (reachable : HeapReached source run) {action : HeapAction}
    {next : HeapRun Source} (allowed : run.Allowed source.toHooks action)
    (stepped : run.step source.toHooks action = some next) : HeapReached source next :=
  .step reachable allowed stepped

/-- Every call returns. -/
theorem HeapInvariant.exists_step (invariant : HeapInvariant source run) {action : HeapAction}
    (allowed : run.Allowed source.toHooks action) (held : action.Held run) :
    ∃ next, run.step source.toHooks action = some next := by
  cases action with
  | malloc size =>
      obtain ⟨ret, after, called, -⟩ := invariant.heap.malloc allowed
      exact ⟨_, by rw [HeapRun.step, called, Option.map_some]⟩
  | calloc nobj size =>
      obtain ⟨ret, after, called, -⟩ := invariant.heap.calloc allowed.1 allowed.2
      exact ⟨_, by rw [HeapRun.step, called, Option.map_some]⟩
  | realloc old size =>
      obtain ⟨ret, after, called, -⟩ := (invariant.split held).realloc allowed.1 allowed.2
      have called' : Liballoc.realloc source.toHooks run.heap old.pointer size =
          some (ret, after) := called
      have member : old ∈ run.live := held
      exact ⟨_, by rw [HeapRun.step, if_pos member, called', Option.map_some]⟩
  | free old => exact ⟨_, if_pos held⟩
  | store old i byte => exact ⟨_, if_pos held⟩

/-- The heap of the small machine before the first request. -/
theorem exists_no_block : ∃ run, HeapReached smallSource run ∧ run.heap.source = startedPaging :=
  ⟨⟨Liballoc.initial (fun _ => 0#8) startedPaging, []⟩,
    .start ⟨_, startedPaging, startedPaging_holds, rfl⟩, rfl⟩

/-- The first request of the small machine returns a block. -/
theorem exists_first_step : ∃ next allocation,
    HeapRun.step smallSource.toHooks ⟨Liballoc.initial (fun _ => 0#8) startedPaging, []⟩
      (.malloc 100) = some next ∧ next.live = [allocation] ∧ allocation.bytes.length = 100 := by
  have invariant := heapInvariant_reachable
    (.start ⟨fun _ => 0#8, startedPaging, startedPaging_holds, rfl⟩ : HeapReached smallSource _)
  have allowed : 100 + 80 < 2 ^ 32 := by decide
  obtain ⟨next, stepped⟩ := @HeapInvariant.exists_step _ _ _ invariant (.malloc 100) allowed trivial
  obtain ⟨ret, after, called, -⟩ := invariant.heap.malloc allowed
  have nonnull : ret ≠ 0 := by
    rintro rfl
    obtain ⟨majors, stored, inUse, -⟩ := invariant.heap
    obtain ⟨⟨pages, refused⟩, -⟩ := (Liballoc.malloc_null stored inUse allowed).mp ⟨after, called⟩
    exact smallSource_alloc refused rfl
  refine ⟨next, ?_⟩
  simp only [HeapRun.step, called, Option.map_some, Option.some.injEq] at stepped
  subst stepped
  simp only [HeapRun.received, nonnull, if_false]
  exact ⟨_, by simp only [HeapRun.step, called, Option.map_some, HeapRun.received, nonnull,
    if_false],
    rfl, length_readBytes _ _ _⟩

/-- The heap of the small machine, with one block of 100 bytes. -/
theorem exists_one_block : ∃ run, HeapReached smallSource run ∧
    ∃ allocation, run.live = [allocation] ∧ allocation.bytes.length = 100 := by
  obtain ⟨next, allocation, stepped, live, length⟩ := exists_first_step
  have started : HeapReached smallSource ⟨Liballoc.initial (fun _ => 0#8) startedPaging, []⟩ :=
    .start ⟨_, startedPaging, startedPaging_holds, rfl⟩
  have reached := @heapReached_step _ _ _ started (.malloc 100) next
    (show 100 + 80 < 2 ^ 32 by decide) stepped
  exact ⟨next, reached, allocation, live, length⟩

/-- **Heap safety.** In every state of every run no two blocks that are held have a byte in
common, a block starts at a multiple of 16 behind the pages of the kernel, and it has the bytes
its owner put there. Every allowed call of an owner returns. -/
theorem heap_safety (reachable : HeapReached source run) :
    (run.live.Pairwise fun first second => first.extent.Apart second.extent) ∧
      (run.live.map Allocation.pointer).Nodup ∧
      (∀ allocation ∈ run.live, allocation.pointer % 16 = 0 ∧ heapFloor < allocation.pointer ∧
        allocation.pointer + allocation.bytes.length < 2 ^ 32 ∧
        readBytes run.heap.memory allocation.pointer allocation.bytes.length = allocation.bytes) ∧
      ∀ action : HeapAction, run.Allowed source.toHooks action → action.Held run →
        ∃ next, run.step source.toHooks action = some next := by
  have invariant := heapInvariant_reachable reachable
  refine ⟨List.pairwise_map.mp invariant.heap.apart, ?_, ?_, ?_⟩
  · have nodup := invariant.heap.nodup
    rw [List.map_map] at nodup
    exact nodup
  · intro allocation member
    have bounds := invariant.heap.bounds (List.mem_map_of_mem (f := Allocation.extent) member)
    exact ⟨bounds.1, bounds.2.1, bounds.2.2, invariant.bytes allocation member⟩
  · intro action allowed held
    exact invariant.exists_step allowed held

/-- The block of 100 bytes has the bytes of its owner. -/
theorem heap_safety_one_block : ∃ run, HeapReached smallSource run ∧ ∃ allocation,
    run.live = [allocation] ∧ allocation.bytes.length = 100 ∧
      readBytes run.heap.memory allocation.pointer 100 = allocation.bytes := by
  obtain ⟨run, reachable, allocation, live, length⟩ := exists_one_block
  obtain ⟨-, -, blocks, -⟩ := heap_safety reachable
  have bytes := (blocks allocation (live ▸ List.mem_singleton_self _)).2.2.2
  rw [length] at bytes
  exact ⟨run, reachable, allocation, live, length, bytes⟩

/-! ## The pages -/

/-- **No pages are lost.** In every state of every run there is a block that is held in every run
of pages that the heap holds, and every block is in one. The totals account for the blocks, their
headers and the pages. When no block is held, all pages were given back, and the heap is as it
was before the first request. -/
theorem heap_returns_pages (reachable : HeapReached source run) :
    ∃ held, source.Owns run.heap.source held ∧
      (∀ pages ∈ held, ∃ allocation ∈ run.live, InPages allocation.extent pages) ∧
      (∀ allocation ∈ run.live, ∃ pages ∈ held, InPages allocation.extent pages) ∧
      run.heap.allocated = (held.map Extent.size).sum * 4096 ∧
      (run.live.map fun allocation => allocation.bytes.length + 32).sum ≤ run.heap.inuse ∧
      run.heap.inuse + 24 * (run.live.length + held.length) ≤ run.heap.allocated ∧
      (run.live = [] → held = [] ∧ run.heap.memRoot = 0 ∧ run.heap.bestBet = 0 ∧
        run.heap.allocated = 0 ∧ run.heap.inuse = 0) := by
  obtain ⟨held, owns, used, inPages, allocated, inuse, headers, empty⟩ :=
    (heapInvariant_reachable reachable).heap.account
  simp only [List.mem_map, exists_exists_and_eq_and] at used
  rw [List.forall_mem_map] at inPages
  rw [List.map_map] at inuse
  rw [List.length_map] at headers
  refine ⟨held, owns, used, inPages, allocated, inuse, headers, fun none' => ?_⟩
  obtain ⟨root, bet⟩ := empty (by rw [none']; rfl)
  have noPages : held = [] := by
    refine List.eq_nil_iff_forall_not_mem.mpr fun pages member => ?_
    obtain ⟨allocation, isLive, -⟩ := used pages member
    exact List.not_mem_nil (none' ▸ isLive)
  have noBytes : run.heap.allocated = 0 := by rw [allocated, noPages]; rfl
  exact ⟨noPages, root, bet, noBytes, by omega⟩

/-- The block of 100 bytes is in a run of pages that the heap holds. -/
theorem heap_returns_pages_one_block : ∃ run, HeapReached smallSource run ∧ ∃ allocation,
    run.live = [allocation] ∧ ∃ held, smallSource.Owns run.heap.source held ∧
      ∃ pages ∈ held, InPages allocation.extent pages := by
  obtain ⟨run, reachable, allocation, live, -⟩ := exists_one_block
  obtain ⟨held, owns, -, inPages, -⟩ := heap_returns_pages reachable
  exact ⟨run, reachable, allocation, live, held, owns,
    inPages allocation (live ▸ List.mem_singleton_self _)⟩

/-- **When a request fails.** In every state of every run `malloc` returns `NULL` exactly when
the page allocator has no pages for a new major, and no place in a major that is there is free for
the block and its header. -/
theorem malloc_fails_iff (reachable : HeapReached source run) {size : ℕ}
    (small : size + 80 < 2 ^ 32) :
    ∃ majors, Liballoc.HeapStored source run.heap majors ∧
      (run.live.map Allocation.extent).Perm (heapBlocks majors) ∧
      ((∃ after, Liballoc.malloc source.toHooks run.heap size = some (0, after)) ↔
        (∃ pages, source.liballocAlloc run.heap.source (Liballoc.newPages (size + 32)) =
          some (0, pages)) ∧
        ∀ major ∈ majors, ¬∃ start, major.low ≤ start ∧ start + (size + 56) ≤ major.stop ∧
          ∀ minor ∈ major.minors, Extent.Apart ⟨start, size + 56⟩ minor.extent) := by
  obtain ⟨majors, stored, inUse, perm⟩ := (heapInvariant_reachable reachable).heap
  refine ⟨majors, stored, perm, ?_⟩
  rw [Liballoc.malloc_null stored inUse small]
  refine and_congr_right fun _ => forall₂_congr fun major member => ?_
  rw [Liballoc.hasRoom_iff_vacant (stored.laid major member)]

end Safety

/-- The first request of the small machine does not fail, for there are sixteen pages. -/
theorem malloc_fails_iff_first : ∃ run, HeapReached smallSource run ∧
    ¬∃ after, Liballoc.malloc smallSource.toHooks run.heap 100 = some (0, after) := by
  obtain ⟨run, started, source⟩ := exists_no_block
  obtain ⟨majors, -, -, fails⟩ := malloc_fails_iff started (show 100 + 80 < 2 ^ 32 by decide)
  refine ⟨run, started, fun failed => ?_⟩
  obtain ⟨⟨pages, refused⟩, -⟩ := fails.mp failed
  rw [source] at refused
  exact smallSource_alloc refused rfl

/-! ## The whole memory of the kernel -/

section PageFrames

variable {image : KernelImage} {physMemUpper : ℕ} {room : image.HeapRoom}
  {multiple : pagesTotal physMemUpper % 8 = 0} {first : Paging} {run : HeapRun Paging}

/-- **The heap on the page-frame allocator.** In every state of every run every address of a block
is mapped to itself and may be written, and its page frame is in use and was free before. The
frames in use are those from before and those of the heap; so when all blocks were given back, the
bitmap is as it was. -/
theorem heap_on_page_frames
    (reachable : HeapReached (pagingSource image physMemUpper room multiple first) run) :
    (∀ allocation ∈ run.live, ∀ address, allocation.extent.Contains address →
      translate run.heap.source.memory image.kernelPageDirectory address = some ⟨address, true⟩ ∧
        run.heap.source.bit (address / 4096) = true ∧ first.bit (address / 4096) = false) ∧
      (run.live = [] → ∀ page < pagesTotal physMemUpper,
        run.heap.source.bit page = first.bit page) := by
  obtain ⟨held, ⟨ledger, mapped, holds⟩, -, inPages, -, -, -, empty⟩ := heap_returns_pages reachable
  constructor
  · intro allocation member address contained
    obtain ⟨pages, isHeld, above, below⟩ := inPages allocation member
    have inBlock : pages.Contains (address / 4096) := by
      have start := contained.1
      have stop := contained.2
      constructor <;> omega
    have isMapped := holds.mapping.pages _ (holds.pages pages isHeld _ inBlock)
    have vacant := holds.vacant pages isHeld _ inBlock
    obtain ⟨others, live⟩ := holds.live
    have isLive := live.mem_iff.mpr (List.mem_append_left others isHeld)
    have below' := (holds.frames.inside pages isLive).2
    have bound : address / 4096 < pagesTotal physMemUpper := Nat.lt_of_lt_of_le inBlock.2 below'
    have onPage : address / 4096 * 4096 ≤ address := Nat.div_mul_le_self _ _
    have inPage : address < address / 4096 * 4096 + 4096 := Nat.lt_div_mul_add (by decide)
    exact ⟨isMapped.translate holds.mapping.identity.placed onPage inPage,
      (holds.bits _ bound).mpr (.inr ⟨pages, isHeld, inBlock⟩), vacant⟩
  · intro none' page bound
    obtain ⟨rfl, -⟩ := empty none'
    rw [Bool.eq_iff_iff, holds.bits page bound]
    simp only [List.not_mem_nil, false_and, exists_false, or_false]

/-- The block of 100 bytes of the small machine is mapped to itself. -/
theorem heap_on_page_frames_one_block : ∃ run, HeapReached smallSource run ∧ ∃ allocation,
    run.live = [allocation] ∧
      translate run.heap.source.memory smallImage.kernelPageDirectory allocation.pointer =
        some ⟨allocation.pointer, true⟩ := by
  obtain ⟨run, reachable, allocation, live, length⟩ := exists_one_block
  obtain ⟨mapped, -⟩ := @heap_on_page_frames smallImage 16384 smallImage_room smallTotal
    startedPaging
    run reachable
  refine ⟨run, reachable, allocation, live, ?_⟩
  refine (mapped allocation (live ▸ List.mem_singleton_self _) _ ⟨Nat.le_refl _, ?_⟩).1
  simp only [Allocation.extent, length]
  omega

end PageFrames

end CatchOS.Mmu
