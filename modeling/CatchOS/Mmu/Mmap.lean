import CatchOS.Lib.Extent
import CatchOS.Machine.Memory
import Mathlib.Data.List.Pairwise

/-!
# Blocks of memory

`mmu_mmap` and `mmu_munmap` of `mmu.c`, as the rest of the kernel uses them: a
request that succeeds returns the address of a block that no other live block has a
byte in common with. Which block it is decides the allocator, so the address is an
argument here, and a request whose block is not fresh is not possible. The heap
carries that its blocks are apart and inside the address space.
-/

set_option autoImplicit false

namespace CatchOS.Mmu

open CatchOS.Lib

/-- The block has an address other than `NULL` and ends within the address space. -/
def Addressable (block : Extent) : Prop :=
  block.start ≠ 0 ∧ block.start < 2 ^ 32 ∧ block.start + block.size ≤ 2 ^ 32

instance (block : Extent) : Decidable (Addressable block) :=
  inferInstanceAs (Decidable (_ ∧ _))

/-- The memory, and the blocks that were requested and not given back. -/
structure Heap where
  memory : Memory
  blocks : List Extent
  apart : blocks.Pairwise Extent.Apart
  inside : ∀ block ∈ blocks, Addressable block

theorem inside_nil : ∀ block ∈ ([] : List Extent), Addressable block :=
  fun _ member => absurd member List.not_mem_nil

/-- The block has no byte in common with a block that is live. -/
def Heap.Fresh (heap : Heap) (block : Extent) : Prop :=
  Addressable block ∧ ∀ other ∈ heap.blocks, block.Apart other

instance (heap : Heap) (block : Extent) : Decidable (heap.Fresh block) :=
  inferInstanceAs (Decidable (_ ∧ _))

/-- A request for a block that turns out to be the given one. -/
def mmuMmap (heap : Heap) (block : Extent) : Option Heap :=
  if fresh : heap.Fresh block then
    some
      { heap with
        blocks := block :: heap.blocks
        apart := List.pairwise_cons.mpr ⟨fresh.2, heap.apart⟩
        inside := List.forall_mem_cons.mpr ⟨fresh.1, heap.inside⟩ }
  else
    none

def mmuMunmap (heap : Heap) (mem : ℕ) : Heap :=
  { heap with
    blocks := heap.blocks.filter fun block => block.start ≠ mem
    apart := heap.apart.filter _
    inside := fun block member => heap.inside block (List.mem_of_mem_filter member) }

/-- The same blocks with other contents. -/
def Heap.store (heap : Heap) (memory : Memory) : Heap := { heap with memory := memory }

@[simp] theorem Heap.store_memory (heap : Heap) (memory : Memory) :
    (heap.store memory).memory = memory := rfl

@[simp] theorem Heap.store_blocks (heap : Heap) (memory : Memory) :
    (heap.store memory).blocks = heap.blocks := rfl

/-- A request that succeeds returns a fresh block and writes nothing. -/
theorem mmuMmap_spec {heap after : Heap} {block : Extent}
    (called : mmuMmap heap block = some after) :
    heap.Fresh block ∧ after.memory = heap.memory ∧ after.blocks = block :: heap.blocks := by
  unfold mmuMmap at called
  split at called
  · rename_i fresh
    rw [Option.some.injEq] at called
    subst called
    exact ⟨fresh, rfl, rfl⟩
  · cases called

theorem mmuMmap_fresh {heap : Heap} {block : Extent} (fresh : heap.Fresh block) :
    ∃ after, mmuMmap heap block = some after :=
  ⟨_, dif_pos fresh⟩

/-- `mmu_mmap` with an outcome: it returns `NULL`, or a block at the given address. -/
def mmuMmapOutcome (heap : Heap) (size : ℕ) : Option ℕ → Option (ℕ × Heap)
  | none => some (0, heap)
  | some address => (mmuMmap heap ⟨address, size⟩).map fun heap => (address, heap)

/-- A block that is returned is not at `NULL`, and nothing is written. -/
theorem mmuMmapOutcome_some {heap after : Heap} {size address pointer : ℕ}
    (called : mmuMmapOutcome heap size (some address) = some (pointer, after)) :
    pointer = address ∧ address ≠ 0 ∧ mmuMmap heap ⟨address, size⟩ = some after := by
  obtain ⟨heap', mapped, returned⟩ := Option.map_eq_some_iff.mp called
  obtain ⟨rfl, rfl⟩ := Prod.mk.inj returned
  exact ⟨rfl, (mmuMmap_spec mapped).1.1.1, mapped⟩

/-- A request that fails changes nothing. -/
theorem mmuMmapOutcome_none {heap after : Heap} {size pointer : ℕ}
    (called : mmuMmapOutcome heap size none = some (pointer, after)) :
    pointer = 0 ∧ after = heap := by
  obtain ⟨rfl, rfl⟩ := Prod.mk.inj (Option.some.inj called)
  exact ⟨rfl, rfl⟩

/-- Blocks that can be handed out one after the other. -/
def Heap.Supply (heap : Heap) (blocks : List Extent) : Prop :=
  (∀ block ∈ blocks, heap.Fresh block) ∧ blocks.Pairwise Extent.Apart

instance (heap : Heap) (blocks : List Extent) : Decidable (heap.Supply blocks) :=
  inferInstanceAs (Decidable (_ ∧ _))

/-- When some of the blocks were handed out, the others still can be. -/
theorem Heap.Supply.rest {heap after : Heap} {taken rest : List Extent}
    (supply : heap.Supply (taken ++ rest))
    (blocks : ∀ block ∈ after.blocks, block ∈ heap.blocks ∨ block ∈ taken) :
    after.Supply rest := by
  obtain ⟨fresh, apart⟩ := supply
  obtain ⟨-, restApart, across⟩ := List.pairwise_append.mp apart
  refine ⟨fun block member => ⟨?_, ?_⟩, restApart⟩
  · exact (fresh block (List.mem_append_right _ member)).1
  · intro other live
    rcases blocks other live with old | new
    · exact (fresh block (List.mem_append_right _ member)).2 other old
    · exact (across other new block member).symm

/-- The first block was handed out. -/
theorem Heap.Supply.next {heap after : Heap} {block : Extent} {rest : List Extent}
    (supply : heap.Supply (block :: rest)) (blocks : after.blocks = block :: heap.blocks) :
    after.Supply rest := by
  refine @Heap.Supply.rest _ _ [block] _ supply ?_
  rw [blocks]
  exact List.forall_mem_cons.mpr ⟨.inr List.mem_cons_self, fun _ => .inl⟩

/-- The address space is 4 GiB, so the sizes of all live blocks add up to no more. -/
theorem Heap.sum_size_le (heap : Heap) : (heap.blocks.map Extent.size).sum ≤ 2 ^ 32 :=
  Lib.sum_size_le heap.apart fun block member => (heap.inside block member).2.2

end CatchOS.Mmu
