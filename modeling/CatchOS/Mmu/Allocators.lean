import CatchOS.Lib.Extent
import CatchOS.Lib.Transition
import CatchOS.Mmu.BitmapPlaced
import CatchOS.Mmu.Paging
import Mathlib.Data.Finset.Card

/-!
# The two physical allocators

The kernel heap grows upwards from the end of the kernel image and nothing stops
it; the page-frame allocator keeps the first 8 MiB out of its blocks. The two
share the memory without conflict as long as the heap ends below 8 MiB.

A run makes the heap requests of the kernel in any order: the page-frame bitmap at
the first call of `pageframe_alloc`, a page table for every 4 MiB of memory that is
mapped, and the stacks of the application processors. Aligned requests waste less
than a page, and only when the pointer is not at a page boundary, so the pointer
stays below a number of whole pages that counts the requests
(`AllocatorRun.budget`). The first 2048 bits of the bitmap stay set, since no other
heap block and no entry of a page table is in the bitmap.

The main result is `allocators_apart`.
-/

set_option autoImplicit false

namespace CatchOS.Mmu

open CatchOS.Lib CatchOS.Utils

/-- The kernel image, with the page directory of the kernel in it. -/
structure KernelImage extends Kinfo where
  kernelPageDirectory : ℕ
  directory_inside : kernelPageDirectory + 4096 ≤ kernelEndVirtual

/-- A block of the kernel heap, and the alignment it was asked for with. -/
structure HeapBlock where
  extent : Extent
  alignment : ℕ

/-- The state of both allocators, the blocks of the heap, the blocks that
`pageframe_alloc` has ever returned (in bytes), those that are live (in pages), and
the number of stacks. -/
structure AllocatorRun where
  paging : Paging
  heapBlocks : List HeapBlock
  pageBlocks : List Extent
  live : List Extent
  apStacks : ℕ

inductive AllocatorAction where
  | mapPage (virtualAddr physAddr : ℕ)
  | mapTable (virtualAddr physAddr : ℕ)
  | prepareTrampolineParams
  | alloc (pages : ℕ)
  | free (block : Extent)

namespace AllocatorRun

/-- After a mapping call: the page table is a new block of the heap when there was
none for the 4 MiB. -/
def mapped (run : AllocatorRun) (physAddr : ℕ) (paging : Paging) : AllocatorRun :=
  let index := physAddr / 0x400000
  { run with
    paging := paging
    heapBlocks :=
      if run.paging.allocatedPageTables index = 0 then
        ⟨⟨paging.allocatedPageTables index, pageSize⟩, 4096⟩ :: run.heapBlocks
      else
        run.heapBlocks }

/-- After `pageframe_alloc`: the bitmap is a new block of the heap when this was the
first call, and an address other than `NULL` is a block of pages. -/
def allocated (run : AllocatorRun) (pages ret : ℕ) (frames : Pageframe) : AllocatorRun :=
  { run with
    paging := { run.paging with toPageframe := frames }
    heapBlocks :=
      if run.paging.isInitialized then
        run.heapBlocks
      else
        ⟨⟨frames.pageframeBitmap, frames.pagesTotalPhys / 8⟩, 4096⟩ :: run.heapBlocks
    pageBlocks := if ret = 0 then run.pageBlocks else ⟨ret, 4096 * pages⟩ :: run.pageBlocks
    live := if ret = 0 then run.live else ⟨pageFromAddr ret, pages⟩ :: run.live }

/-- After the stack of an application processor was taken from the heap. -/
def withStack (run : AllocatorRun) : AllocatorRun :=
  let (stack, kheap) := kmalloc run.paging.toKheap 4096
  { run with
    paging := { run.paging with toKheap := kheap }
    heapBlocks := ⟨⟨stack, 4096⟩, 1⟩ :: run.heapBlocks
    apStacks := run.apStacks + 1 }

def freed (run : AllocatorRun) (block : Extent) : AllocatorRun :=
  { run with
    paging :=
      { run.paging with
        toPageframe := pageframeFree run.paging.toPageframe (block.start * 4096) block.size }
    live := run.live.erase block }

/-- The calls that the kernel may make: addresses are words, a processor number is a
byte and the first processor needs no stack, so there are at most 255 stacks, and
only live blocks are freed. -/
def Possible (run : AllocatorRun) : AllocatorAction → Prop
  | .mapPage virtualAddr physAddr => virtualAddr < 2 ^ 32 ∧ physAddr < 2 ^ 32
  | .mapTable virtualAddr physAddr => virtualAddr < 2 ^ 32 ∧ physAddr < 2 ^ 32
  | .prepareTrampolineParams => run.apStacks < 255
  | .alloc pages => 1 ≤ pages ∧ pages < 2 ^ 32
  | .free block => block ∈ run.live

instance (run : AllocatorRun) : (action : AllocatorAction) → Decidable (run.Possible action)
  | .mapPage virtualAddr physAddr =>
      inferInstanceAs (Decidable (virtualAddr < 2 ^ 32 ∧ physAddr < 2 ^ 32))
  | .mapTable virtualAddr physAddr =>
      inferInstanceAs (Decidable (virtualAddr < 2 ^ 32 ∧ physAddr < 2 ^ 32))
  | .prepareTrampolineParams => inferInstanceAs (Decidable (run.apStacks < 255))
  | .alloc pages => inferInstanceAs (Decidable (1 ≤ pages ∧ pages < 2 ^ 32))
  | .free block => inferInstanceAs (Decidable (block ∈ run.live))

/-- What a call does. All mapping calls are on the page directory of the kernel. -/
def call (image : KernelImage) (physMemUpper : ℕ) (run : AllocatorRun) :
    AllocatorAction → Option AllocatorRun
  | .mapPage virtualAddr physAddr =>
      (pagingMapPage run.paging virtualAddr physAddr image.kernelPageDirectory).map
        (run.mapped physAddr)
  | .mapTable virtualAddr physAddr =>
      (pagingMapTable run.paging virtualAddr physAddr image.kernelPageDirectory).map
        (run.mapped physAddr)
  | .prepareTrampolineParams => some run.withStack
  | .alloc pages =>
      (pageframeAlloc physMemUpper run.paging.toPageframe pages).map
        fun (ret, frames) => run.allocated pages ret frames
  | .free block => some (run.freed block)

def step (image : KernelImage) (physMemUpper : ℕ) (run : AllocatorRun)
    (action : AllocatorAction) : Option AllocatorRun :=
  if run.Possible action then run.call image physMemUpper action else none

end AllocatorRun

/-- Runs start after `kheap_init`, with no page table and the bitmap not set up. -/
def allocatorSystem (image : KernelImage) (physMemUpper : ℕ) :
    System AllocatorRun AllocatorAction where
  initial run := ∃ kheap : Kheap, run =
    ⟨⟨⟨kheapInit kheap image.toKinfo, false, 0, 0⟩, fun _ => 0⟩, [], [], [], 0⟩
  step := AllocatorRun.step image physMemUpper

theorem allocatorSystem_step {image : KernelImage} {physMemUpper : ℕ} {run next : AllocatorRun}
    {action : AllocatorAction} (reachable : (allocatorSystem image physMemUpper).Reachable run)
    (called : run.call image physMemUpper action = some next) (possible : run.Possible action) :
    (allocatorSystem image physMemUpper).Reachable next :=
  .step reachable trivial ((if_pos possible).trans called)

section WithStack

variable (run : AllocatorRun)

@[simp] theorem withStack_memory :
    run.withStack.paging.memory = memset run.paging.memory run.paging.heapCur 0#8 4096 := rfl

@[simp] theorem withStack_heapCur :
    run.withStack.paging.heapCur = offset run.paging.heapCur 4096 := rfl

@[simp] theorem withStack_isInitialized :
    run.withStack.paging.isInitialized = run.paging.isInitialized := rfl

@[simp] theorem withStack_pageframeBitmap :
    run.withStack.paging.pageframeBitmap = run.paging.pageframeBitmap := rfl

@[simp] theorem withStack_pagesTotalPhys :
    run.withStack.paging.pagesTotalPhys = run.paging.pagesTotalPhys := rfl

@[simp] theorem withStack_allocatedPageTables :
    run.withStack.paging.allocatedPageTables = run.paging.allocatedPageTables := rfl

@[simp] theorem withStack_heapBlocks :
    run.withStack.heapBlocks = ⟨⟨run.paging.heapCur, 4096⟩, 1⟩ :: run.heapBlocks := rfl

@[simp] theorem withStack_apStacks : run.withStack.apStacks = run.apStacks + 1 := rfl

end WithStack

/-! ## How far the heap gets -/

/-- The number of page tables. -/
def tableCount (tables : ℕ → ℕ) : ℕ :=
  ((Finset.range 1024).filter fun index => tables index ≠ 0).card

theorem tableCount_le (tables : ℕ → ℕ) : tableCount tables ≤ 1024 := by
  have bound := Finset.card_filter_le (Finset.range 1024) fun index => tables index ≠ 0
  rwa [Finset.card_range] at bound

/-- A table where there was none is one more table. -/
theorem tableCount_update (tables : ℕ → ℕ) {index table : ℕ} (inside : index < 1024)
    (missing : tables index = 0) (nonnull : table ≠ 0) :
    tableCount (Function.update tables index table) = tableCount tables + 1 := by
  have gained : (Finset.range 1024).filter (fun i => Function.update tables index table i ≠ 0) =
      insert index ((Finset.range 1024).filter fun i => tables i ≠ 0) := by
    ext i
    rw [Finset.mem_insert, Finset.mem_filter, Finset.mem_filter]
    by_cases same : i = index
    · simp [same, inside, nonnull]
    · simp [same]
  unfold tableCount
  rw [gained, Finset.card_insert_of_notMem]
  simp [missing]

/-- The page boundary that the heap pointer stays below. -/
def heapBudget (initialized : Bool) (pageTables apStacks : ℕ) : ℕ :=
  0x200000 + 4096 * (apStacks + pageTables) + if initialized then 0x20000 else 0

def AllocatorRun.budget (run : AllocatorRun) : ℕ :=
  heapBudget run.paging.isInitialized (tableCount run.paging.allocatedPageTables) run.apStacks

theorem heapBudget_aligned (initialized : Bool) (pageTables apStacks : ℕ) :
    heapBudget initialized pageTables apStacks % 4096 = 0 := by
  unfold heapBudget
  split <;> omega

theorem heapBudget_table (initialized : Bool) (pageTables apStacks : ℕ) :
    heapBudget initialized (pageTables + 1) apStacks =
      heapBudget initialized pageTables apStacks + 4096 := by
  unfold heapBudget
  omega

theorem heapBudget_stack (initialized : Bool) (pageTables apStacks : ℕ) :
    heapBudget initialized pageTables (apStacks + 1) =
      heapBudget initialized pageTables apStacks + 4096 := by
  unfold heapBudget
  omega

/-- The bitmap is smaller than 128 KiB. -/
theorem heapBudget_bitmap (pageTables apStacks : ℕ) :
    heapBudget true pageTables apStacks = heapBudget false pageTables apStacks + 0x20000 := rfl

/-- With 255 stacks, 1024 page tables and the bitmap the heap is still below 8 MiB. -/
theorem AllocatorRun.budget_le {run : AllocatorRun} (fewStacks : run.apStacks ≤ 255) :
    run.budget ≤ 0x800000 := by
  have tables := tableCount_le run.paging.allocatedPageTables
  unfold budget heapBudget
  split <;> omega

/-! ## The invariant -/

structure AllocatorInvariant (image : KernelImage) (physMemUpper : ℕ) (run : AllocatorRun) :
    Prop where
  heap : Stacked image.kernelEndVirtual run.paging.heapCur (run.heapBlocks.map HeapBlock.extent)
  floor : image.kernelEndVirtual ≤ run.paging.heapCur
  aligned : ∀ block ∈ run.heapBlocks, block.extent.start % block.alignment = 0
  budget : run.paging.heapCur ≤ run.budget
  fewStacks : run.apStacks ≤ 255
  tables : ∀ index, run.paging.allocatedPageTables index ≠ 0 →
    image.kernelEndVirtual ≤ run.paging.allocatedPageTables index ∧
      run.paging.allocatedPageTables index + 4096 ≤ run.paging.heapCur
  bitmap : run.paging.isInitialized = true →
    BitmapPlaced image.toKinfo physMemUpper run.paging.toPageframe
  tablesApart : run.paging.isInitialized = true → ∀ index,
    run.paging.allocatedPageTables index ≠ 0 →
      run.paging.allocatedPageTables index + 4096 ≤ run.paging.pageframeBitmap ∨
        run.paging.pageframeBitmap + pagesTotal physMemUpper / 8 ≤
          run.paging.allocatedPageTables index
  live : ∀ block ∈ run.live, 2048 ≤ block.start ∧ block.start + block.size ≤ 2 ^ 20
  pages : ∀ block ∈ run.pageBlocks, 0x800000 ≤ block.start

namespace AllocatorInvariant

variable {image : KernelImage} {physMemUpper : ℕ} {run next : AllocatorRun}

/-- The heap ends below 8 MiB. -/
theorem heapCur_le (invariant : AllocatorInvariant image physMemUpper run) :
    run.paging.heapCur ≤ 0x800000 :=
  Nat.le_trans invariant.budget (AllocatorRun.budget_le invariant.fewStacks)

/-- The next page boundary is within the budget: alignment costs nothing there. -/
theorem boundary_le (invariant : AllocatorInvariant image physMemUpper run) :
    alignUp 4096 run.paging.heapCur ≤ run.budget :=
  alignUp_le (by decide) invariant.budget (heapBudget_aligned _ _ _)

theorem boundary_lt (invariant : AllocatorInvariant image physMemUpper run) :
    alignUp 4096 run.paging.heapCur < 2 ^ 32 := by
  have onBudget := invariant.boundary_le
  have bound := AllocatorRun.budget_le invariant.fewStacks
  omega

/-- The blocks of the heap with one more on top. -/
theorem push (invariant : AllocatorInvariant image physMemUpper run) (block : HeapBlock)
    (above : run.paging.heapCur ≤ block.extent.start) :
    Stacked image.kernelEndVirtual (block.extent.start + block.extent.size)
      ((block :: run.heapBlocks).map HeapBlock.extent) :=
  invariant.heap.push invariant.floor above

/-! ## Heap requests -/

/-- The page tables after a new one: the new one, and those before. -/
theorem withTable_tables {paging : Paging} {physAddr index : ℕ}
    (nonnull : (paging.withTable physAddr).allocatedPageTables index ≠ 0) :
    (paging.withTable physAddr).allocatedPageTables index = alignUp 4096 paging.heapCur ∨
      paging.allocatedPageTables index ≠ 0 ∧
        (paging.withTable physAddr).allocatedPageTables index =
          paging.allocatedPageTables index := by
  rw [withTable_allocatedPageTables] at nonnull ⊢
  by_cases same : index = physAddr / 0x400000
  · rw [same, Function.update_self]
    exact .inl rfl
  · rw [Function.update_of_ne same] at nonnull ⊢
    exact .inr ⟨nonnull, rfl⟩

/-- A new page table goes on top of the heap, and the budget grows by a page. -/
theorem withTable (invariant : AllocatorInvariant image physMemUpper run) {physAddr : ℕ}
    (word : physAddr < 2 ^ 32)
    (missing : run.paging.allocatedPageTables (physAddr / 0x400000) = 0) :
    AllocatorInvariant image physMemUpper
      { run with
        paging := run.paging.withTable physAddr
        heapBlocks := ⟨⟨alignUp 4096 run.paging.heapCur, pageSize⟩, 4096⟩ :: run.heapBlocks } := by
  have image_below := image.image_below
  have floor := invariant.floor
  have bound := AllocatorRun.budget_le invariant.fewStacks
  have onBudget := invariant.boundary_le
  have above := le_alignUp_page run.paging.heapCur
  have size : pageSize = 4096 := rfl
  have top : offset (alignUp 4096 run.paging.heapCur) pageSize =
      alignUp 4096 run.paging.heapCur + pageSize := offset_eq (by omega)
  have count : tableCount (run.paging.withTable physAddr).allocatedPageTables =
      tableCount run.paging.allocatedPageTables + 1 := by
    rw [withTable_allocatedPageTables]
    exact tableCount_update _ (by omega) missing (by omega)
  refine ⟨?_, ?_, List.forall_mem_cons.mpr ⟨alignUp_mod _ _, invariant.aligned⟩, ?_,
    invariant.fewStacks, ?_, ?_, ?_, invariant.live, invariant.pages⟩
  · simp only [withTable_heapCur, top]
    exact invariant.push ⟨⟨alignUp 4096 run.paging.heapCur, pageSize⟩, 4096⟩ above
  · simp only [withTable_heapCur, top]
    omega
  · unfold AllocatorRun.budget at onBudget ⊢
    simp only [withTable_heapCur, withTable_isInitialized, top, count, heapBudget_table]
    omega
  · intro index nonnull
    simp only [withTable_heapCur, top]
    rcases withTable_tables nonnull with new | ⟨old, same⟩
    · simp only [new]
      omega
    · have bounds := invariant.tables index old
      simp only [same]
      omega
  · intro initialized
    simp only [withTable_isInitialized] at initialized
    have placed := invariant.bitmap initialized
    have inHeap := placed.below
    refine placed.of_memory ?_ ?_ rfl rfl ?_
    · simp only [withTable_heapCur, top]
      omega
    · simp only [withTable_heapCur, top]
      omega
    · intro address _ below
      simp only [withTable_memory]
      exact memset_below (by omega) (by omega)
  · intro initialized index nonnull
    simp only [withTable_isInitialized] at initialized
    have inHeap := (invariant.bitmap initialized).below
    rcases withTable_tables nonnull with new | ⟨old, same⟩
    · simp only [new, withTable_pageframeBitmap]
      omega
    · simp only [same, withTable_pageframeBitmap]
      exact invariant.tablesApart initialized index old

/-- Entries of a page table and of the page directory are apart from the bitmap. -/
theorem written (invariant : AllocatorInvariant image physMemUpper run) {index pageTable : ℕ}
    {after : Paging} (here : run.paging.allocatedPageTables index = pageTable)
    (nonnull : pageTable ≠ 0)
    (entries : EntriesWritten pageTable image.kernelPageDirectory run.paging after) :
    AllocatorInvariant image physMemUpper { run with paging := after } := by
  have directory := image.directory_inside
  have heapEnd := invariant.heapCur_le
  refine ⟨?_, ?_, invariant.aligned, ?_, invariant.fewStacks, ?_, ?_, ?_, invariant.live,
    invariant.pages⟩
  · simp only [entries.heapCur]
    exact invariant.heap
  · simp only [entries.heapCur]
    exact invariant.floor
  · simp only [AllocatorRun.budget, entries.heapCur, entries.isInitialized,
      entries.allocatedPageTables]
    exact invariant.budget
  · simp only [entries.heapCur, entries.allocatedPageTables]
    exact invariant.tables
  · intro initialized
    simp only [entries.isInitialized] at initialized
    have placed := invariant.bitmap initialized
    have above := placed.above
    have apart := invariant.tablesApart initialized index (by rw [here]; exact nonnull)
    rw [here] at apart
    apply placed.of_memory (Nat.le_of_eq entries.heapCur.symm) _ entries.pageframeBitmap
      entries.pagesTotalPhys
    · intro address fromBitmap toBitmap
      exact entries.memory address (by omega) (by omega)
    · rw [entries.heapCur]
      omega
  · simp only [entries.isInitialized, entries.pageframeBitmap, entries.allocatedPageTables]
    exact invariant.tablesApart

/-- A mapping call keeps the invariant, whatever entries it writes. -/
theorem mapped (invariant : AllocatorInvariant image physMemUpper run) {physAddr : ℕ}
    {after : Paging} (word : physAddr < 2 ^ 32)
    (writes : ∀ {pageTable between}, pageTable + 4096 ≤ 2 ^ 32 →
      getPageTable run.paging physAddr = some (pageTable, between) →
      EntriesWritten pageTable image.kernelPageDirectory between after) :
    AllocatorInvariant image physMemUpper (run.mapped physAddr after) := by
  have heapEnd := invariant.heapCur_le
  rcases getPageTable_cases run.paging physAddr invariant.boundary_lt with
    ⟨present, found⟩ | ⟨missing, taken⟩
  · have bounds := invariant.tables _ present
    have kept := invariant.written rfl present (writes (by omega) found)
    simp only [AllocatorRun.mapped, if_neg present]
    exact kept
  · have image_below := image.image_below
    have floor := invariant.floor
    have above := le_alignUp_page run.paging.heapCur
    have below := alignUp_page_lt run.paging.heapCur
    have here : (run.paging.withTable physAddr).allocatedPageTables (physAddr / 0x400000) =
        alignUp 4096 run.paging.heapCur := by
      rw [withTable_allocatedPageTables, Function.update_self]
    have entries := writes (by omega) taken
    have kept := (invariant.withTable word missing).written here (by omega) entries
    simp only [AllocatorRun.mapped, if_pos missing, entries.allocatedPageTables, here]
    exact kept

/-- A stack goes on top of the heap, and the budget grows by a page. -/
theorem withStack (invariant : AllocatorInvariant image physMemUpper run)
    (fewer : run.apStacks < 255) : AllocatorInvariant image physMemUpper run.withStack := by
  have heapEnd := invariant.heapCur_le
  have floor := invariant.floor
  have top : offset run.paging.heapCur 4096 = run.paging.heapCur + 4096 := offset_eq (by omega)
  have onBudget := invariant.budget
  refine ⟨?_, ?_, ?_, ?_, fewer, ?_, ?_, ?_, invariant.live, invariant.pages⟩
  · rw [withStack_heapCur, withStack_heapBlocks, top]
    exact invariant.push ⟨⟨run.paging.heapCur, 4096⟩, 1⟩ (Nat.le_refl _)
  · rw [withStack_heapCur, top]
    omega
  · rw [withStack_heapBlocks]
    exact List.forall_mem_cons.mpr ⟨Nat.mod_one _, invariant.aligned⟩
  · unfold AllocatorRun.budget at onBudget ⊢
    rw [withStack_heapCur, withStack_isInitialized, withStack_allocatedPageTables,
      withStack_apStacks, heapBudget_stack, top]
    omega
  · intro index present
    rw [withStack_allocatedPageTables] at present ⊢
    have bounds := invariant.tables index present
    rw [withStack_heapCur, top]
    omega
  · intro initialized
    rw [withStack_isInitialized] at initialized
    have placed := invariant.bitmap initialized
    have inHeap := placed.below
    refine placed.of_memory ?_ ?_ (withStack_pageframeBitmap run) (withStack_pagesTotalPhys run) ?_
    · rw [withStack_heapCur, top]
      omega
    · rw [withStack_heapCur, top]
      omega
    · intro address _ below
      rw [withStack_memory]
      exact memset_below (by omega) (by omega)
  · rw [withStack_isInitialized, withStack_pageframeBitmap, withStack_allocatedPageTables]
    exact invariant.tablesApart

/-- Setting up the bitmap, before the first block of pages is looked for. -/
theorem initialized (invariant : AllocatorInvariant image physMemUpper run)
    (before : run.paging.isInitialized = false) :
    AllocatorInvariant image physMemUpper
      { run with
        paging :=
          { run.paging with toPageframe := initialFrames physMemUpper run.paging.toKheap }
        heapBlocks :=
          ⟨⟨alignUp 4096 run.paging.heapCur, pagesTotal physMemUpper / 8⟩, 4096⟩ ::
            run.heapBlocks } := by
  have total := pagesTotal_lt physMemUpper
  have floor := invariant.floor
  have onBudget := invariant.boundary_le
  have bound := AllocatorRun.budget_le invariant.fewStacks
  have above := le_alignUp_page run.paging.heapCur
  have top : offset (alignUp 4096 run.paging.heapCur) (pagesTotal physMemUpper / 8) =
      alignUp 4096 run.paging.heapCur + pagesTotal physMemUpper / 8 := offset_eq (by omega)
  refine ⟨?_, ?_, List.forall_mem_cons.mpr ⟨alignUp_mod _ _, invariant.aligned⟩, ?_,
    invariant.fewStacks, ?_, ?_, ?_, invariant.live, invariant.pages⟩
  · simp only [initialFrames, top]
    exact invariant.push ⟨⟨alignUp 4096 run.paging.heapCur, pagesTotal physMemUpper / 8⟩, 4096⟩
      above
  · simp only [initialFrames, top]
    omega
  · unfold AllocatorRun.budget at onBudget ⊢
    rw [before] at onBudget
    simp only [initialFrames, top, heapBudget_bitmap]
    omega
  · intro index present
    have bounds := invariant.tables index present
    simp only [initialFrames, top]
    omega
  · intro _
    exact BitmapPlaced.initial floor (by omega)
  · intro _ index present
    have bounds := invariant.tables index present
    simp only [initialFrames]
    omega

/-! ## Blocks of pages -/

theorem alloc_initialized (invariant : AllocatorInvariant image physMemUpper run)
    (initialized : run.paging.isInitialized = true) {pages ret : ℕ} {after : Pageframe}
    (some' : 1 ≤ pages)
    (called : pageframeAlloc physMemUpper run.paging.toPageframe pages = some (ret, after)) :
    AllocatorInvariant image physMemUpper (run.allocated pages ret after) := by
  have total := pagesTotal_lt physMemUpper
  have same := pageframeAlloc_same initialized called
  obtain ⟨placed, result⟩ := (invariant.bitmap initialized).alloc initialized some' called
  refine ⟨?_, ?_, ?_, ?_, invariant.fewStacks, ?_, ?_, ?_, ?_, ?_⟩
  · simp only [AllocatorRun.allocated, if_pos initialized, same.heapCur]
    exact invariant.heap
  · simp only [AllocatorRun.allocated, same.heapCur]
    exact invariant.floor
  · simp only [AllocatorRun.allocated, if_pos initialized]
    exact invariant.aligned
  · simp only [AllocatorRun.allocated, AllocatorRun.budget, same.heapCur, same.isInitialized]
    exact invariant.budget
  · simp only [AllocatorRun.allocated, same.heapCur]
    exact invariant.tables
  · intro _
    exact placed
  · simp only [AllocatorRun.allocated, same.isInitialized, same.pageframeBitmap]
    exact invariant.tablesApart
  · rcases result with rfl | ⟨start, rfl, above, below⟩
    · exact invariant.live
    · have nonnull : start * 4096 ≠ 0 := by omega
      have page : pageFromAddr (start * 4096) = start := Nat.mul_div_cancel _ (by decide)
      simp only [AllocatorRun.allocated, if_neg nonnull, page]
      exact List.forall_mem_cons.mpr ⟨⟨above, by simp only; omega⟩, invariant.live⟩
  · rcases result with rfl | ⟨start, rfl, above, below⟩
    · exact invariant.pages
    · have nonnull : start * 4096 ≠ 0 := by omega
      simp only [AllocatorRun.allocated, if_neg nonnull]
      exact List.forall_mem_cons.mpr ⟨by simp only; omega, invariant.pages⟩

theorem alloc (invariant : AllocatorInvariant image physMemUpper run) {pages ret : ℕ}
    {after : Pageframe} (some' : 1 ≤ pages)
    (called : pageframeAlloc physMemUpper run.paging.toPageframe pages = some (ret, after)) :
    AllocatorInvariant image physMemUpper (run.allocated pages ret after) := by
  cases before : run.paging.isInitialized with
  | true => exact invariant.alloc_initialized before some' called
  | false =>
      have init := pageframeAllocInit_eq physMemUpper invariant.boundary_lt
      rw [pageframeAlloc_first before init rfl] at called
      have same := pageframeAlloc_same rfl called
      have kept := (invariant.initialized before).alloc_initialized rfl some' called
      simp only [AllocatorRun.allocated, before, same.pageframeBitmap, same.pagesTotalPhys]
      exact kept

theorem freed (invariant : AllocatorInvariant image physMemUpper run) {block : Extent}
    (live : block ∈ run.live) : AllocatorInvariant image physMemUpper (run.freed block) := by
  obtain ⟨above, below⟩ := invariant.live block live
  have others : ∀ other ∈ run.live.erase block,
      2048 ≤ other.start ∧ other.start + other.size ≤ 2 ^ 20 := by
    intro other member
    exact invariant.live other (List.mem_of_mem_erase member)
  cases initialized : run.paging.isInitialized with
  | false =>
      simp only [AllocatorRun.freed, pageframeFree_uninitialized initialized]
      exact { invariant with live := others }
  | true =>
      obtain ⟨same, placed⟩ := (invariant.bitmap initialized).free initialized above below
      refine ⟨?_, ?_, invariant.aligned, ?_, invariant.fewStacks, ?_, fun _ => placed, ?_, others,
        invariant.pages⟩
      · simp only [AllocatorRun.freed, same.heapCur]
        exact invariant.heap
      · simp only [AllocatorRun.freed, same.heapCur]
        exact invariant.floor
      · simp only [AllocatorRun.freed, AllocatorRun.budget, same.heapCur, same.isInitialized]
        exact invariant.budget
      · simp only [AllocatorRun.freed, same.heapCur]
        exact invariant.tables
      · simp only [AllocatorRun.freed, same.isInitialized, same.pageframeBitmap]
        exact invariant.tablesApart

/-- No request gets stuck: every call that the kernel may make returns. -/
theorem call_returns (invariant : AllocatorInvariant image physMemUpper run)
    (action : AllocatorAction) : ∃ next, run.call image physMemUpper action = some next := by
  have room := invariant.boundary_lt
  cases action with
  | mapPage virtualAddr physAddr =>
      obtain ⟨after, called⟩ :=
        pagingMapPage_returns _ virtualAddr physAddr image.kernelPageDirectory
      exact ⟨_, congrArg (Option.map _) called⟩
  | mapTable virtualAddr physAddr =>
      obtain ⟨after, called⟩ :=
        pagingMapTable_returns _ virtualAddr physAddr image.kernelPageDirectory
      exact ⟨_, congrArg (Option.map _) called⟩
  | prepareTrampolineParams => exact ⟨_, rfl⟩
  | alloc pages =>
      obtain ⟨ret, after, called⟩ := pageframeAlloc_total physMemUpper pages room
      exact ⟨_, congrArg (Option.map _) called⟩
  | free block => exact ⟨_, rfl⟩

/-- Every request keeps the invariant. -/
theorem step (invariant : AllocatorInvariant image physMemUpper run) {action : AllocatorAction}
    (stepped : run.step image physMemUpper action = some next) :
    AllocatorInvariant image physMemUpper next := by
  have directory : image.kernelPageDirectory + 4096 ≤ 2 ^ 32 :=
    Nat.le_trans image.directory_inside (Nat.le_of_lt image.word)
  by_cases possible : run.Possible action
  case neg =>
    rw [AllocatorRun.step, if_neg possible] at stepped
    cases stepped
  case pos =>
    rw [AllocatorRun.step, if_pos possible] at stepped
    cases action with
    | mapPage virtualAddr physAddr =>
        obtain ⟨after, called, rfl⟩ := Option.map_eq_some_iff.mp stepped
        apply invariant.mapped possible.2
        intro pageTable between fits table
        exact pagingMapPage_written possible.1 directory fits table called
    | mapTable virtualAddr physAddr =>
        obtain ⟨after, called, rfl⟩ := Option.map_eq_some_iff.mp stepped
        apply invariant.mapped possible.2
        intro pageTable between fits table
        exact pagingMapTable_written possible.1 directory fits table called
    | prepareTrampolineParams =>
        simp only [AllocatorRun.call, Option.some.injEq] at stepped
        subst stepped
        exact invariant.withStack possible
    | alloc pages =>
        obtain ⟨⟨ret, after⟩, called, rfl⟩ := Option.map_eq_some_iff.mp stepped
        exact invariant.alloc possible.1 called
    | free block =>
        simp only [AllocatorRun.call, Option.some.injEq] at stepped
        subst stepped
        exact invariant.freed possible

end AllocatorInvariant

theorem allocatorInvariant_initial {image : KernelImage} {physMemUpper : ℕ} {run : AllocatorRun}
    (low : image.kernelEndVirtual ≤ 0x200000)
    (initial : (allocatorSystem image physMemUpper).initial run) :
    AllocatorInvariant image physMemUpper run := by
  obtain ⟨kheap, rfl⟩ := initial
  refine ⟨.nil _ _, Nat.le_refl _, ?_, ?_, Nat.zero_le _, ?_, ?_, ?_, ?_, ?_⟩
  · intro block member
    cases member
  · unfold AllocatorRun.budget heapBudget
    simp only [kheapInit]
    omega
  · intro index present
    exact absurd rfl present
  · intro initialized
    cases initialized
  · intro initialized
    cases initialized
  · intro block member
    cases member
  · intro block member
    cases member

theorem allocatorInvariant_reachable {image : KernelImage} {physMemUpper : ℕ} {run : AllocatorRun}
    (low : image.kernelEndVirtual ≤ 0x200000)
    (reachable : (allocatorSystem image physMemUpper).Reachable run) :
    AllocatorInvariant image physMemUpper run :=
  reachable.invariant (AllocatorInvariant image physMemUpper)
    (fun _ initial => allocatorInvariant_initial low initial)
    (fun invariant _ stepped => invariant.step stepped)

/-- **The two allocators never overlap.** With a kernel image that ends at or below
2 MiB, in every state of every run the blocks of the heap are apart, at the alignment
they were asked for with, and end at or below 8 MiB; so they are apart from every
block that `pageframe_alloc` has returned. The number of pages does not matter. -/
theorem allocators_apart {image : KernelImage} {physMemUpper : ℕ}
    (low : image.kernelEndVirtual ≤ 0x200000) {run : AllocatorRun}
    (reachable : (allocatorSystem image physMemUpper).Reachable run) :
    (run.heapBlocks.map HeapBlock.extent).Pairwise Extent.Apart ∧
      (∀ block ∈ run.heapBlocks, block.extent.start % block.alignment = 0) ∧
      (∀ block ∈ run.heapBlocks, block.extent.start + block.extent.size ≤ 0x800000) ∧
      ∀ block ∈ run.heapBlocks, ∀ pages ∈ run.pageBlocks, block.extent.Apart pages := by
  have invariant := allocatorInvariant_reachable low reachable
  have ends : ∀ block ∈ run.heapBlocks, block.extent.start + block.extent.size ≤ 0x800000 := by
    intro block member
    have inside := (invariant.heap.inside _ (List.mem_map_of_mem member)).2
    exact Nat.le_trans inside invariant.heapCur_le
  refine ⟨invariant.heap.apart, invariant.aligned, ends, ?_⟩
  intro block member pages returned
  apply Extent.apart_of_le
  exact Nat.le_trans (ends block member) (invariant.pages pages returned)

/-- With a kernel image of 2 MiB, the stack of one processor, a request for nine pages
and a mapped table give the heap three blocks. -/
theorem allocators_apart_three_blocks :
    let image : KernelImage := ⟨⟨0x200000, by decide, by decide⟩, 0x100000, by decide⟩
    ∃ run, (allocatorSystem image 16384).Reachable run ∧ run.heapBlocks.length = 3 ∧
      (run.heapBlocks.map HeapBlock.extent).Pairwise Extent.Apart := by
  intro image
  have start : (allocatorSystem image 16384).Reachable _ := .start ⟨⟨fun _ => 0#8, 0⟩, rfl⟩
  have stack : (allocatorSystem image 16384).Reachable (AllocatorRun.withStack _) :=
    allocatorSystem_step start rfl (show AllocatorRun.Possible _ .prepareTrampolineParams by decide)
  have fits := allocatorInvariant_reachable (by decide) stack
  obtain ⟨_, called⟩ := fits.call_returns (.alloc 9)
  have pages := allocatorSystem_step stack called (by decide)
  rw [AllocatorRun.call] at called
  obtain ⟨⟨ret, frames⟩, -, rfl⟩ := Option.map_eq_some_iff.mp called
  have fits := allocatorInvariant_reachable (by decide) pages
  obtain ⟨_, called⟩ := fits.call_returns (.mapTable 0x400000 0x400000)
  have table := allocatorSystem_step pages called ⟨by decide, by decide⟩
  rw [AllocatorRun.call] at called
  obtain ⟨paging, -, rfl⟩ := Option.map_eq_some_iff.mp called
  exact ⟨_, table, rfl, (allocators_apart (by decide) table).1⟩

end CatchOS.Mmu
