import CatchOS.Common.MultibootInfo
import CatchOS.Lib.Transition
import CatchOS.Mmu.BitmapPlaced

/-!
# Memory of the boot loader

The loader leaves modules in memory, which the shell later runs or decodes, and a
memory map with ranges that are not available. Neither allocator looks at them: the
heap starts right at the end of the kernel image, where loaders put modules, and the
page-frame bitmap reserves the first 8 MiB whatever the memory map says. `kinfo_init`
has a comment that a module should count as a part of the kernel, over code that is
commented out.

So whether memory of the loader is handed out depends on where it is. It is not in
the runs whose heap stays below a limit and that free live blocks only, when no
range of the loader meets the heap up to that limit or the pages from 8 MiB on
(`boot_memory_kept`); with a module right behind the kernel the first request hands
it out (`boot_memory_handed_out`).
-/

set_option autoImplicit false

namespace CatchOS.Mmu

open CatchOS.Lib CatchOS.Common

/-- The allocators, every block that was returned (in bytes), and the blocks of pages
that are live (in pages). -/
structure BootRun where
  frames : Pageframe
  returned : List Extent
  live : List Extent

inductive BootAction where
  | kmalloc (size : ℕ)
  | kmallocAlign (size alignment : ℕ)
  | alloc (pages : ℕ)
  | free (physAddr pages : ℕ)

namespace BootRun

/-- After a request to the heap. -/
def heaped (run : BootRun) (size ret : ℕ) (kheap : Kheap) : BootRun :=
  { run with
    frames := { run.frames with toKheap := kheap }
    returned := ⟨ret, size⟩ :: run.returned }

/-- After `pageframe_alloc`. The first call also takes the bitmap from the heap. -/
def allocated (run : BootRun) (pages ret : ℕ) (frames : Pageframe) : BootRun :=
  let returned :=
    if run.frames.isInitialized then
      run.returned
    else
      ⟨frames.pageframeBitmap, frames.pagesTotalPhys / 8⟩ :: run.returned
  if ret = 0 then
    ⟨frames, returned, run.live⟩
  else
    ⟨frames, ⟨ret, 4096 * pages⟩ :: returned, ⟨pageFromAddr ret, pages⟩ :: run.live⟩

def freed (run : BootRun) (physAddr pages : ℕ) : BootRun :=
  { run with
    frames := pageframeFree run.frames physAddr pages
    live := run.live.erase ⟨pageFromAddr physAddr, pages⟩ }

/-- Any call, with arguments that are words. -/
def step (physMemUpper : ℕ) (run : BootRun) : BootAction → Option BootRun
  | .kmalloc size =>
      if size < 2 ^ 32 then
        let (ret, kheap) := kmalloc run.frames.toKheap size
        some (run.heaped size ret kheap)
      else
        none
  | .kmallocAlign size alignment =>
      if size < 2 ^ 32 ∧ alignment < 2 ^ 32 then
        (kmallocAlign run.frames.toKheap size alignment).map
          fun (ret, kheap) => run.heaped size ret kheap
      else
        none
  | .alloc pages =>
      if pages < 2 ^ 32 then
        (pageframeAlloc physMemUpper run.frames pages).map
          fun (ret, frames) => run.allocated pages ret frames
      else
        none
  | .free physAddr pages =>
      if physAddr < 2 ^ 32 ∧ pages < 2 ^ 32 then some (run.freed physAddr pages) else none

end BootRun

/-- Runs start after `kheap_init`, on the memory that the loader left. -/
def bootSystem (kinfo : Kinfo) (boot : BootInformation) : System BootRun BootAction where
  initial run := ∃ heapCur, run =
    ⟨⟨kheapInit ⟨boot.memory, heapCur⟩ kinfo, false, 0, 0⟩, [], []⟩
  step := BootRun.step boot.info.physMemUpper

theorem bootSystem_step {kinfo : Kinfo} {boot : BootInformation} {run next : BootRun}
    {guard : BootRun → BootAction → Prop} {action : BootAction}
    (reachable : (bootSystem kinfo boot).ReachableUnder guard run)
    (stepped : run.step boot.info.physMemUpper action = some next) (allowed : guard run action) :
    (bootSystem kinfo boot).ReachableUnder guard next :=
  .step reachable allowed stepped

/-! ## When memory of the loader is kept -/

/-- The heap from the end of the kernel image up to a limit. -/
def heapWindow (kinfo : Kinfo) (heapLimit : ℕ) : Extent :=
  ⟨kinfo.kernelEndVirtual, heapLimit - kinfo.kernelEndVirtual⟩

/-- The pages that the page-frame allocator hands out. -/
def pageWindow (physMemUpper : ℕ) : Extent :=
  ⟨0x800000, 4096 * pagesTotal physMemUpper - 0x800000⟩

/-- No module and no range that is not available meets the heap up to the limit or the
pages from 8 MiB on, and `_mbinfo` has room for the modules. -/
structure LayoutClear (kinfo : Kinfo) (boot : BootInformation) (heapLimit : ℕ) : Prop where
  /-- The parse stores a third module behind the end of `_mbinfo`, over other variables of the
  kernel: only up to two modules the kernel runs as it does here. -/
  room : boot.moduleRanges.length ≤ 2
  word : heapLimit < 2 ^ 32
  heap : ∀ range ∈ boot.protectedRanges, (heapWindow kinfo heapLimit).Apart range
  pages : ∀ range ∈ boot.protectedRanges, (pageWindow boot.info.physMemUpper).Apart range

/-- A request to the heap, also that for the bitmap, ends at or below the limit, and a
block that is freed is live. -/
def StaysWithin (physMemUpper heapLimit : ℕ) (run : BootRun) : BootAction → Prop
  | .kmalloc size => run.frames.heapCur + size ≤ heapLimit
  | .kmallocAlign size alignment => alignUp alignment run.frames.heapCur + size ≤ heapLimit
  | .alloc _ => run.frames.isInitialized = false →
      alignUp 4096 run.frames.heapCur + pagesTotal physMemUpper / 8 ≤ heapLimit
  | .free physAddr pages => ⟨pageFromAddr physAddr, pages⟩ ∈ run.live

instance (physMemUpper heapLimit : ℕ) (run : BootRun) :
    (action : BootAction) → Decidable (StaysWithin physMemUpper heapLimit run action)
  | .kmalloc size => inferInstanceAs (Decidable (run.frames.heapCur + size ≤ heapLimit))
  | .kmallocAlign size alignment =>
      inferInstanceAs (Decidable (alignUp alignment run.frames.heapCur + size ≤ heapLimit))
  | .alloc _ => inferInstanceAs (Decidable (run.frames.isInitialized = false →
      alignUp 4096 run.frames.heapCur + pagesTotal physMemUpper / 8 ≤ heapLimit))
  | .free physAddr pages =>
      inferInstanceAs (Decidable (⟨pageFromAddr physAddr, pages⟩ ∈ run.live))

/-- Blocks are in the heap up to the limit or in the pages from 8 MiB on. -/
structure BootInvariant (kinfo : Kinfo) (physMemUpper heapLimit : ℕ) (run : BootRun) : Prop where
  floor : kinfo.kernelEndVirtual ≤ run.frames.heapCur
  word : run.frames.heapCur < 2 ^ 32
  bitmap : run.frames.isInitialized = true → BitmapPlaced kinfo physMemUpper run.frames
  live : ∀ block ∈ run.live,
    block.size = 0 ∨ 2048 ≤ block.start ∧ block.start + block.size ≤ 2 ^ 20
  returned : ∀ block ∈ run.returned,
    block.Inside (heapWindow kinfo heapLimit) ∨ block.Inside (pageWindow physMemUpper)

namespace BootInvariant

variable {kinfo : Kinfo} {physMemUpper heapLimit : ℕ} {run next : BootRun}

/-- A block above the heap pointer and below the limit is in the heap. -/
theorem inside_heap (invariant : BootInvariant kinfo physMemUpper heapLimit run) {block : Extent}
    (above : run.frames.heapCur ≤ block.start) (below : block.start + block.size ≤ heapLimit) :
    block.Inside (heapWindow kinfo heapLimit) := by
  have floor := invariant.floor
  apply Extent.inside_of_le
  · exact Nat.le_trans floor above
  · unfold heapWindow
    simp only
    omega

/-- A request to the heap that is placed above the pointer and ends within the limit. -/
theorem heaped (invariant : BootInvariant kinfo physMemUpper heapLimit run) {size ret : ℕ}
    (limit : heapLimit < 2 ^ 32) (above : run.frames.heapCur ≤ ret)
    (fits : ret + size ≤ heapLimit) :
    BootInvariant kinfo physMemUpper heapLimit
      (run.heaped size ret ⟨memset run.frames.memory ret 0#8 size, offset ret size⟩) := by
  have floor := invariant.floor
  have top : offset ret size = ret + size := offset_eq (by omega)
  refine ⟨?_, offset_lt _ _, ?_, invariant.live,
    List.forall_mem_cons.mpr ⟨.inl (invariant.inside_heap above fits), invariant.returned⟩⟩
  · simp only [BootRun.heaped, top]
    omega
  · intro initialized
    have placed := invariant.bitmap initialized
    have inHeap := placed.below
    refine placed.of_memory ?_ (offset_lt _ _) rfl rfl ?_
    · simp only [BootRun.heaped, top]
      omega
    · intro address _ below
      simp only [BootRun.heaped]
      exact memset_below (by omega) (by omega)

/-- Setting up the bitmap, before the first block of pages is looked for. -/
theorem initialized (invariant : BootInvariant kinfo physMemUpper heapLimit run)
    (limit : heapLimit < 2 ^ 32)
    (fits : alignUp 4096 run.frames.heapCur + pagesTotal physMemUpper / 8 ≤ heapLimit) :
    BootInvariant kinfo physMemUpper heapLimit
      ⟨initialFrames physMemUpper run.frames.toKheap,
        ⟨alignUp 4096 run.frames.heapCur, pagesTotal physMemUpper / 8⟩ :: run.returned,
        run.live⟩ := by
  have floor := invariant.floor
  have above := le_alignUp_page run.frames.heapCur
  have placed : BitmapPlaced kinfo physMemUpper (initialFrames physMemUpper run.frames.toKheap) :=
    BitmapPlaced.initial floor (by omega)
  have inHeap := placed.below
  have aboveImage := placed.above
  refine ⟨?_, placed.word, fun _ => placed, invariant.live,
    List.forall_mem_cons.mpr ⟨.inl (invariant.inside_heap above fits), invariant.returned⟩⟩
  exact Nat.le_trans aboveImage (Nat.le_trans (Nat.le_add_right _ _) inHeap)

/-- A block of pages is in the pages from 8 MiB on, unless it is empty. -/
theorem alloc_initialized (invariant : BootInvariant kinfo physMemUpper heapLimit run)
    (initialized : run.frames.isInitialized = true) {pages ret : ℕ} {after : Pageframe}
    (called : pageframeAlloc physMemUpper run.frames pages = some (ret, after)) :
    BootInvariant kinfo physMemUpper heapLimit (run.allocated pages ret after) := by
  have total := pagesTotal_lt physMemUpper
  have same := pageframeAlloc_same initialized called
  have floor := invariant.floor
  have word := invariant.word
  rw [← same.heapCur] at floor word
  rcases Nat.eq_zero_or_pos pages with rfl | some'
  · obtain rfl := pageframeAlloc_zero initialized called
    simp only [BootRun.allocated, if_pos initialized]
    split
    · exact invariant
    · refine ⟨floor, word, invariant.bitmap, List.forall_mem_cons.mpr ⟨.inl rfl, invariant.live⟩,
        List.forall_mem_cons.mpr ⟨.inl ?_, invariant.returned⟩⟩
      · intro unit contained
        have below := contained.2
        have above := contained.1
        simp only at above below
        omega
  · obtain ⟨placed, result⟩ := (invariant.bitmap initialized).alloc initialized some' called
    simp only [BootRun.allocated, if_pos initialized]
    rcases result with rfl | ⟨start, rfl, above, below⟩
    · exact ⟨floor, word, fun _ => placed, invariant.live, invariant.returned⟩
    · have nonnull : start * 4096 ≠ 0 := by omega
      have page : pageFromAddr (start * 4096) = start := Nat.mul_div_cancel _ (by decide)
      rw [if_neg nonnull, page]
      have inTable : start + pages ≤ 2 ^ 20 := by omega
      refine ⟨floor, word, fun _ => placed,
        List.forall_mem_cons.mpr ⟨.inr ⟨above, inTable⟩, invariant.live⟩,
        List.forall_mem_cons.mpr ⟨.inr ?_, invariant.returned⟩⟩
      · apply Extent.inside_of_le
        · simp only [pageWindow]
          omega
        · simp only [pageWindow]
          omega

theorem alloc (invariant : BootInvariant kinfo physMemUpper heapLimit run)
    (limit : heapLimit < 2 ^ 32) {pages ret : ℕ} {after : Pageframe}
    (within : StaysWithin physMemUpper heapLimit run (.alloc pages))
    (called : pageframeAlloc physMemUpper run.frames pages = some (ret, after)) :
    BootInvariant kinfo physMemUpper heapLimit (run.allocated pages ret after) := by
  cases before : run.frames.isInitialized with
  | true => exact invariant.alloc_initialized before called
  | false =>
      have fits := within before
      have init := pageframeAllocInit_eq physMemUpper
        (show alignUp 4096 run.frames.heapCur < 2 ^ 32 by omega)
      rw [pageframeAlloc_first before init rfl] at called
      have same := pageframeAlloc_same rfl called
      have kept := (invariant.initialized limit fits).alloc_initialized rfl called
      simp only [BootRun.allocated, before, same.pageframeBitmap, same.pagesTotalPhys]
      exact kept

theorem freed (invariant : BootInvariant kinfo physMemUpper heapLimit run) {physAddr pages : ℕ}
    (live : ⟨pageFromAddr physAddr, pages⟩ ∈ run.live) :
    BootInvariant kinfo physMemUpper heapLimit (run.freed physAddr pages) := by
  have others : ∀ other ∈ run.live.erase ⟨pageFromAddr physAddr, pages⟩,
      other.size = 0 ∨ 2048 ≤ other.start ∧ other.start + other.size ≤ 2 ^ 20 := by
    intro other member
    exact invariant.live other (List.mem_of_mem_erase member)
  rcases invariant.live _ live with empty | ⟨above, below⟩
  · simp only at empty
    subst empty
    simp only [BootRun.freed, pageframeFree_zero]
    exact { invariant with live := others }
  · cases initialized : run.frames.isInitialized with
    | false =>
        simp only [BootRun.freed, pageframeFree_uninitialized initialized]
        exact { invariant with live := others }
    | true =>
        obtain ⟨same, placed⟩ := (invariant.bitmap initialized).free initialized above below
        rw [← pageframeFree_page] at same placed
        refine ⟨?_, ?_, fun _ => placed, others, invariant.returned⟩
        · simp only [BootRun.freed, same.heapCur]
          exact invariant.floor
        · simp only [BootRun.freed, same.heapCur]
          exact invariant.word

/-- Every call that stays within the limit keeps the invariant. -/
theorem step (invariant : BootInvariant kinfo physMemUpper heapLimit run)
    (limit : heapLimit < 2 ^ 32) {action : BootAction}
    (within : StaysWithin physMemUpper heapLimit run action)
    (stepped : run.step physMemUpper action = some next) :
    BootInvariant kinfo physMemUpper heapLimit next := by
  cases action with
  | kmalloc size =>
      simp only [BootRun.step] at stepped
      split at stepped
      case isFalse => cases stepped
      case isTrue =>
          simp only [kmalloc, Option.some.injEq] at stepped
          subst stepped
          exact invariant.heaped limit (Nat.le_refl _) within
  | kmallocAlign size alignment =>
      simp only [BootRun.step] at stepped
      split at stepped
      case isFalse => cases stepped
      case isTrue =>
          obtain ⟨⟨ret, kheap⟩, called, rfl⟩ := Option.map_eq_some_iff.mp stepped
          rcases Nat.eq_zero_or_pos alignment with rfl | positive
          · cases called
          · have fits : alignUp alignment run.frames.heapCur + size ≤ heapLimit := within
            rw [kmallocAlign_eq run.frames.toKheap size positive (by omega), Option.some.injEq,
              Prod.mk.injEq] at called
            obtain ⟨rfl, rfl⟩ := called
            exact invariant.heaped limit (le_alignUp positive _) fits
  | alloc pages =>
      simp only [BootRun.step] at stepped
      split at stepped
      case isFalse => cases stepped
      case isTrue =>
          obtain ⟨⟨ret, after⟩, called, rfl⟩ := Option.map_eq_some_iff.mp stepped
          exact invariant.alloc limit within called
  | free physAddr pages =>
      simp only [BootRun.step] at stepped
      split at stepped
      case isFalse => cases stepped
      case isTrue =>
          simp only [Option.some.injEq] at stepped
          subst stepped
          exact invariant.freed within

end BootInvariant

theorem bootInvariant_initial {kinfo : Kinfo} {boot : BootInformation} {heapLimit : ℕ}
    {run : BootRun} (initial : (bootSystem kinfo boot).initial run) :
    BootInvariant kinfo boot.info.physMemUpper heapLimit run := by
  obtain ⟨heapCur, rfl⟩ := initial
  refine ⟨Nat.le_refl _, kinfo.word, ?_, ?_, ?_⟩
  · intro initialized
    cases initialized
  · intro block member
    cases member
  · intro block member
    cases member

/-- **Memory of the boot loader is kept** in every run whose heap stays below a limit
and that frees live blocks only, when no range of the loader meets the heap up to the
limit or the pages from 8 MiB on. -/
theorem boot_memory_kept {kinfo : Kinfo} {boot : BootInformation} {heapLimit : ℕ}
    (clear : LayoutClear kinfo boot heapLimit) {run : BootRun}
    (reachable : (bootSystem kinfo boot).ReachableUnder
      (StaysWithin boot.info.physMemUpper heapLimit) run) :
    ∀ block ∈ run.returned, ∀ range ∈ boot.protectedRanges, block.Apart range := by
  have invariant := reachable.invariant
    (BootInvariant kinfo boot.info.physMemUpper heapLimit)
    (fun _ initial => bootInvariant_initial initial)
    (fun invariant within stepped => invariant.step clear.word within stepped)
  intro block member range protected'
  rcases invariant.returned block member with inHeap | inPages
  · exact inHeap.apart (clear.heap range protected')
  · exact inPages.apart (clear.pages range protected')

/-- Memory with an information structure at 7 MiB: one module of a page, 16 MiB above
the first, and a memory map with one range that is not available, above all memory. -/
def loaderMemory (modStart : ℕ) : Memory := fun address =>
  let words := [96, 0, 3, 16, modStart, modStart + 0x1000, 4, 16, 640, 16384,
    6, 40, 24, 0, 0x2000000, 0, 0x1000, 0, 2, 0, 0, 8]
  BitVec.ofNat 8 (words.getD ((address - 0x700000) / 4) 0 / 2 ^ (8 * ((address - 0x700000) % 4)))

def loaderInformation (modStart : ℕ)
    (ends : (multibootInfoInit (loaderMemory modStart) 8 0x700000).isSome = true) :
    BootInformation where
  memory := loaderMemory modStart
  mb2 := 0x700000
  turns := 8
  info := (multibootInfoInit (loaderMemory modStart) 8 0x700000).get ends
  parsed := (Option.some_get _).symm

/-- With the module at 6 MiB a kernel of 2 MiB can use its heap up to the module: two
requests return two blocks. -/
theorem boot_memory_kept_below_module :
    let kinfo : Kinfo := ⟨0x200000, by decide, by decide⟩
    let boot := loaderInformation 0x600000 (by decide)
    ∃ run, (bootSystem kinfo boot).ReachableUnder
        (StaysWithin boot.info.physMemUpper 0x600000) run ∧ run.returned.length = 2 ∧
      ∀ block ∈ run.returned, ∀ range ∈ boot.protectedRanges, block.Apart range := by
  intro kinfo boot
  have ranges : boot.protectedRanges = [⟨0x600000, 0x1000⟩, ⟨0x2000000, 0x1000⟩] := by decide
  have clear : LayoutClear kinfo boot 0x600000 := by
    refine ⟨by decide, by decide, ?_, ?_⟩
    · intro range member
      simp only [ranges, List.mem_cons, List.not_mem_nil, or_false] at member
      rcases member with rfl | rfl
      · exact Extent.apart_of_le (by decide)
      · exact Extent.apart_of_le (by decide)
    · intro range member
      simp only [ranges, List.mem_cons, List.not_mem_nil, or_false] at member
      rcases member with rfl | rfl
      · exact (Extent.apart_of_le (by decide)).symm
      · exact Extent.apart_of_le (by decide)
  have start : (bootSystem kinfo boot).ReachableUnder
      (StaysWithin boot.info.physMemUpper 0x600000) _ := .start ⟨0, rfl⟩
  have heap := bootSystem_step start (show BootRun.step _ _ (.kmalloc 64) = _ from rfl) (by decide)
  have stack := bootSystem_step heap (show BootRun.step _ _ (.kmalloc 4096) = _ from rfl)
    (by decide)
  exact ⟨_, stack, rfl, boot_memory_kept clear stack⟩

/-- **A module is handed out.** The module right behind the kernel image does not meet
the image, and is what the first request to the heap returns. -/
theorem boot_memory_handed_out :
    ¬∀ (kinfo : Kinfo) (boot : BootInformation),
      (∀ range ∈ boot.moduleRanges,
        (⟨0x1000, kinfo.kernelEndVirtual - 0x1000⟩ : Extent).Apart range) →
      ∀ run, (bootSystem kinfo boot).Reachable run →
        ∀ block ∈ run.returned, ∀ range ∈ boot.protectedRanges, block.Apart range := by
  intro kept
  let kinfo : Kinfo := ⟨0x200000, by decide, by decide⟩
  let boot := loaderInformation 0x200000 (by decide)
  have ranges : boot.moduleRanges = [⟨0x200000, 0x1000⟩] := by decide
  have outside : ∀ range ∈ boot.moduleRanges,
      (⟨0x1000, kinfo.kernelEndVirtual - 0x1000⟩ : Extent).Apart range := by
    intro range member
    rw [ranges, List.mem_singleton] at member
    rw [member]
    exact Extent.apart_of_le (by decide)
  have start : (bootSystem kinfo boot).Reachable _ := .start ⟨0, rfl⟩
  have heap := bootSystem_step start (show BootRun.step _ _ (.kmalloc 64) = _ from rfl) trivial
  have apart := kept kinfo boot outside _ heap ⟨0x200000, 64⟩ List.mem_cons_self
    ⟨0x200000, 0x1000⟩ (by decide)
  exact apart 0x200000 (by decide) (by decide)

end CatchOS.Mmu
