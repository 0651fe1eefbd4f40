import CatchOS.Mmu.GeneralMapping
import CatchOS.Mmu.IdentityMapping
import CatchOS.Mmu.LiballocHeap
import CatchOS.Mmu.PageframeRestore

/-!
# The heap on the page-frame allocator

The hooks of `liballoc_hooks.c` under the heap: `liballoc_alloc` takes page frames and maps them
to themselves, and `liballoc_free` gives the frames back. They work on the memory of the kernel,
where the bitmap and the page tables are.

With them the kernel's allocators are a `PageSource` (`pagingSource`): `PagesHeld` says that the
bits of the bitmap are those from before the first request, and those of the pages that the heap
holds, which were free before and are mapped to themselves. It is kept by both hooks.
-/

set_option autoImplicit false

namespace CatchOS.Mmu

open CatchOS CatchOS.Lib CatchOS.Utils

/-! ## The hooks -/

section Hooks

variable (image : KernelImage) (physMemUpper : ℕ)

/-- `pageframe_alloc_liballoc`, under the name of the hook. -/
def liballocAlloc (paging : Paging) (pages : ℕ) : Option (ℕ × Paging) :=
  pageframeAllocLiballoc physMemUpper paging image.kernelPageDirectory pages

def pageframeFreeLiballoc (paging : Paging) (virtAddr pages : ℕ) : Paging :=
  { paging with toPageframe := pageframeFree paging.toPageframe virtAddr pages }

def liballocFree (paging : Paging) (p pages : ℕ) : Paging := pageframeFreeLiballoc paging p pages

def pagingHooks : Hooks Paging := ⟨liballocAlloc image physMemUpper, liballocFree⟩

/-! ## Who holds the pages -/

/-- The page frames are those of a ledger in which the heap holds some of the live blocks, and
the pages of these blocks are mapped to themselves. The other pages are as they were before the
first request. -/
structure PagesHeld (first paging : Paging) (held : List Extent) (ledger : Ledger)
    (mapped : List ℕ) : Prop where
  frames : FrameInvariant physMemUpper ⟨paging.toPageframe, ledger⟩
  mapping : Mapping image paging mapped
  bitmap : BitmapApart image physMemUpper paging
  live : ∃ others, ledger.live.Perm (held ++ others)
  pages : ∀ block ∈ held, ∀ page, block.Contains page → page * 4096 ∈ mapped
  bits : ∀ page < pagesTotal physMemUpper, paging.bit page = true ↔
    first.bit page = true ∨ ∃ block ∈ held, block.Contains page
  vacant : ∀ block ∈ held, ∀ page, block.Contains page → first.bit page = false

end Hooks

/-! ## What the calls change -/

/-- A byte is the same when it is none of a page whose bit changed. -/
theorem Edited.frame {before after : Pageframe} {bits : ℕ → Bool}
    (edited : Edited before bits after)
    {address : ℕ} (kept : ∀ page < 2 ^ 32, address = offset before.pageframeBitmap (page / 8) →
      bits page = before.bit page) :
    after.memory address = before.memory address := by
  by_cases outside : OutsideBitmap before address
  · exact edited.others address outside
  · unfold OutsideBitmap at outside
    push Not at outside
    obtain ⟨page, bound, rfl⟩ := outside
    apply BitVec.eq_of_getLsbD_eq
    intro i small
    have byte : (page / 8 * 8 + i) / 8 = page / 8 := by omega
    have place : (page / 8 * 8 + i) % 8 = i := by omega
    have same := (edited.bit (page / 8 * 8 + i) (by omega)).trans
      (kept (page / 8 * 8 + i) (by omega) (by rw [byte]))
    rwa [Pageframe.bit, Pageframe.bit, bitmapBit, bitmapBit, byte, place,
      edited.same.pageframeBitmap] at same

section Calls

variable {image : KernelImage} {physMemUpper : ℕ} {first paging : Paging} {held : List Extent}
  {ledger : Ledger} {mapped : List ℕ} {block : Extent}

/-- Mapping pages changes no bit. -/
theorem FrameInvariant.of_added {after : Paging}
    (frames : FrameInvariant physMemUpper ⟨paging.toPageframe, ledger⟩)
    (added : EntriesAdded OwnIdentity image paging after)
    (apart : BitmapApart image physMemUpper paging) (placed : TablesPlaced image paging)
    (room : image.HeapRoom) (multiple : pagesTotal physMemUpper % 8 = 0) :
    FrameInvariant physMemUpper ⟨after.toPageframe, ledger⟩ where
  initialized := added.isInitialized.trans frames.initialized
  allocated := fun null => frames.allocated (added.pageframeBitmap.symm.trans null)
  total := added.pagesTotalPhys.trans frames.total
  bits := by
    intro page bound
    have same :=
      added.bit_eq apart placed room (show page < pagesTotal physMemUpper / 8 * 8 by omega)
    exact same ▸ frames.bits page bound
  kernel := frames.kernel
  apart := frames.apart
  inside := frames.inside

/-- **`pageframe_free`** of a live block leaves the page tables alone. -/
theorem Mapping.free (mapping : Mapping image paging mapped) (room : image.HeapRoom)
    (bitmap : BitmapApart image physMemUpper paging) (initialized : paging.isInitialized = true)
    (allocated : paging.pageframeBitmap ≠ 0) (multiple : pagesTotal physMemUpper % 8 = 0)
    (inside : block.start + block.size ≤ pagesTotal physMemUpper) :
    Mapping image (pageframeFreeLiballoc paging (block.start * 4096) block.size) mapped ∧
      BitmapApart image physMemUpper
        (pageframeFreeLiballoc paging (block.start * 4096) block.size) := by
  have total := pagesTotal_lt physMemUpper
  have edited := edited_free initialized allocated
    (show block.start + block.size ≤ 2 ^ 20 by omega)
  have same := edited.same
  have placed := mapping.identity.placed
  have top := placed.heapCur_lt room
  have below := bitmap.below
  have frame (address : ℕ) (outside : address < paging.pageframeBitmap ∨
      paging.pageframeBitmap + pagesTotal physMemUpper / 8 ≤ address) :
      (pageframeFree paging.toPageframe (block.start * 4096) block.size).memory address =
        paging.memory address := by
    refine edited.frame fun page bound here => ?_
    have notFreed : ¬block.Contains page := by
      intro contained
      have above := contained.1
      have stop := contained.2
      rw [offset_eq (by omega)] at here
      omega
    rw [decide_eq_false notFreed]
    rfl
  obtain ⟨own, kept⟩ := @OwnTables.of_memory OwnIdentity image paging mapping.own room
    (pageframeFreeLiballoc paging (block.start * 4096) block.size)
    (placed.of_tables same.heapCur same.isInitialized rfl) rfl
    (fun address above inDirectory => frame address (by
      have directory := image.directory_inside
      have bitmapAbove := bitmap.above
      omega))
    (fun region present address above inTable => frame address (by
      have apart := bitmap.tables region present
      omega))
  refine ⟨@Mapping.extend image paging mapped mapping _ own kept [] (List.forall_mem_nil _),
    ⟨same.pagesTotalPhys.trans bitmap.total, ?_, ?_, ?_, ?_⟩⟩
  all_goals
    simp only [pageframeFreeLiballoc, same.pageframeBitmap, same.heapCur]
  · exact bitmap.above
  · exact bitmap.aligned
  · exact bitmap.below
  · exact bitmap.tables

namespace PagesHeld

/-- **`liballoc_alloc`** returns `NULL`, or a block that no one holds and that is mapped to itself
from then on. -/
theorem alloc (holds : PagesHeld image physMemUpper first paging held ledger mapped)
    (room : image.HeapRoom) (multiple : pagesTotal physMemUpper % 8 = 0) {pages : ℕ}
    (some' : 1 ≤ pages) (word : pages < 2 ^ 32) :
    ∃ ret after, liballocAlloc image physMemUpper paging pages = some (ret, after) ∧
      ((ret = 0 ∧ PagesHeld image physMemUpper first after held ledger mapped) ∨
        ∃ start, ret = start * 4096 ∧ 2048 ≤ start ∧ start + pages < 2 ^ 20 ∧
          (∀ other ∈ held, Extent.Apart ⟨start, pages⟩ other) ∧
          PagesHeld image physMemUpper first after (⟨start, pages⟩ :: held)
            (ledger.grant ⟨start, pages⟩) (pagesFrom ret pages ++ mapped)) := by
  have total := pagesTotal_lt physMemUpper
  have size : paging.pagesTotalPhys = pagesTotal physMemUpper := holds.frames.total
  obtain ⟨next, stepped⟩ := holds.frames.exists_alloc some' word
  have framesAfter := holds.frames.alloc stepped
  obtain ⟨ret, frames, called⟩ := pageframeAlloc_returns physMemUpper pages holds.frames.initialized
  simp only [FrameRun.step, called, if_pos (And.intro some' word), Option.some.injEq] at stepped
  rcases pageframeAlloc_cases holds.frames.initialized holds.frames.allocated holds.frames.total_le
    some' called with ⟨rfl, rfl⟩ | ⟨start, free, -, rfl, rfl⟩
  · refine ⟨0, paging, ?_, .inl ⟨rfl, holds⟩⟩
    simp only [liballocAlloc, pageframeAllocLiballoc, called, if_true]
  · have above := holds.frames.start_ge free some'
    have below := free.below
    simp only [size] at below
    have nonnull : ¬start * 4096 = 0 := by omega
    have page : pageFromAddr (start * 4096) = start := Nat.mul_div_cancel _ (by decide)
    rw [ledgerAfterAlloc, if_neg nonnull, page] at stepped
    subst stepped
    obtain ⟨⟨own, kept⟩, bitmap⟩ := holds.mapping.own.setPages room holds.bitmap
      (bytesInBitmap_of_le (show start + pages ≤ pagesTotal physMemUpper / 8 * 8 by omega))
    have place {i : ℕ} (bound : i < pages) :
        offset (start * 4096) (i * pageSize) = start * 4096 + i * 0x1000 :=
      offset_eq (show start * 4096 + i * 0x1000 < 2 ^ 32 by omega)
    obtain ⟨after, looped, ownAfter, added, hasGood⟩ := own.mapPages room fun i bound =>
      (identityWord_page (offset_lt _ _) (by rw [place bound]; omega)).symm
    refine ⟨start * 4096, after, ?_, .inr ⟨start, rfl, above, by omega, ?_, ?_⟩⟩
    · simp only [liballocAlloc, pageframeAllocLiballoc, called, nonnull, if_false]
      rw [looped, Option.map_some]
    · obtain ⟨others, live⟩ := holds.live
      intro other member
      refine (List.pairwise_cons.mp framesAfter.apart).1 other (live.mem_iff.mpr ?_)
      exact List.mem_append_left _ member
    · have framesLast := framesAfter.of_added added bitmap own.placed room multiple
      refine ⟨framesLast, ?_, bitmap.of_added added.toTablesAdded, ?_, ?_, ?_, ?_⟩
      · refine holds.mapping.extend ownAfter (kept.trans added.toEntriesKept)
          (forall_mem_pagesFrom.mpr fun i bound => ⟨by omega, by omega, ?_⟩)
        rw [← place bound]
        exact hasGood i bound
      · obtain ⟨others, live⟩ := holds.live
        exact ⟨others, live.cons _⟩
      · intro other member number contained
        rcases List.mem_cons.mp member with rfl | old
        · refine List.mem_append_left _ (List.mem_map.mpr ⟨number - start, ?_, ?_⟩)
          · have stop := contained.2
            simp only at stop
            exact List.mem_range.mpr (by omega)
          · have start' := contained.1
            simp only at start'
            omega
        · exact List.mem_append_right _ (holds.pages other old number contained)
      · intro number bound
        rw [framesLast.bits number bound, Ledger.used_grant, ← holds.frames.bits number bound,
          holds.bits number bound, List.exists_mem_cons_iff]
        exact or_left_comm
      · intro other member number contained
        rcases List.mem_cons.mp member with rfl | old
        · have clear := free.clear number contained.1 contained.2
          by_contra taken
          have bound : number < pagesTotal physMemUpper := Nat.lt_of_lt_of_le contained.2 below
          have set := (holds.bits number bound).mpr (.inl (Bool.eq_true_of_not_eq_false taken))
          exact Bool.false_ne_true (clear.symm.trans set)
        · exact holds.vacant other old number contained

/-- **`liballoc_free`** of a block that is held. -/
theorem free (holds : PagesHeld image physMemUpper first paging (block :: held) ledger mapped)
    (room : image.HeapRoom) (multiple : pagesTotal physMemUpper % 8 = 0) :
    PagesHeld image physMemUpper first (liballocFree paging (block.start * 4096) block.size) held
      (ledger.release block) mapped := by
  obtain ⟨others, live⟩ := holds.live
  have member : block ∈ ledger.live := live.mem_iff.mpr List.mem_cons_self
  have stepped : FrameRun.step physMemUpper ⟨paging.toPageframe, ledger⟩ (.free block) = some _ :=
    if_pos member
  have frames := holds.frames.free stepped
  obtain ⟨mapping, bitmap⟩ := holds.mapping.free room holds.bitmap holds.frames.initialized
    holds.frames.allocated multiple (holds.frames.inside block member).2
  have apart := List.pairwise_cons.mp
    ((List.perm_cons_erase member).pairwise holds.frames.apart Extent.Apart.symm)
  have erased := live.erase block
  rw [List.cons_append, List.erase_cons_head] at erased
  refine ⟨frames, mapping, bitmap, ⟨others, erased⟩, ?_, ?_, ?_⟩
  · intro other isHeld
    exact holds.pages other (List.mem_cons_of_mem _ isHeld)
  · intro page bound
    rw [liballocFree, pageframeFreeLiballoc, frames.bits page bound,
      Ledger.used_release holds.frames.apart member, ← holds.frames.bits page bound,
      holds.bits page bound, List.exists_mem_cons_iff]
    constructor
    · rintro ⟨outside, before | here | there⟩
      · exact .inl before
      · exact absurd here outside
      · exact .inr there
    · rintro (before | ⟨other, isHeld, contained⟩)
      · refine ⟨fun inside => ?_, .inl before⟩
        have clear := holds.vacant block List.mem_cons_self page inside
        exact Bool.false_ne_true (clear.symm.trans before)
      · refine ⟨fun inside => ?_, .inr (.inr ⟨other, isHeld, contained⟩)⟩
        have isLive := erased.mem_iff.mpr (List.mem_append_left others isHeld)
        exact apart.1 other isLive page inside contained
  · intro other isHeld
    exact holds.vacant other (List.mem_cons_of_mem _ isHeld)

end PagesHeld

end Calls

/-! ## The kernel as a source of pages -/

section Source

variable {image : KernelImage} {physMemUpper : ℕ} {first paging : Paging}
  {held held' : List Extent} {block : Extent}

/-- The heap holds these pages. -/
def HoldsPages (image : KernelImage) (physMemUpper : ℕ) (first paging : Paging)
    (held : List Extent) : Prop :=
  ∃ ledger mapped, PagesHeld image physMemUpper first paging held ledger mapped

theorem HoldsPages.perm (holds : HoldsPages image physMemUpper first paging held)
    (perm : held.Perm held') : HoldsPages image physMemUpper first paging held' := by
  obtain ⟨ledger, mapped, holds⟩ := holds
  obtain ⟨others, live⟩ := holds.live
  refine ⟨ledger, mapped, { holds with
    live := ⟨others, live.trans (perm.append_right others)⟩
    pages := fun block member => holds.pages block (perm.mem_iff.mpr member)
    bits := fun page bound => ?_
    vacant := fun block member => holds.vacant block (perm.mem_iff.mpr member) }⟩
  rw [holds.bits page bound]
  simp only [perm.mem_iff]

theorem HoldsPages.alloc (room : image.HeapRoom) (multiple : pagesTotal physMemUpper % 8 = 0)
    {pages : ℕ} (holds : HoldsPages image physMemUpper first paging held) (some' : 1 ≤ pages)
    (word : pages < 2 ^ 32) :
    ∃ ret after, liballocAlloc image physMemUpper paging pages = some (ret, after) ∧
      ((ret = 0 ∧ HoldsPages image physMemUpper first after held) ∨
        ∃ start, ret = start * 4096 ∧ 2048 ≤ start ∧ start + pages < 2 ^ 20 ∧
          (∀ other ∈ held, Extent.Apart ⟨start, pages⟩ other) ∧
            HoldsPages image physMemUpper first after (⟨start, pages⟩ :: held)) := by
  obtain ⟨ledger, mapped, holds⟩ := holds
  obtain ⟨ret, after, called, outcome⟩ := holds.alloc room multiple some' word
  refine ⟨ret, after, called, ?_⟩
  rcases outcome with ⟨null, kept⟩ | ⟨start, address, above, below, apart, holds'⟩
  · exact .inl ⟨null, ledger, mapped, kept⟩
  · exact .inr ⟨start, address, above, below, apart, _, _, holds'⟩

theorem HoldsPages.free (room : image.HeapRoom) (multiple : pagesTotal physMemUpper % 8 = 0)
    (holds : HoldsPages image physMemUpper first paging (block :: held)) :
    HoldsPages image physMemUpper first (liballocFree paging (block.start * 4096) block.size)
      held := by
  obtain ⟨ledger, mapped, holds⟩ := holds
  exact ⟨_, _, holds.free room multiple⟩

end Source

/-- The allocators of the kernel, on a machine whose bitmap has a bit for every page, from the
given state on. -/
def pagingSource (image : KernelImage) (physMemUpper : ℕ) (room : image.HeapRoom)
    (multiple : pagesTotal physMemUpper % 8 = 0) (first : Paging) : PageSource Paging where
  toHooks := pagingHooks image physMemUpper
  Owns := HoldsPages image physMemUpper first
  perm := HoldsPages.perm
  alloc := HoldsPages.alloc room multiple
  free := HoldsPages.free room multiple

/-! ## A small machine -/

theorem smallTotal : pagesTotal 16384 % 8 = 0 := by decide

/-- A machine with 16 MiB above the first, after `pageframe_alloc_init`. -/
def startedPaging : Paging :=
  { emptyPaging with toPageframe := initialFrames 16384 emptyPaging.toKheap }

/-- The ledger at the start: the pages of the kernel are reserved. -/
def startedLedger : Ledger := ⟨Finset.range 2048, []⟩

theorem startedPaging_frames :
    FrameInvariant 16384 ⟨startedPaging.toPageframe, startedLedger⟩ := by
  have init := @pageframeAllocInit_eq emptyPaging.toPageframe 16384
    (show alignUp 4096 emptyPaging.heapCur < 2 ^ 32 by decide)
  exact frameInvariant_initial smallTotal ⟨emptyPaging.toPageframe, by decide, by decide, init, rfl⟩

theorem startedPaging_holds : HoldsPages smallImage 16384 startedPaging startedPaging [] := by
  have mapping := (@identityInvariant_initial smallImage 16384 ⟨emptyPaging, []⟩
    ⟨⟨fun _ => 0#8, 0⟩, rfl, fun _ => rfl⟩).mapping
  obtain ⟨started, bitmap⟩ := @Mapping.initialFrames smallImage 16384 _ _ mapping smallImage_room
    rfl
  refine ⟨startedLedger, [], startedPaging_frames, started, bitmap, ⟨[], List.Perm.refl _⟩,
    List.forall_mem_nil _, fun page _ => ?_, List.forall_mem_nil _⟩
  simp only [List.not_mem_nil, false_and, exists_false, or_false]

/-- The heap of the small machine. -/
def smallSource : PageSource Paging :=
  pagingSource smallImage 16384 smallImage_room smallTotal startedPaging

/-- The hook fails as the page-frame allocator does. -/
theorem liballocAlloc_null {image : KernelImage} {physMemUpper : ℕ} {room : image.HeapRoom}
    {multiple : pagesTotal physMemUpper % 8 = 0} {first paging after : Paging} {pages : ℕ}
    (initialized : paging.isInitialized = true)
    (called : (pagingSource image physMemUpper room multiple first).liballocAlloc paging pages =
      some (0, after)) : ReturnsNull physMemUpper paging.toPageframe pages := by
  obtain ⟨ret, frames, found⟩ := pageframeAlloc_returns physMemUpper pages initialized
  refine ⟨frames, ?_⟩
  simp only [pagingSource, pagingHooks, liballocAlloc, pageframeAllocLiballoc, found] at called
  by_cases isNull : ret = 0
  · rw [found, isNull]
  · rw [if_neg isNull] at called
    obtain ⟨paging, -, same⟩ := Option.map_eq_some_iff.mp called
    exact absurd (congrArg Prod.fst same) isNull

/-- Sixteen pages are free at the start. -/
theorem smallSource_alloc {ret : ℕ} {after : Paging}
    (called : smallSource.liballocAlloc startedPaging 16 = some (ret, after)) : ret ≠ 0 := by
  rintro rfl
  have vacant : startedLedger.Vacant ⟨2048, 16⟩ := by
    rintro page ⟨above, -⟩ (reserved | ⟨block, member, -⟩)
    · have low := Finset.mem_range.mp reserved
      simp only at above
      omega
    · exact List.not_mem_nil member
  have free := startedPaging_frames.freeRun_iff.mpr ⟨by decide, vacant⟩
  have null := liballocAlloc_null startedPaging_frames.initialized called
  exact (startedPaging_frames.null_iff smallTotal (by decide)).mp null
    ⟨2048, free, fun few => absurd few (by decide)⟩

end CatchOS.Mmu
