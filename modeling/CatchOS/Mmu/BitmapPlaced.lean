import CatchOS.Mmu.PageframeAlloc

/-!
# The bitmap in the kernel heap

The page-frame bitmap is a block of the kernel heap, so the first 8 MiB stay
reserved only as long as nothing else in the kernel writes to that block.
`BitmapPlaced` says where the bitmap is and that the bits of the first 2048 pages
are set in it.

It holds after `pageframe_alloc_init`, calls for blocks of pages keep it, and so
does everything that leaves the bytes of the bitmap alone. As long as it holds,
blocks of pages are above the first 8 MiB (`BitmapPlaced.alloc`), also when the
number of pages is not a multiple of eight and bits past the bitmap are read.
-/

set_option autoImplicit false

namespace CatchOS.Mmu

open CatchOS.Lib CatchOS.Utils

/-- The bitmap is above the kernel image and below the heap pointer, and the bits of
the first 8 MiB are set. -/
structure BitmapPlaced (kinfo : Kinfo) (physMemUpper : ℕ) (frames : Pageframe) : Prop where
  total : frames.pagesTotalPhys = pagesTotal physMemUpper
  above : kinfo.kernelEndVirtual ≤ frames.pageframeBitmap
  below : frames.pageframeBitmap + pagesTotal physMemUpper / 8 ≤ frames.heapCur
  word : frames.heapCur < 2 ^ 32
  reserved : ∀ page < 2048, page < pagesTotal physMemUpper / 8 * 8 → frames.bit page = true

namespace BitmapPlaced

variable {kinfo : Kinfo} {physMemUpper : ℕ} {frames after : Pageframe}

theorem nonnull (placed : BitmapPlaced kinfo physMemUpper frames) :
    frames.pageframeBitmap ≠ 0 := by
  have image := kinfo.image_below
  have above := placed.above
  omega

theorem total_le (placed : BitmapPlaced kinfo physMemUpper frames) :
    frames.pagesTotalPhys ≤ 2 ^ 20 := by
  rw [placed.total]
  exact Nat.le_of_lt (pagesTotal_lt physMemUpper)

/-- The bits depend on the bytes of the bitmap only. -/
theorem of_memory (placed : BitmapPlaced kinfo physMemUpper frames)
    (heap : frames.heapCur ≤ after.heapCur) (word : after.heapCur < 2 ^ 32)
    (bitmap : after.pageframeBitmap = frames.pageframeBitmap)
    (total : after.pagesTotalPhys = frames.pagesTotalPhys)
    (memory : ∀ address, frames.pageframeBitmap ≤ address →
      address < frames.pageframeBitmap + pagesTotal physMemUpper / 8 →
      after.memory address = frames.memory address) :
    BitmapPlaced kinfo physMemUpper after := by
  have inHeap := placed.below
  refine ⟨total.trans placed.total, ?_, ?_, word, ?_⟩
  · rw [bitmap]
    exact placed.above
  · rw [bitmap]
    omega
  · intro page low inside
    rw [← placed.reserved page low inside]
    unfold Pageframe.bit
    rw [bitmap]
    apply bitmapBit_congr
    rw [offset_eq (by omega)]
    exact memory _ (by omega) (by omega)

/-- An operation on a block of pages keeps the place of the bitmap; it has to keep the
bits that are reserved. -/
theorem of_same (placed : BitmapPlaced kinfo physMemUpper frames)
    (same : SameAllocator frames after)
    (reserved : ∀ page < 2048, frames.bit page = true → after.bit page = true) :
    BitmapPlaced kinfo physMemUpper after := by
  refine ⟨same.pagesTotalPhys.trans placed.total, ?_, ?_, ?_, ?_⟩
  · rw [same.pageframeBitmap]
    exact placed.above
  · rw [same.pageframeBitmap, same.heapCur]
    exact placed.below
  · rw [same.heapCur]
    exact placed.word
  · intro page low inside
    exact reserved page low (placed.reserved page low inside)

/-- After `pageframe_alloc_init`. -/
theorem initial {kheap : Kheap} (above : kinfo.kernelEndVirtual ≤ kheap.heapCur)
    (fits : alignUp 4096 kheap.heapCur + pagesTotal physMemUpper / 8 < 2 ^ 32) :
    BitmapPlaced kinfo physMemUpper (initialFrames physMemUpper kheap) := by
  have image := kinfo.image_below
  have boundary := le_alignUp_page kheap.heapCur
  have top : offset (alignUp 4096 kheap.heapCur) (pagesTotal physMemUpper / 8) =
      alignUp 4096 kheap.heapCur + pagesTotal physMemUpper / 8 := offset_eq fits
  refine ⟨rfl, Nat.le_trans above boundary, Nat.le_of_eq top.symm, offset_lt _ _, ?_⟩
  intro page low _
  exact bit_initialFrames_reserved (by omega) low

/-- A free run of pages is above the first 8 MiB. When it starts at a reserved page,
that page is past the bitmap; so the run has fewer than eight pages and is inside the
bitmap after all. -/
theorem start_ge (placed : BitmapPlaced kinfo physMemUpper frames) {start pages : ℕ}
    (free : FreeRun frames start pages) (some' : 1 ≤ pages)
    (inByte : pages ≤ 8 → start + pages ≤ frames.pagesTotalPhys / 8 * 8) : 2048 ≤ start := by
  by_contra low
  have below := free.below
  rw [placed.total] at below inByte
  have clear := free.clear start (Nat.le_refl _) (by omega)
  by_cases inside : start < pagesTotal physMemUpper / 8 * 8
  · have taken := placed.reserved start (Nat.lt_of_not_le low) inside
    exact Bool.false_ne_true (clear.symm.trans taken)
  · have ends := inByte (by omega)
    omega

/-- **Blocks of pages** are above the first 8 MiB and below the total. -/
theorem alloc (placed : BitmapPlaced kinfo physMemUpper frames)
    (initialized : frames.isInitialized = true) {pages ret : ℕ} (some' : 1 ≤ pages)
    (called : pageframeAlloc physMemUpper frames pages = some (ret, after)) :
    BitmapPlaced kinfo physMemUpper after ∧
      (ret = 0 ∨ ∃ start, ret = start * 4096 ∧ 2048 ≤ start ∧
        start + pages ≤ pagesTotal physMemUpper) := by
  have same := pageframeAlloc_same initialized called
  rcases pageframeAlloc_cases initialized placed.nonnull placed.total_le some' called with
    ⟨null, rfl⟩ | ⟨start, free, inByte, address, rfl⟩
  · exact ⟨placed, .inl null⟩
  · have below := free.below
    have bound := placed.total_le
    refine ⟨placed.of_same same ?_, .inr ⟨start, address, placed.start_ge free some' inByte, ?_⟩⟩
    · intro page low taken
      rw [bit_setPages placed.nonnull (by omega) (by omega), taken, Bool.or_true]
    · rw [placed.total] at below
      exact below

/-- Freeing a block above the first 8 MiB. -/
theorem free (placed : BitmapPlaced kinfo physMemUpper frames)
    (initialized : frames.isInitialized = true) {start pages : ℕ} (above : 2048 ≤ start)
    (below : start + pages ≤ 2 ^ 20) :
    SameAllocator frames (pageframeFree frames (start * 4096) pages) ∧
      BitmapPlaced kinfo physMemUpper (pageframeFree frames (start * 4096) pages) := by
  obtain ⟨same, bits⟩ := pageframeFree_spec initialized placed.nonnull below
  refine ⟨same, placed.of_same same ?_⟩
  intro page low taken
  have outside : ¬(start ≤ page ∧ page < start + pages) := by omega
  rw [bits page (by omega), decide_eq_false outside, taken]
  rfl

end BitmapPlaced

end CatchOS.Mmu
