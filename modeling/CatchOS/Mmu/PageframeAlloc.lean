import CatchOS.Mmu.Kheap
import CatchOS.Utils.Bitmap

/-!
# The page-frame allocator

`pageframe_alloc.c`: the physical pages of the machine, one bit each in a bitmap
that lies in the kernel heap; a set bit is a page that is allocated. Requests of
up to eight pages look for a fitting run inside one byte (`bestfit`), larger
requests for the first run in the whole bitmap (`firstfit`).

The searches are given first as functions of the memory, then the operations.
`pageframeAlloc_cases` is all that callers need of them: a call either finds no
block and changes nothing, or returns the address of a run of clear bits below
the total and sets exactly these bits.
-/

set_option autoImplicit false

namespace CatchOS.Mmu

open CatchOS.Lib CatchOS.Utils

/-- `_is_initialized`, `_pageframe_bitmap` and `_pages_total_phys`, and the heap
that the bitmap is taken from. -/
structure Pageframe extends Kheap where
  isInitialized : Bool
  pageframeBitmap : ℕ
  pagesTotalPhys : ℕ

namespace Pageframe

def setPage (frames : Pageframe) (pageNo : ℕ) : Pageframe :=
  { frames with memory := bitmapSetBit frames.memory frames.pageframeBitmap pageNo }

def getPage (frames : Pageframe) (pageNo : ℕ) : ℤ :=
  bitmapGetBit frames.memory frames.pageframeBitmap pageNo

def setPages (frames : Pageframe) (pageStart pages : ℕ) : Pageframe :=
  { frames with memory := bitmapSetBits frames.memory frames.pageframeBitmap pageStart pages }

def clearPage (frames : Pageframe) (pageNo : ℕ) : Pageframe :=
  { frames with memory := bitmapClearBit frames.memory frames.pageframeBitmap pageNo }

/-- The byte `_pageframe_bitmap[i]`. -/
def byte (frames : Pageframe) (i : ℕ) : Byte :=
  frames.memory (offset frames.pageframeBitmap i)

end Pageframe

def pageframeAddrFromPage (pageNo : ℕ) : ℕ := pageNo * 4096 % 2 ^ 32

def pageFromAddr (address : ℕ) : ℕ := address / 4096

/-! ## Best fit in one byte -/

/-- The variables of the inner loop of `pageframe_alloc_bestfit`. -/
structure BestfitScan where
  bestFitLen : ℤ
  bestFitPos : ℤ
  curLen : ℤ
  lastOne : ℤ

namespace BestfitScan

def start : BestfitScan := ⟨9, -1, 0, -1⟩

/-- The run of zeros that ends here becomes the best fit when it is long enough
and shorter than the best fit so far. -/
def offer (scan : BestfitScan) (pages : ℕ) : BestfitScan :=
  if scan.bestFitLen > scan.curLen ∧ scan.curLen ≥ int32 pages then
    { scan with bestFitLen := scan.curLen, bestFitPos := scan.lastOne + 1 }
  else
    scan

/-- One turn of the inner loop, at bit `j`. -/
def visit (bits : Byte) (pages : ℕ) (scan : BestfitScan) (j : ℕ) : BestfitScan :=
  if bits &&& (1#8 <<< j) = 0#8 then
    let scan := { scan with curLen := scan.curLen + 1 }
    if j = 7 then scan.offer pages else scan
  else
    { scan.offer pages with curLen := 0, lastOne := j }

end BestfitScan

/-- `best_fit_pos` after the inner loop. -/
def bestFitPos (bits : Byte) (pages : ℕ) : ℤ :=
  ((List.range 8).foldl (BestfitScan.visit bits pages) BestfitScan.start).bestFitPos

/-- The page that the outer loop of `pageframe_alloc_bestfit` stops at. -/
def bestfitPage (frames : Pageframe) (pages : ℕ) : Option ℕ :=
  (List.range (frames.pagesTotalPhys / 8)).findSome? fun i =>
    if frames.byte i = 0xff#8 then
      none
    else if 0 ≤ bestFitPos (frames.byte i) pages then
      some (i * 8 + (bestFitPos (frames.byte i) pages).toNat)
    else
      none

def pageframeAllocBestfit (frames : Pageframe) (pages : ℕ) : ℕ × Pageframe :=
  match bestfitPage frames pages with
  | none => (0, frames)
  | some pageNo => (pageframeAddrFromPage pageNo, frames.setPages pageNo pages)

/-! ## First fit in the whole bitmap -/

/-- The first loop of `pageframe_alloc_firstfit`, with `bytes` turns left: skips
the bytes without a free page. -/
def firstfitSkip (frames : Pageframe) : ℕ → ℕ → ℕ → ℕ
  | 0, _, pageNo => pageNo
  | bytes + 1, i, pageNo =>
      if frames.byte i = 0xff#8 then firstfitSkip frames bytes (i + 1) (pageNo + 8) else pageNo

/-- The second loop, with `bits` turns left: `pageNo` is where the run of free
pages that ends before page `i` starts, and `curLen` is its length. All numbers
are at most the total, so none of them wraps. -/
def firstfitScan (frames : Pageframe) (pages : ℕ) : ℕ → ℕ → ℕ → ℕ → Option ℕ
  | 0, _, _, _ => none
  | bits + 1, i, pageNo, curLen =>
      if frames.getPage i = 0 then
        if curLen + 1 = pages then
          some pageNo
        else
          firstfitScan frames pages bits (i + 1) pageNo (curLen + 1)
      else
        firstfitScan frames pages bits (i + 1) (pageNo + curLen + 1) 0

/-- The page that `pageframe_alloc_firstfit` settles on. -/
def firstfitPage (frames : Pageframe) (pages : ℕ) : Option ℕ :=
  let pageNo := firstfitSkip frames (frames.pagesTotalPhys / 8) 0 0
  firstfitScan frames pages (frames.pagesTotalPhys - pageNo) pageNo pageNo 0

def pageframeAllocFirstfit (frames : Pageframe) (pages : ℕ) : ℕ × Pageframe :=
  match firstfitPage frames pages with
  | none => (0, frames)
  | some pageNo => (pageframeAddrFromPage pageNo, frames.setPages pageNo pages)

/-! ## The operations -/

/-- `_pages_total_phys`, from the memory above 1 MiB in KiB. The product is a
32-bit one. -/
def pagesTotal (physMemUpper : ℕ) : ℕ := physMemUpper * 1024 % 2 ^ 32 / 4096

def pageframeAllocInit (physMemUpper : ℕ) (frames : Pageframe) : Option Pageframe :=
  let total := pagesTotal physMemUpper
  match kmallocAlign frames.toKheap (total / 8) 4096 with
  | none => none
  | some (bitmap, kheap) =>
      let frames : Pageframe := ⟨kheap, frames.isInitialized, bitmap, total⟩
      let frames := (List.range (1024 * 2)).foldl Pageframe.setPage frames
      some { frames with isInitialized := true }

/-- The bitmap is set up at the first call. -/
def pageframeAlloc (physMemUpper : ℕ) (frames : Pageframe) (pages : ℕ) : Option (ℕ × Pageframe) :=
  match (if frames.isInitialized then some frames else pageframeAllocInit physMemUpper frames) with
  | none => none
  | some frames =>
      if pages > 8 then
        some (pageframeAllocFirstfit frames pages)
      else
        some (pageframeAllocBestfit frames pages)

/-- One turn of the loop of `pageframe_free`. -/
def pageframeFreePage (pageNo : ℕ) (frames : Pageframe) (i : ℕ) : Pageframe :=
  if frames.getPage (offset pageNo i) = 1 then frames.clearPage (offset pageNo i) else frames

def pageframeFree (frames : Pageframe) (physAddr pages : ℕ) : Pageframe :=
  if frames.isInitialized then
    (List.range (int32 pages).toNat).foldl (pageframeFreePage (pageFromAddr physAddr)) frames
  else
    frames

def pageframeSetPageFromAddr (frames : Pageframe) (physAddr pages : ℕ) : Pageframe :=
  frames.setPages (pageFromAddr physAddr) pages

/-! ## What the search in one byte finds -/

namespace BestfitScan

/-- The variables after `j` turns: the current run of zeros reaches up to `j`, and
the best fit is a run of `pages` zeros below `j`. -/
structure Sound (bits : Byte) (pages j : ℕ) (scan : BestfitScan) : Prop where
  last : -1 ≤ scan.lastOne
  run : scan.lastOne + 1 + scan.curLen = j
  zeros : ∀ k : ℕ, scan.lastOne < k → k < j → bits.getLsbD k = false
  fits : 0 ≤ scan.bestFitPos → scan.bestFitPos + pages ≤ j
  clear : 0 ≤ scan.bestFitPos → ∀ k : ℕ, scan.bestFitPos ≤ k → k < scan.bestFitPos + pages →
    bits.getLsbD k = false

variable {bits : Byte} {pages j : ℕ} {scan : BestfitScan}

theorem start_sound : start.Sound bits pages 0 where
  last := by decide
  run := by decide
  zeros := by
    intro k _ below
    omega
  fits := by
    intro nonneg
    cases nonneg
  clear := by
    intro nonneg
    cases nonneg

/-- Offering the current run keeps the variables sound. -/
theorem Sound.offer (sound : scan.Sound bits pages j) (few : pages ≤ 8) :
    (scan.offer pages).Sound bits pages j := by
  have exact' : int32 pages = pages := int32_eq (by omega) (by omega)
  have reach := sound.run
  unfold BestfitScan.offer
  by_cases better : scan.bestFitLen > scan.curLen ∧ scan.curLen ≥ int32 pages
  · rw [if_pos better]
    have long := better.2
    rw [exact'] at long
    refine ⟨sound.last, sound.run, sound.zeros, ?_, ?_⟩
    · intro _
      show scan.lastOne + 1 + (pages : ℤ) ≤ j
      omega
    · intro _ k above below
      simp only at above below
      exact sound.zeros k (by omega) (by omega)
  · rw [if_neg better]
    exact sound

/-- One turn of the loop keeps the variables sound. -/
theorem Sound.visit (sound : scan.Sound bits pages j) (few : pages ≤ 8) (bound : j < 8) :
    (scan.visit bits pages j).Sound bits pages (j + 1) := by
  unfold BestfitScan.visit
  by_cases zero : bits &&& (1#8 <<< j) = 0#8
  · rw [if_pos zero]
    have clearHere := (and_mask_eq_zero bound).mp zero
    have longer :
        ({ scan with curLen := scan.curLen + 1 } : BestfitScan).Sound bits pages (j + 1) := by
      have reach := sound.run
      refine ⟨sound.last, ?_, ?_, ?_, sound.clear⟩
      · push_cast
        omega
      · intro k above below
        by_cases here : k = j
        · rw [here]
          exact clearHere
        · exact sound.zeros k above (by omega)
      · intro nonneg
        have before := sound.fits nonneg
        show scan.bestFitPos + (pages : ℤ) ≤ (j : ℤ) + 1
        omega
    by_cases lastTurn : j = 7
    · simp only [if_pos lastTurn]
      exact longer.offer few
    · simp only [if_neg lastTurn]
      exact longer
  · rw [if_neg zero]
    have offered := sound.offer few
    refine ⟨by simp only; omega, by push_cast; omega, ?_, ?_, offered.clear⟩
    · intro k above below
      simp only at above
      omega
    · intro nonneg
      have before := offered.fits nonneg
      show (scan.offer pages).bestFitPos + (pages : ℤ) ≤ (j : ℤ) + 1
      omega

/-- The variables are sound after any number of turns. -/
theorem sound_foldl (few : pages ≤ 8) {turns : ℕ} (bound : turns ≤ 8) :
    ((List.range turns).foldl (visit bits pages) start).Sound bits pages turns := by
  induction turns with
  | zero => exact start_sound
  | succ turns ih =>
      rw [List.range_succ, List.foldl_append]
      exact (ih (by omega)).visit few (by omega)

end BestfitScan

/-- A position that the search in a byte returns is the start of `pages` zeros in
the byte. -/
theorem bestFitPos_clear {bits : Byte} {pages : ℕ} (few : pages ≤ 8)
    (found : 0 ≤ bestFitPos bits pages) :
    (bestFitPos bits pages).toNat + pages ≤ 8 ∧
      ∀ k, (bestFitPos bits pages).toNat ≤ k → k < (bestFitPos bits pages).toNat + pages →
        bits.getLsbD k = false := by
  have sound : BestfitScan.Sound bits pages 8 _ := BestfitScan.sound_foldl few (Nat.le_refl 8)
  have fits := sound.fits found
  have nonneg := Int.toNat_of_nonneg found
  refine ⟨?_, ?_⟩
  · unfold bestFitPos at nonneg ⊢
    omega
  · intro k above below
    unfold bestFitPos at nonneg above below
    exact sound.clear found k (by omega) (by omega)

/-! ## The block a call finds -/

/-- The bit of a page. -/
def Pageframe.bit (frames : Pageframe) (pageNo : ℕ) : Bool :=
  bitmapBit frames.memory frames.pageframeBitmap pageNo

theorem getPage_eq_zero {frames : Pageframe} {pageNo : ℕ} (allocated : frames.pageframeBitmap ≠ 0) :
    frames.getPage pageNo = 0 ↔ frames.bit pageNo = false :=
  bitmapGetBit_eq_zero allocated

theorem getPage_eq_one {frames : Pageframe} {pageNo : ℕ} (allocated : frames.pageframeBitmap ≠ 0) :
    frames.getPage pageNo = 1 ↔ frames.bit pageNo = true := by
  unfold Pageframe.getPage Pageframe.bit
  rw [bitmapGetBit_eq allocated]
  cases bitmapBit frames.memory frames.pageframeBitmap pageNo <;> simp

/-- The run of pages lies below the total and none of its bits is set. -/
structure FreeRun (frames : Pageframe) (start pages : ℕ) : Prop where
  below : start + pages ≤ frames.pagesTotalPhys
  clear : ∀ k, start ≤ k → k < start + pages → frames.bit k = false

/-- The run is inside one byte of the bitmap. -/
def InOneByte (start pages : ℕ) : Prop := start % 8 + pages ≤ 8

variable {frames : Pageframe} {pages : ℕ}

/-- Best fit finds a free run inside one byte of the bitmap. -/
theorem bestfitPage_free (few : pages ≤ 8) {start : ℕ}
    (found : bestfitPage frames pages = some start) :
    FreeRun frames start pages ∧ InOneByte start pages ∧
      start + pages ≤ frames.pagesTotalPhys / 8 * 8 := by
  obtain ⟨i, member, here⟩ := List.exists_of_findSome?_eq_some found
  have bound := List.mem_range.mp member
  by_cases full : frames.byte i = 0xff#8
  · rw [if_pos full] at here
    cases here
  · rw [if_neg full] at here
    by_cases fits : 0 ≤ bestFitPos (frames.byte i) pages
    · rw [if_pos fits, Option.some.injEq] at here
      obtain ⟨inside, clear⟩ := bestFitPos_clear few fits
      refine ⟨⟨by omega, ?_⟩, by unfold InOneByte; omega, by omega⟩
      intro k above below
      have sameByte : k / 8 = i := by omega
      unfold Pageframe.bit bitmapBit
      rw [sameByte]
      exact clear (k % 8) (by omega) (by omega)
    · rw [if_neg fits] at here
      cases here

/-- The first loop of first fit ends at or below the total. -/
theorem firstfitSkip_le (frames : Pageframe) (bytes i pageNo : ℕ) :
    firstfitSkip frames bytes i pageNo ≤ pageNo + 8 * bytes := by
  induction bytes generalizing i pageNo with
  | zero => exact Nat.le_refl _
  | succ bytes ih =>
      rw [firstfitSkip]
      by_cases full : frames.byte i = 0xff#8
      · rw [if_pos full]
        have rest := ih (i + 1) (pageNo + 8)
        omega
      · rw [if_neg full]
        omega

/-- The second loop, from a state in which the pages from `pageNo` up to `i` are
free, finds a free run that ends within the pages it looks at. -/
theorem firstfitScan_clear (allocated : frames.pageframeBitmap ≠ 0) {bits i pageNo curLen start : ℕ}
    (run : pageNo + curLen = i)
    (clear : ∀ k, pageNo ≤ k → k < i → frames.bit k = false)
    (found : firstfitScan frames pages bits i pageNo curLen = some start) :
    start + pages ≤ i + bits ∧ ∀ k, start ≤ k → k < start + pages → frames.bit k = false := by
  induction bits generalizing i pageNo curLen with
  | zero => cases found
  | succ bits ih =>
      rw [firstfitScan] at found
      by_cases zero : frames.getPage i = 0
      · have clearHere : frames.bit i = false := (getPage_eq_zero allocated).mp zero
        have longer : ∀ k, pageNo ≤ k → k < i + 1 → frames.bit k = false := by
          intro k above below
          by_cases here : k = i
          · rw [here]
            exact clearHere
          · exact clear k above (by omega)
        rw [if_pos zero] at found
        by_cases enough : curLen + 1 = pages
        · rw [if_pos enough, Option.some.injEq] at found
          subst found
          refine ⟨by omega, ?_⟩
          intro k above below
          exact longer k above (by omega)
        · rw [if_neg enough] at found
          obtain ⟨ends, free⟩ := ih (by omega) longer found
          exact ⟨by omega, free⟩
      · rw [if_neg zero] at found
        have restart : ∀ k, pageNo + curLen + 1 ≤ k → k < i + 1 → frames.bit k = false := by
          intro k above below
          omega
        obtain ⟨ends, free⟩ := ih (by omega) restart found
        exact ⟨by omega, free⟩

/-- First fit finds a free run. -/
theorem firstfitPage_free (allocated : frames.pageframeBitmap ≠ 0) {start : ℕ}
    (found : firstfitPage frames pages = some start) : FreeRun frames start pages := by
  have skipped := firstfitSkip_le frames (frames.pagesTotalPhys / 8) 0 0
  have empty : ∀ k, firstfitSkip frames (frames.pagesTotalPhys / 8) 0 0 ≤ k →
      k < firstfitSkip frames (frames.pagesTotalPhys / 8) 0 0 → frames.bit k = false := by
    intro k above below
    omega
  obtain ⟨ends, clear⟩ := firstfitScan_clear allocated (Nat.add_zero _) empty found
  exact ⟨by omega, clear⟩

/-- The page that a call of `pageframe_alloc` settles on. -/
def allocPage (frames : Pageframe) (pages : ℕ) : Option ℕ :=
  if pages > 8 then firstfitPage frames pages else bestfitPage frames pages

theorem allocPage_free (allocated : frames.pageframeBitmap ≠ 0) {start : ℕ}
    (found : allocPage frames pages = some start) :
    FreeRun frames start pages ∧ (pages ≤ 8 → start + pages ≤ frames.pagesTotalPhys / 8 * 8) := by
  unfold allocPage at found
  by_cases many : pages > 8
  · rw [if_pos many] at found
    refine ⟨firstfitPage_free allocated found, ?_⟩
    intro few
    omega
  · rw [if_neg many] at found
    obtain ⟨free, -, inBitmap⟩ := bestfitPage_free (by omega) found
    refine ⟨free, ?_⟩
    intro _
    exact inBitmap

/-- The result of a call, from the page it settles on. -/
theorem pageframeAlloc_eq (physMemUpper : ℕ) (initialized : frames.isInitialized = true) :
    pageframeAlloc physMemUpper frames pages = some
      (match allocPage frames pages with
        | none => (0, frames)
        | some start => (pageframeAddrFromPage start, frames.setPages start pages)) := by
  simp only [pageframeAlloc, initialized, if_true, allocPage]
  by_cases many : pages > 8
  · rw [if_pos many, if_pos many, pageframeAllocFirstfit]
  · rw [if_neg many, if_neg many, pageframeAllocBestfit]

/-- On an initialised allocator every call returns. -/
theorem pageframeAlloc_returns (physMemUpper pages : ℕ)
    (initialized : frames.isInitialized = true) :
    ∃ ret after, pageframeAlloc physMemUpper frames pages = some (ret, after) :=
  ⟨_, _, pageframeAlloc_eq physMemUpper initialized⟩

/-- What the operations on blocks leave alone. -/
structure SameAllocator (before after : Pageframe) : Prop where
  heapCur : after.heapCur = before.heapCur
  isInitialized : after.isInitialized = before.isInitialized
  pageframeBitmap : after.pageframeBitmap = before.pageframeBitmap
  pagesTotalPhys : after.pagesTotalPhys = before.pagesTotalPhys

/-- The first call sets up the bitmap, and then looks for its block. -/
theorem pageframeAlloc_first {physMemUpper : ℕ} {start : Pageframe}
    (before : frames.isInitialized = false)
    (init : pageframeAllocInit physMemUpper frames = some start)
    (initialized : start.isInitialized = true) :
    pageframeAlloc physMemUpper frames pages = pageframeAlloc physMemUpper start pages := by
  simp only [pageframeAlloc, before, init, initialized, if_true, Bool.false_eq_true, if_false]

theorem pageframeAlloc_same {physMemUpper ret : ℕ} {after : Pageframe}
    (initialized : frames.isInitialized = true)
    (called : pageframeAlloc physMemUpper frames pages = some (ret, after)) :
    SameAllocator frames after := by
  rw [pageframeAlloc_eq physMemUpper initialized, Option.some.injEq] at called
  cases found : allocPage frames pages with
  | none =>
      rw [found, Prod.mk.injEq] at called
      rw [← called.2]
      exact ⟨rfl, rfl, rfl, rfl⟩
  | some start =>
      rw [found, Prod.mk.injEq] at called
      rw [← called.2]
      exact ⟨rfl, rfl, rfl, rfl⟩

/-- A call for no pages changes nothing. -/
theorem pageframeAlloc_zero {physMemUpper ret : ℕ} {after : Pageframe}
    (initialized : frames.isInitialized = true)
    (called : pageframeAlloc physMemUpper frames 0 = some (ret, after)) : after = frames := by
  rw [pageframeAlloc_eq physMemUpper initialized, Option.some.injEq] at called
  cases found : allocPage frames 0 with
  | none =>
      rw [found, Prod.mk.injEq] at called
      exact called.2.symm
  | some start =>
      rw [found, Prod.mk.injEq] at called
      rw [← called.2, Pageframe.setPages, bitmapSetBits_zero]

/-- **A call of `pageframe_alloc`** on an initialised allocator returns `NULL` and
changes nothing, or returns the address of a free run and sets its bits. -/
theorem pageframeAlloc_cases {physMemUpper ret : ℕ} {after : Pageframe}
    (initialized : frames.isInitialized = true) (allocated : frames.pageframeBitmap ≠ 0)
    (total : frames.pagesTotalPhys ≤ 2 ^ 20) (some' : 1 ≤ pages)
    (called : pageframeAlloc physMemUpper frames pages = some (ret, after)) :
    (ret = 0 ∧ after = frames) ∨
      ∃ start, FreeRun frames start pages ∧
        (pages ≤ 8 → start + pages ≤ frames.pagesTotalPhys / 8 * 8) ∧
        ret = start * 4096 ∧ after = frames.setPages start pages := by
  rw [pageframeAlloc_eq physMemUpper initialized, Option.some.injEq] at called
  cases found : allocPage frames pages with
  | none =>
      rw [found, Prod.mk.injEq] at called
      exact .inl ⟨called.1.symm, called.2.symm⟩
  | some start =>
      rw [found, Prod.mk.injEq] at called
      obtain ⟨free, inByte⟩ := allocPage_free allocated found
      have below := free.below
      have address : pageframeAddrFromPage start = start * 4096 := by
        unfold pageframeAddrFromPage
        omega
      exact .inr ⟨start, free, inByte, by rw [← called.1, address], called.2.symm⟩

/-! ## Bits after each operation -/

theorem bit_setPages {start other : ℕ} (allocated : frames.pageframeBitmap ≠ 0)
    (fits : start + pages < 2 ^ 32) (bound : other < 2 ^ 32) :
    (frames.setPages start pages).bit other =
      (decide (start ≤ other ∧ other < start + pages) || frames.bit other) :=
  bitmapBit_setBits allocated fits bound

/-- A turn of the loop of `pageframe_free` clears its bit, whatever it was. -/
theorem bit_freePage {pageNo i other : ℕ} (allocated : frames.pageframeBitmap ≠ 0)
    (bound : other < 2 ^ 32) :
    (pageframeFreePage pageNo frames i).bit other =
      (!decide (other = offset pageNo i) && frames.bit other) := by
  unfold pageframeFreePage
  by_cases taken : frames.getPage (offset pageNo i) = 1
  · rw [if_pos taken]
    exact bitmapBit_clearBit allocated (offset_lt _ _) bound
  · rw [if_neg taken]
    rw [getPage_eq_one allocated, Bool.not_eq_true] at taken
    by_cases here : other = offset pageNo i
    · rw [here, taken, Bool.and_false]
    · rw [decide_eq_false here, Bool.not_false, Bool.true_and]

theorem freePage_same (frames : Pageframe) (pageNo i : ℕ) :
    SameAllocator frames (pageframeFreePage pageNo frames i) := by
  unfold pageframeFreePage
  split
  · exact ⟨rfl, rfl, rfl, rfl⟩
  · exact ⟨rfl, rfl, rfl, rfl⟩

/-- The loop of `pageframe_free` clears the bits of its pages and no other bit. -/
theorem freeLoop_spec {pageNo turns : ℕ} (allocated : frames.pageframeBitmap ≠ 0)
    (fits : pageNo + turns < 2 ^ 32) :
    SameAllocator frames ((List.range turns).foldl (pageframeFreePage pageNo) frames) ∧
      ∀ other < 2 ^ 32, ((List.range turns).foldl (pageframeFreePage pageNo) frames).bit other =
        (!decide (pageNo ≤ other ∧ other < pageNo + turns) && frames.bit other) := by
  induction turns with
  | zero =>
      refine ⟨⟨rfl, rfl, rfl, rfl⟩, ?_⟩
      intro other _
      have outside : ¬(pageNo ≤ other ∧ other < pageNo + 0) := by omega
      rw [decide_eq_false outside, Bool.not_false, Bool.true_and]
      rfl
  | succ turns ih =>
      obtain ⟨same, bits⟩ := ih (by omega)
      rw [List.range_succ, List.foldl_append]
      generalize (List.range turns).foldl (pageframeFreePage pageNo) frames = between at same bits
      have stepped := freePage_same between pageNo turns
      refine ⟨⟨?_, ?_, ?_, ?_⟩, ?_⟩
      · exact stepped.heapCur.trans same.heapCur
      · exact stepped.isInitialized.trans same.isInitialized
      · exact stepped.pageframeBitmap.trans same.pageframeBitmap
      · exact stepped.pagesTotalPhys.trans same.pagesTotalPhys
      · intro other bound
        have allocatedBetween : between.pageframeBitmap ≠ 0 := by
          rw [same.pageframeBitmap]
          exact allocated
        have here : offset pageNo turns = pageNo + turns := offset_eq (by omega)
        rw [List.foldl_cons, List.foldl_nil, bit_freePage allocatedBetween bound, bits other bound,
          ← Bool.and_assoc, here]
        congr 1
        rw [← Bool.not_or, ← Bool.decide_or]
        congr 1
        rw [decide_eq_decide]
        omega

/-- Only the page of the address matters to `pageframe_free`. -/
theorem pageframeFree_page (frames : Pageframe) (physAddr pages : ℕ) :
    pageframeFree frames physAddr pages =
      pageframeFree frames (pageFromAddr physAddr * 4096) pages := by
  have page : pageFromAddr (pageFromAddr physAddr * 4096) = pageFromAddr physAddr :=
    Nat.mul_div_cancel _ (by decide)
  simp only [pageframeFree, page]

theorem pageframeFree_zero (frames : Pageframe) (physAddr : ℕ) :
    pageframeFree frames physAddr 0 = frames := by
  unfold pageframeFree
  split <;> rfl

theorem pageframeFree_uninitialized (before : frames.isInitialized = false) (physAddr pages : ℕ) :
    pageframeFree frames physAddr pages = frames := by
  simp only [pageframeFree, before, Bool.false_eq_true, if_false]

/-- **A call of `pageframe_free`** clears the bits of its pages and no other bit. -/
theorem pageframeFree_spec {start : ℕ} (initialized : frames.isInitialized = true)
    (allocated : frames.pageframeBitmap ≠ 0) (inside : start + pages ≤ 2 ^ 20) :
    SameAllocator frames (pageframeFree frames (start * 4096) pages) ∧
      ∀ other < 2 ^ 32, (pageframeFree frames (start * 4096) pages).bit other =
        (!decide (start ≤ other ∧ other < start + pages) && frames.bit other) := by
  have turns : (int32 pages).toNat = pages := by
    rw [int32_eq (by omega) (by omega), Int.toNat_natCast]
  have page : pageFromAddr (start * 4096) = start := Nat.mul_div_cancel _ (by decide)
  unfold pageframeFree
  rw [if_pos initialized, turns, page]
  exact freeLoop_spec allocated (by omega)

/-! ## The bitmap at the start -/

theorem pagesTotal_lt (physMemUpper : ℕ) : pagesTotal physMemUpper < 2 ^ 20 := by
  unfold pagesTotal
  omega

theorem foldl_setPage (frames : Pageframe) {turns : ℕ} (bound : turns < 2 ^ 32) :
    (List.range turns).foldl Pageframe.setPage frames = frames.setPages 0 turns := by
  induction turns with
  | zero =>
      show frames = { frames with memory := _ }
      rw [bitmapSetBits_zero]
  | succ turns ih =>
      rw [List.range_succ, List.foldl_append, ih (by omega)]
      show { frames with memory := _ } = ({ frames with memory := _ } : Pageframe)
      rw [bitmapSetBits_succ (by omega), Nat.zero_add]
      rfl

/-- The allocator after `pageframe_alloc_init`. The bitmap is at the least page
boundary from the heap pointer on. -/
def initialFrames (physMemUpper : ℕ) (kheap : Kheap) : Pageframe :=
  let bitmap := alignUp 4096 kheap.heapCur
  let total := pagesTotal physMemUpper
  ⟨⟨bitmapSetBits (memset kheap.memory bitmap 0#8 (total / 8)) bitmap 0 2048,
    offset bitmap (total / 8)⟩, true, bitmap, total⟩

section Initial

variable {physMemUpper page : ℕ} {kheap : Kheap}

theorem pageframeAllocInit_eq (physMemUpper : ℕ) (fits : alignUp 4096 frames.heapCur < 2 ^ 32) :
    pageframeAllocInit physMemUpper frames = some (initialFrames physMemUpper frames.toKheap) := by
  simp only [pageframeAllocInit, kmallocAlign_eq frames.toKheap _ (by decide) fits]
  rw [foldl_setPage _ (by decide)]
  rfl

/-- The first 2048 pages are taken at the start, also those past the bitmap. -/
theorem bit_initialFrames_reserved (nonnull : 0 < kheap.heapCur) (reserved : page < 2048) :
    (initialFrames physMemUpper kheap).bit page = true := by
  have above := le_alignUp_page kheap.heapCur
  have inside : 0 ≤ page ∧ page < 0 + 2048 := by omega
  simp only [Pageframe.bit, initialFrames]
  rw [bitmapBit_setBits (by omega) (by decide) (by omega), decide_eq_true inside, Bool.true_or]

/-- At the start the first 2048 pages are taken, and no other page of the bitmap. -/
theorem bit_initialFrames (nonnull : 0 < kheap.heapCur)
    (inside : page < pagesTotal physMemUpper / 8 * 8) :
    (initialFrames physMemUpper kheap).bit page = decide (page < 2048) := by
  have above := le_alignUp_page kheap.heapCur
  have total := pagesTotal_lt physMemUpper
  have clear : bitmapBit
      (memset kheap.memory (alignUp 4096 kheap.heapCur) 0#8 (pagesTotal physMemUpper / 8))
      (alignUp 4096 kheap.heapCur) page = false := by
    unfold bitmapBit
    rw [memset_inside (by omega), BitVec.getLsbD_zero]
  simp only [Pageframe.bit, initialFrames]
  rw [bitmapBit_setBits (by omega) (by decide) (by omega), clear, Bool.or_false, decide_eq_decide]
  omega

/-- A call returns also when it has to set up the bitmap first. -/
theorem pageframeAlloc_total (physMemUpper pages : ℕ)
    (fits : alignUp 4096 frames.heapCur < 2 ^ 32) :
    ∃ ret after, pageframeAlloc physMemUpper frames pages = some (ret, after) := by
  cases before : frames.isInitialized with
  | true => exact pageframeAlloc_returns physMemUpper pages before
  | false =>
      rw [pageframeAlloc_first before (pageframeAllocInit_eq physMemUpper fits) rfl]
      exact pageframeAlloc_returns physMemUpper pages rfl

end Initial

end CatchOS.Mmu
