import CatchOS.Mmu.PageframeSearch

/-!
# Giving page frames back

The page-frame allocator writes nothing but bits of its bitmap. So what any calls leave is
told by the bits alone (`Edited.unique`): two states that come from the same one are equal
when all of their bits are.

From this follows that `pageframe_free` undoes `pageframe_alloc`, that blocks may be given
back in any order, and that after all of them were given back the bitmap is the one of the
start with the pages that were reserved: `free_restores`. Runs may reserve any pages, also
beyond the total. For the last part reservations stay off live blocks, because giving a
block back also clears what was reserved in it.
-/

set_option autoImplicit false

namespace CatchOS.Mmu

open CatchOS.Lib CatchOS.Utils

/-! ## States told by their bits -/

/-- The byte holds no bit of a page. -/
def OutsideBitmap (frames : Pageframe) (address : ℕ) : Prop :=
  ∀ page < 2 ^ 32, address ≠ offset frames.pageframeBitmap (page / 8)

/-- Nothing but bits of the bitmap was changed, and the bits are the given ones. -/
structure Edited (before : Pageframe) (bits : ℕ → Bool) (after : Pageframe) : Prop where
  same : SameAllocator before after
  bit : ∀ page < 2 ^ 32, after.bit page = bits page
  others : ∀ address, OutsideBitmap before address → after.memory address = before.memory address

namespace Edited

variable {before between after other : Pageframe} {bits bits' : ℕ → Bool}

theorem refl (frames : Pageframe) : Edited frames frames.bit frames :=
  ⟨⟨rfl, rfl, rfl, rfl⟩, fun _ _ => rfl, fun _ _ => rfl⟩

theorem trans (first : Edited before bits between) (second : Edited between bits' after) :
    Edited before bits' after := by
  have sameBitmap := first.same.pageframeBitmap
  refine ⟨⟨second.same.heapCur.trans first.same.heapCur,
    second.same.isInitialized.trans first.same.isInitialized,
    second.same.pageframeBitmap.trans sameBitmap,
    second.same.pagesTotalPhys.trans first.same.pagesTotalPhys⟩, second.bit, ?_⟩
  intro address outside
  have outside' : OutsideBitmap between address := by
    unfold OutsideBitmap
    rw [sameBitmap]
    exact outside
  exact (second.others address outside').trans (first.others address outside)

/-- The bits may be given in another way. -/
theorem congr (edited : Edited before bits after) (same : ∀ page < 2 ^ 32, bits page = bits' page) :
    Edited before bits' after :=
  ⟨edited.same, fun page bound => (edited.bit page bound).trans (same page bound), edited.others⟩

/-- **States are told by their bits.** -/
theorem unique (first : Edited before bits after) (second : Edited before bits' other)
    (agree : ∀ page < 2 ^ 32, bits page = bits' page) : after = other := by
  have sameBit (page : ℕ) (bound : page < 2 ^ 32) : after.bit page = other.bit page := by
    rw [first.bit page bound, second.bit page bound, agree page bound]
  have bitmapAfter := first.same.pageframeBitmap
  have bitmapOther := second.same.pageframeBitmap
  have memory : after.memory = other.memory := by
    funext address
    by_cases outside : OutsideBitmap before address
    · rw [first.others address outside, second.others address outside]
    · unfold OutsideBitmap at outside
      push Not at outside
      obtain ⟨page, bound, rfl⟩ := outside
      apply BitVec.eq_of_getLsbD_eq
      intro i small
      have here := sameBit (page / 8 * 8 + i) (by omega)
      have byte : (page / 8 * 8 + i) / 8 = page / 8 := by omega
      have place : (page / 8 * 8 + i) % 8 = i := by omega
      rwa [Pageframe.bit, Pageframe.bit, bitmapBit, bitmapBit, byte, place, bitmapAfter,
        bitmapOther] at here
  have heapCur := first.same.heapCur.trans second.same.heapCur.symm
  have isInitialized := first.same.isInitialized.trans second.same.isInitialized.symm
  have pagesTotalPhys := first.same.pagesTotalPhys.trans second.same.pagesTotalPhys.symm
  have pageframeBitmap := bitmapAfter.trans bitmapOther.symm
  cases after with
  | mk kheap _ _ _ =>
      cases other with
      | mk otherKheap _ _ _ =>
          cases kheap
          cases otherKheap
          simp only at memory heapCur isInitialized pagesTotalPhys pageframeBitmap
          simp only [memory, heapCur, isInitialized, pagesTotalPhys, pageframeBitmap]

end Edited

/-! ## What each call does to the bits -/

section Calls

variable {frames : Pageframe} {start pages : ℕ}

theorem edited_setPages (allocated : frames.pageframeBitmap ≠ 0) (fits : start + pages < 2 ^ 32) :
    Edited frames (fun page => decide (Extent.Contains ⟨start, pages⟩ page) || frames.bit page)
      (frames.setPages start pages) := by
  refine ⟨⟨rfl, rfl, rfl, rfl⟩, fun page bound => bit_setPages allocated fits bound, ?_⟩
  intro address outside
  apply bitmapSetBits_frame
  intro page _ below
  exact outside page (by omega)

theorem freeLoop_bitmap (frames : Pageframe) (pageNo turns : ℕ) :
    ((List.range turns).foldl (pageframeFreePage pageNo) frames).pageframeBitmap =
      frames.pageframeBitmap := by
  induction turns with
  | zero => rfl
  | succ turns ih =>
      rw [List.range_succ, List.foldl_append]
      exact (freePage_same _ pageNo turns).pageframeBitmap.trans ih

/-- Clearing bits touches no other byte. -/
theorem freeLoop_frame {pageNo turns address : ℕ} (outside : OutsideBitmap frames address) :
    ((List.range turns).foldl (pageframeFreePage pageNo) frames).memory address =
      frames.memory address := by
  induction turns with
  | zero => rfl
  | succ turns ih =>
      rw [List.range_succ, List.foldl_append, List.foldl_cons, List.foldl_nil]
      rw [← ih, pageframeFreePage]
      split
      · refine bitmapClearBit_frame ?_
        rw [freeLoop_bitmap]
        exact outside _ (offset_lt _ _)
      · rfl

theorem edited_free (initialized : frames.isInitialized = true)
    (allocated : frames.pageframeBitmap ≠ 0) (inside : start + pages ≤ 2 ^ 20) :
    Edited frames (fun page => !decide (Extent.Contains ⟨start, pages⟩ page) && frames.bit page)
      (pageframeFree frames (start * 4096) pages) := by
  obtain ⟨same, bits⟩ := pageframeFree_spec initialized allocated inside
  refine ⟨same, bits, fun address outside => ?_⟩
  rw [pageframeFree, if_pos initialized]
  exact freeLoop_frame outside

/-- Without a bitmap nothing is freed. -/
theorem pageframeFree_null (missing : frames.pageframeBitmap = 0) (physAddr pages : ℕ) :
    pageframeFree frames physAddr pages = frames := by
  have turn (pageNo i : ℕ) : pageframeFreePage pageNo frames i = frames := by
    rw [pageframeFreePage, Pageframe.getPage, bitmapGetBit, if_pos missing]
    rfl
  unfold pageframeFree
  split
  · exact List.foldl_fixed' (turn _) _
  · rfl

/-- **`pageframe_free` undoes `pageframe_alloc`.** -/
theorem pageframeFree_alloc {physMemUpper ret : ℕ} {after : Pageframe}
    (initialized : frames.isInitialized = true) (allocated : frames.pageframeBitmap ≠ 0)
    (total : frames.pagesTotalPhys ≤ 2 ^ 20) (some' : 1 ≤ pages)
    (called : pageframeAlloc physMemUpper frames pages = some (ret, after)) (nonnull : ret ≠ 0) :
    pageframeFree after ret pages = frames := by
  rcases pageframeAlloc_cases initialized allocated total some' called with
    ⟨null, -⟩ | ⟨start, free, -, rfl, rfl⟩
  · exact absurd null nonnull
  · have below := free.below
    have set : Edited frames _ (frames.setPages start pages) :=
      edited_setPages allocated (by omega)
    have freed : Edited (frames.setPages start pages) _
        (pageframeFree (frames.setPages start pages) (start * 4096) pages) :=
      edited_free initialized allocated (by omega)
    refine (set.trans freed).unique (Edited.refl frames) fun page bound => ?_
    rw [set.bit page bound]
    by_cases inBlock : Extent.Contains ⟨start, pages⟩ page
    · rw [decide_eq_true inBlock, free.clear page inBlock.1 inBlock.2]
      rfl
    · rw [decide_eq_false inBlock, Bool.not_false, Bool.true_and, Bool.false_or]

end Calls

/-! ## Giving back several blocks -/

def freeBlock (frames : Pageframe) (block : Extent) : Pageframe :=
  pageframeFree frames (block.start * 4096) block.size

def freeBlocks (frames : Pageframe) (blocks : List Extent) : Pageframe :=
  blocks.foldl freeBlock frames

/-- Two blocks may be given back in either order. -/
theorem freeBlock_comm (frames : Pageframe) {first second : Extent}
    (inside : first.start + first.size ≤ 2 ^ 20) (inside' : second.start + second.size ≤ 2 ^ 20) :
    freeBlock (freeBlock frames first) second = freeBlock (freeBlock frames second) first := by
  unfold freeBlock
  cases initialized : frames.isInitialized with
  | false => simp only [pageframeFree_uninitialized initialized]
  | true =>
      by_cases missing : frames.pageframeBitmap = 0
      · simp only [pageframeFree_null missing]
      · have one := edited_free initialized missing inside
        have two := edited_free initialized missing inside'
        have oneTwo := edited_free (one.same.isInitialized.trans initialized)
          (one.same.pageframeBitmap.trans_ne missing) inside'
        have twoOne := edited_free (two.same.isInitialized.trans initialized)
          (two.same.pageframeBitmap.trans_ne missing) inside
        refine (one.trans oneTwo).unique (two.trans twoOne) fun page bound => ?_
        rw [one.bit page bound, two.bit page bound]
        exact Bool.and_left_comm _ _ _

theorem freeBlocks_perm (frames : Pageframe) {blocks order : List Extent}
    (same : order.Perm blocks) (inside : ∀ block ∈ order, block.start + block.size ≤ 2 ^ 20) :
    freeBlocks frames order = freeBlocks frames blocks :=
  same.foldl_eq' (fun first member second member' frames =>
    freeBlock_comm frames (inside first member) (inside second member')) frames

/-- The bits after all of the blocks were given back. -/
theorem edited_freeBlocks {frames : Pageframe} (initialized : frames.isInitialized = true)
    (allocated : frames.pageframeBitmap ≠ 0) {blocks : List Extent}
    (inside : ∀ block ∈ blocks, block.start + block.size ≤ 2 ^ 20) :
    Edited frames
      (fun page => frames.bit page && !decide (∃ block ∈ blocks, block.Contains page))
      (freeBlocks frames blocks) := by
  induction blocks generalizing frames with
  | nil =>
      refine (Edited.refl frames).congr fun page _ => ?_
      simp
  | cons block blocks ih =>
      obtain ⟨here, later⟩ := List.forall_mem_cons.mp inside
      have freed := edited_free initialized allocated here
      have rest := ih (freed.same.isInitialized.trans initialized)
        (freed.same.pageframeBitmap.trans_ne allocated) later
      refine (freed.trans rest).congr fun page bound => ?_
      rw [freed.bit page bound]
      simp only [List.exists_mem_cons_iff, Bool.decide_or, Bool.not_or]
      rw [Bool.and_comm (!_) (frames.bit page), Bool.and_assoc]

/-! ## Reserving pages -/

/-- The pages that a call of `pageframe_set_page_from_addr` marks: none when the end of its
loop wraps. -/
def reservedExtent (physAddr pages : ℕ) : Extent :=
  ⟨pageFromAddr physAddr, if pageFromAddr physAddr + pages < 2 ^ 32 then pages else 0⟩

/-- The arguments of a call of `pageframe_set_page_from_addr`. -/
structure Reservation where
  physAddr : ℕ
  pages : ℕ
  deriving DecidableEq

/-- Both arguments are words. -/
def Reservation.Word (reservation : Reservation) : Prop :=
  reservation.physAddr < 2 ^ 32 ∧ reservation.pages < 2 ^ 32

instance (reservation : Reservation) : Decidable reservation.Word :=
  inferInstanceAs (Decidable (_ ∧ _))

def Reservation.extent (reservation : Reservation) : Extent :=
  reservedExtent reservation.physAddr reservation.pages

def reservePages (frames : Pageframe) (reservation : Reservation) : Pageframe :=
  pageframeSetPageFromAddr frames reservation.physAddr reservation.pages

theorem edited_reservePages {frames : Pageframe} (allocated : frames.pageframeBitmap ≠ 0)
    {reservation : Reservation} (word : reservation.Word) :
    Edited frames (fun page => frames.bit page || decide (reservation.extent.Contains page))
      (reservePages frames reservation) := by
  obtain ⟨physWord, pagesWord⟩ := word
  have low : pageFromAddr reservation.physAddr < 2 ^ 20 := by
    unfold pageFromAddr
    omega
  unfold reservePages pageframeSetPageFromAddr Reservation.extent reservedExtent
  split
  case isTrue fits =>
    refine (edited_setPages allocated fits).congr fun page _ => ?_
    exact Bool.or_comm _ _
  case isFalse wraps =>
    have none : (pageFromAddr reservation.physAddr + reservation.pages) % 2 ^ 32 -
        pageFromAddr reservation.physAddr = 0 := by omega
    have unchanged : frames.setPages (pageFromAddr reservation.physAddr) reservation.pages =
        frames := by
      simp only [Pageframe.setPages, bitmapSetBits, none, List.range'_zero, List.foldl_nil]
    rw [unchanged]
    refine (Edited.refl frames).congr fun page _ => ?_
    have empty : ¬Extent.Contains ⟨pageFromAddr reservation.physAddr, 0⟩ page := by
      simp only [Extent.Contains]
      omega
    rw [decide_eq_false empty, Bool.or_false]

/-- The bits after all of the pages were reserved. -/
theorem edited_reserveAll {frames : Pageframe} (allocated : frames.pageframeBitmap ≠ 0)
    {reservations : List Reservation} (words : ∀ reservation ∈ reservations, reservation.Word) :
    Edited frames
      (fun page => frames.bit page ||
        decide (∃ reservation ∈ reservations, reservation.extent.Contains page))
      (reservations.foldl reservePages frames) := by
  induction reservations generalizing frames with
  | nil =>
      refine (Edited.refl frames).congr fun page _ => ?_
      simp
  | cons reservation reservations ih =>
      obtain ⟨here, later⟩ := List.forall_mem_cons.mp words
      have reserved := edited_reservePages allocated here
      have rest := ih (reserved.same.pageframeBitmap.trans_ne allocated) later
      refine (reserved.trans rest).congr fun page bound => ?_
      rw [reserved.bit page bound]
      simp only [List.exists_mem_cons_iff, Bool.decide_or]
      rw [Bool.or_assoc]

/-! ## Runs -/

/-- The allocator after `pageframe_alloc_init` and now, the blocks that are live, and the
reservations so far. -/
structure FrameHistory where
  start : Pageframe
  frames : Pageframe
  live : List Extent
  reservations : List Reservation

/-- A live block is freed with its own address and number of pages. -/
def FrameHistory.step (physMemUpper : ℕ) (run : FrameHistory) : FrameAction → Option FrameHistory
  | .alloc pages =>
      if 1 ≤ pages then
        (pageframeAlloc physMemUpper run.frames pages).map fun (ret, frames) =>
          { run with
            frames := frames
            live := if ret = 0 then run.live else ⟨pageFromAddr ret, pages⟩ :: run.live }
      else
        none
  | .free block =>
      if block ∈ run.live then
        some { run with frames := freeBlock run.frames block, live := run.live.erase block }
      else
        none
  | .setPageFromAddr physAddr pages =>
      if Reservation.Word ⟨physAddr, pages⟩ then
        some { run with
          frames := reservePages run.frames ⟨physAddr, pages⟩
          reservations := run.reservations ++ [⟨physAddr, pages⟩] }
      else
        none

/-- Runs start with `pageframe_alloc_init`, as those of `frameSystem` do. -/
def historySystem (physMemUpper : ℕ) : System FrameHistory FrameAction where
  initial run := ∃ frames : Pageframe, 0 < frames.heapCur ∧ frames.heapCur + 4096 ≤ 2 ^ 32 ∧
    pageframeAllocInit physMemUpper frames = some run.start ∧
    run.frames = run.start ∧ run.live = [] ∧ run.reservations = []
  step := FrameHistory.step physMemUpper

/-- A reservation hits no page of a live block. -/
def ReservesOutside (run : FrameHistory) : FrameAction → Prop
  | .setPageFromAddr physAddr pages =>
      ∀ block ∈ run.live, (reservedExtent physAddr pages).Apart block
  | _ => True

/-- What every run keeps: the allocator is set up, and blocks are below the total. -/
structure HistoryBounds (run : FrameHistory) : Prop where
  initialized : run.frames.isInitialized = true
  allocated : run.frames.pageframeBitmap ≠ 0
  total : run.frames.pagesTotalPhys ≤ 2 ^ 20
  inside : ∀ block ∈ run.live, block.start + block.size ≤ 2 ^ 20

/-- The bits after some reservations and with some blocks live. -/
def FrameHistory.bits (run : FrameHistory) (page : ℕ) : Bool :=
  (run.start.bit page || decide (∃ reservation ∈ run.reservations,
    reservation.extent.Contains page)) || decide (∃ block ∈ run.live, block.Contains page)

/-- What is kept when reservations stay off live blocks: the bits are those of the start,
of the reservations and of the live blocks, and no page is in two of the three. -/
structure HistoryInvariant (run : FrameHistory) : Prop where
  edited : Edited run.start run.bits run.frames
  zero : run.start.bit 0 = true
  words : ∀ reservation ∈ run.reservations, reservation.Word
  owned : ∀ block ∈ run.live, ∀ page, block.Contains page → run.start.bit page = false ∧
    ¬∃ reservation ∈ run.reservations, reservation.extent.Contains page
  apart : run.live.Pairwise Extent.Apart

/-- What a step of a run does. -/
theorem FrameHistory.step_cases {physMemUpper : ℕ} {run next : FrameHistory}
    {action : FrameAction} (bounds : HistoryBounds run)
    (stepped : run.step physMemUpper action = some next) :
    next = run ∨
    (∃ pages start, 1 ≤ pages ∧ FreeRun run.frames start pages ∧ start + pages ≤ 2 ^ 20 ∧
      next = { run with
        frames := run.frames.setPages start pages
        live := if start = 0 then run.live else ⟨start, pages⟩ :: run.live }) ∨
    (∃ block ∈ run.live, action = .free block ∧
      next = { run with frames := freeBlock run.frames block, live := run.live.erase block }) ∨
    ∃ reservation : Reservation, reservation.Word ∧
      action = .setPageFromAddr reservation.physAddr reservation.pages ∧
      next = { run with
        frames := reservePages run.frames reservation
        reservations := run.reservations ++ [reservation] } := by
  cases action with
  | alloc pages =>
      simp only [FrameHistory.step] at stepped
      split at stepped
      case isFalse => cases stepped
      case isTrue some' =>
        rw [Option.map_eq_some_iff] at stepped
        obtain ⟨⟨ret, after⟩, called, rfl⟩ := stepped
        rcases pageframeAlloc_cases bounds.initialized bounds.allocated bounds.total some' called
          with ⟨rfl, rfl⟩ | ⟨start, free, -, rfl, rfl⟩
        · exact .inl rfl
        · have below := free.below
          have total := bounds.total
          have page : pageFromAddr (start * 4096) = start := Nat.mul_div_cancel _ (by decide)
          have null : start * 4096 = 0 ↔ start = 0 := by omega
          refine .inr (.inl ⟨pages, start, some', free, by omega, ?_⟩)
          simp only [page, null]
  | free block =>
      simp only [FrameHistory.step] at stepped
      split at stepped
      case isFalse => cases stepped
      case isTrue live =>
        simp only [Option.some.injEq] at stepped
        exact .inr (.inr (.inl ⟨block, live, rfl, stepped.symm⟩))
  | setPageFromAddr physAddr pages =>
      simp only [FrameHistory.step] at stepped
      split at stepped
      case isFalse => cases stepped
      case isTrue word =>
        simp only [Option.some.injEq] at stepped
        exact .inr (.inr (.inr ⟨⟨physAddr, pages⟩, word, rfl, stepped.symm⟩))

theorem HistoryBounds.step {physMemUpper : ℕ} {run next : FrameHistory} {action : FrameAction}
    (bounds : HistoryBounds run) (stepped : run.step physMemUpper action = some next) :
    HistoryBounds next := by
  obtain ⟨initialized, allocated, total, inside⟩ := id bounds
  rcases FrameHistory.step_cases bounds stepped with
    rfl | ⟨pages, start, -, -, below, rfl⟩ | ⟨block, live, -, rfl⟩ | ⟨reservation, -, -, rfl⟩
  · exact bounds
  · refine ⟨initialized, allocated, total, ?_⟩
    simp only
    split
    · exact inside
    · exact List.forall_mem_cons.mpr ⟨below, inside⟩
  · have same := (edited_free initialized allocated (inside block live)).same
    refine ⟨same.isInitialized.trans initialized, same.pageframeBitmap.trans_ne allocated,
      same.pagesTotalPhys.trans_le total, fun other member => ?_⟩
    exact inside other (List.mem_of_mem_erase member)
  · exact ⟨initialized, allocated, total, inside⟩

namespace HistoryInvariant

variable {run : FrameHistory}

/-- A page whose bit is clear is not set at the start, not reserved and in no live block. -/
theorem of_clear (invariant : HistoryInvariant run) {page : ℕ} (bound : page < 2 ^ 32)
    (clear : run.frames.bit page = false) :
    (run.start.bit page = false ∧ ¬∃ reservation ∈ run.reservations,
      reservation.extent.Contains page) ∧ ¬∃ block ∈ run.live, block.Contains page := by
  rw [invariant.edited.bit page bound, FrameHistory.bits, Bool.or_eq_false_iff,
    Bool.or_eq_false_iff, decide_eq_false_iff_not, decide_eq_false_iff_not] at clear
  exact clear

/-- Page 0 is never handed out, so `NULL` is no block. -/
theorem start_ne_zero (invariant : HistoryInvariant run) {start pages : ℕ} (some' : 1 ≤ pages)
    (free : FreeRun run.frames start pages) : start ≠ 0 := by
  rintro rfl
  have clear := (invariant.of_clear (by decide) (free.clear 0 (Nat.le_refl 0) (by omega))).1.1
  rw [invariant.zero] at clear
  cases clear

theorem alloc (invariant : HistoryInvariant run) (bounds : HistoryBounds run) {start pages : ℕ}
    (free : FreeRun run.frames start pages) (below : start + pages ≤ 2 ^ 20) :
    HistoryInvariant { run with
      frames := run.frames.setPages start pages
      live := ⟨start, pages⟩ :: run.live } := by
  have vacant (page : ℕ) (inside : Extent.Contains ⟨start, pages⟩ page) :=
    invariant.of_clear (show page < 2 ^ 32 by
      have last := inside.2
      simp only at last
      omega) (free.clear page inside.1 inside.2)
  have set : Edited run.frames _ (run.frames.setPages start pages) :=
    edited_setPages bounds.allocated (by omega)
  refine ⟨(invariant.edited.trans set).congr fun page bound => ?_, invariant.zero,
    invariant.words, List.forall_mem_cons.mpr ⟨fun page inside => (vacant page inside).1,
      invariant.owned⟩, List.pairwise_cons.mpr ⟨?_, invariant.apart⟩⟩
  · rw [invariant.edited.bit page bound]
    simp only [FrameHistory.bits, List.exists_mem_cons_iff, Bool.decide_or]
    rw [Bool.or_left_comm]
  · intro other member page inNew inOther
    exact (vacant page inNew).2 ⟨other, member, inOther⟩

theorem free (invariant : HistoryInvariant run) (bounds : HistoryBounds run) {block : Extent}
    (live : block ∈ run.live) :
    HistoryInvariant { run with
      frames := freeBlock run.frames block
      live := run.live.erase block } := by
  have split := List.perm_cons_erase live
  have apartAll : (block :: run.live.erase block).Pairwise Extent.Apart :=
    split.pairwise invariant.apart Extent.Apart.symm
  obtain ⟨fromRest, apartRest⟩ := List.pairwise_cons.mp apartAll
  have freed := edited_free bounds.initialized bounds.allocated (bounds.inside block live)
  refine ⟨(invariant.edited.trans freed).congr fun page bound => ?_, invariant.zero,
    invariant.words, fun other member => invariant.owned other (List.mem_of_mem_erase member),
    apartRest⟩
  have members : (∃ other ∈ run.live, other.Contains page) ↔
      block.Contains page ∨ ∃ other ∈ run.live.erase block, other.Contains page := by
    rw [← List.exists_mem_cons_iff (fun other : Extent => other.Contains page)]
    exact exists_congr fun other => and_congr_left fun _ => split.mem_iff
  simp only [invariant.edited.bit page bound, FrameHistory.bits, members]
  by_cases inBlock : block.Contains page
  · obtain ⟨clear, notReserved⟩ := invariant.owned block live page inBlock
    have none : ¬∃ other ∈ run.live.erase block, other.Contains page := by
      rintro ⟨other, member, inOther⟩
      exact fromRest other member page inBlock inOther
    simp only [inBlock, none, notReserved, clear, decide_true, decide_false, Bool.not_true,
      Bool.false_and, Bool.or_false]
  · simp only [inBlock, false_or, decide_false, Bool.not_false, Bool.true_and]

theorem reserve (invariant : HistoryInvariant run) (bounds : HistoryBounds run)
    {reservation : Reservation} (word : reservation.Word)
    (outside : ∀ block ∈ run.live, reservation.extent.Apart block) :
    HistoryInvariant { run with
      frames := reservePages run.frames reservation
      reservations := run.reservations ++ [reservation] } := by
  have reserved := edited_reservePages bounds.allocated word
  have members (page : ℕ) :
      (∃ other ∈ run.reservations ++ [reservation], other.extent.Contains page) ↔
        (∃ other ∈ run.reservations, other.extent.Contains page) ∨
          reservation.extent.Contains page := by
    simp only [List.mem_append, List.mem_singleton, or_and_right, exists_or, exists_eq_left]
  refine ⟨(invariant.edited.trans reserved).congr fun page bound => ?_, invariant.zero,
    List.forall_mem_append.mpr ⟨invariant.words, List.forall_mem_singleton.mpr word⟩, ?_,
    invariant.apart⟩
  · simp only [invariant.edited.bit page bound, FrameHistory.bits, members, Bool.decide_or]
    rw [← Bool.or_assoc, Bool.or_right_comm]
  · intro block member page inside
    obtain ⟨clear, notReserved⟩ := invariant.owned block member page inside
    refine ⟨clear, ?_⟩
    rw [members]
    rintro (before | here)
    · exact notReserved before
    · exact outside block member page here inside

theorem step {physMemUpper : ℕ} {next : FrameHistory} {action : FrameAction}
    (invariant : HistoryInvariant run) (bounds : HistoryBounds run)
    (outside : ReservesOutside run action) (stepped : run.step physMemUpper action = some next) :
    HistoryInvariant next := by
  rcases FrameHistory.step_cases bounds stepped with
    rfl | ⟨pages, start, some', free, below, rfl⟩ | ⟨block, live, -, rfl⟩ |
      ⟨reservation, word, rfl, rfl⟩
  · exact invariant
  · rw [if_neg (invariant.start_ne_zero some' free)]
    exact invariant.alloc bounds free below
  · exact invariant.free bounds live
  · exact invariant.reserve bounds word outside

end HistoryInvariant

theorem history_initial {physMemUpper : ℕ} {run : FrameHistory}
    (initial : (historySystem physMemUpper).initial run) :
    HistoryBounds run ∧ HistoryInvariant run := by
  obtain ⟨frames, nonnull, fits, called, same, live, reservations⟩ := initial
  have above := le_alignUp_page frames.heapCur
  have below := alignUp_page_lt frames.heapCur
  rw [pageframeAllocInit_eq physMemUpper (by omega), Option.some.injEq] at called
  have total := pagesTotal_lt physMemUpper
  cases run with
  | mk start now blocks reserved =>
      simp only at called same live reservations
      subst same live reservations called
      refine ⟨⟨rfl, ?_, ?_, List.forall_mem_nil _⟩, ⟨(Edited.refl _).congr fun page _ => ?_, ?_,
        List.forall_mem_nil _, List.forall_mem_nil _, List.Pairwise.nil⟩⟩
      · simp only [initialFrames]
        omega
      · simp only [initialFrames]
        omega
      · simp [FrameHistory.bits]
      · exact bit_initialFrames_reserved nonnull (by decide)

theorem historyBounds_reachable {physMemUpper : ℕ} {run : FrameHistory}
    (reachable : (historySystem physMemUpper).Reachable run) : HistoryBounds run :=
  reachable.invariant HistoryBounds (fun _ initial => (history_initial initial).1)
    (fun bounds _ stepped => bounds.step stepped)

theorem historyInvariant_reachable {physMemUpper : ℕ} {run : FrameHistory}
    (reachable : (historySystem physMemUpper).ReachableUnder ReservesOutside run) :
    HistoryInvariant run :=
  (reachable.invariant (fun run => HistoryBounds run ∧ HistoryInvariant run)
    (fun _ initial => history_initial initial)
    (fun both outside stepped =>
      ⟨both.1.step stepped, both.2.step both.1 outside stepped⟩)).2

/-- **Giving page frames back.** In every state of every run `pageframe_free` restores what
a call of `pageframe_alloc` has changed, and live blocks may be given back in any order. When
reservations have stayed off live blocks, giving all of them back leaves the allocator of the
start with the reservations made. -/
theorem free_restores {physMemUpper : ℕ} {run : FrameHistory}
    (reachable : (historySystem physMemUpper).Reachable run) :
    (∀ pages, 1 ≤ pages → ∀ ret after,
      pageframeAlloc physMemUpper run.frames pages = some (ret, after) → ret ≠ 0 →
        pageframeFree after ret pages = run.frames) ∧
    (∀ blocks order, blocks.Subperm run.live → order.Perm blocks →
      freeBlocks run.frames order = freeBlocks run.frames blocks) ∧
    ((historySystem physMemUpper).ReachableUnder ReservesOutside run →
      ∀ order, order.Perm run.live →
        freeBlocks run.frames order = run.reservations.foldl reservePages run.start) := by
  have bounds := historyBounds_reachable reachable
  refine ⟨?_, ?_, ?_⟩
  · intro pages some' ret after called nonnull
    exact pageframeFree_alloc bounds.initialized bounds.allocated bounds.total some' called nonnull
  · intro blocks order live same
    exact freeBlocks_perm run.frames same fun block member =>
      bounds.inside block (live.subset (same.subset member))
  · intro outside order all
    have invariant := historyInvariant_reachable outside
    have freed := edited_freeBlocks bounds.initialized bounds.allocated
      fun block member => bounds.inside block (all.subset member)
    have allocated : run.start.pageframeBitmap ≠ 0 := by
      rw [← invariant.edited.same.pageframeBitmap]
      exact bounds.allocated
    have reserved := edited_reserveAll allocated invariant.words
    refine (invariant.edited.trans freed).unique reserved fun page bound => ?_
    have members : (∃ block ∈ order, block.Contains page) ↔
        ∃ block ∈ run.live, block.Contains page :=
      exists_congr fun block => and_congr_left fun _ => all.mem_iff
    simp only [invariant.edited.bit page bound, FrameHistory.bits, members]
    by_cases live : ∃ block ∈ run.live, block.Contains page
    · obtain ⟨block, member, inside⟩ := id live
      obtain ⟨clear, notReserved⟩ := invariant.owned block member page inside
      simp only [live, notReserved, clear, decide_true, decide_false, Bool.or_false,
        Bool.not_true, Bool.and_false]
    · simp only [live, decide_false, Bool.or_false, Bool.not_false, Bool.and_true]

/-- On a machine with 16 MiB above the first, three pages are taken and given back. -/
theorem free_restores_three_pages : ∃ run ret after,
    (historySystem 16384).Reachable run ∧
      pageframeAlloc 16384 run.frames 3 = some (ret, after) ∧ ret ≠ 0 ∧
      pageframeFree after ret 3 = run.frames := by
  let kernel : Pageframe := ⟨⟨fun _ => 0#8, 0x100000⟩, false, 0, 0⟩
  have init := pageframeAllocInit_eq 16384 (show alignUp 4096 kernel.heapCur < 2 ^ 32 by decide)
  let run : FrameHistory :=
    ⟨initialFrames 16384 kernel.toKheap, initialFrames 16384 kernel.toKheap, [], []⟩
  have initial : (historySystem 16384).initial run :=
    ⟨kernel, by decide, by decide, init, rfl, rfl, rfl⟩
  have reachable : (historySystem 16384).Reachable run := .start initial
  have allocated : run.frames.pageframeBitmap ≠ 0 := (historyBounds_reachable reachable).allocated
  have free : FreeRun run.frames 2048 3 := by
    refine ⟨by decide, fun page above below => ?_⟩
    have inBitmap : page < pagesTotal 16384 / 8 * 8 := Nat.lt_trans below (by decide)
    rw [show run.frames.bit page = _ from bit_initialFrames (by decide) inBitmap]
    exact decide_eq_false (Nat.not_lt_of_le above)
  have found : allocPage run.frames 3 ≠ none := by
    rw [ne_eq, allocPage_eq_none_iff allocated (by decide) (by decide), not_not]
    exact ⟨2048, free, fun _ => by unfold InOneByte; decide⟩
  obtain ⟨start, here⟩ := Option.ne_none_iff_exists'.mp found
  have called : pageframeAlloc 16384 run.frames 3 = some _ := pageframeAlloc_eq 16384 rfl
  rw [here] at called
  have taken := (allocPage_free allocated here).1
  have positive := (history_initial initial).2.start_ne_zero (by decide) taken
  have below : start + 3 ≤ 4096 := taken.below
  have nonnull : pageframeAddrFromPage start ≠ 0 := by
    unfold pageframeAddrFromPage
    omega
  exact ⟨run, _, _, reachable, called, nonnull,
    (free_restores reachable).1 3 (by decide) _ _ called nonnull⟩

end CatchOS.Mmu
