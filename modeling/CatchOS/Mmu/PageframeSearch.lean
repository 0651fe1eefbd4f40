import CatchOS.Mmu.PageframeOwnership

/-!
# What the searches for free pages miss

`pageframe_alloc` returns `NULL` when its search finds no run of free pages. First
fit reads the bitmap as one string of bits, and takes the first run there is
(`pageframeAllocFirstfit_first`). Best fit, for up to eight pages, looks at one byte of
the bitmap at a time, so it misses every run that crosses from one byte to the next
(`allocPage_eq_none_iff`).

A call therefore fails for want of memory alone exactly when it is for more than
eight pages, or when a run it may look for is inside one byte, or when there is no
run at all (`alloc_succeeds`).
-/

set_option autoImplicit false

namespace CatchOS.Mmu

open CatchOS.Lib CatchOS.Utils

/-! ## First fit -/

section Firstfit

variable {frames : Pageframe} {pages : ℕ}

/-- A run of pages none of whose bits is set. -/
def ClearRun (frames : Pageframe) (start pages : ℕ) : Prop :=
  ∀ k, start ≤ k → k < start + pages → frames.bit k = false

/-- A run that begins at or before a taken page and ends behind it is not clear. -/
theorem ClearRun.not_mem {start page : ℕ} (clear : ClearRun frames start pages)
    (taken : frames.bit page = true) : ¬(start ≤ page ∧ page < start + pages) := by
  rintro ⟨above, below⟩
  exact Bool.false_ne_true ((clear page above below).symm.trans taken)

/-- The second loop of first fit returns the first run there is: no clear run within
the pages it looks at starts before the one it finds, and there is none when it finds
nothing. -/
theorem firstfitScan_first (allocated : frames.pageframeBitmap ≠ 0) {bits i pageNo curLen : ℕ}
    (run : pageNo + curLen = i) (short : curLen < pages) {start : ℕ}
    (clear : ClearRun frames start pages) (after : pageNo ≤ start)
    (inside : start + pages ≤ i + bits) :
    ∃ found ≤ start, firstfitScan frames pages bits i pageNo curLen = some found := by
  induction bits generalizing i pageNo curLen with
  | zero => omega
  | succ bits ih =>
      rw [firstfitScan]
      by_cases zero : frames.getPage i = 0
      · rw [if_pos zero]
        by_cases enough : curLen + 1 = pages
        · rw [if_pos enough]
          exact ⟨pageNo, after, rfl⟩
        · rw [if_neg enough]
          exact ih (by omega) (by omega) after (by omega)
      · -- A run that starts before the taken page `i` would go beyond it.
        have taken : frames.bit i = true := by
          rw [getPage_eq_zero allocated, Bool.not_eq_false] at zero
          exact zero
        have missed := clear.not_mem taken
        rw [if_neg zero]
        exact ih (by omega) (by omega) (by omega) (by omega)

/-- The first loop of first fit skips taken pages only. -/
theorem firstfitSkip_taken {bytes i page : ℕ} (above : 8 * i ≤ page)
    (below : page < firstfitSkip frames bytes i (8 * i)) : frames.bit page = true := by
  induction bytes generalizing i with
  | zero =>
      rw [firstfitSkip] at below
      omega
  | succ bytes ih =>
      rw [firstfitSkip] at below
      by_cases full : frames.byte i = 0xff#8
      · rw [if_pos full] at below
        by_cases here : page < 8 * (i + 1)
        · have sameByte : page / 8 = i := by omega
          have ones : (0xff#8).getLsbD (page % 8) = true := by
            rw [show (0xff#8) = BitVec.allOnes 8 from rfl, BitVec.getLsbD_allOnes]
            exact decide_eq_true (Nat.mod_lt _ (by decide))
          unfold Pageframe.byte at full
          rw [Pageframe.bit, bitmapBit, sameByte, full, ones]
        · exact ih (by omega) below
      · rw [if_neg full] at below
        omega

/-- **First fit** finds the first run of free pages. -/
theorem firstfitPage_first (allocated : frames.pageframeBitmap ≠ 0) (some' : 1 ≤ pages)
    {start : ℕ} (free : FreeRun frames start pages) :
    ∃ found ≤ start, firstfitPage frames pages = some found := by
  have below := free.below
  have skipped : firstfitSkip frames (frames.pagesTotalPhys / 8) 0 0 ≤ start := by
    by_contra late
    have taken := firstfitSkip_taken (i := 0) (Nat.zero_le start) (Nat.lt_of_not_le late)
    have clear := free.clear start (Nat.le_refl _) (by omega)
    exact Bool.false_ne_true (clear.symm.trans taken)
  exact firstfitScan_first allocated (Nat.add_zero _) some' free.clear skipped (by omega)

/-- The page that first fit settles on is the least one at which a free run starts. -/
theorem firstfitPage_eq_some_iff (allocated : frames.pageframeBitmap ≠ 0) (some' : 1 ≤ pages)
    {start : ℕ} :
    firstfitPage frames pages = some start ↔ IsLeast {s | FreeRun frames s pages} start := by
  constructor
  · intro found
    refine ⟨firstfitPage_free allocated found, fun other free => ?_⟩
    obtain ⟨first, before, same⟩ := firstfitPage_first allocated some' free
    rw [found, Option.some.injEq] at same
    exact same ▸ before
  · rintro ⟨free, least⟩
    obtain ⟨first, before, found⟩ := firstfitPage_first allocated some' free
    have here := least (firstfitPage_free allocated found)
    rw [found, Nat.le_antisymm before here]

theorem firstfitPage_eq_none_iff (allocated : frames.pageframeBitmap ≠ 0) (some' : 1 ≤ pages) :
    firstfitPage frames pages = none ↔ ¬∃ start, FreeRun frames start pages := by
  constructor
  · rintro none ⟨start, free⟩
    obtain ⟨found, -, here⟩ := firstfitPage_first allocated some' free
    rw [none] at here
    cases here
  · intro missing
    by_contra found
    obtain ⟨start, here⟩ := Option.ne_none_iff_exists'.mp found
    exact missing ⟨start, firstfitPage_free allocated here⟩

/-- What a call of first fit leaves when it takes the run at `start`: the address of the
run, its bits set, and every other bit and every byte without a bit of the run as before. -/
structure Takes (frames : Pageframe) (pages start : ℕ) (ret : ℕ) (after : Pageframe) : Prop where
  address : ret = 4096 * start % 2 ^ 32
  unwrapped : frames.pagesTotalPhys < 2 ^ 20 → ret = 4096 * start ∧ ret ≠ 0
  bits : ∀ page < 2 ^ 32, after.bit page =
    (decide (start ≤ page ∧ page < start + pages) || frames.bit page)
  others : ∀ address, (∀ page, start ≤ page → page < start + pages →
    address ≠ offset frames.pageframeBitmap (page / 8)) →
    after.memory address = frames.memory address

theorem FreeRun.takes {start : ℕ} (free : FreeRun frames start pages)
    (allocated : frames.pageframeBitmap ≠ 0) (word : frames.pagesTotalPhys < 2 ^ 32)
    (reserved : frames.bit 0 = true) (some' : 1 ≤ pages) :
    Takes frames pages start (pageframeAddrFromPage start) (frames.setPages start pages) := by
  have below := free.below
  have positive : start ≠ 0 := by
    rintro rfl
    exact ClearRun.not_mem free.clear reserved ⟨Nat.le_refl 0, by omega⟩
  refine ⟨?_, ?_, fun page bound => bit_setPages allocated (by omega) bound, ?_⟩
  · rw [pageframeAddrFromPage, Nat.mul_comm]
  · intro small
    unfold pageframeAddrFromPage
    omega
  · exact fun address outside => bitmapSetBits_frame outside

/-- The bit of the first page was clear and is set now. -/
theorem Takes.changes {start ret : ℕ} {after : Pageframe}
    (takes : Takes frames pages start ret after)
    (free : FreeRun frames start pages) (word : frames.pagesTotalPhys < 2 ^ 32)
    (some' : 1 ≤ pages) : ¬∀ page < frames.pagesTotalPhys, after.bit page = frames.bit page := by
  intro unchanged
  have below := free.below
  have before := free.clear start (Nat.le_refl _) (by omega)
  have set := takes.bits start (by omega)
  rw [unchanged start (by omega), before, decide_eq_true ⟨Nat.le_refl _, by omega⟩,
    Bool.true_or] at set
  cases set

/-- **First fit.** A call for more than eight pages returns `NULL` with the bitmap as it was
exactly when there is no run of so many free pages. Otherwise it takes the first one. -/
theorem pageframeAllocFirstfit_first (allocated : frames.pageframeBitmap ≠ 0)
    (word : frames.pagesTotalPhys < 2 ^ 32) (reserved : frames.bit 0 = true) (many : 8 < pages) :
    ((pageframeAllocFirstfit frames pages).1 = 0 ∧
        (∀ page < frames.pagesTotalPhys,
          (pageframeAllocFirstfit frames pages).2.bit page = frames.bit page) ↔
      ¬∃ start, FreeRun frames start pages) ∧
    ((¬∃ start, FreeRun frames start pages) → pageframeAllocFirstfit frames pages = (0, frames)) ∧
    ((∃ start, FreeRun frames start pages) →
      ∃ start, IsLeast {s | FreeRun frames s pages} start ∧
        Takes frames pages start (pageframeAllocFirstfit frames pages).1
          (pageframeAllocFirstfit frames pages).2) := by
  have some' : 1 ≤ pages := by omega
  have missing := @firstfitPage_eq_none_iff frames pages allocated some'
  unfold pageframeAllocFirstfit
  cases found : firstfitPage frames pages with
  | none =>
      have none' := missing.mp found
      refine ⟨⟨fun _ => none', fun _ => ⟨rfl, fun _ _ => rfl⟩⟩, fun _ => rfl, ?_⟩
      intro exists'
      exact absurd exists' none'
  | some start =>
      have least := (firstfitPage_eq_some_iff allocated some').mp found
      have takes := FreeRun.takes least.1 allocated word reserved some'
      have exists' : ∃ start, FreeRun frames start pages := ⟨start, least.1⟩
      refine ⟨⟨?_, fun none' => absurd exists' none'⟩, fun none' => absurd exists' none',
        fun _ => ⟨start, least, takes⟩⟩
      rintro ⟨-, unchanged⟩
      exact absurd unchanged (takes.changes least.1 word some')

/-- Sixteen pages with the first one taken: nine of them are found at page 1. -/
theorem pageframeAllocFirstfit_first_sixteen :
    let frames : Pageframe := ⟨⟨Function.update (fun _ => 0#8) 0x1000 1#8, 0⟩, true, 0x1000, 16⟩
    (pageframeAllocFirstfit frames 9).1 = 4096 ∧ ∃ start, IsLeast {s | FreeRun frames s 9} start ∧
      Takes frames 9 start (pageframeAllocFirstfit frames 9).1
        (pageframeAllocFirstfit frames 9).2 := by
  intro frames
  have found := (@pageframeAllocFirstfit_first frames 9 (by decide) (by decide) (by decide)
    (by decide)).2.2
  refine ⟨by decide +kernel, found ⟨1, by decide, ?_⟩⟩
  intro k above below
  have few : ∀ k < 16, 1 ≤ k → frames.bit k = false := by decide +kernel
  exact few k (by omega) above

end Firstfit

/-! ## Best fit -/

section Bestfit

/-- The bits of a run inside a byte are clear. -/
def ClearBits (bits : Byte) (start pages : ℕ) : Prop :=
  ∀ k, start ≤ k → k < start + pages → bits.getLsbD k = false

/-- A byte with a zero is not one without a free page. -/
theorem ClearBits.ne_full {bits : Byte} {start pages : ℕ} (clear : ClearBits bits start pages)
    (some' : 1 ≤ pages) (inside : start + pages ≤ 8) : bits ≠ 0xff#8 := by
  intro full
  have bit := clear start (Nat.le_refl _) (by omega)
  rw [full, show (0xff#8) = BitVec.allOnes 8 from rfl, BitVec.getLsbD_allOnes,
    decide_eq_false_iff_not] at bit
  omega

namespace BestfitScan

variable {bits : Byte} {pages j : ℕ} {scan : BestfitScan}

/-- The variables after `j` turns without a fit: no run of `pages` zeros ends at or
before the last one, and after the last turn the current run is too short. -/
structure Complete (bits : Byte) (pages j : ℕ) (scan : BestfitScan) : Prop where
  one : 0 ≤ scan.lastOne → bits.getLsbD scan.lastOne.toNat = true
  unset : scan.bestFitPos < 0 → scan.bestFitLen = 9
  missed : scan.bestFitPos < 0 → ∀ start : ℕ, start + pages ≤ scan.lastOne + 1 →
    ¬ClearBits bits start pages
  offered : j = 8 → scan.bestFitPos < 0 → scan.lastOne < 7 → scan.curLen < pages

theorem start_complete (some' : 1 ≤ pages) : start.Complete bits pages 0 where
  one := by
    intro nonneg
    cases nonneg
  unset := fun _ => rfl
  missed := by
    intro _ first inside
    simp only [start] at inside
    omega
  offered := nofun

/-- Without a fit before, a run that is long enough is one. -/
theorem offer_missed (few : pages ≤ 8) (unset : scan.bestFitPos < 0 → scan.bestFitLen = 9)
    (last : -1 ≤ scan.lastOne) (bound : scan.curLen ≤ 8)
    (missed : (scan.offer pages).bestFitPos < 0) :
    scan.bestFitPos < 0 ∧ scan.curLen < pages ∧ scan.offer pages = scan := by
  have exact' : int32 pages = pages := int32_eq (by omega) (by omega)
  unfold offer at missed ⊢
  by_cases better : scan.bestFitLen > scan.curLen ∧ scan.curLen ≥ int32 pages
  · rw [if_pos better] at missed
    simp only at missed
    omega
  · rw [if_neg better] at missed ⊢
    have nine := unset missed
    rw [exact'] at better
    exact ⟨missed, by omega, rfl⟩

theorem offer_lastOne : (scan.offer pages).lastOne = scan.lastOne := by
  unfold offer
  split <;> rfl

/-- One turn of the loop keeps the variables complete. -/
theorem Complete.visit (complete : scan.Complete bits pages j) (sound : scan.Sound bits pages j)
    (few : pages ≤ 8) (bound : j < 8) : (scan.visit bits pages j).Complete bits pages (j + 1) := by
  have reach := sound.run
  have last := sound.last
  unfold BestfitScan.visit
  by_cases zero : bits &&& (1#8 <<< j) = 0#8
  · rw [if_pos zero]
    by_cases lastTurn : j = 7
    · simp only [if_pos lastTurn]
      have found := @offer_missed pages { scan with curLen := scan.curLen + 1 } few complete.unset
        last (by simp only; omega)
      refine ⟨?_, ?_, ?_, ?_⟩
      · rw [offer_lastOne]
        exact complete.one
      · intro missed
        obtain ⟨before, -, same⟩ := found missed
        rw [same]
        exact complete.unset before
      · intro missed start inside
        rw [offer_lastOne] at inside
        exact complete.missed (found missed).1 start inside
      · intro _ missed _
        obtain ⟨-, short, same⟩ := found missed
        rw [same]
        exact short
    · simp only [if_neg lastTurn]
      exact ⟨complete.one, complete.unset, complete.missed, fun turns => by omega⟩
  · rw [if_neg zero]
    have one : bits.getLsbD j = true := by
      rw [and_mask_eq_zero bound, Bool.not_eq_false] at zero
      exact zero
    have found := offer_missed few complete.unset last (by omega)
    refine ⟨fun _ => one, ?_, ?_, ?_⟩
    · intro missed
      obtain ⟨before, -, same⟩ := found missed
      rw [same]
      exact complete.unset before
    · intro missed start inside clear
      simp only at inside
      obtain ⟨before, short, -⟩ := found missed
      -- The run holds the one at `j`, or the last one before it, or ends before that.
      have beforeHere : ¬(start ≤ j ∧ j < start + pages) := by
        rintro ⟨above, below⟩
        exact Bool.false_ne_true ((clear j above below).symm.trans one)
      by_cases earlier : start + pages ≤ scan.lastOne + 1
      · exact complete.missed before start earlier clear
      · have lastOne := complete.one (by omega)
        exact Bool.false_ne_true ((clear _ (by omega) (by omega)).symm.trans lastOne)
    · intro turns _ low
      simp only at low
      omega

/-- The variables are complete after any number of turns. -/
theorem complete_foldl (some' : 1 ≤ pages) (few : pages ≤ 8) {turns : ℕ} (bound : turns ≤ 8) :
    ((List.range turns).foldl (BestfitScan.visit bits pages) start).Complete bits pages turns := by
  induction turns with
  | zero => exact start_complete some'
  | succ turns ih =>
      rw [List.range_succ, List.foldl_append]
      exact (ih (by omega)).visit (sound_foldl few (by omega)) few (by omega)

end BestfitScan

/-- The search in a byte finds a run of `pages` zeros when the byte has one. -/
theorem bestFitPos_nonneg {bits : Byte} {start pages : ℕ} (some' : 1 ≤ pages)
    (inside : start + pages ≤ 8) (clear : ClearBits bits start pages) :
    0 ≤ bestFitPos bits pages := by
  by_contra missed
  have few : pages ≤ 8 := by omega
  have sound := @BestfitScan.sound_foldl bits pages few 8 (Nat.le_refl 8)
  have complete := @BestfitScan.complete_foldl bits pages some' few 8 (Nat.le_refl 8)
  unfold bestFitPos at missed
  generalize (List.range 8).foldl (BestfitScan.visit bits pages) BestfitScan.start = scan
    at missed sound complete
  have reach := sound.run
  have offered := complete.offered rfl (by omega)
  by_cases earlier : start + pages ≤ scan.lastOne + 1
  · exact complete.missed (by omega) start earlier clear
  · have lastOne := complete.one (by omega)
    exact Bool.false_ne_true ((clear _ (by omega) (by omega)).symm.trans lastOne)

/-- **Best fit** finds a run when one is inside a byte of the bitmap. -/
theorem bestfitPage_isSome {frames : Pageframe} {start pages : ℕ} (some' : 1 ≤ pages)
    (clear : ClearRun frames start pages) (oneByte : InOneByte start pages)
    (below : start / 8 < frames.pagesTotalPhys / 8) : (bestfitPage frames pages).isSome := by
  unfold InOneByte at oneByte
  have inByte : ClearBits (frames.byte (start / 8)) (start % 8) pages := by
    intro k above inside
    have bit := clear (start / 8 * 8 + k) (by omega) (by omega)
    have sameByte : (start / 8 * 8 + k) / 8 = start / 8 := by omega
    have samePlace : (start / 8 * 8 + k) % 8 = k := by omega
    rwa [Pageframe.bit, bitmapBit, sameByte, samePlace] at bit
  have found := bestFitPos_nonneg some' oneByte inByte
  unfold bestfitPage
  rw [List.findSome?_isSome_iff]
  refine ⟨start / 8, List.mem_range.mpr below, ?_⟩
  rw [if_neg (inByte.ne_full some' oneByte), if_pos found]
  rfl

end Bestfit

/-! ## When a call fails -/

/-- A call settles on no page exactly when there is no free run that its search looks
at: any run for more than eight pages, and a run inside one byte otherwise. -/
theorem allocPage_eq_none_iff {frames : Pageframe} {pages : ℕ}
    (allocated : frames.pageframeBitmap ≠ 0) (multiple : frames.pagesTotalPhys % 8 = 0)
    (some' : 1 ≤ pages) :
    allocPage frames pages = none ↔
      ¬∃ start, FreeRun frames start pages ∧ (pages ≤ 8 → InOneByte start pages) := by
  unfold allocPage
  by_cases many : pages > 8
  · rw [if_pos many]
    rw [firstfitPage_eq_none_iff allocated some', not_iff_not]
    refine exists_congr fun start => ⟨fun free => ⟨free, fun few => ?_⟩, And.left⟩
    exact absurd few (by omega)
  · rw [if_neg many]
    have few : pages ≤ 8 := by omega
    constructor
    · rintro none ⟨start, free, oneByte⟩
      have below := free.below
      have here := bestfitPage_isSome some' free.clear (oneByte few) (by omega)
      rw [none] at here
      cases here
    · intro missing
      by_contra found
      obtain ⟨start, here⟩ := Option.ne_none_iff_exists'.mp found
      obtain ⟨free, oneByte, -⟩ := bestfitPage_free few here
      exact missing ⟨start, free, fun _ => oneByte⟩

/-- The call returns `NULL`. -/
def ReturnsNull (physMemUpper : ℕ) (frames : Pageframe) (pages : ℕ) : Prop :=
  ∃ after, pageframeAlloc physMemUpper frames pages = some (0, after)

/-- A block is never at address zero, so `NULL` means that no page was found. -/
theorem FrameInvariant.returnsNull_iff {physMemUpper : ℕ} {run : FrameRun}
    (invariant : FrameInvariant physMemUpper run) {pages : ℕ} (some' : 1 ≤ pages) :
    ReturnsNull physMemUpper run.frames pages ↔ allocPage run.frames pages = none := by
  unfold ReturnsNull
  rw [pageframeAlloc_eq physMemUpper invariant.initialized]
  cases found : allocPage run.frames pages with
  | none => exact ⟨fun _ => rfl, fun _ => ⟨_, rfl⟩⟩
  | some start =>
      refine ⟨?_, nofun⟩
      rintro ⟨after, called⟩
      have free := (allocPage_free invariant.allocated found).1
      have above := invariant.start_ge free some'
      have below := free.below
      have total := invariant.total_le
      simp only [Option.some.injEq, Prod.mk.injEq, pageframeAddrFromPage] at called
      omega

theorem FrameInvariant.null_iff {physMemUpper : ℕ} {run : FrameRun}
    (invariant : FrameInvariant physMemUpper run) (multiple : pagesTotal physMemUpper % 8 = 0)
    {pages : ℕ} (some' : 1 ≤ pages) :
    ReturnsNull physMemUpper run.frames pages ↔
      ¬∃ start, FreeRun run.frames start pages ∧ (pages ≤ 8 → InOneByte start pages) := by
  rw [invariant.returnsNull_iff some']
  exact allocPage_eq_none_iff invariant.allocated (by rw [invariant.total]; exact multiple) some'

/-- **When an allocation succeeds whenever it can.** In every state of every run with a
number of pages that is a multiple of eight, a call for `pages` pages returns `NULL`
only if there is no run of free pages, exactly when it is for more than eight pages, or
when some free run is inside one byte of the bitmap if there is any. -/
theorem alloc_succeeds {physMemUpper : ℕ} (multiple : pagesTotal physMemUpper % 8 = 0)
    {run : FrameRun} (reachable : (frameSystem physMemUpper).Reachable run) {pages : ℕ}
    (some' : 1 ≤ pages) :
    (ReturnsNull physMemUpper run.frames pages → ¬∃ start, FreeRun run.frames start pages) ↔
      (8 < pages ∨ ((∃ start, FreeRun run.frames start pages) →
        ∃ start, FreeRun run.frames start pages ∧ InOneByte start pages)) := by
  rw [(frameInvariant_reachable multiple reachable).null_iff multiple some']
  constructor
  · intro succeeds
    by_cases many : 8 < pages
    · exact .inl many
    · refine .inr fun exists' => ?_
      by_contra missed
      refine succeeds ?_ exists'
      rintro ⟨start, free, oneByte⟩
      exact missed ⟨start, free, oneByte (by omega)⟩
  · rintro (many | found) null ⟨start, free⟩
    · exact null ⟨start, free, fun few => by omega⟩
    · obtain ⟨other, otherFree, oneByte⟩ := found ⟨start, free⟩
      exact null ⟨other, otherFree, fun _ => oneByte⟩

/-- The free runs are the vacant extents below the total. -/
theorem FrameInvariant.freeRun_iff {physMemUpper : ℕ} {run : FrameRun}
    (invariant : FrameInvariant physMemUpper run) {start pages : ℕ} :
    FreeRun run.frames start pages ↔
      start + pages ≤ pagesTotal physMemUpper ∧ run.ledger.Vacant ⟨start, pages⟩ := by
  constructor
  · intro free
    exact ⟨invariant.total ▸ free.below, invariant.vacant free⟩
  · rintro ⟨below, vacant⟩
    refine ⟨by rw [invariant.total]; exact below, ?_⟩
    intro page above inside
    rw [← Bool.not_eq_true, invariant.bits page (by omega)]
    exact vacant page ⟨above, inside⟩

/-- A state that is reached by reserving pages. -/
theorem exists_reserved {physMemUpper : ℕ} {run : FrameRun}
    (reachable : (frameSystem physMemUpper).Reachable run)
    (multiple : pagesTotal physMemUpper % 8 = 0) (page pages : ℕ)
    (below : page + pages ≤ pagesTotal physMemUpper) :
    ∃ next, (frameSystem physMemUpper).Reachable next ∧
      next.ledger = run.ledger.reserve ⟨page, pages⟩ := by
  have invariant := frameInvariant_reachable multiple reachable
  have here : pageFromAddr (page * 4096) = page := Nat.mul_div_cancel _ (by decide)
  have stepped : run.step physMemUpper (.setPageFromAddr (page * 4096) pages) = some
      ⟨pageframeSetPageFromAddr run.frames (page * 4096) pages,
        run.ledger.reserve ⟨page, pages⟩⟩ := by
    rw [FrameRun.step, here, invariant.total, if_pos below]
  exact ⟨_, frameSystem_step reachable stepped, rfl⟩

/-- The allocator of a machine after `pageframe_alloc_init`, with the kernel's heap at
1 MiB. -/
theorem exists_started (physMemUpper : ℕ) : ∃ run, (frameSystem physMemUpper).Reachable run ∧
    run.ledger = ⟨Finset.range 2048, []⟩ := by
  let kernel : Pageframe := ⟨⟨fun _ => 0#8, 0x100000⟩, false, 0, 0⟩
  have init := pageframeAllocInit_eq physMemUpper
    (show alignUp 4096 kernel.heapCur < 2 ^ 32 by decide)
  exact ⟨⟨_, _⟩, .start ⟨kernel, by decide, by decide, init, rfl⟩, rfl⟩

/-- On a machine with sixteen pages above the first 8 MiB, seven of them reserved, two
pages are found in the second byte. -/
theorem alloc_succeeds_second_byte : ∃ run, (frameSystem 8256).Reachable run ∧
    FreeRun run.frames 2056 2 ∧ ¬ReturnsNull 8256 run.frames 2 := by
  obtain ⟨start, started, ledger⟩ := exists_started 8256
  obtain ⟨run, reachable, reserved⟩ := exists_reserved started (by decide) 2048 7 (by decide)
  have invariant := frameInvariant_reachable (by decide) reachable
  have free : FreeRun run.frames 2056 2 := by
    refine invariant.freeRun_iff.mpr ⟨by decide, ?_⟩
    intro page inside
    simp only [Extent.Contains] at inside
    simp only [reserved, ledger, Ledger.Used, Ledger.reserve, Finset.mem_union, Finset.mem_range,
      Finset.mem_Ico, List.not_mem_nil, false_and, exists_false, or_false]
    omega
  refine ⟨run, reachable, free, fun null => ?_⟩
  exact (alloc_succeeds (by decide) reachable (by decide)).mpr
    (.inr fun _ => ⟨2056, free, by unfold InOneByte; decide⟩) null ⟨2056, free⟩

/-- With the last page of one byte and the first page of the next free and no other, a
call for two pages returns `NULL`. -/
theorem alloc_misses_run : ¬∀ run, (frameSystem 8256).Reachable run → ∀ pages, 1 ≤ pages →
    ReturnsNull 8256 run.frames pages → ¬∃ start, FreeRun run.frames start pages := by
  intro succeeds
  obtain ⟨start, started, ledger⟩ := exists_started 8256
  obtain ⟨between, reached, first⟩ := exists_reserved started (by decide) 2048 7 (by decide)
  obtain ⟨run, reachable, second⟩ := exists_reserved reached (by decide) 2057 7 (by decide)
  have invariant := frameInvariant_reachable (by decide) reachable
  have used (page : ℕ) : run.ledger.Used page ↔
      (page < 2048 ∨ 2048 ≤ page ∧ page < 2055) ∨ 2057 ≤ page ∧ page < 2064 := by
    simp only [second, first, ledger, Ledger.Used, Ledger.reserve, Finset.mem_union,
      Finset.mem_range, Finset.mem_Ico, List.not_mem_nil, false_and, exists_false, or_false]
  have free : FreeRun run.frames 2055 2 := by
    refine invariant.freeRun_iff.mpr ⟨by decide, ?_⟩
    intro page inside
    simp only [Extent.Contains] at inside
    rw [used]
    omega
  refine succeeds run reachable 2 (by decide) ?_ ⟨2055, free⟩
  rw [invariant.null_iff (by decide) (by decide)]
  rintro ⟨start, found, oneByte⟩
  obtain ⟨below, vacant⟩ := invariant.freeRun_iff.mp found
  have total : pagesTotal 8256 = 2064 := by decide
  have here := vacant start ⟨Nat.le_refl _, by simp only; omega⟩
  have there := vacant (start + 1) ⟨by simp only; omega, by simp only; omega⟩
  have inByte := oneByte (by decide)
  rw [used] at here there
  unfold InOneByte at inByte
  omega

end CatchOS.Mmu
