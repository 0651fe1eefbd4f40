import CatchOS.Mmu.PageframeSearch

/-!
# The run that best fit takes

For up to eight pages `pageframe_alloc_bestfit` looks at one byte of the bitmap after
another, and takes its run from the first byte that has one. In a byte there may be
several runs of zeros, each ended by ones or by the end of the byte (`MaximalRun`). The
inner loop compares them as they end, and keeps the shortest one that is long enough, the
lowest one among equals (`BestRun`).

The loop invariant `Weighed` says this of the runs that have ended so far. A run is
offered when a one ends it, and the last run of the byte at the last turn; so after eight
turns all of them were weighed, and `pageframeAllocBestfit_best` follows for every bitmap.
-/

set_option autoImplicit false

namespace CatchOS.Mmu

open CatchOS.Lib CatchOS.Utils

/-! ## Runs of zeros in a byte -/

/-- A run of zeros that cannot be made longer on either side. -/
structure MaximalRun (bits : Byte) (start len : ℕ) : Prop where
  inside : start + len ≤ 8
  clear : ClearBits bits start len
  left : start = 0 ∨ bits.getLsbD (start - 1) = true
  right : start + len = 8 ∨ bits.getLsbD (start + len) = true

/-- The shortest of the maximal runs that are long enough, the lowest one among equals. -/
structure BestRun (bits : Byte) (pages start len : ℕ) : Prop where
  maximal : MaximalRun bits start len
  enough : pages ≤ len
  shortest : ∀ other otherLen, MaximalRun bits other otherLen → pages ≤ otherLen →
    len < otherLen ∨ len = otherLen ∧ start ≤ other

/-- A maximal run does not reach over a one. -/
theorem MaximalRun.not_mem {bits : Byte} {start len k : ℕ} (run : MaximalRun bits start len)
    (one : bits.getLsbD k = true) : ¬(start ≤ k ∧ k < start + len) := by
  rintro ⟨above, below⟩
  exact Bool.false_ne_true ((run.clear k above below).symm.trans one)

/-- The zeros between a one, or the start of the byte, and the next one, or the end of the
byte, are a maximal run, and the only one that ends there. -/
theorem maximalRun_between {bits : Byte} {first stop : ℕ} (ordered : first ≤ stop)
    (inside : stop ≤ 8) (zeros : ClearBits bits first (stop - first))
    (left : first = 0 ∨ bits.getLsbD (first - 1) = true)
    (right : stop = 8 ∨ bits.getLsbD stop = true) :
    MaximalRun bits first (stop - first) ∧ ∀ start len, MaximalRun bits start len → 1 ≤ len →
      first - 1 < start + len → start + len ≤ stop → start = first ∧ len = stop - first := by
  have ends : first + (stop - first) = stop := by omega
  refine ⟨⟨by omega, zeros, left, by rwa [ends]⟩, ?_⟩
  intro start len run long above below
  have beforeFirst : ¬(start < first ∧ first ≤ start + len) := by
    rintro ⟨early, reaches⟩
    exact run.not_mem (left.resolve_left (by omega)) ⟨by omega, by omega⟩
  have zero {k : ℕ} (above : first ≤ k) (below : k < stop) : bits.getLsbD k ≠ true := by
    rw [zeros k above (by omega)]
    exact Bool.false_ne_true
  have atStop : start + len = stop := by
    by_contra early
    exact zero (by omega) (by omega) (run.right.resolve_left (by omega))
  have atFirst : start = first := by
    by_contra late
    exact zero (by omega) (by omega) (run.left.resolve_left (by omega))
  omega

namespace BestfitScan

variable {bits : Byte} {pages j bound : ℕ} {scan : BestfitScan}

/-- The best fit among the maximal runs that end at or before `bound`. -/
structure Weighed (bits : Byte) (pages bound : ℕ) (scan : BestfitScan) : Prop where
  missed : scan.bestFitPos < 0 → scan.bestFitLen = 9 ∧
    ∀ start len, MaximalRun bits start len → pages ≤ len → bound < start + len
  found : 0 ≤ scan.bestFitPos → ∃ start len : ℕ, scan.bestFitPos = start ∧
    scan.bestFitLen = len ∧ MaximalRun bits start len ∧ pages ≤ len ∧ start + len ≤ bound ∧
    ∀ other otherLen, MaximalRun bits other otherLen → pages ≤ otherLen →
      other + otherLen ≤ bound → len < otherLen ∨ len = otherLen ∧ start ≤ other

theorem start_weighed (some' : 1 ≤ pages) : start.Weighed bits pages 0 where
  missed := by
    intro _
    refine ⟨rfl, fun first len _ enough => by omega⟩
  found := by
    intro nonneg
    cases nonneg

/-- Offering the current run weighs all runs up to its end, when no other run ends there. -/
theorem Weighed.offer (weighed : scan.Weighed bits pages bound) (few : pages ≤ 8)
    {first len : ℕ} (lastOne : scan.lastOne + 1 = first) (curLen : scan.curLen = len)
    (short : len ≤ 8) (after : bound ≤ first + len)
    (maximal : pages ≤ len → MaximalRun bits first len)
    (only : ∀ start other, MaximalRun bits start other → pages ≤ other → bound < start + other →
      start + other ≤ first + len → start = first ∧ other = len)
    (ordered : bound ≤ first) :
    (scan.offer pages).Weighed bits pages (first + len) := by
  have exact' : int32 pages = pages := int32_eq (by omega) (by omega)
  unfold BestfitScan.offer
  by_cases better : scan.bestFitLen > scan.curLen ∧ scan.curLen ≥ int32 pages
  · rw [if_pos better]
    rw [exact', curLen] at better
    obtain ⟨shorter, enough⟩ := better
    have fits : pages ≤ len := by omega
    refine ⟨fun missed => ?_, fun _ => ?_⟩
    · simp only at missed
      omega
    · refine ⟨first, len, lastOne, curLen, maximal fits, fits, Nat.le_refl _, ?_⟩
      intro other otherLen run long within
      by_cases new : bound < other + otherLen
      · obtain ⟨rfl, rfl⟩ := only other otherLen run long new within
        exact .inr ⟨rfl, Nat.le_refl _⟩
      · -- An older run is at least as long as the best fit before, so longer than this one.
        by_cases before : 0 ≤ scan.bestFitPos
        · obtain ⟨start, best, -, bestLen, -, -, -, least⟩ := weighed.found before
          have compared := least other otherLen run long (by omega)
          omega
        · have none := (weighed.missed (by omega)).2 other otherLen run long
          omega
  · rw [if_neg better]
    rw [exact', curLen] at better
    refine ⟨fun missed => ?_, fun nonneg => ?_⟩
    · obtain ⟨nine, none⟩ := weighed.missed missed
      refine ⟨nine, fun start other run long => ?_⟩
      by_contra within
      obtain ⟨-, rfl⟩ := only start other run long (none start other run long) (by omega)
      omega
    · obtain ⟨start, best, pos, bestLen, run, long, within, least⟩ := weighed.found nonneg
      refine ⟨start, best, pos, bestLen, run, long, by omega, ?_⟩
      intro other otherLen otherRun otherLong otherWithin
      by_cases new : bound < other + otherLen
      · obtain ⟨rfl, rfl⟩ := only other otherLen otherRun otherLong new otherWithin
        omega
      · exact least other otherLen otherRun otherLong (by omega)

/-- The current run: the zeros from `first` up to `j`, behind a one or at the start. -/
structure Current (bits : Byte) (first j : ℕ) (scan : BestfitScan) : Prop where
  ordered : first ≤ j
  lastOne : scan.lastOne + 1 = first
  curLen : scan.curLen = (j - first : ℕ)
  zeros : ClearBits bits first (j - first)
  left : first = 0 ∨ bits.getLsbD (first - 1) = true

theorem start_current : start.Current bits 0 0 where
  ordered := Nat.le_refl 0
  lastOne := rfl
  curLen := rfl
  zeros := by
    intro k above below
    omega
  left := .inl rfl

/-- A zero makes the current run longer. -/
theorem Current.longer {first : ℕ} (current : scan.Current bits first j)
    (zero : bits.getLsbD j = false) :
    ({ scan with curLen := scan.curLen + 1 } : BestfitScan).Current bits first (j + 1) := by
  have ordered := current.ordered
  have curLen := current.curLen
  refine ⟨by omega, current.lastOne, by simp only; omega, ?_, current.left⟩
  intro k above below
  by_cases here : k = j
  · rw [here]
    exact zero
  · exact current.zeros k above (by omega)

/-- Behind a one the current run is empty. -/
theorem current_after_one (one : bits.getLsbD j = true) (scan : BestfitScan) :
    ({ scan with curLen := 0, lastOne := j } : BestfitScan).Current bits (j + 1) (j + 1) := by
  refine ⟨Nat.le_refl _, rfl, by simp, ?_, .inr one⟩
  intro k above below
  omega

/-- The current run is offered where it ends. -/
theorem Weighed.ends {first stop : ℕ} (weighed : scan.Weighed bits pages (first - 1))
    (current : scan.Current bits first stop) (some' : 1 ≤ pages) (few : pages ≤ 8)
    (inside : stop ≤ 8) (right : stop = 8 ∨ bits.getLsbD stop = true) :
    (scan.offer pages).Weighed bits pages stop := by
  have ordered := current.ordered
  obtain ⟨maximal, only⟩ :=
    maximalRun_between ordered inside current.zeros current.left right
  have ends : first + (stop - first) = stop := by omega
  have offered := weighed.offer few current.lastOne current.curLen (by omega) (by omega)
    (fun _ => maximal)
    (fun start len run long above below => only start len run (by omega) above (by omega))
    (by omega)
  rwa [ends] at offered

/-- A turn before the last one. -/
theorem visit_before (some' : 1 ≤ pages) (few : pages ≤ 8) (before : j < 7) {first : ℕ}
    (current : scan.Current bits first j) (weighed : scan.Weighed bits pages (first - 1)) :
    ∃ next, (scan.visit bits pages j).Current bits next (j + 1) ∧
      (scan.visit bits pages j).Weighed bits pages (next - 1) := by
  unfold BestfitScan.visit
  by_cases zero : bits &&& (1#8 <<< j) = 0#8
  · simp only [if_pos zero, if_neg (show j ≠ 7 by omega)]
    rw [and_mask_eq_zero (by omega)] at zero
    exact ⟨first, current.longer zero, weighed.missed, weighed.found⟩
  · rw [if_neg zero]
    rw [and_mask_eq_zero (by omega), Bool.not_eq_false] at zero
    have offered := weighed.ends current some' few (by omega) (.inr zero)
    exact ⟨j + 1, current_after_one zero _, offered.missed, offered.found⟩

theorem foldl_before (some' : 1 ≤ pages) (few : pages ≤ 8) {turns : ℕ} (bound : turns ≤ 7) :
    ∃ first, ((List.range turns).foldl (visit bits pages) start).Current bits first turns ∧
      ((List.range turns).foldl (visit bits pages) start).Weighed bits pages (first - 1) := by
  induction turns with
  | zero => exact ⟨0, start_current, start_weighed some'⟩
  | succ turns ih =>
      obtain ⟨first, current, weighed⟩ := ih (by omega)
      rw [List.range_succ, List.foldl_append]
      exact visit_before some' few (by omega) current weighed

/-- The last turn ends the last run, also when its bit is a zero. -/
theorem weighed_foldl (some' : 1 ≤ pages) (few : pages ≤ 8) :
    ((List.range 8).foldl (visit bits pages) start).Weighed bits pages 8 := by
  obtain ⟨first, current, weighed⟩ := @foldl_before bits pages some' few 7 (Nat.le_refl 7)
  rw [show List.range 8 = List.range 7 ++ [7] from List.range_succ, List.foldl_append]
  generalize (List.range 7).foldl (visit bits pages) start = scan at current weighed
  rw [List.foldl_cons, List.foldl_nil, visit]
  by_cases zero : bits &&& (1#8 <<< 7) = 0#8
  · rw [if_pos zero]
    rw [and_mask_eq_zero (by decide)] at zero
    simp only [if_true]
    exact Weighed.ends ⟨weighed.missed, weighed.found⟩ (current.longer zero) some' few
      (Nat.le_refl 8) (.inl rfl)
  · rw [if_neg zero]
    rw [and_mask_eq_zero (by decide), Bool.not_eq_false] at zero
    have offered := weighed.ends current some' few (by decide) (.inr zero)
    -- No run ends at the end of the byte, because its last bit is a one.
    have notLast {start len : ℕ} (run : MaximalRun bits start len) (long : pages ≤ len) :
        start + len ≠ 8 := by
      intro last
      exact run.not_mem zero ⟨by omega, by omega⟩
    refine ⟨fun missed => ?_, fun nonneg => ?_⟩
    · obtain ⟨nine, none⟩ := offered.missed missed
      refine ⟨nine, fun start len run long => ?_⟩
      have late := none start len run long
      have inside := run.inside
      exact absurd (show start + len = 8 by omega) (notLast run long)
    · obtain ⟨start, len, pos, length, run, long, within, least⟩ := offered.found nonneg
      refine ⟨start, len, pos, length, run, long, by omega, ?_⟩
      intro other otherLen otherRun otherLong _
      have inside := otherRun.inside
      have early := notLast otherRun otherLong
      exact least other otherLen otherRun otherLong (by omega)

end BestfitScan

/-- **The search in a byte** finds the best run, and finds none only when no maximal run is
long enough. -/
theorem bestFitPos_best {bits : Byte} {pages : ℕ} (some' : 1 ≤ pages) (few : pages ≤ 8) :
    (bestFitPos bits pages < 0 ∧ ∀ start len, MaximalRun bits start len → len < pages) ∨
      ∃ start len : ℕ, bestFitPos bits pages = start ∧ BestRun bits pages start len := by
  have weighed := @BestfitScan.weighed_foldl bits pages some' few
  by_cases missed : bestFitPos bits pages < 0
  · refine .inl ⟨missed, fun start len run => ?_⟩
    have inside := run.inside
    by_contra long
    have late := (weighed.missed missed).2 start len run (by omega)
    omega
  · obtain ⟨start, len, pos, -, run, long, -, least⟩ := weighed.found (by
      unfold bestFitPos at missed
      omega)
    refine .inr ⟨start, len, pos, run, long, fun other otherLen otherRun otherLong => ?_⟩
    exact least other otherLen otherRun otherLong otherRun.inside

/-! ## The first byte with a run -/

/-- The byte of the bitmap has so many zeros in a row. -/
def FitsInByte (frames : Pageframe) (pages byte : ℕ) : Prop :=
  byte < frames.pagesTotalPhys / 8 ∧
    ∃ start, start + pages ≤ 8 ∧ ClearBits (frames.byte byte) start pages

section Bytes

variable {frames : Pageframe} {pages : ℕ}

/-- One turn of the outer loop. -/
def bestfitTurn (frames : Pageframe) (pages i : ℕ) : Option ℕ :=
  if frames.byte i = 0xff#8 then
    none
  else if 0 ≤ bestFitPos (frames.byte i) pages then
    some (i * 8 + (bestFitPos (frames.byte i) pages).toNat)
  else
    none

theorem bestfitTurn_eq_some {i page : ℕ} (some' : 1 ≤ pages) (few : pages ≤ 8)
    (turned : bestfitTurn frames pages i = some page) : ∃ start len,
      BestRun (frames.byte i) pages start len ∧ page = i * 8 + start := by
  unfold bestfitTurn at turned
  split_ifs at turned with full found
  rw [Option.some.injEq] at turned
  rcases @bestFitPos_best (frames.byte i) pages some' few with ⟨missed, -⟩ | ⟨start, len, pos, best⟩
  · omega
  · exact ⟨start, len, best, by omega⟩

/-- A turn without a result is at a byte without a run. -/
theorem bestfitTurn_eq_none {i : ℕ} (some' : 1 ≤ pages)
    (turned : bestfitTurn frames pages i = none) : ¬FitsInByte frames pages i := by
  rintro ⟨-, start, inside, clear⟩
  have found := bestFitPos_nonneg some' inside clear
  rw [bestfitTurn, if_neg (clear.ne_full some' inside), if_pos found] at turned
  cases turned

theorem BestRun.fitsInByte {byte start len : ℕ} (best : BestRun (frames.byte byte) pages start len)
    (bound : byte < frames.pagesTotalPhys / 8) : FitsInByte frames pages byte := by
  have inside := best.maximal.inside
  have enough := best.enough
  refine ⟨bound, start, by omega, fun k above below => ?_⟩
  exact best.maximal.clear k above (by omega)

theorem bestfitPage_eq_none (some' : 1 ≤ pages) (none' : bestfitPage frames pages = none) :
    ¬∃ byte, FitsInByte frames pages byte := by
  rintro ⟨byte, fits⟩
  have turned := List.findSome?_eq_none_iff.mp none' byte (List.mem_range.mpr fits.1)
  exact bestfitTurn_eq_none some' turned fits

/-- The outer loop stops at the first byte that has a run, and takes its best one. -/
theorem bestfitPage_eq_some {page : ℕ} (some' : 1 ≤ pages) (few : pages ≤ 8)
    (found : bestfitPage frames pages = some page) : ∃ byte start len,
      IsLeast {b | FitsInByte frames pages b} byte ∧
        BestRun (frames.byte byte) pages start len ∧ page = byte * 8 + start := by
  obtain ⟨skipped, byte, later, split, turned, missed⟩ := List.findSome?_eq_some_iff.mp found
  obtain ⟨start, len, best, rfl⟩ := bestfitTurn_eq_some some' few turned
  have bound : byte < frames.pagesTotalPhys / 8 := by
    rw [← List.mem_range, split]
    exact List.mem_append_right _ List.mem_cons_self
  refine ⟨byte, start, len, ⟨best.fitsInByte bound, fun other fits => ?_⟩, best, rfl⟩
  by_contra earlier
  -- The bytes before this one are those that were skipped.
  have member : other ∈ skipped ++ byte :: later := by
    rw [← split]
    exact List.mem_range.mpr fits.1
  have sorted : (skipped ++ byte :: later).Pairwise (· < ·) := by
    rw [← split]
    exact List.pairwise_lt_range
  rcases List.mem_append.mp member with before | after
  · exact bestfitTurn_eq_none some' (missed other before) fits
  · rcases List.mem_cons.mp after with rfl | behind
    · exact earlier (Nat.le_refl _)
    · have above := (List.pairwise_cons.mp (List.pairwise_append.mp sorted).2.1).1 other behind
      omega

/-- **Best fit.** A call for one to eight pages returns `NULL` with the bitmap as it was
exactly when no byte of the bitmap has so many zeros in a row. Otherwise it takes, in the
first byte that has, the first pages of the best run. -/
theorem pageframeAllocBestfit_best (allocated : frames.pageframeBitmap ≠ 0)
    (word : frames.pagesTotalPhys < 2 ^ 32) (reserved : frames.bit 0 = true) (some' : 1 ≤ pages)
    (few : pages ≤ 8) :
    ((pageframeAllocBestfit frames pages).1 = 0 ∧
        (∀ page < frames.pagesTotalPhys,
          (pageframeAllocBestfit frames pages).2.bit page = frames.bit page) ↔
      ¬∃ byte, FitsInByte frames pages byte) ∧
    ((¬∃ byte, FitsInByte frames pages byte) →
      pageframeAllocBestfit frames pages = (0, frames)) ∧
    ((∃ byte, FitsInByte frames pages byte) →
      ∃ byte start len, IsLeast {b | FitsInByte frames pages b} byte ∧
        BestRun (frames.byte byte) pages start len ∧
        Takes frames pages (8 * byte + start) (pageframeAllocBestfit frames pages).1
          (pageframeAllocBestfit frames pages).2) := by
  unfold pageframeAllocBestfit
  cases found : bestfitPage frames pages with
  | none =>
      have none' := bestfitPage_eq_none some' found
      refine ⟨⟨fun _ => none', fun _ => ⟨rfl, fun _ _ => rfl⟩⟩, fun _ => rfl, ?_⟩
      intro exists'
      exact absurd exists' none'
  | some page =>
      obtain ⟨free, -, -⟩ := bestfitPage_free few found
      obtain ⟨byte, start, len, least, best, place⟩ := bestfitPage_eq_some some' few found
      have takes := free.takes allocated word reserved some'
      have exists' : ∃ byte, FitsInByte frames pages byte := ⟨byte, least.1⟩
      refine ⟨⟨?_, fun none' => absurd exists' none'⟩, fun none' => absurd exists' none',
        fun _ => ⟨byte, start, len, least, best, ?_⟩⟩
      · rintro ⟨-, unchanged⟩
        exact absurd unchanged (takes.changes free word some')
      · rw [Nat.mul_comm 8 byte, ← place]
        exact takes

/-- The first byte is taken, and the second one has runs of three, two and one zeros: two
pages are found in the run of two. -/
theorem pageframeAllocBestfit_best_run_of_two :
    let memory : Memory :=
      Function.update (Function.update (fun _ => 0#8) 0x1000 0xff#8) 0x1001 0x48#8
    let frames : Pageframe := ⟨⟨memory, 0⟩, true, 0x1000, 16⟩
    (pageframeAllocBestfit frames 2).1 = 4096 * 12 ∧
      ∃ byte start len, IsLeast {b | FitsInByte frames 2 b} byte ∧
        BestRun (frames.byte byte) 2 start len ∧
        Takes frames 2 (8 * byte + start) (pageframeAllocBestfit frames 2).1
          (pageframeAllocBestfit frames 2).2 := by
  intro memory frames
  have found := (@pageframeAllocBestfit_best frames 2 (by decide) (by decide) (by decide)
    (by decide) (by decide)).2.2
  refine ⟨by decide +kernel, found ⟨1, by decide, 4, by decide, ?_⟩⟩
  intro k above below
  have few : ∀ k < 6, 4 ≤ k → (frames.byte 1).getLsbD k = false := by decide +kernel
  exact few k below above

end Bytes

end CatchOS.Mmu
