import CatchOS.Lib.Extent
import CatchOS.Lib.Transition
import CatchOS.Mmu.PageframeAlloc

/-!
# Ownership of page frames

What the page-frame allocator is for: no page has two owners. A run starts with
`pageframe_alloc_init`, and then takes blocks, gives live blocks back and
reserves pages, in any order. Next to the allocator the run keeps a ledger of the
pages that are reserved and of the blocks that are live.

The bitmap is the ledger (`FrameInvariant`): a bit is set exactly when its page is
used. So both searches, which look at the bitmap only, find vacant blocks, and
`pageframe_ownership` follows for every run whose number of pages is a multiple of
eight and at least 2048.
-/

set_option autoImplicit false

namespace CatchOS.Mmu

open CatchOS.Lib CatchOS.Utils

/-- The allocator, and who owns which page. -/
structure FrameRun where
  frames : Pageframe
  ledger : Ledger

inductive FrameAction where
  | alloc (pages : ℕ)
  | free (block : Extent)
  | setPageFromAddr (physAddr pages : ℕ)

/-- A block that is handed out becomes live; `NULL` is no block. -/
def ledgerAfterAlloc (ledger : Ledger) (ret pages : ℕ) : Ledger :=
  if ret = 0 then ledger else ledger.grant ⟨pageFromAddr ret, pages⟩

/-- A live block is freed with its own address and number of pages; pages are
reserved below the total. -/
def FrameRun.step (physMemUpper : ℕ) (run : FrameRun) : FrameAction → Option FrameRun
  | .alloc pages =>
      if 1 ≤ pages ∧ pages < 2 ^ 32 then
        match pageframeAlloc physMemUpper run.frames pages with
        | none => none
        | some (ret, frames) => some ⟨frames, ledgerAfterAlloc run.ledger ret pages⟩
      else
        none
  | .free block =>
      if block ∈ run.ledger.live then
        some ⟨pageframeFree run.frames (block.start * 4096) block.size, run.ledger.release block⟩
      else
        none
  | .setPageFromAddr physAddr pages =>
      if pageFromAddr physAddr + pages ≤ run.frames.pagesTotalPhys then
        some ⟨pageframeSetPageFromAddr run.frames physAddr pages,
          run.ledger.reserve ⟨pageFromAddr physAddr, pages⟩⟩
      else
        none

/-- Runs start with `pageframe_alloc_init`. The heap it takes the bitmap from is
behind the kernel image, so its pointer is not `NULL`, and not in the last page of
the address space. -/
def frameSystem (physMemUpper : ℕ) : System FrameRun FrameAction where
  initial run := ∃ frames : Pageframe, 0 < frames.heapCur ∧ frames.heapCur + 4096 ≤ 2 ^ 32 ∧
    pageframeAllocInit physMemUpper frames = some run.frames ∧
    run.ledger = ⟨Finset.range 2048, []⟩
  step := FrameRun.step physMemUpper

theorem frameSystem_step {physMemUpper : ℕ} {run next : FrameRun} {action : FrameAction}
    (reachable : (frameSystem physMemUpper).Reachable run)
    (stepped : run.step physMemUpper action = some next) :
    (frameSystem physMemUpper).Reachable next :=
  .step reachable trivial stepped

/-- The bitmap is the ledger, and live blocks are apart. -/
structure FrameInvariant (physMemUpper : ℕ) (run : FrameRun) : Prop where
  initialized : run.frames.isInitialized = true
  allocated : run.frames.pageframeBitmap ≠ 0
  total : run.frames.pagesTotalPhys = pagesTotal physMemUpper
  bits : ∀ page < pagesTotal physMemUpper, run.frames.bit page = true ↔ run.ledger.Used page
  kernel : Finset.range 2048 ⊆ run.ledger.reserved
  apart : run.ledger.live.Pairwise Extent.Apart
  inside : ∀ block ∈ run.ledger.live,
    2048 ≤ block.start ∧ block.start + block.size ≤ pagesTotal physMemUpper

namespace FrameInvariant

variable {physMemUpper : ℕ} {run next : FrameRun}

theorem total_le (invariant : FrameInvariant physMemUpper run) :
    run.frames.pagesTotalPhys ≤ 2 ^ 20 := by
  rw [invariant.total]
  exact Nat.le_of_lt (pagesTotal_lt physMemUpper)

/-- The pages of a free run are vacant in the ledger. -/
theorem vacant (invariant : FrameInvariant physMemUpper run) {start pages : ℕ}
    (free : FreeRun run.frames start pages) : run.ledger.Vacant ⟨start, pages⟩ := by
  intro page inside used
  have below := free.below
  rw [invariant.total] at below
  have taken := (invariant.bits page (Nat.lt_of_lt_of_le inside.2 below)).mpr used
  exact Bool.false_ne_true ((free.clear page inside.1 inside.2).symm.trans taken)

/-- A free run is above the pages of the kernel. -/
theorem start_ge (invariant : FrameInvariant physMemUpper run) {start pages : ℕ}
    (free : FreeRun run.frames start pages) (some' : 1 ≤ pages) : 2048 ≤ start := by
  by_contra low
  have inKernel := invariant.kernel (Finset.mem_range.mpr (Nat.lt_of_not_le low))
  exact invariant.vacant free start ⟨Nat.le_refl _, by simp only; omega⟩ (.inl inKernel)

/-! ## Steps -/

/-- Setting the bits of a run of pages below the total, next to a ledger that
gains these pages. -/
theorem setPages_bits (invariant : FrameInvariant physMemUpper run) (extent : Extent)
    {ledger : Ledger} (below : extent.start + extent.size ≤ pagesTotal physMemUpper)
    (gained : ∀ page, ledger.Used page ↔ extent.Contains page ∨ run.ledger.Used page) :
    ∀ page < pagesTotal physMemUpper,
      (run.frames.setPages extent.start extent.size).bit page = true ↔ ledger.Used page := by
  intro page bound
  have total := pagesTotal_lt physMemUpper
  rw [bit_setPages invariant.allocated (by omega) (by omega), Bool.or_eq_true,
    decide_eq_true_iff, invariant.bits page bound, gained page]
  rfl

theorem alloc (invariant : FrameInvariant physMemUpper run) {pages : ℕ}
    (stepped : run.step physMemUpper (.alloc pages) = some next) :
    FrameInvariant physMemUpper next := by
  simp only [FrameRun.step] at stepped
  split at stepped
  case isFalse => cases stepped
  case isTrue bounds =>
      cases called : pageframeAlloc physMemUpper run.frames pages with
      | none =>
          rw [called] at stepped
          cases stepped
      | some result =>
          obtain ⟨ret, after⟩ := result
          rw [called] at stepped
          simp only [Option.some.injEq] at stepped
          subst stepped
          rcases pageframeAlloc_cases invariant.initialized invariant.allocated invariant.total_le
            bounds.1 called with ⟨rfl, rfl⟩ | ⟨start, free, -, rfl, rfl⟩
          · exact invariant
          · have above := invariant.start_ge free bounds.1
            have below := free.below
            rw [invariant.total] at below
            have nonnull : start * 4096 ≠ 0 := by omega
            have page : pageFromAddr (start * 4096) = start := Nat.mul_div_cancel _ (by decide)
            rw [ledgerAfterAlloc, if_neg nonnull, page]
            have kept := invariant.setPages_bits ⟨start, pages⟩ below
              fun _ => Ledger.used_grant
            exact ⟨invariant.initialized, invariant.allocated, invariant.total, kept,
              invariant.kernel, Ledger.pairwise_grant invariant.apart (invariant.vacant free),
              List.forall_mem_cons.mpr ⟨⟨above, below⟩, invariant.inside⟩⟩

theorem free (invariant : FrameInvariant physMemUpper run) {block : Extent}
    (stepped : run.step physMemUpper (.free block) = some next) :
    FrameInvariant physMemUpper next := by
  simp only [FrameRun.step] at stepped
  split at stepped
  case isFalse => cases stepped
  case isTrue live =>
      simp only [Option.some.injEq] at stepped
      subst stepped
      have total := pagesTotal_lt physMemUpper
      obtain ⟨above, below⟩ := invariant.inside block live
      have inTable : block.start + block.size ≤ 2 ^ 20 := by omega
      obtain ⟨same, bits⟩ :=
        pageframeFree_spec invariant.initialized invariant.allocated inTable
      refine ⟨?_, ?_, ?_, ?_, ?_, Ledger.pairwise_release invariant.apart, ?_⟩
      · rw [same.isInitialized]
        exact invariant.initialized
      · rw [same.pageframeBitmap]
        exact invariant.allocated
      · rw [same.pagesTotalPhys]
        exact invariant.total
      · intro page bound
        rw [bits page (by omega), Ledger.used_release invariant.apart live,
          ← invariant.bits page bound, Bool.and_eq_true, Bool.not_eq_true', decide_eq_false_iff_not]
        rfl
      · intro page low
        have inKernel := invariant.kernel low
        rw [Finset.mem_range] at low
        refine Finset.mem_sdiff.mpr ⟨inKernel, ?_⟩
        rw [Extent.mem_Ico_iff]
        intro inBlock
        have start := inBlock.1
        omega
      · intro other member
        exact invariant.inside other (List.mem_of_mem_erase member)

theorem setPageFromAddr (invariant : FrameInvariant physMemUpper run) {physAddr pages : ℕ}
    (stepped : run.step physMemUpper (.setPageFromAddr physAddr pages) = some next) :
    FrameInvariant physMemUpper next := by
  simp only [FrameRun.step] at stepped
  split at stepped
  case isFalse => cases stepped
  case isTrue below =>
      simp only [Option.some.injEq] at stepped
      subst stepped
      rw [invariant.total] at below
      have kept := invariant.setPages_bits ⟨pageFromAddr physAddr, pages⟩ below
        fun _ => Ledger.used_reserve
      refine ⟨invariant.initialized, invariant.allocated, invariant.total, kept, ?_,
        invariant.apart, invariant.inside⟩
      intro page low
      exact Finset.mem_union_left _ (invariant.kernel low)

/-- Every operation keeps the invariant. -/
theorem step (invariant : FrameInvariant physMemUpper run) {action : FrameAction}
    (stepped : run.step physMemUpper action = some next) : FrameInvariant physMemUpper next := by
  cases action with
  | alloc pages => exact invariant.alloc stepped
  | free block => exact invariant.free stepped
  | setPageFromAddr physAddr pages => exact invariant.setPageFromAddr stepped

end FrameInvariant

/-- The invariant holds after `pageframe_alloc_init`, when the bitmap has a bit for
every page and for the pages of the kernel. -/
theorem frameInvariant_initial {physMemUpper : ℕ} {run : FrameRun}
    (multiple : pagesTotal physMemUpper % 8 = 0)
    (initial : (frameSystem physMemUpper).initial run) : FrameInvariant physMemUpper run := by
  obtain ⟨frames, nonnull, fits, called, ledger⟩ := initial
  have above := le_alignUp_page frames.heapCur
  have below := alignUp_page_lt frames.heapCur
  rw [pageframeAllocInit_eq physMemUpper (by omega), Option.some.injEq] at called
  have allocated : alignUp 4096 frames.heapCur ≠ 0 := by omega
  cases run with
  | mk after owners =>
      simp only at called ledger
      subst called ledger
      refine ⟨rfl, allocated, rfl, ?_, Finset.Subset.refl _, List.Pairwise.nil, ?_⟩
      · intro page bound
        rw [bit_initialFrames nonnull (by omega), decide_eq_true_iff]
        simp [Ledger.Used]
      · intro block member
        cases member

theorem frameInvariant_reachable {physMemUpper : ℕ} {run : FrameRun}
    (multiple : pagesTotal physMemUpper % 8 = 0)
    (reachable : (frameSystem physMemUpper).Reachable run) : FrameInvariant physMemUpper run :=
  reachable.invariant (FrameInvariant physMemUpper)
    (fun _ initial => frameInvariant_initial multiple initial)
    (fun invariant _ stepped => invariant.step stepped)

/-! ## Ownership -/

/-- What a call of `pageframe_alloc` does: it returns `NULL` and changes nothing, or
it returns an address other than `NULL`, of a block of pages below the total whose
bits were clear and are set now. -/
def HandsOut (frames : Pageframe) (pages ret : ℕ) (after : Pageframe) : Prop :=
  (ret = 0 ∧ after = frames) ∨
    (ret ≠ 0 ∧ ∃ start, ret = start * 4096 ∧ start + pages ≤ frames.pagesTotalPhys ∧
      ∀ page, start ≤ page → page < start + pages →
        frames.getPage page = 0 ∧ after.getPage page = 1)

theorem FrameInvariant.handsOut {physMemUpper : ℕ} {run : FrameRun}
    (invariant : FrameInvariant physMemUpper run) {pages : ℕ} (some' : 1 ≤ pages) :
    ∃ ret after, pageframeAlloc physMemUpper run.frames pages = some (ret, after) ∧
      HandsOut run.frames pages ret after := by
  obtain ⟨ret, after, called⟩ := pageframeAlloc_returns physMemUpper pages invariant.initialized
  refine ⟨ret, after, called, ?_⟩
  rcases pageframeAlloc_cases invariant.initialized invariant.allocated invariant.total_le some'
    called with null | ⟨start, free, -, rfl, rfl⟩
  · exact .inl null
  · have above := invariant.start_ge free some'
    have below := free.below
    have bound := invariant.total_le
    refine .inr ⟨by omega, start, rfl, below, ?_⟩
    intro page fromStart toEnd
    refine ⟨(getPage_eq_zero invariant.allocated).mpr (free.clear page fromStart toEnd), ?_⟩
    have allocated : (run.frames.setPages start pages).pageframeBitmap ≠ 0 := invariant.allocated
    rw [getPage_eq_one allocated, bit_setPages invariant.allocated (by omega) (by omega),
      decide_eq_true ⟨fromStart, toEnd⟩, Bool.true_or]

/-- A block can be asked for in every state. -/
theorem FrameInvariant.exists_alloc {physMemUpper : ℕ} {run : FrameRun}
    (invariant : FrameInvariant physMemUpper run) {pages : ℕ} (some' : 1 ≤ pages)
    (word : pages < 2 ^ 32) : ∃ next, run.step physMemUpper (.alloc pages) = some next := by
  obtain ⟨ret, after, called⟩ := pageframeAlloc_returns physMemUpper pages invariant.initialized
  refine ⟨⟨after, ledgerAfterAlloc run.ledger ret pages⟩, ?_⟩
  simp only [FrameRun.step, called]
  rw [if_pos ⟨some', word⟩]

/-- **Page-frame ownership.** In every state of every run with a number of pages
that is a multiple of eight and at least 2048, a bit is set exactly when its page
is reserved or in a live block, the pages of the kernel are reserved, live blocks
are apart, and a call of `pageframe_alloc` hands out a block of clear pages below
the total, or nothing. -/
theorem pageframe_ownership {physMemUpper : ℕ} (multiple : pagesTotal physMemUpper % 8 = 0)
    (enough : 2048 ≤ pagesTotal physMemUpper) {run : FrameRun}
    (reachable : (frameSystem physMemUpper).Reachable run) :
    run.frames.pagesTotalPhys = pagesTotal physMemUpper ∧
      (∀ page < pagesTotal physMemUpper,
        run.frames.getPage page = 1 ↔
          page ∈ run.ledger.reserved ∨ ∃ block ∈ run.ledger.live, block.Contains page) ∧
      (∀ page < 2048, page ∈ run.ledger.reserved ∧ run.frames.getPage page = 1) ∧
      run.ledger.live.Pairwise Extent.Apart ∧
      ∀ pages, 1 ≤ pages → ∃ ret after,
        pageframeAlloc physMemUpper run.frames pages = some (ret, after) ∧
          HandsOut run.frames pages ret after := by
  have invariant := frameInvariant_reachable multiple reachable
  have set : ∀ page < pagesTotal physMemUpper,
      run.frames.getPage page = 1 ↔ run.ledger.Used page := by
    intro page bound
    rw [getPage_eq_one invariant.allocated]
    exact invariant.bits page bound
  refine ⟨invariant.total, set, ?_, invariant.apart, ?_⟩
  · intro page low
    have inKernel := invariant.kernel (Finset.mem_range.mpr low)
    exact ⟨inKernel, (set page (by omega)).mpr (.inl inKernel)⟩
  · intro pages some'
    exact invariant.handsOut some'

/-- On a machine with 16 MiB above the first, the page of the local APIC is reserved
after nine pages were asked for. -/
theorem pageframe_ownership_lapic :
    ∃ run, (frameSystem 16384).Reachable run ∧ run.frames.getPage 2304 = 1 ∧
      run.frames.getPage 2047 = 1 := by
  let kernel : Pageframe := ⟨⟨fun _ => 0#8, 0x100000⟩, false, 0, 0⟩
  have init := pageframeAllocInit_eq 16384 (show alignUp 4096 kernel.heapCur < 2 ^ 32 by decide)
  have start : (frameSystem 16384).Reachable ⟨_, ⟨Finset.range 2048, []⟩⟩ :=
    .start ⟨kernel, by decide, by decide, init, rfl⟩
  obtain ⟨asked, stepped⟩ := (frameInvariant_reachable (by decide) start).exists_alloc
    (show 1 ≤ 9 by decide) (by decide)
  have reached := frameSystem_step start stepped
  have below : pageFromAddr 0x900000 + 1 ≤ asked.frames.pagesTotalPhys := by
    rw [(frameInvariant_reachable (by decide) reached).total]
    decide
  have reserve : asked.step 16384 (.setPageFromAddr 0x900000 1) = some _ := if_pos below
  have reserved := frameSystem_step reached reserve
  obtain ⟨-, bits, kernelBits, -, -⟩ := pageframe_ownership (by decide) (by decide) reserved
  refine ⟨_, reserved, (bits 2304 (by decide)).mpr (.inl ?_), (kernelBits 2047 (by decide)).2⟩
  exact Finset.mem_union_right _ (by decide)

end CatchOS.Mmu
