import CatchOS.Mmu.IdentityMapping

/-!
# When the identity mapping is lost

On a machine whose bitmap ends at a page boundary and has no bit for the last pages
(`BitmapEndsAtPage`), the run of `lost_reachable` goes wrong: the bitmap is set up, a page
of the second 4 MiB is mapped, so that its page table is right behind the bitmap, and then
all pages from 8 MiB on are asked for. The last bits of this block are in the first entry
of the page table, which maps the address 4 MiB to zero afterwards.

With the invariant of the other machines this gives `identity_mapping`.
-/

set_option autoImplicit false

namespace CatchOS.Mmu

open CatchOS.Lib CatchOS.Utils

/-! ## What a call leaves alone -/

section Elsewhere

variable {image : KernelImage} {paging after : Paging} {region : Fin 1024}

/-- The table of the region, its slot and its entries are as before. -/
structure RegionKept (image : KernelImage) (before after : Paging) (region : Fin 1024) : Prop where
  table : after.table region = before.table region
  slot : after.slotWord image region = before.slotWord image region
  entries : ∀ index, after.entryWord region index = before.entryWord region index

theorem RegionKept.trans {first second third : Paging}
    (early : RegionKept image first second region)
    (late : RegionKept image second third region) : RegionKept image first third region where
  table := late.table.trans early.table
  slot := late.slot.trans early.slot
  entries index := (late.entries index).trans (early.entries index)

/-- Writing an entry of another region and its slot. -/
theorem RegionKept.store (placed : TablesPlaced image paging) (room : image.HeapRoom)
    (present : paging.table region ≠ 0) {other : Fin 1024} (otherPresent : paging.table other ≠ 0)
    (different : region ≠ other) (index : Fin 1024) (value slotValue : ℕ)
    (slotWord : slotValue < 2 ^ 32) :
    RegionKept image paging
      { paging with
        memory := storeWord (storeWord paging.memory (entry (paging.table other) index) value)
          (entry image.kernelPageDirectory other) slotValue } region := by
  have fits : paging.table region + 4096 ≤ 2 ^ 32 := placed.fits room present
  have otherFits : paging.table other + 4096 ≤ 2 ^ 32 := placed.fits room otherPresent
  have directoryFits := TablesPlaced.directory_fits image
  have apart := placed.apart_of_ne otherPresent different
  refine ⟨rfl, ?_, fun place => ?_⟩
  · refine (loadEntry_storeEntry directoryFits slotWord other region).trans ?_
    rw [if_neg different]
    exact loadEntry_storeEntry_of_apart otherFits directoryFits
      (.inl (placed.directory_apart otherPresent)) index region
  · refine (loadEntry_storeEntry_of_apart directoryFits fits
      (.inr (placed.directory_apart present)) other place).trans ?_
    exact loadEntry_storeEntry_of_apart otherFits fits apart index place

/-- Taking the page table of another region. -/
theorem getPageTable_elsewhere (placed : TablesPlaced image paging) (room : image.HeapRoom)
    (present : paging.table region ≠ 0) {address : ℕ} (word : address < 2 ^ 32)
    (different : region ≠ slotOf address) :
    ∃ between, getPageTable paging address = some (between.table (slotOf address), between) ∧
      TablesPlaced image between ∧ between.table (slotOf address) ≠ 0 ∧
      RegionKept image paging between region := by
  have slot := slotOf_val word
  rcases getPageTable_cases paging address (placed.boundary_lt room) with
    ⟨there, found⟩ | ⟨missing, taken⟩
  · refine ⟨paging, ?_, placed, ?_, ⟨rfl, rfl, fun _ => rfl⟩⟩
    · rw [found, Paging.table, slot]
    · rw [Paging.table, slot]
      exact there
  · have image_below := image.image_below
    have floor := placed.floor
    have above := le_alignUp_page paging.heapCur
    have new : (paging.withTable address).table (slotOf address) = alignUp 4096 paging.heapCur := by
      rw [Paging.table, withTable_allocatedPageTables, slot, Function.update_self]
    have old : (paging.withTable address).table region = paging.table region := by
      rw [Paging.table, withTable_allocatedPageTables, Function.update_of_ne]
      rw [← slot]
      exact fun same => different (Fin.ext same)
    refine ⟨paging.withTable address, ?_, placed.withTable room word missing, by omega, old, ?_, ?_⟩
    · rw [taken, new]
    · exact placed.withTable_entry room word missing (Nat.le_trans image.directory_inside floor)
        region
    · intro index
      rw [Paging.entryWord, old]
      exact placed.withTable_entry room word missing (placed.inside region present).2 index

/-- A call for a page of another region. Nothing is asked of the entries. -/
theorem pagingMapPage_elsewhere (placed : TablesPlaced image paging) (room : image.HeapRoom)
    (present : paging.table region ≠ 0) {address : ℕ} (word : address < 2 ^ 32)
    (different : region ≠ slotOf address) :
    ∃ after, pagingMapPage paging address address image.kernelPageDirectory = some after ∧
      TablesPlaced image after ∧ RegionKept image paging after region := by
  obtain ⟨between, found, placedBetween, there, kept⟩ :=
    getPageTable_elsewhere placed room present word different
  have pde : virtualAddrToPde address = (slotOf address : ℕ) := by
    rw [slotOf_val word, virtualAddrToPde, Nat.shiftRight_eq_div_pow]
  have pte := (indexOf_val address).symm
  simp only [pagingMapPage, found, pde, pte]
  split
  · exact ⟨between, rfl, placedBetween, kept⟩
  · have fits := placedBetween.fits room there
    have tableWord := or_three_lt (placedBetween.aligned (slotOf address))
      (show between.allocatedPageTables (slotOf address) < 2 ^ 32 by omega)
    refine ⟨_, rfl, placedBetween.of_tables rfl rfl rfl, kept.trans ?_⟩
    exact RegionKept.store placedBetween room (kept.table.trans_ne present) there different _ _ _
      tableWord

/-- The loop of `pageframe_alloc_liballoc` for pages of other regions. -/
theorem mapPages_elsewhere (placed : TablesPlaced image paging) (room : image.HeapRoom)
    (present : paging.table region ≠ 0) {ret pages : ℕ} (above : (region + 1) * 0x400000 ≤ ret)
    (fits : ret + pages * 0x1000 ≤ 2 ^ 32) :
    ∃ after, mapPages paging image.kernelPageDirectory ret pages = some after ∧
      TablesPlaced image after ∧ RegionKept image paging after region := by
  induction pages with
  | zero => exact ⟨paging, rfl, placed, rfl, rfl, fun _ => rfl⟩
  | succ pages ih =>
      have shorter := Nat.add_le_add_left (Nat.mul_le_mul_right 0x1000 (Nat.le_succ pages)) ret
      obtain ⟨between, looped, placedBetween, kept⟩ := ih (Nat.le_trans shorter fits)
      clear ih
      have inside : ret + pages * 0x1000 < 2 ^ 32 := by omega
      have here : offset ret (pages * pageSize) = ret + pages * 0x1000 := offset_eq inside
      have different : region ≠ slotOf (ret + pages * 0x1000) := by
        intro same
        have number := congrArg Fin.val same
        rw [slotOf_val inside] at number
        omega
      obtain ⟨after, called, placedAfter, keptLast⟩ :=
        pagingMapPage_elsewhere placedBetween room (kept.table.trans_ne present) inside different
      refine ⟨after, ?_, placedAfter, kept.trans keptLast⟩
      rw [mapPages_succ, looped, Option.bind_some, here, called]

end Elsewhere

/-! ## A page table behind the bitmap -/

/-- The page table of the second 4 MiB is right behind the bitmap and its first entry is
empty, and the free pages are those from 2048 on. -/
structure TableBehind (image : KernelImage) (physMemUpper : ℕ) (paging : Paging) : Prop where
  placed : TablesPlaced image paging
  initialized : paging.isInitialized = true
  total : paging.pagesTotalPhys = pagesTotal physMemUpper
  above : image.kernelEndVirtual ≤ paging.pageframeBitmap
  behind : paging.table 1 = paging.pageframeBitmap + pagesTotal physMemUpper / 8
  slot : paging.slotWord image 1 = paging.table 1 ||| 3
  empty : paging.entryWord 1 0 = 0
  bits : ∀ page < pagesTotal physMemUpper / 8 * 8, paging.bit page = decide (page < 2048)

section Behind

variable {image : KernelImage} {physMemUpper pages : ℕ} {paging : Paging} {start : ℕ}

theorem BitmapEndsAtPage.total_ge (ends : BitmapEndsAtPage physMemUpper) :
    32768 < pagesTotal physMemUpper := by
  unfold BitmapEndsAtPage at ends
  omega

namespace TableBehind

theorem nonnull (state : TableBehind image physMemUpper paging) :
    paging.pageframeBitmap ≠ 0 := by
  have image_below := image.image_below
  have above := state.above
  omega

theorem present (state : TableBehind image physMemUpper paging) : paging.table 1 ≠ 0 := by
  have nonnull := state.nonnull
  have behind := state.behind
  omega

/-- The bytes of the first entry. -/
theorem bytes (state : TableBehind image physMemUpper paging) (room : image.HeapRoom) {i : ℕ}
    (small : i < 4) : (paging.memory (paging.table 1 + i)).toNat = 0 := by
  have fits : paging.table 1 + 4096 ≤ 2 ^ 32 := state.placed.fits room state.present
  have empty := state.empty
  unfold Paging.entryWord loadWord at empty
  rw [entry_eq fits, Fin.val_zero, Nat.mul_zero, Nat.add_zero, offset_eq (by omega),
    offset_eq (by omega), offset_eq (by omega), offset_eq (by omega)] at empty
  rcases (by omega : i = 0 ∨ i = 1 ∨ i = 2 ∨ i = 3) with rfl | rfl | rfl | rfl <;> omega

/-- The pages whose bits are behind the bitmap look free. -/
theorem bits_behind (state : TableBehind image physMemUpper paging) (room : image.HeapRoom)
    {page : ℕ} (above : pagesTotal physMemUpper / 8 * 8 ≤ page)
    (below : page < pagesTotal physMemUpper) : paging.bit page = false := by
  have fits : paging.table 1 + 4096 ≤ 2 ^ 32 := state.placed.fits room state.present
  have behind := state.behind
  have place : offset paging.pageframeBitmap (page / 8) = paging.table 1 + 0 := by
    rw [offset_eq (by omega)]
    omega
  have zero : paging.memory (paging.table 1 + 0) = 0#8 :=
    BitVec.eq_of_toNat_eq (state.bytes room (by decide))
  rw [Pageframe.bit, bitmapBit, place, zero, BitVec.getLsbD_zero]

/-- All pages from 2048 on are one free run. -/
theorem freeRun (state : TableBehind image physMemUpper paging) (room : image.HeapRoom)
    (whole : 2048 + pages = pagesTotal physMemUpper) : FreeRun paging.toPageframe 2048 pages := by
  refine ⟨by rw [state.total, whole], ?_⟩
  intro page above below
  by_cases inBitmap : page < pagesTotal physMemUpper / 8 * 8
  · rw [state.bits page inBitmap]
    exact decide_eq_false (by omega)
  · exact state.bits_behind room (by omega) (by omega)

/-- First fit settles on page 2048. -/
theorem allocPage (state : TableBehind image physMemUpper paging) (room : image.HeapRoom)
    (ends : BitmapEndsAtPage physMemUpper) (whole : 2048 + pages = pagesTotal physMemUpper) :
    Mmu.allocPage paging.toPageframe pages = some 2048 := by
  have large := ends.total_ge
  obtain ⟨start, low, found⟩ :=
    firstfitPage_first state.nonnull (by omega) (state.freeRun room whole)
  have free := firstfitPage_free state.nonnull found
  have high : 2048 ≤ start := by
    by_contra early
    have clear := free.clear start (Nat.le_refl _) (by omega)
    rw [state.bits start (by omega), decide_eq_false_iff_not] at clear
    exact clear (by omega)
  rw [Mmu.allocPage, if_pos (by omega), found, Nat.le_antisymm low high]

/-- The state after a block of pages was marked. -/
def marked (paging : Paging) (start pages : ℕ) : Paging :=
  { paging with toPageframe := paging.toPageframe.setPages start pages }

@[simp] theorem marked_memory (paging : Paging) (start pages : ℕ) :
    (marked paging start pages).memory =
      bitmapSetBits paging.memory paging.pageframeBitmap start pages := rfl

@[simp] theorem marked_table (paging : Paging) (start pages : ℕ) (region : Fin 1024) :
    (marked paging start pages).table region = paging.table region := rfl

theorem marked_placed (placed : TablesPlaced image paging) :
    TablesPlaced image (marked paging start pages) :=
  placed.of_tables rfl rfl rfl

/-- Marking does not reach the byte after the first one of the table. -/
theorem marked_upper (state : TableBehind image physMemUpper paging) (room : image.HeapRoom)
    (whole : start + pages = pagesTotal physMemUpper) {i : ℕ} (positive : 0 < i) (small : i < 4) :
    ((marked paging start pages).memory (paging.table 1 + i)).toNat = 0 := by
  have fits : paging.table 1 + 4096 ≤ 2 ^ 32 := state.placed.fits room state.present
  have bound := pagesTotal_lt physMemUpper
  have behind := state.behind
  rw [marked_memory, bitmapSetBits_frame, state.bytes room small]
  intro page _ inBlock
  rw [offset_eq (by omega)]
  omega

/-- Marking does not reach the page directory. -/
theorem marked_slot (state : TableBehind image physMemUpper paging) (room : image.HeapRoom)
    (whole : start + pages = pagesTotal physMemUpper) :
    (marked paging start pages).slotWord image 1 = paging.slotWord image 1 := by
  have fits : paging.table 1 + 4096 ≤ 2 ^ 32 := state.placed.fits room state.present
  have bound := pagesTotal_lt physMemUpper
  have inside := image.directory_inside
  have above := state.above
  have behind := state.behind
  refine loadEntry_congr (TablesPlaced.directory_fits image) (fun address _ inDirectory => ?_) 1
  rw [marked_memory, bitmapSetBits_frame]
  intro page _ inBlock
  rw [offset_eq (by omega)]
  omega

/-- The first bit of the table is that of the first page behind the bitmap. -/
theorem marked_low (state : TableBehind image physMemUpper paging) (room : image.HeapRoom)
    (ends : BitmapEndsAtPage physMemUpper) (whole : start + pages = pagesTotal physMemUpper)
    (low : start ≤ 2048) : ((marked paging start pages).memory (paging.table 1)).getLsbD 0 =
      true := by
  have fits : paging.table 1 + 4096 ≤ 2 ^ 32 := state.placed.fits room state.present
  have bound := pagesTotal_lt physMemUpper
  have large := ends.total_ge
  have fraction := ends.1
  have behind := state.behind
  have inBlock : start ≤ pagesTotal physMemUpper / 8 * 8 ∧
      pagesTotal physMemUpper / 8 * 8 < start + pages := by omega
  have first := @bitmapBit_setBits paging.memory paging.pageframeBitmap start pages
    (pagesTotal physMemUpper / 8 * 8) state.nonnull (by omega) (by omega)
  have place : offset paging.pageframeBitmap (pagesTotal physMemUpper / 8 * 8 / 8) =
      paging.table 1 := by
    rw [Nat.mul_div_cancel _ (by decide), offset_eq (by omega), behind]
  rw [decide_eq_true inBlock, Bool.true_or, bitmapBit, Nat.mul_mod_left, place] at first
  rw [marked_memory]
  exact first

/-- Marking the last pages makes the first entry of the page table present, with frame
zero. -/
theorem marked_entry (state : TableBehind image physMemUpper paging) (room : image.HeapRoom)
    (ends : BitmapEndsAtPage physMemUpper) (whole : start + pages = pagesTotal physMemUpper)
    (low : start ≤ 2048) :
    entryPresent ((marked paging start pages).entryWord 1 0) = true ∧
      (marked paging start pages).entryWord 1 0 < 256 := by
  have fits : paging.table 1 + 4096 ≤ 2 ^ 32 := state.placed.fits room state.present
  have word : (marked paging start pages).entryWord 1 0 =
      ((marked paging start pages).memory (paging.table 1)).toNat := by
    have place : entry (paging.table 1) (0 : Fin 1024) = paging.table 1 :=
      (entry_eq fits 0).trans (by simp)
    rw [Paging.entryWord, marked_table, place, loadWord, offset_eq (by omega), offset_eq (by omega),
      offset_eq (by omega), offset_eq (by omega),
      state.marked_upper room whole (show 0 < 1 by decide) (by decide),
      state.marked_upper room whole (show 0 < 2 by decide) (by decide),
      state.marked_upper room whole (show 0 < 3 by decide) (by decide)]
    rfl
  rw [word]
  exact ⟨state.marked_low room ends whole low, BitVec.isLt _⟩

/-- **The block of all pages from 2048 on.** The call returns it, and afterwards the
address 4 MiB is mapped to zero. -/
theorem lost (state : TableBehind image physMemUpper paging) (room : image.HeapRoom)
    (ends : BitmapEndsAtPage physMemUpper) (whole : 2048 + pages = pagesTotal physMemUpper) :
    ∃ ret after, pageframeAllocLiballoc physMemUpper paging image.kernelPageDirectory pages =
        some (ret, after) ∧
      ∃ translation, translate after.memory image.kernelPageDirectory 0x400000 = some translation ∧
        translation.physAddr = 0 := by
  have bound := pagesTotal_lt physMemUpper
  obtain ⟨present, small⟩ := state.marked_entry room ends whole (Nat.le_refl _)
  have placed := @marked_placed image pages paging 2048 state.placed
  have fits : 0x800000 + pages * 0x1000 ≤ 2 ^ 32 := by omega
  obtain ⟨after, looped, placedAfter, kept⟩ := @mapPages_elsewhere image (marked paging 2048 pages)
    1 placed room state.present 0x800000 pages (by decide) fits
  have called : pageframeAllocLiballoc physMemUpper paging image.kernelPageDirectory pages =
      some (0x800000, after) := by
    have alloc := @pageframeAlloc_eq paging.toPageframe pages physMemUpper state.initialized
    rw [state.allocPage room ends whole] at alloc
    simp only [pageframeAllocLiballoc, alloc]
    rw [if_neg (by decide)]
    exact congrArg (Option.map _) looped
  have tableAfter := kept.table.trans (marked_table paging 2048 pages 1)
  have slotAfter : after.slotWord image 1 = paging.table 1 ||| 3 := by
    rw [kept.slot, ← state.slot]
    exact state.marked_slot room whole
  have entryAfter := kept.entries 0
  have frame : entryFrame ((marked paging 2048 pages).entryWord 1 0) = 0 := by
    rw [entryFrame, Nat.div_eq_of_lt (by omega), Nat.zero_mul]
  -- The address has slot one and index zero.
  have pde : loadWord after.memory (entry image.kernelPageDirectory (0x400000 / 0x400000)) =
      paging.table 1 ||| 3 := slotAfter
  have pte : loadWord after.memory (entry (paging.table 1) (0x400000 % 0x400000 / 0x1000)) =
      (marked paging 2048 pages).entryWord 1 0 := by
    rw [← entryAfter, Paging.entryWord, tableAfter]
    rfl
  refine ⟨_, after, called,
    ⟨0, entryWritable ((marked paging 2048 pages).entryWord 1 0)⟩, ?_, rfl⟩
  have aligned : paging.table 1 % 0x1000 = 0 := state.placed.aligned 1
  rw [translate, pde, entryFrame_or_three aligned, pte, entryPresent_or_three,
    entryWritable_or_three, present, frame]
  rfl

end TableBehind

end Behind

/-! ## The run -/

section Run

variable {image : KernelImage} {physMemUpper : ℕ}

theorem clearPaging_mapping : Mapping image (clearPaging image) [] :=
  (@identityInvariant_initial image 0 _ ⟨⟨fun _ => 0#8, 0⟩, rfl, fun _ => rfl⟩).mapping

theorem bitmapPaging_mapping (room : image.HeapRoom) :
    Mapping image (bitmapPaging image physMemUpper) [] ∧
      BitmapApart image physMemUpper (bitmapPaging image physMemUpper) :=
  clearPaging_mapping.initialFrames room rfl

theorem identitySystem_liballoc {run : IdentityRun} {pages ret : ℕ} {after : Paging}
    (reachable : (identitySystem image physMemUpper).Reachable run) (word : pages < 2 ^ 32)
    (called : pageframeAllocLiballoc physMemUpper run.paging image.kernelPageDirectory pages =
      some (ret, after)) :
    (identitySystem image physMemUpper).Reachable
      ⟨after, if ret = 0 then run.mapped else pagesFrom ret pages ++ run.mapped⟩ := by
  refine @System.ReachableUnder.step _ _ _ _ _ _ (.liballoc pages) reachable trivial ?_
  simp only [identitySystem, IdentityRun.step, if_pos word, called, Option.map_some]

theorem identitySystem_mapPage {run : IdentityRun} {address : ℕ} {after : Paging}
    (reachable : (identitySystem image physMemUpper).Reachable run)
    (page : address < 2 ^ 32 ∧ address % 0x1000 = 0)
    (called : pagingMapPage run.paging address address image.kernelPageDirectory = some after) :
    (identitySystem image physMemUpper).Reachable ⟨after, address :: run.mapped⟩ := by
  refine @System.ReachableUnder.step _ _ _ _ _ _ (.mapPage address) reachable trivial ?_
  simp only [identitySystem, IdentityRun.step, if_pos page, called, Option.map_some]

/-- A request for no pages sets up the bitmap. -/
theorem bitmapPaging_reachable (room : image.HeapRoom) :
    ∃ mapped, (identitySystem image physMemUpper).Reachable
      ⟨bitmapPaging image physMemUpper, mapped⟩ := by
  obtain ⟨ret, liballoc⟩ := @liballoc_clearPaging image physMemUpper room
  have start : (identitySystem image physMemUpper).Reachable ⟨clearPaging image, []⟩ :=
    .start ⟨⟨fun _ => 0#8, 0⟩, rfl, fun _ => rfl⟩
  exact ⟨_, identitySystem_liballoc start (by decide) liballoc⟩

/-- A call for the second page of the second 4 MiB, when they have no page table yet: the
new table goes to the next page boundary, and its first entry stays empty. -/
theorem mapPage_second {paging after : Paging} (identity : IdentityTables image paging)
    (room : image.HeapRoom) (missing : paging.table (slotOf 0x401000) = 0)
    (called : pagingMapPage paging 0x401000 0x401000 image.kernelPageDirectory = some after) :
    after.table 1 = alignUp 4096 paging.heapCur ∧ after.entryWord 1 0 = 0 ∧
      ∀ address, image.kernelEndVirtual ≤ address → address < paging.heapCur →
        after.memory address = paging.memory address := by
  have word : 0x401000 < 2 ^ 32 := by decide
  have placed := identity.placed
  have between := placed.withTable room word missing
  have new : (paging.withTable 0x401000).table 1 = alignUp 4096 paging.heapCur := by
    rw [Paging.table, withTable_allocatedPageTables]
    exact Function.update_self _ _ _
  have above := le_alignUp_page paging.heapCur
  have top := placed.new_fits room word missing
  have floor := placed.floor
  have image_below := image.image_below
  have present : (paging.withTable 0x401000).table 1 ≠ 0 := by omega
  have fits : (paging.withTable 0x401000).table 1 + 4096 ≤ 2 ^ 32 := between.fits room present
  have empty (index : Fin 1024) : (paging.withTable 0x401000).entryWord 1 index = 0 := by
    rw [Paging.entryWord, new, withTable_memory]
    exact loadEntry_memset (by omega) index
  have inside := image.directory_inside
  have directoryFits := TablesPlaced.directory_fits image
  have below (address : ℕ) (low : address < paging.heapCur) :
      (paging.withTable 0x401000).memory address = paging.memory address := by
    rw [withTable_memory]
    exact memset_below (by omega) (show alignUp 4096 paging.heapCur + 4096 ≤ 2 ^ 32 by omega)
  rcases getPageTable_cases paging 0x401000 (placed.boundary_lt room) with
    ⟨there, -⟩ | ⟨-, taken⟩
  · exact absurd missing there
  · rw [← new] at taken
    simp only [pagingMapPage, taken] at called
    split at called
    · rw [← Option.some.inj called]
      exact ⟨new, empty 0, fun address _ low => below address low⟩
    · rw [← Option.some.inj called]
      refine ⟨new, ?_, fun address high low => ?_⟩
      · refine (loadEntry_storeEntry_of_apart directoryFits fits
          (.inr (between.directory_apart present)) 1 0).trans ?_
        refine (loadEntry_storeEntry fits (by decide) 1 0).trans ?_
        rw [if_neg (by decide)]
        exact empty 0
      · refine (storeEntry_frame directoryFits (by decide) (by omega)).trans ?_
        exact (storeEntry_frame fits (by decide) (by omega)).trans (below address low)

/-- On a machine whose bitmap ends at a page boundary, the page table of the second 4 MiB
goes right behind the bitmap. -/
theorem behind_reachable (room : image.HeapRoom) (ends : BitmapEndsAtPage physMemUpper) :
    ∃ run, (identitySystem image physMemUpper).Reachable run ∧
      TableBehind image physMemUpper run.paging := by
  obtain ⟨mapped, reachable⟩ := @bitmapPaging_reachable image physMemUpper room
  obtain ⟨mapping, apart⟩ := @bitmapPaging_mapping image physMemUpper room
  have page : 0x401000 < 2 ^ 32 ∧ 0x401000 % 0x1000 = 0 := by decide
  obtain ⟨after, called, mappedAfter, added⟩ := mapping.mapPage room page.1 page.2
  obtain ⟨table, empty, memory⟩ := mapPage_second mapping.identity room rfl called
  refine ⟨⟨after, _⟩, identitySystem_mapPage reachable page called, ?_⟩
  have bitmapAligned := apart.aligned
  have above := apart.above
  have inHeap := apart.below
  have heapEnd := mapping.identity.placed.heapCur_lt room
  have heapCur : (bitmapPaging image physMemUpper).heapCur =
      (bitmapPaging image physMemUpper).pageframeBitmap + pagesTotal physMemUpper / 8 :=
    Nat.le_antisymm (Nat.mod_le _ _) inHeap
  have boundary : alignUp 4096 (bitmapPaging image physMemUpper).heapCur =
      (bitmapPaging image physMemUpper).heapCur := by
    have wholePages := ends.2.2
    exact Nat.le_antisymm (alignUp_le (by decide) (Nat.le_refl _) (by omega)) (le_alignUp_page _)
  have present : after.table 1 ≠ 0 := by
    have image_below := image.image_below
    omega
  refine ⟨mappedAfter.identity.placed, added.isInitialized, added.pagesTotalPhys, ?_, ?_,
    mappedAfter.inSlot 1 present, empty, ?_⟩
  · rw [added.pageframeBitmap]
    exact above
  · rw [table, boundary, heapCur, added.pageframeBitmap]
  · intro page inside
    have bound := pagesTotal_lt physMemUpper
    have nonnull : 0 < (clearPaging image).heapCur :=
      Nat.lt_of_lt_of_le (by decide) image.image_below
    rw [← @bit_initialFrames physMemUpper page _ nonnull inside, Pageframe.bit,
      added.pageframeBitmap]
    apply bitmapBit_congr
    rw [offset_eq (by omega)]
    exact memory _ (by omega) (by omega)

/-- The identity mapping is lost in some run. -/
theorem lost_reachable (room : image.HeapRoom) (ends : BitmapEndsAtPage physMemUpper) :
    ∃ run, (identitySystem image physMemUpper).Reachable run ∧ ¬run.Kept image := by
  obtain ⟨run, reachable, state⟩ := @behind_reachable image physMemUpper room ends
  have bound := pagesTotal_lt physMemUpper
  have large := ends.total_ge
  obtain ⟨pages, whole⟩ := Nat.exists_eq_add_of_le (show 2048 ≤ pagesTotal physMemUpper by omega)
  obtain ⟨ret, after, called, translation, found, zero⟩ := state.lost room ends whole.symm
  refine ⟨_, identitySystem_liballoc reachable (by omega) called, fun kept => ?_⟩
  have same := kept.2 0x400000 (by decide) translation found
  rw [zero] at same
  cases same

end Run

/-- **Identity mapping.** On a machine with room for the heap, in every state of every run
the pages that were mapped are mapped to themselves and may be written, and no address is
mapped to another one, exactly when the number of pages is a multiple of eight or the
bitmap does not end at a page boundary. -/
theorem identity_mapping {image : KernelImage} (room : image.HeapRoom) (physMemUpper : ℕ) :
    (∀ run, (identitySystem image physMemUpper).Reachable run → run.Kept image) ↔
      ¬BitmapEndsAtPage physMemUpper := by
  constructor
  · intro kept ends
    obtain ⟨run, reachable, lost⟩ := lost_reachable room ends
    exact lost (kept run reachable)
  · intro rounded run reachable
    exact (identityInvariant_reachable room rounded reachable).kept

/-- On a machine with 128 MiB above the first, the identity mapping is kept. -/
theorem identity_mapping_128_mib :
    let image : KernelImage := ⟨⟨0x200000, by decide, by decide⟩, 0x100000, by decide⟩
    ∀ run, (identitySystem image 131072).Reachable run → run.Kept image := by
  intro image
  exact (identity_mapping (by decide) 131072).mpr (by decide)

/-- With five more pages it is lost. -/
theorem identity_mapping_five_more_pages :
    let image : KernelImage := ⟨⟨0x200000, by decide, by decide⟩, 0x100000, by decide⟩
    ¬∀ run, (identitySystem image 131092).Reachable run → run.Kept image := by
  intro image kept
  have room : image.HeapRoom := by decide
  obtain ⟨run, reachable, lost⟩ := @lost_reachable image 131092 room (by decide)
  exact lost (kept run reachable)

end CatchOS.Mmu
