import CatchOS.Mmu.PageWalk

/-!
# Mapping pages to other pages

`paging_map_page` takes the page table by the physical address and the slot of the page
directory by the virtual address. As long as both are equal every slot has its own table
(`IdentityMapping`). In general slots share tables, and a call may change walks that it
was not made for; and when the entry already has the frame, the call returns before it
writes the slot.

A run makes calls with any page addresses. Its states are directories of shared tables
(`MapInvariant`), in which a call is an `Installed` entry, so `TwoLevel.Installed.kept_iff`
gives the exact condition for a call to do what it is for: `general_mapping`.
-/

set_option autoImplicit false

namespace CatchOS.Mmu

open CatchOS.Lib CatchOS.Utils

/-- The arguments of a call of `paging_map_page`. -/
structure MapCall where
  virtualAddr : ℕ
  physAddr : ℕ

/-- Both addresses are words at a page boundary. -/
structure MapCall.Aligned (call : MapCall) : Prop where
  virtualWord : call.virtualAddr < 2 ^ 32
  virtualAligned : call.virtualAddr % 0x1000 = 0
  physWord : call.physAddr < 2 ^ 32
  physAligned : call.physAddr % 0x1000 = 0

instance (call : MapCall) : Decidable call.Aligned :=
  decidable_of_iff ((call.virtualAddr < 2 ^ 32 ∧ call.virtualAddr % 0x1000 = 0) ∧
      call.physAddr < 2 ^ 32 ∧ call.physAddr % 0x1000 = 0)
    ⟨fun ⟨⟨word, aligned⟩, physWord, physAligned⟩ => ⟨word, aligned, physWord, physAligned⟩,
      fun ⟨word, aligned, physWord, physAligned⟩ => ⟨⟨word, aligned⟩, physWord, physAligned⟩⟩

/-- Runs start after `kheap_init` with an empty page directory and no page tables. All
calls are on this page directory. -/
def mappingSystem (image : KernelImage) : System Paging MapCall where
  initial paging := ∃ kheap : Kheap,
    paging = ⟨⟨kheapInit kheap image.toKinfo, false, 0, 0⟩, fun _ => 0⟩ ∧
    ∀ slot : Fin 1024, loadWord kheap.memory (entry image.kernelPageDirectory slot) = 0
  step paging call :=
    if call.Aligned then
      pagingMapPage paging call.virtualAddr call.physAddr image.kernelPageDirectory
    else
      none

theorem mappingSystem_step {image : KernelImage} {paging after : Paging} {call : MapCall}
    (reachable : (mappingSystem image).Reachable paging) (aligned : call.Aligned)
    (called : pagingMapPage paging call.virtualAddr call.physAddr image.kernelPageDirectory =
      some after) : (mappingSystem image).Reachable after := by
  refine @System.ReachableUnder.step _ _ _ _ _ _ call reachable trivial ?_
  simp only [mappingSystem, if_pos aligned, called]

/-! ## The invariant -/

/-- The page directory of the kernel and the page tables. -/
def Paging.levels (paging : Paging) (image : KernelImage) : TwoLevel (Fin 1024) ℕ (Fin 1024) ℕ :=
  pageLevels paging.memory image.kernelPageDirectory

/-- The address is that of a page table. -/
def Paging.Known (paging : Paging) (table : ℕ) : Prop :=
  table ≠ 0 ∧ ∃ region, paging.allocatedPageTables region = table

/-- The state after the entry and the slot were written. -/
def Paging.withEntry (paging : Paging) (pageDir : ℕ) (call : MapCall) : Paging :=
  let pageTable := paging.allocatedPageTables (call.physAddr / 0x400000)
  let pte := call.virtualAddr % 0x400000 / 0x1000
  let pde := virtualAddrToPde call.virtualAddr
  { paging with
    memory := storeWord (storeWord paging.memory (entry pageTable pte) (call.physAddr ||| 3))
      (entry pageDir pde) (pageTable ||| 3) }

@[simp] theorem Paging.withEntry_allocatedPageTables (paging : Paging) (pageDir : ℕ)
    (call : MapCall) :
    (paging.withEntry pageDir call).allocatedPageTables = paging.allocatedPageTables := rfl

/-- The words of the page directory and of the tables are clean, the slots have known
tables, and the entries of a table have frames in its own 4 MiB. -/
structure MapInvariant (image : KernelImage) (paging : Paging) : Prop where
  placed : TablesPlaced image paging
  slotClean : ∀ slot : Fin 1024,
    Clean (loadWord paging.memory (entry image.kernelPageDirectory slot))
  slotKnown : ∀ slot table, (paging.levels image).directory slot = some table → paging.Known table
  entryClean : ∀ region, paging.allocatedPageTables region ≠ 0 → ∀ index : Fin 1024,
    Clean (loadWord paging.memory (entry (paging.allocatedPageTables region) index))
  entryRegion : ∀ region, paging.allocatedPageTables region ≠ 0 → ∀ index frame,
    (paging.levels image).entries (paging.allocatedPageTables region) index = some frame →
      frame / 0x400000 = region

namespace MapInvariant

variable {image : KernelImage} {paging : Paging}

/-- No two tables have the same frame. -/
theorem exclusive (invariant : MapInvariant image paging) (first second : ℕ)
    (knownFirst : paging.Known first) (knownSecond : paging.Known second)
    (place otherPlace : Fin 1024) (held : ℕ)
    (here : (paging.levels image).entries first place = some held)
    (there : (paging.levels image).entries second otherPlace = some held) : first = second := by
  obtain ⟨nonnull, region, rfl⟩ := knownFirst
  obtain ⟨nonnull', region', rfl⟩ := knownSecond
  have same := invariant.entryRegion region nonnull place held here
  have same' := invariant.entryRegion region' nonnull' otherPlace held there
  rw [← same, ← same']

theorem initial {kheap : Kheap}
    (empty : ∀ slot : Fin 1024, loadWord kheap.memory (entry image.kernelPageDirectory slot) = 0) :
    MapInvariant image ⟨⟨kheapInit kheap image.toKinfo, false, 0, 0⟩, fun _ => 0⟩ := by
  have above := le_alignUp_page image.kernelEndVirtual
  refine ⟨⟨fun _ present => absurd rfl present, fun _ => rfl, fun _ _ present => absurd rfl present,
    Nat.le_refl _, ?_⟩, ?_, ?_, fun _ present => absurd rfl present,
    fun _ present => absurd rfl present⟩
  · simp only [kheapInit]
    omega
  · intro slot
    simp only [kheapInit, empty slot]
    rfl
  · intro slot table here
    simp only [Paging.levels, pageLevels, kheapInit, empty slot] at here
    cases here

/-! ## A new page table -/

section WithTable

variable {physAddr : ℕ}

/-- The slots do not change when a table is added. -/
theorem withTable_directory (invariant : MapInvariant image paging) (room : image.HeapRoom)
    (word : physAddr < 2 ^ 32)
    (missing : paging.allocatedPageTables (physAddr / 0x400000) = 0) (slot : Fin 1024) :
    loadWord (paging.withTable physAddr).memory (entry image.kernelPageDirectory slot) =
      loadWord paging.memory (entry image.kernelPageDirectory slot) :=
  invariant.placed.withTable_entry room word missing
    (Nat.le_trans image.directory_inside invariant.placed.floor) slot

theorem withTable_entries (invariant : MapInvariant image paging) (room : image.HeapRoom)
    (word : physAddr < 2 ^ 32) (missing : paging.allocatedPageTables (physAddr / 0x400000) = 0)
    {table : ℕ} (known : paging.Known table) (index : Fin 1024) :
    loadWord (paging.withTable physAddr).memory (entry table index) =
      loadWord paging.memory (entry table index) := by
  obtain ⟨nonnull, region, rfl⟩ := known
  exact invariant.placed.withTable_entry room word missing
    (invariant.placed.inside region nonnull).2 index

/-- The new table has no entries. -/
theorem withTable_new (invariant : MapInvariant image paging) (room : image.HeapRoom)
    (word : physAddr < 2 ^ 32) (missing : paging.allocatedPageTables (physAddr / 0x400000) = 0)
    (index : Fin 1024) :
    loadWord (paging.withTable physAddr).memory (entry (alignUp 4096 paging.heapCur) index) =
      0 := by
  have top := invariant.placed.new_fits room word missing
  rw [withTable_memory]
  exact loadEntry_memset (by omega) index

/-- The new table is none of those before. -/
theorem ne_new (invariant : MapInvariant image paging) {table : ℕ} (known : paging.Known table) :
    table ≠ alignUp 4096 paging.heapCur := by
  obtain ⟨nonnull, region, rfl⟩ := known
  have below := (invariant.placed.inside region nonnull).2
  have above := le_alignUp_page paging.heapCur
  omega

/-- A known table stays known. -/
theorem known_withTable (missing : paging.allocatedPageTables (physAddr / 0x400000) = 0)
    {table : ℕ} (known : paging.Known table) : (paging.withTable physAddr).Known table := by
  obtain ⟨nonnull, region, here⟩ := known
  refine ⟨nonnull, region, ?_⟩
  have different : region ≠ physAddr / 0x400000 := by
    rintro rfl
    exact nonnull (here.symm.trans missing)
  rw [withTable_allocatedPageTables, Function.update_of_ne different, here]

theorem withTable (invariant : MapInvariant image paging) (room : image.HeapRoom)
    (word : physAddr < 2 ^ 32)
    (missing : paging.allocatedPageTables (physAddr / 0x400000) = 0) :
    MapInvariant image (paging.withTable physAddr) := by
  have slots := invariant.withTable_directory room word missing
  refine ⟨invariant.placed.withTable room word missing, ?_, ?_, ?_, ?_⟩
  · intro slot
    rw [slots slot]
    exact invariant.slotClean slot
  · intro slot table here
    simp only [Paging.levels, pageLevels, slots slot] at here
    exact known_withTable missing (invariant.slotKnown slot table here)
  · intro region present index
    rcases AllocatorInvariant.withTable_tables present with new | ⟨old, same⟩
    · rw [new, invariant.withTable_new room word missing]
      rfl
    · rw [same, invariant.withTable_entries room word missing ⟨old, region, rfl⟩]
      exact invariant.entryClean region old index
  · intro region present index frame here
    rcases AllocatorInvariant.withTable_tables present with new | ⟨old, same⟩
    · simp only [Paging.levels, pageLevels, new, invariant.withTable_new room word missing] at here
      cases here
    · simp only [Paging.levels, pageLevels, same,
        invariant.withTable_entries room word missing ⟨old, region, rfl⟩] at here
      exact invariant.entryRegion region old index frame here

end WithTable

/-! ## An entry -/

section WithEntry

variable {call : MapCall}

/-- The word of a slot after the entry was written. -/
theorem withEntry_slot (invariant : MapInvariant image paging) (room : image.HeapRoom)
    (aligned : call.Aligned)
    (present : paging.allocatedPageTables (call.physAddr / 0x400000) ≠ 0) (slot : Fin 1024) :
    loadWord (paging.withEntry image.kernelPageDirectory call).memory
        (entry image.kernelPageDirectory slot) =
      if slot = slotOf call.virtualAddr then
        paging.allocatedPageTables (call.physAddr / 0x400000) ||| 3
      else loadWord paging.memory (entry image.kernelPageDirectory slot) := by
  have fits := invariant.placed.fits room present
  have tableAligned := invariant.placed.aligned (call.physAddr / 0x400000)
  have word := or_three_lt tableAligned (by omega)
  have pde : virtualAddrToPde call.virtualAddr = (slotOf call.virtualAddr : ℕ) := by
    rw [slotOf_val aligned.virtualWord, virtualAddrToPde, Nat.shiftRight_eq_div_pow]
  have pte := (indexOf_val call.virtualAddr).symm
  rw [Paging.withEntry, pde, pte, loadEntry_storeEntry (TablesPlaced.directory_fits image) word,
    loadEntry_storeEntry_of_apart fits (TablesPlaced.directory_fits image)
      (.inl (invariant.placed.directory_apart present))]

/-- The word of an entry after the entry was written. -/
theorem withEntry_entry (invariant : MapInvariant image paging) (room : image.HeapRoom)
    (aligned : call.Aligned)
    (present : paging.allocatedPageTables (call.physAddr / 0x400000) ≠ 0) {table : ℕ}
    (known : paging.Known table) (place : Fin 1024) :
    loadWord (paging.withEntry image.kernelPageDirectory call).memory (entry table place) =
      if table = paging.allocatedPageTables (call.physAddr / 0x400000) ∧
          place = indexOf call.virtualAddr then
        call.physAddr ||| 3
      else loadWord paging.memory (entry table place) := by
  obtain ⟨nonnull, region, rfl⟩ := known
  have fits := invariant.placed.fits room present
  have otherFits := invariant.placed.fits room nonnull
  have word := or_three_lt aligned.physAligned aligned.physWord
  have pde : virtualAddrToPde call.virtualAddr = (slotOf call.virtualAddr : ℕ) := by
    rw [slotOf_val aligned.virtualWord, virtualAddrToPde, Nat.shiftRight_eq_div_pow]
  have pte := (indexOf_val call.virtualAddr).symm
  rw [Paging.withEntry, pde, pte,
    loadEntry_storeEntry_of_apart (TablesPlaced.directory_fits image) otherFits
      (.inr (invariant.placed.directory_apart nonnull))]
  by_cases same : paging.allocatedPageTables region =
      paging.allocatedPageTables (call.physAddr / 0x400000)
  · rw [same, loadEntry_storeEntry fits word]
    simp only [true_and]
  · rw [loadEntry_storeEntry_of_apart fits otherFits (invariant.placed.apart same),
      if_neg fun both => same both.1]

/-- Writing the entry installs the frame. -/
theorem withEntry_installed (invariant : MapInvariant image paging) (room : image.HeapRoom)
    (aligned : call.Aligned)
    (present : paging.allocatedPageTables (call.physAddr / 0x400000) ≠ 0) :
    TwoLevel.Installed paging.Known (paging.levels image)
      ((paging.withEntry image.kernelPageDirectory call).levels image) (slotOf call.virtualAddr)
      (paging.allocatedPageTables (call.physAddr / 0x400000)) (indexOf call.virtualAddr)
      call.physAddr := by
  have slots := invariant.withEntry_slot room aligned present
  have entries {table : ℕ} (known : paging.Known table) :=
    invariant.withEntry_entry room aligned present known
  refine ⟨?_, ?_, ?_, ?_⟩
  · simp only [Paging.levels, pageLevels, slots, if_true]
    exact decodeEntry_or_three (invariant.placed.aligned _)
  · intro other different
    simp only [Paging.levels, pageLevels, slots, if_neg different]
  · simp only [Paging.levels, pageLevels, entries ⟨present, _, rfl⟩, and_self, if_true]
    exact decodeEntry_or_three aligned.physAligned
  · intro other known place elsewhere
    simp only [Paging.levels, pageLevels, entries known, if_neg elsewhere]

theorem withEntry (invariant : MapInvariant image paging) (room : image.HeapRoom)
    (aligned : call.Aligned)
    (present : paging.allocatedPageTables (call.physAddr / 0x400000) ≠ 0) :
    MapInvariant image (paging.withEntry image.kernelPageDirectory call) := by
  have slots := invariant.withEntry_slot room aligned present
  have entries {table : ℕ} (known : paging.Known table) :=
    invariant.withEntry_entry room aligned present known
  have installed := invariant.withEntry_installed room aligned present
  refine ⟨invariant.placed.of_tables rfl rfl rfl, ?_, ?_, ?_, ?_⟩
  · intro slot
    rw [slots slot]
    split
    · exact clean_or_three (invariant.placed.aligned _)
    · exact invariant.slotClean slot
  · intro slot table here
    by_cases same : slot = slotOf call.virtualAddr
    · rw [same, installed.slot_self] at here
      rw [← Option.some.inj here]
      exact ⟨present, _, rfl⟩
    · rw [installed.slot_other slot same] at here
      exact invariant.slotKnown slot table here
  · intro region nonnull place
    rw [Paging.withEntry_allocatedPageTables] at nonnull ⊢
    rw [entries ⟨nonnull, region, rfl⟩ place]
    split
    · exact clean_or_three aligned.physAligned
    · exact invariant.entryClean region nonnull place
  · intro region nonnull place frame here
    rw [Paging.withEntry_allocatedPageTables] at nonnull here
    by_cases same : paging.allocatedPageTables region =
        paging.allocatedPageTables (call.physAddr / 0x400000) ∧ place = indexOf call.virtualAddr
    · rw [same.1, same.2, installed.entry_self] at here
      rw [← Option.some.inj here]
      exact (invariant.placed.injective region _ nonnull same.1).symm
    · rw [installed.entry_other _ ⟨nonnull, region, rfl⟩ place same] at here
      exact invariant.entryRegion region nonnull place frame here

end WithEntry

end MapInvariant

/-! ## Calls -/

section Calls

variable {image : KernelImage} {paging : Paging} {call : MapCall}

/-- A call with a page table for the physical address returns at once when the entry has
the frame, and writes the entry and the slot otherwise. -/
theorem pagingMapPage_present (invariant : MapInvariant image paging) (aligned : call.Aligned)
    (present : paging.allocatedPageTables (call.physAddr / 0x400000) ≠ 0) :
    pagingMapPage paging call.virtualAddr call.physAddr image.kernelPageDirectory = some
      (if (paging.levels image).entries (paging.allocatedPageTables (call.physAddr / 0x400000))
          (indexOf call.virtualAddr) = some call.physAddr then paging
        else paging.withEntry image.kernelPageDirectory call) := by
  have clean := invariant.entryClean _ present (indexOf call.virtualAddr)
  have found : getPageTable paging call.physAddr =
      some (paging.allocatedPageTables (call.physAddr / 0x400000), paging) := by
    simp only [getPageTable, if_neg present]
  have test := clean.eq_or_three_iff aligned.physAligned
  rw [indexOf_val] at test
  simp only [pagingMapPage, found, Paging.levels, pageLevels, indexOf_val, test]
  split <;> rfl

/-- A call without one takes a new table from the heap and writes both. -/
theorem pagingMapPage_missing (invariant : MapInvariant image paging) (room : image.HeapRoom)
    (aligned : call.Aligned)
    (missing : paging.allocatedPageTables (call.physAddr / 0x400000) = 0) :
    pagingMapPage paging call.virtualAddr call.physAddr image.kernelPageDirectory = some
      ((paging.withTable call.physAddr).withEntry image.kernelPageDirectory call) := by
  have empty := invariant.withTable_new room aligned.physWord missing (indexOf call.virtualAddr)
  rw [indexOf_val] at empty
  have new : (paging.withTable call.physAddr).allocatedPageTables (call.physAddr / 0x400000) =
      alignUp 4096 paging.heapCur := by
    rw [withTable_allocatedPageTables, Function.update_self]
  have different : 0 ≠ call.physAddr ||| 3 := by
    rw [or_three aligned.physAligned]
    omega
  rcases getPageTable_cases paging call.physAddr (invariant.placed.boundary_lt room) with
    ⟨present, -⟩ | ⟨-, taken⟩
  · exact absurd missing present
  · simp only [pagingMapPage, taken, empty, if_neg different, Paging.withEntry, new]

/-- The table that a call takes is at an address other than zero. -/
theorem withTable_present (invariant : MapInvariant image paging) :
    (paging.withTable call.physAddr).allocatedPageTables (call.physAddr / 0x400000) ≠ 0 := by
  have image_below := image.image_below
  have floor := invariant.placed.floor
  have above := le_alignUp_page paging.heapCur
  rw [withTable_allocatedPageTables, Function.update_self]
  omega

/-- Every call returns and keeps the invariant. -/
theorem MapInvariant.mapPage (invariant : MapInvariant image paging) (room : image.HeapRoom)
    (aligned : call.Aligned) {after : Paging}
    (called : pagingMapPage paging call.virtualAddr call.physAddr image.kernelPageDirectory =
      some after) : MapInvariant image after := by
  by_cases present : paging.allocatedPageTables (call.physAddr / 0x400000) = 0
  · rw [pagingMapPage_missing invariant room aligned present, Option.some.injEq] at called
    subst called
    exact (invariant.withTable room aligned.physWord present).withEntry room aligned
      (withTable_present invariant)
  · rw [pagingMapPage_present invariant aligned present, Option.some.injEq] at called
    subst called
    split
    · exact invariant
    · exact invariant.withEntry room aligned present

theorem mapInvariant_reachable (room : image.HeapRoom)
    (reachable : (mappingSystem image).Reachable paging) : MapInvariant image paging := by
  refine reachable.invariant (MapInvariant image) ?_ ?_
  · rintro paging ⟨kheap, rfl, empty⟩
    exact .initial empty
  · intro paging call after invariant _ stepped
    simp only [mappingSystem] at stepped
    split at stepped
    · next aligned => exact invariant.mapPage room aligned stepped
    · cases stepped

/-! ## What a call is for -/

/-- The virtual address is mapped to the physical one, and every other page address that
was mapped still is, to the same page. -/
def MapCall.Done (call : MapCall) (image : KernelImage) (before after : Paging) : Prop :=
  MapsTo after.memory image.kernelPageDirectory call.virtualAddr call.physAddr ∧
    ∀ other page, other < 2 ^ 32 → other % 0x1000 = 0 → other ≠ call.virtualAddr →
      MapsTo before.memory image.kernelPageDirectory other page →
      MapsTo after.memory image.kernelPageDirectory other page

/-- The condition for a call. When the entry of the table already has the frame, the slot
has this table. Otherwise no other slot shares the table while the entry is in use, and
the table that the slot had before, if it is another one, has no entry in use but that of
the call. -/
def MapCall.Safe (call : MapCall) (image : KernelImage) (paging : Paging) : Prop :=
  let levels := paging.levels image
  let table := paging.allocatedPageTables (call.physAddr / 0x400000)
  let slot := slotOf call.virtualAddr
  let index := indexOf call.virtualAddr
  if table ≠ 0 ∧ levels.entries table index = some call.physAddr then
    levels.directory slot = some table
  else
    (∀ other, other ≠ slot → levels.directory other = some table →
      levels.entries table index = none) ∧
    ∀ old, levels.directory slot = some old → old ≠ table → ∀ place, place ≠ index →
      levels.entries old place = none

/-- The address of the page that a slot and an index select. -/
theorem exists_page (slot index : Fin 1024) : ∃ address, address < 2 ^ 32 ∧
    address % 0x1000 = 0 ∧ slotOf address = slot ∧ indexOf address = index := by
  have slotBound := slot.isLt
  have indexBound := index.isLt
  refine ⟨slot * 0x400000 + index * 0x1000, by omega, by omega, ?_, ?_⟩
  · apply Fin.ext
    rw [slotOf_val (by omega)]
    omega
  · apply Fin.ext
    rw [indexOf_val]
    omega

theorem done_iff_kept (aligned : call.Aligned) (before after : Paging) :
    call.Done image before after ↔
      (after.levels image).walk (slotOf call.virtualAddr) (indexOf call.virtualAddr) =
          some call.physAddr ∧
        (before.levels image).Kept (after.levels image) (slotOf call.virtualAddr)
          (indexOf call.virtualAddr) := by
  unfold MapCall.Done
  rw [mapsTo_iff_walk aligned.virtualWord aligned.virtualAligned]
  refine and_congr_right fun _ => ⟨?_, ?_⟩
  · intro kept slot index elsewhere frame found
    obtain ⟨address, word, boundary, rfl, rfl⟩ := exists_page slot index
    have different : address ≠ call.virtualAddr := by
      rintro rfl
      exact elsewhere ⟨rfl, rfl⟩
    exact (mapsTo_iff_walk word boundary).mp
      (kept address frame word boundary different ((mapsTo_iff_walk word boundary).mpr found))
  · intro kept other page word boundary different found
    rw [mapsTo_iff_walk word boundary] at found ⊢
    refine kept _ _ (fun same => different ?_) page found
    exact (page_eq_iff word boundary aligned.virtualWord aligned.virtualAligned).mp same

/-- When the entry has the frame, the call does what it is for exactly when the slot has
the table. -/
theorem done_present_iff (invariant : MapInvariant image paging) (aligned : call.Aligned)
    (present : paging.allocatedPageTables (call.physAddr / 0x400000) ≠ 0)
    (held : (paging.levels image).entries (paging.allocatedPageTables (call.physAddr / 0x400000))
      (indexOf call.virtualAddr) = some call.physAddr) :
    call.Done image paging paging ↔ (paging.levels image).directory (slotOf call.virtualAddr) =
      some (paging.allocatedPageTables (call.physAddr / 0x400000)) := by
  rw [done_iff_kept aligned]
  constructor
  · rintro ⟨found, -⟩
    obtain ⟨table, here, entry⟩ := TwoLevel.walk_eq_some.mp found
    rw [here, invariant.exclusive table _ (invariant.slotKnown _ _ here) ⟨present, _, rfl⟩ _ _ _
      entry held]
  · intro here
    exact ⟨TwoLevel.walk_eq_some.mpr ⟨_, here, held⟩, fun _ _ _ _ found => found⟩

/-- Writing the entry and the slot does what it is for exactly when no other walk goes
through the entry or through the table that is replaced. -/
theorem done_withEntry_iff (invariant : MapInvariant image paging) (room : image.HeapRoom)
    (aligned : call.Aligned)
    (present : paging.allocatedPageTables (call.physAddr / 0x400000) ≠ 0)
    (changed : (paging.levels image).entries
      (paging.allocatedPageTables (call.physAddr / 0x400000)) (indexOf call.virtualAddr) ≠
        some call.physAddr) :
    call.Done image paging (paging.withEntry image.kernelPageDirectory call) ↔
      call.Safe image paging := by
  have installed := invariant.withEntry_installed room aligned present
  rw [done_iff_kept aligned, installed.kept_iff ⟨present, _, rfl⟩ invariant.slotKnown
    invariant.exclusive changed]
  simp only [MapCall.Safe, if_neg fun both => changed (And.right both)]
  exact ⟨And.right, fun safe => ⟨installed.walk_self, safe⟩⟩

/-- A new table changes no walk. -/
theorem walk_withTable (invariant : MapInvariant image paging) (room : image.HeapRoom)
    (word : call.physAddr < 2 ^ 32)
    (missing : paging.allocatedPageTables (call.physAddr / 0x400000) = 0) (slot index : Fin 1024) :
    ((paging.withTable call.physAddr).levels image).walk slot index =
      (paging.levels image).walk slot index := by
  have slots := invariant.withTable_directory room word missing slot
  cases here : (paging.levels image).directory slot with
  | none =>
      have there : ((paging.withTable call.physAddr).levels image).directory slot = none := by
        simpa only [Paging.levels, pageLevels, slots] using here
      rw [TwoLevel.walk, TwoLevel.walk, here, there]
      rfl
  | some table =>
      have there : ((paging.withTable call.physAddr).levels image).directory slot = some table := by
        simpa only [Paging.levels, pageLevels, slots] using here
      rw [TwoLevel.walk_of_directory here, TwoLevel.walk_of_directory there]
      simp only [Paging.levels, pageLevels,
        invariant.withTable_entries room word missing (invariant.slotKnown slot table here)]

/-- With a new table the condition is about the table that the slot had before only. -/
theorem safe_withTable_iff (invariant : MapInvariant image paging) (room : image.HeapRoom)
    (word : call.physAddr < 2 ^ 32)
    (missing : paging.allocatedPageTables (call.physAddr / 0x400000) = 0) :
    call.Safe image (paging.withTable call.physAddr) ↔ call.Safe image paging := by
  have slots := invariant.withTable_directory room word missing
  have new : (paging.withTable call.physAddr).allocatedPageTables (call.physAddr / 0x400000) =
      alignUp 4096 paging.heapCur := by
    rw [withTable_allocatedPageTables, Function.update_self]
  have directories : ((paging.withTable call.physAddr).levels image).directory =
      (paging.levels image).directory := by
    funext slot
    simp only [Paging.levels, pageLevels, slots slot]
  have empty (place : Fin 1024) : ((paging.withTable call.physAddr).levels image).entries
      (alignUp 4096 paging.heapCur) place = none := by
    simp only [Paging.levels, pageLevels, invariant.withTable_new room word missing]
    rfl
  have old {table : ℕ} (known : paging.Known table) (place : Fin 1024) :
      ((paging.withTable call.physAddr).levels image).entries table place =
        (paging.levels image).entries table place := by
    simp only [Paging.levels, pageLevels, invariant.withTable_entries room word missing known]
  simp only [MapCall.Safe, new, missing, directories, empty]
  rw [if_neg (by rintro ⟨-, held⟩; cases held), if_neg (by rintro ⟨absent, -⟩; exact absent rfl)]
  constructor
  · rintro ⟨-, replaced⟩
    refine ⟨fun other _ shares => absurd rfl (invariant.slotKnown other 0 shares).1, ?_⟩
    intro table had _ place elsewhere
    have known := invariant.slotKnown _ table had
    rw [← old known]
    exact replaced table had (invariant.ne_new known) place elsewhere
  · rintro ⟨-, replaced⟩
    refine ⟨fun _ _ _ => trivial, ?_⟩
    intro table had _ place elsewhere
    have known := invariant.slotKnown _ table had
    rw [old known]
    exact replaced table had known.1 place elsewhere

/-- A call with page addresses returns, and does what it is for exactly when it is safe. -/
theorem MapInvariant.done_iff_safe (invariant : MapInvariant image paging) (room : image.HeapRoom)
    (aligned : call.Aligned) :
    ∃ after, pagingMapPage paging call.virtualAddr call.physAddr image.kernelPageDirectory =
        some after ∧ (call.Done image paging after ↔ call.Safe image paging) := by
  by_cases present : paging.allocatedPageTables (call.physAddr / 0x400000) = 0
  · have between := invariant.withTable room aligned.physWord present
    refine ⟨_, pagingMapPage_missing invariant room aligned present, ?_⟩
    rw [← safe_withTable_iff invariant room aligned.physWord present,
      ← done_withEntry_iff between room aligned (withTable_present invariant),
      done_iff_kept aligned,
      done_iff_kept aligned]
    · unfold TwoLevel.Kept
      simp only [walk_withTable invariant room aligned.physWord present]
    · rw [withTable_allocatedPageTables, Function.update_self]
      simp only [Paging.levels, pageLevels,
        invariant.withTable_new room aligned.physWord present, decodeEntry_zero]
      exact Option.some_ne_none _ |>.symm
  · refine ⟨_, pagingMapPage_present invariant aligned present, ?_⟩
    by_cases held : (paging.levels image).entries
        (paging.allocatedPageTables (call.physAddr / 0x400000)) (indexOf call.virtualAddr) =
          some call.physAddr
    · rw [if_pos held, done_present_iff invariant aligned present held]
      simp only [MapCall.Safe, if_pos (And.intro present held)]
    · rw [if_neg held]
      exact done_withEntry_iff invariant room aligned present held

/-- **General page mapping.** In every state of every run, a call of `paging_map_page`
with page addresses returns. It maps the virtual address to the physical one and keeps
every other mapping exactly when it is safe. -/
theorem general_mapping (room : image.HeapRoom)
    (reachable : (mappingSystem image).Reachable paging) (aligned : call.Aligned) :
    ∃ after, pagingMapPage paging call.virtualAddr call.physAddr image.kernelPageDirectory =
        some after ∧ (call.Done image paging after ↔ call.Safe image paging) :=
  (mapInvariant_reachable room reachable).done_iff_safe room aligned

end Calls

/-- A kernel image of 2 MiB, and its state before the first call, in a memory of zeros. -/
def smallImage : KernelImage := ⟨⟨0x200000, by decide, by decide⟩, 0x100000, by decide⟩

def emptyPaging : Paging :=
  ⟨⟨kheapInit ⟨fun _ => 0#8, 0⟩ smallImage.toKinfo, false, 0, 0⟩, fun _ => 0⟩

theorem emptyPaging_slot (slot : Fin 1024) :
    loadWord emptyPaging.memory (entry smallImage.kernelPageDirectory slot) = 0 := rfl

theorem emptyPaging_reachable : (mappingSystem smallImage).Reachable emptyPaging :=
  .start ⟨⟨fun _ => 0#8, 0⟩, rfl, fun _ => rfl⟩

theorem smallImage_room : smallImage.HeapRoom := by decide

theorem emptyPaging_safe (call : MapCall) : call.Safe smallImage emptyPaging := by
  have none (slot : Fin 1024) : (emptyPaging.levels smallImage).directory slot = .none := by
    simp only [Paging.levels, pageLevels, emptyPaging_slot, decodeEntry_zero]
  simp only [MapCall.Safe, none]
  rw [if_neg (by rintro ⟨present, -⟩; exact present rfl)]
  refine ⟨?_, ?_⟩
  · intro slot _ impossible
    cases impossible
  · intro table impossible
    cases impossible

/-- The first call of a run maps a page of the second 4 MiB to the first page. -/
theorem general_mapping_first_call : ∃ after,
    pagingMapPage emptyPaging 0x400000 0 smallImage.kernelPageDirectory = some after ∧
      MapCall.Done ⟨0x400000, 0⟩ smallImage emptyPaging after := by
  obtain ⟨after, called, done⟩ := @general_mapping smallImage emptyPaging ⟨0x400000, 0⟩
    smallImage_room emptyPaging_reachable (by decide)
  exact ⟨after, called, done.mpr (emptyPaging_safe _)⟩

/-- After the first page was mapped to itself, mapping the page at 4 MiB to it as well
finds the frame in the entry, and leaves the second slot empty. -/
theorem general_mapping_second_slot : ¬∀ (image : KernelImage) (paging after : Paging)
    (call : MapCall), image.HeapRoom → (mappingSystem image).Reachable paging → call.Aligned →
      pagingMapPage paging call.virtualAddr call.physAddr image.kernelPageDirectory = some after →
      call.Done image paging after := by
  intro always
  have room := smallImage_room
  have invariant := mapInvariant_reachable room emptyPaging_reachable
  have aligned : MapCall.Aligned ⟨0, 0⟩ := by decide
  have again : MapCall.Aligned ⟨0x400000, 0⟩ := by decide
  have called := pagingMapPage_missing invariant room aligned rfl
  have reachable := mappingSystem_step emptyPaging_reachable aligned called
  have between := invariant.withTable room aligned.physWord rfl
  have present := @withTable_present smallImage emptyPaging ⟨0, 0⟩ invariant
  have installed := between.withEntry_installed room aligned present
  have after := mapInvariant_reachable room reachable
  -- Both addresses have index zero, so the entry has the frame and nothing is written.
  have second := (@pagingMapPage_present smallImage _ ⟨0x400000, 0⟩ after again present).trans
    (congrArg some (if_pos installed.entry_self))
  have done := always _ _ _ _ room reachable again second
  have slot := (done_present_iff after again present installed.entry_self).mp done
  rw [installed.slot_other _ (by decide)] at slot
  simp only [Paging.levels, pageLevels, invariant.withTable_directory room aligned.physWord rfl,
    emptyPaging_slot, decodeEntry_zero] at slot
  cases slot

end CatchOS.Mmu
