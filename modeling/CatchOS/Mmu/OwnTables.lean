import CatchOS.Mmu.PageWalk
import CatchOS.Mmu.PageframeSearch

/-!
# Page tables in their own slots

All callers of the kernel map an address to itself. Then the slot of the page directory and
the page table have the same number, so no two slots share a table, and a table is in its
slot from its first entry on. What the entries hold is left open here: `Good` says which
words an entry of a table may have, and `OwnTables` is kept by every call whose words are
good.

The page tables are next to the bitmap in the heap, and first fit sets bits up to the
number of pages, in a bitmap whose size is rounded down. The byte behind the bitmap may be
the first one of a page table when the bitmap ends at a page boundary (`BitmapEndsAtPage`).
On all other machines allocations leave the page tables alone.
-/

set_option autoImplicit false

namespace CatchOS.Mmu

open CatchOS.Lib CatchOS.Utils

/-! ## Blocks that are mapped -/

/-- The loop of `pageframe_alloc_liballoc`. -/
def mapPages (paging : Paging) (pageDir ret pages : ℕ) : Option Paging :=
  (List.range pages).foldlM
    (fun paging i =>
      pagingMapPage paging (offset ret (i * pageSize)) (offset ret (i * pageSize)) pageDir)
    paging

/-- One more page is one more turn of the loop. -/
theorem mapPages_succ (paging : Paging) (pageDir ret pages : ℕ) :
    mapPages paging pageDir ret (pages + 1) =
      (mapPages paging pageDir ret pages).bind fun paging =>
        pagingMapPage paging (offset ret (pages * pageSize)) (offset ret (pages * pageSize))
          pageDir := by
  unfold mapPages
  rw [List.range_succ, List.foldlM_append]
  simp only [Option.bind_eq_bind, List.foldlM_cons, List.foldlM_nil, Option.pure_def,
    Option.bind_fun_some]

def pageframeAllocLiballoc (physMemUpper : ℕ) (paging : Paging) (pageDir pages : ℕ) :
    Option (ℕ × Paging) :=
  match pageframeAlloc physMemUpper paging.toPageframe pages with
  | none => none
  | some (ret, frames) =>
      let paging := { paging with toPageframe := frames }
      if ret = 0 then
        some (ret, paging)
      else
        (mapPages paging pageDir ret pages).map fun paging => (ret, paging)

/-! ## Tables in their own slots -/

/-- The page table of a region of 4 MiB. -/
abbrev Paging.table (paging : Paging) (region : Fin 1024) : ℕ :=
  paging.allocatedPageTables region

/-- The words of the page directory and of the page tables. -/
abbrev Paging.slotWord (paging : Paging) (image : KernelImage) (slot : Fin 1024) : ℕ :=
  loadWord paging.memory (entry image.kernelPageDirectory slot)

abbrev Paging.entryWord (paging : Paging) (region index : Fin 1024) : ℕ :=
  loadWord paging.memory (entry (paging.table region) index)

/-- The table is in its slot. -/
def InSlot (image : KernelImage) (paging : Paging) (region : Fin 1024) : Prop :=
  paging.table region ≠ 0 → paging.slotWord image region = paging.table region ||| 3

section Own

variable (Good : Fin 1024 → Fin 1024 → ℕ → Prop)

/-- A slot has no table or its own one, and an entry is empty or has a good word. -/
structure OwnEntries (image : KernelImage) (paging : Paging) : Prop where
  placed : TablesPlaced image paging
  slots : ∀ slot, paging.slotWord image slot = 0 ∨
    paging.table slot ≠ 0 ∧ paging.slotWord image slot = paging.table slot ||| 3
  entries : ∀ region, paging.table region ≠ 0 → ∀ index,
    paging.entryWord region index = 0 ∨ Good region index (paging.entryWord region index)

/-- All tables are in their slots. -/
structure OwnTables (image : KernelImage) (paging : Paging) : Prop
    extends OwnEntries Good image paging where
  inSlot : ∀ region, InSlot image paging region

end Own

/-- Page tables may be added on top of the heap; nothing else of the allocators changes. -/
structure TablesAdded (before after : Paging) : Prop where
  heapCur : before.heapCur ≤ after.heapCur
  isInitialized : after.isInitialized = before.isInitialized
  pageframeBitmap : after.pageframeBitmap = before.pageframeBitmap
  pagesTotalPhys : after.pagesTotalPhys = before.pagesTotalPhys
  tables : ∀ region : Fin 1024, after.table region = before.table region ∨
    before.heapCur ≤ after.table region

theorem TablesAdded.refl (paging : Paging) : TablesAdded paging paging :=
  ⟨Nat.le_refl _, rfl, rfl, rfl, fun _ => .inl rfl⟩

theorem TablesAdded.trans {first second third : Paging} (early : TablesAdded first second)
    (late : TablesAdded second third) : TablesAdded first third := by
  refine ⟨early.heapCur.trans late.heapCur, late.isInitialized.trans early.isInitialized,
    late.pageframeBitmap.trans early.pageframeBitmap,
    late.pagesTotalPhys.trans early.pagesTotalPhys, fun region => ?_⟩
  rcases late.tables region with same | added
  · rw [same]
    exact early.tables region
  · exact .inr (early.heapCur.trans added)

/-- Tables stay, and entries only get good words. -/
structure EntriesKept (Good : Fin 1024 → Fin 1024 → ℕ → Prop) (before after : Paging) : Prop where
  kept : ∀ region, before.table region ≠ 0 → after.table region = before.table region
  entries : ∀ region, before.table region ≠ 0 → ∀ index,
    after.entryWord region index = before.entryWord region index ∨
      Good region index (after.entryWord region index)

/-- **What mapping changes**: tables are added, and entries get good words. The heap outside
of the tables keeps its bytes. -/
structure EntriesAdded (Good : Fin 1024 → Fin 1024 → ℕ → Prop) (image : KernelImage)
    (before after : Paging) : Prop
    extends TablesAdded before after, EntriesKept Good before after where
  memory : ∀ address, image.kernelEndVirtual ≤ address → address < before.heapCur →
    (∀ region, before.table region ≠ 0 →
      address < before.table region ∨ before.table region + 4096 ≤ address) →
    after.memory address = before.memory address

/-- The entry of an address has a good word. -/
def HasGood (Good : Fin 1024 → Fin 1024 → ℕ → Prop) (paging : Paging) (address : ℕ) : Prop :=
  paging.table (slotOf address) ≠ 0 ∧
    Good (slotOf address) (indexOf address)
      (paging.entryWord (slotOf address) (indexOf address))

section Calls

variable {Good : Fin 1024 → Fin 1024 → ℕ → Prop} {image : KernelImage} {paging : Paging}
  {region : Fin 1024}

theorem EntriesKept.refl (paging : Paging) : EntriesKept Good paging paging :=
  ⟨fun _ _ => rfl, fun _ _ _ => .inl rfl⟩

theorem EntriesKept.trans {first second third : Paging} (early : EntriesKept Good first second)
    (late : EntriesKept Good second third) : EntriesKept Good first third := by
  refine ⟨?_, ?_⟩
  · intro region present
    have same := early.kept region present
    exact (late.kept region (same.trans_ne present)).trans same
  · intro region present index
    have same := early.kept region present
    rcases late.entries region (same.trans_ne present) index with kept | good
    · rw [kept]
      exact early.entries region present index
    · exact .inr good

/-- An entry that has a good word keeps having one. -/
theorem EntriesKept.hasGood {before after : Paging} (kept : EntriesKept Good before after)
    {address : ℕ} (has : HasGood Good before address) : HasGood Good after address := by
  refine ⟨(kept.kept _ has.1).trans_ne has.1, ?_⟩
  rcases kept.entries _ has.1 (indexOf address) with same | good
  · rw [same]
    exact has.2
  · exact good

theorem EntriesAdded.refl (paging : Paging) : EntriesAdded Good image paging paging where
  toTablesAdded := .refl paging
  toEntriesKept := .refl paging
  memory _ _ _ _ := rfl

theorem EntriesAdded.trans {first second third : Paging}
    (early : EntriesAdded Good image first second) (late : EntriesAdded Good image second third) :
    EntriesAdded Good image first third := by
  refine ⟨early.toTablesAdded.trans late.toTablesAdded,
    early.toEntriesKept.trans late.toEntriesKept, ?_⟩
  intro address above below outside
  refine (late.memory address above (Nat.lt_of_lt_of_le below early.heapCur) ?_).trans
    (early.memory address above below outside)
  intro region present
  rcases early.tables region with same | added
  · rw [same] at present ⊢
    exact outside region present
  · exact .inl (Nat.lt_of_lt_of_le below added)

/-- Two regions have different tables. -/
theorem TablesPlaced.apart_of_ne (placed : TablesPlaced image paging) {other : Fin 1024}
    (present : paging.table region ≠ 0) (different : other ≠ region) :
    paging.table other + 4096 ≤ paging.table region ∨
      paging.table region + 4096 ≤ paging.table other := by
  apply placed.apart
  intro same
  exact different (Fin.ext (placed.injective region other present same.symm).symm)

/-- More words may be good. -/
theorem OwnTables.mono (own : OwnTables Good image paging) {More : Fin 1024 → Fin 1024 → ℕ → Prop}
    (implied : ∀ region index word, Good region index word → More region index word) :
    OwnTables More image paging := by
  refine ⟨⟨own.placed, own.slots, fun region present index => ?_⟩, own.inSlot⟩
  exact (own.entries region present index).imp_right (implied region index _)

/-- After `kheap_init` there are no page tables yet. -/
theorem OwnTables.initial (kheap : Kheap)
    (empty : ∀ slot : Fin 1024, loadWord kheap.memory (entry image.kernelPageDirectory slot) = 0) :
    OwnTables Good image ⟨⟨kheapInit kheap image.toKinfo, false, 0, 0⟩, fun _ => 0⟩ := by
  have above := le_alignUp_page image.kernelEndVirtual
  refine ⟨⟨⟨fun _ present => absurd rfl present, fun _ => rfl,
    fun _ _ present => absurd rfl present, Nat.le_refl _, ?_⟩, fun slot => .inl (empty slot),
    fun _ present => absurd rfl present⟩,
    fun _ present => absurd rfl present⟩
  simp only [kheapInit]
  omega

/-! ## A new page table -/

/-- The state in which a call writes its entries: the page table is there, and it is in its
slot unless it is new and empty. -/
structure TableReady (Good : Fin 1024 → Fin 1024 → ℕ → Prop) (image : KernelImage)
    (before between : Paging) (region : Fin 1024) : Prop where
  own : OwnEntries Good image between
  present : between.table region ≠ 0
  others : ∀ other, other ≠ region → InSlot image between other
  inSlot : InSlot image between region ∨ ∀ index, between.entryWord region index = 0
  added : EntriesAdded Good image before between

/-- A new table is empty, and not in its slot yet. -/
theorem OwnTables.withTable (own : OwnTables Good image paging) (room : image.HeapRoom)
    {address : ℕ} (word : address < 2 ^ 32) (missing : paging.table (slotOf address) = 0) :
    TableReady Good image paging (paging.withTable address) (slotOf address) := by
  have slot := slotOf_val word
  unfold Paging.table at missing
  rw [slot] at missing
  have placed := own.placed
  have image_below := image.image_below
  have floor := placed.floor
  have above := le_alignUp_page paging.heapCur
  have top := placed.new_fits room word missing
  have new : (paging.withTable address).table (slotOf address) = alignUp 4096 paging.heapCur := by
    rw [Paging.table, withTable_allocatedPageTables, slot, Function.update_self]
  have old {other : Fin 1024} (different : other ≠ slotOf address) :
      (paging.withTable address).table other = paging.table other := by
    rw [Paging.table, withTable_allocatedPageTables, Function.update_of_ne]
    rw [← slot]
    exact fun same => different (Fin.ext same)
  have slots (other : Fin 1024) :
      (paging.withTable address).slotWord image other = paging.slotWord image other :=
    placed.withTable_entry room word missing (Nat.le_trans image.directory_inside floor) other
  have entries {other : Fin 1024} (different : other ≠ slotOf address)
      (present : paging.table other ≠ 0) (index : Fin 1024) :
      (paging.withTable address).entryWord other index = paging.entryWord other index := by
    rw [Paging.entryWord, old different]
    exact placed.withTable_entry room word missing (placed.inside other present).2 index
  have empty (index : Fin 1024) :
      (paging.withTable address).entryWord (slotOf address) index = 0 := by
    rw [Paging.entryWord, new, withTable_memory]
    exact loadEntry_memset (by omega) index
  have ne {other : Fin 1024} (present : paging.table other ≠ 0) : other ≠ slotOf address := by
    rintro rfl
    rw [Paging.table, slot] at present
    exact present missing
  refine ⟨⟨placed.withTable room word missing, ?_, ?_⟩, by omega, ?_, .inr empty,
    ⟨⟨?_, rfl, rfl, rfl, ?_⟩, ⟨?_, ?_⟩, ?_⟩⟩
  · intro other
    rw [slots]
    rcases own.slots other with none | ⟨present, here⟩
    · exact .inl none
    · rw [old (ne present)]
      exact .inr ⟨present, here⟩
  · intro other present index
    by_cases same : other = slotOf address
    · rw [same]
      exact .inl (empty index)
    · rw [old same] at present
      rw [entries same present]
      exact own.entries other present index
  · intro other different present
    rw [old different] at present ⊢
    rw [slots]
    exact own.inSlot other present
  · rw [placed.withTable_heapCur_eq room word missing]
    omega
  · intro other
    by_cases same : other = slotOf address
    · rw [same, new]
      exact .inr above
    · exact .inl (old same)
  · intro other present
    exact old (ne present)
  · intro other present index
    exact .inl (entries (ne present) present index)
  · intro place _ below _
    rw [withTable_memory]
    exact memset_below (by omega) (show alignUp 4096 paging.heapCur + 4096 ≤ 2 ^ 32 by omega)

theorem OwnTables.getPageTable (own : OwnTables Good image paging) (room : image.HeapRoom)
    {address : ℕ} (word : address < 2 ^ 32) :
    ∃ between, Mmu.getPageTable paging address = some (between.table (slotOf address), between) ∧
      TableReady Good image paging between (slotOf address) := by
  have slot := slotOf_val word
  rcases getPageTable_cases paging address (own.placed.boundary_lt room) with
    ⟨present, found⟩ | ⟨missing, taken⟩
  · refine ⟨paging, ?_, own.toOwnEntries, ?_, fun other _ => own.inSlot other,
      .inl (own.inSlot _), .refl paging⟩
    · rw [found, Paging.table, slot]
    · rw [Paging.table, slot]
      exact present
  · have here : paging.table (slotOf address) = 0 := by
      rw [Paging.table, slot]
      exact missing
    refine ⟨paging.withTable address, ?_, own.withTable room word here⟩
    rw [taken, Paging.table, slot, withTable_allocatedPageTables, Function.update_self]

/-! ## Writing entries -/

/-- The state after a table was rewritten and put into its slot. -/
def Paging.putInSlot (paging : Paging) (image : KernelImage) (region : Fin 1024) (memory : Memory) :
    Paging :=
  { paging with
    memory := storeWord memory (entry image.kernelPageDirectory region)
      (paging.table region ||| 3) }

section PutInSlot

variable {memory : Memory} (placed : TablesPlaced image paging) (room : image.HeapRoom)
  (present : paging.table region ≠ 0)
  (frame : ∀ address, (address < paging.table region ∨ paging.table region + 4096 ≤ address) →
    memory address = paging.memory address)

include placed room present

theorem slotWord_putInSlot :
    (paging.putInSlot image region memory).slotWord image region = paging.table region ||| 3 := by
  have fits : paging.table region + 4096 ≤ 2 ^ 32 := placed.fits room present
  have word : paging.table region ||| 3 < 2 ^ 32 :=
    or_three_lt (placed.aligned region) (show paging.table region < 2 ^ 32 by omega)
  exact (loadEntry_storeEntry (TablesPlaced.directory_fits image) word region region).trans
    (if_pos rfl)

theorem entryWord_putInSlot (index : Fin 1024) :
    (paging.putInSlot image region memory).entryWord region index =
      loadWord memory (entry (paging.table region) index) :=
  loadEntry_storeEntry_of_apart (TablesPlaced.directory_fits image) (placed.fits room present)
    (.inr (placed.directory_apart present)) region index

include frame

theorem slotWord_putInSlot_of_ne {slot : Fin 1024} (different : slot ≠ region) :
    (paging.putInSlot image region memory).slotWord image slot = paging.slotWord image slot := by
  have directoryFits := TablesPlaced.directory_fits image
  have fits : paging.table region + 4096 ≤ 2 ^ 32 := placed.fits room present
  have below : image.kernelPageDirectory + 4096 ≤ paging.table region :=
    placed.directory_apart present
  have word : paging.table region ||| 3 < 2 ^ 32 :=
    or_three_lt (placed.aligned region) (show paging.table region < 2 ^ 32 by omega)
  refine (loadEntry_storeEntry directoryFits word region slot).trans ?_
  rw [if_neg different]
  exact loadEntry_congr directoryFits (fun address _ inside => frame address (by omega)) slot

theorem entryWord_putInSlot_of_ne {other : Fin 1024} (different : other ≠ region)
    (nonnull : paging.table other ≠ 0) (index : Fin 1024) :
    (paging.putInSlot image region memory).entryWord other index =
      paging.entryWord other index := by
  have otherFits : paging.table other + 4096 ≤ 2 ^ 32 := placed.fits room nonnull
  have apart := placed.apart_of_ne present different
  refine (loadEntry_storeEntry_of_apart (TablesPlaced.directory_fits image) otherFits
    (.inr (placed.directory_apart nonnull)) region index).trans ?_
  exact loadEntry_congr otherFits (fun address above inside => frame address (by omega)) index

end PutInSlot

/-- What is written inside the table with good words, and then into the slot of the table. -/
theorem TableReady.rewrite {before : Paging} (ready : TableReady Good image before paging region)
    (room : image.HeapRoom) {memory : Memory}
    (frame : ∀ address, (address < paging.table region ∨ paging.table region + 4096 ≤ address) →
      memory address = paging.memory address)
    (entries : ∀ index : Fin 1024,
      loadWord memory (entry (paging.table region) index) = paging.entryWord region index ∨
        Good region index (loadWord memory (entry (paging.table region) index))) :
    OwnTables Good image (paging.putInSlot image region memory) ∧
      EntriesAdded Good image before (paging.putInSlot image region memory) ∧
      (paging.putInSlot image region memory).table region ≠ 0 ∧
      ∀ index, (paging.putInSlot image region memory).entryWord region index =
        loadWord memory (entry (paging.table region) index) := by
  have placed := ready.own.placed
  have present := ready.present
  have slotSelf := @slotWord_putInSlot image paging region memory placed room present
  have entrySelf := @entryWord_putInSlot image paging region memory placed room present
  have slotOther {slot : Fin 1024} (different : slot ≠ region) :=
    slotWord_putInSlot_of_ne placed room present frame different
  have entryOther {other : Fin 1024} (different : other ≠ region)
      (nonnull : paging.table other ≠ 0) :=
    entryWord_putInSlot_of_ne placed room present frame different nonnull
  refine ⟨⟨⟨placed.of_tables rfl rfl rfl, ?_, ?_⟩, ?_⟩, ready.added.trans ⟨⟨Nat.le_refl _, rfl, rfl,
    rfl, fun _ => .inl rfl⟩, ⟨fun _ _ => rfl, ?_⟩, ?_⟩, present, entrySelf⟩
  · intro slot
    by_cases same : slot = region
    · rw [same]
      exact .inr ⟨present, slotSelf⟩
    · rw [slotOther same]
      exact ready.own.slots slot
  · intro other nonnull index
    by_cases same : other = region
    · subst same
      rw [entrySelf index]
      rcases entries index with kept | good
      · rw [kept]
        exact ready.own.entries other nonnull index
      · exact .inr good
    · rw [entryOther same nonnull index]
      exact ready.own.entries other nonnull index
  · intro other nonnull
    by_cases same : other = region
    · rw [same]
      exact slotSelf
    · rw [slotOther same]
      exact ready.others other same nonnull
  · intro other nonnull index
    by_cases same : other = region
    · subst same
      rw [entrySelf index]
      exact entries index
    · exact .inl (entryOther same nonnull index)
  · intro address above _ outside
    have inside := image.directory_inside
    refine (storeEntry_frame (TablesPlaced.directory_fits image) region.isLt
      (.inr (by omega))).trans ?_
    exact frame address (outside region present)

/-- The flags fit into the low bits of a word. -/
theorem or_flags_lt {address : ℕ} (word : address < 2 ^ 32) : address ||| 3 < 2 ^ 32 :=
  Nat.or_lt_two_pow word (by decide)

/-- **`paging_map_page`** of an address to itself: when it returns early, the table is in its
slot. -/
theorem OwnTables.mapPage (own : OwnTables Good image paging) (room : image.HeapRoom)
    {address : ℕ} (word : address < 2 ^ 32)
    (good : Good (slotOf address) (indexOf address) (address ||| 3)) :
    ∃ after, pagingMapPage paging address address image.kernelPageDirectory = some after ∧
      OwnTables Good image after ∧ EntriesAdded Good image paging after ∧
      after.table (slotOf address) ≠ 0 ∧
      after.entryWord (slotOf address) (indexOf address) = address ||| 3 := by
  obtain ⟨between, found, ready⟩ := own.getPageTable room word
  have pde : virtualAddrToPde address = (slotOf address : ℕ) := by
    rw [slotOf_val word, virtualAddrToPde, Nat.shiftRight_eq_div_pow]
  have pte := (indexOf_val address).symm
  simp only [pagingMapPage, found, pde, pte]
  by_cases held : between.entryWord (slotOf address) (indexOf address) = address ||| 3
  · rw [if_pos held]
    -- A new table has no entry yet, so this one is old.
    have old : InSlot image between (slotOf address) := by
      refine ready.inSlot.resolve_right fun empty => ?_
      rw [empty] at held
      have low : 3 ≤ address ||| 3 := Nat.right_le_or
      omega
    refine ⟨between, rfl, ⟨ready.own, fun other => ?_⟩, ready.added, ready.present, held⟩
    by_cases same : other = slotOf address
    · rw [same]
      exact old
    · exact ready.others other same
  · rw [if_neg held]
    have fits := ready.own.placed.fits room ready.present
    have written := @loadEntry_storeEntry between.memory _ (address ||| 3) fits
      (or_flags_lt word) (indexOf address)
    obtain ⟨after, added, present, entries⟩ := ready.rewrite room
      (fun other outside => storeEntry_frame fits (indexOf address).isLt outside) fun index => by
        rw [written index]
        by_cases here : index = indexOf address
        · rw [if_pos here, here]
          exact .inr good
        · rw [if_neg here]
          exact .inl rfl
    refine ⟨_, rfl, after, added, present, (entries _).trans ?_⟩
    rw [written, if_pos rfl]

/-- The entries of a table that is being filled. -/
theorem loadEntry_fillEntries {memory : Memory} {table physAddr turns : ℕ}
    (fits : table + 4096 ≤ 2 ^ 32) (bound : turns ≤ 1024) (index : Fin 1024) :
    loadWord ((List.range turns).foldl (fillEntry table physAddr) memory) (entry table index) =
      if (index : ℕ) < turns then offset physAddr (index * 0x1000) ||| 3
      else loadWord memory (entry table index) := by
  induction turns with
  | zero => rfl
  | succ turns ih =>
      have word : offset physAddr (turns * 0x1000) ||| 3 < 2 ^ 32 := or_flags_lt (offset_lt _ _)
      rw [List.range_succ, List.foldl_append, List.foldl_cons, List.foldl_nil, fillEntry]
      refine (loadEntry_storeEntry fits word ⟨turns, by omega⟩ index).trans ?_
      rw [ih (by omega)]
      by_cases last : (index : ℕ) = turns
      · have here : index = ⟨turns, by omega⟩ := Fin.ext last
        rw [if_pos here, if_pos (by omega), last]
      · have elsewhere : index ≠ ⟨turns, by omega⟩ := fun same => last (congrArg Fin.val same)
        rw [if_neg elsewhere]
        have before : (index : ℕ) < turns + 1 ↔ (index : ℕ) < turns := by omega
        simp only [before]

/-- **`paging_map_table`** of an address to itself. -/
theorem OwnTables.mapTable (own : OwnTables Good image paging) (room : image.HeapRoom)
    {address : ℕ} (word : address < 2 ^ 32)
    (good : ∀ index : Fin 1024,
      Good (slotOf address) index (offset address (index * 0x1000) ||| 3)) :
    ∃ after, pagingMapTable paging address address image.kernelPageDirectory = some after ∧
      OwnTables Good image after ∧ EntriesAdded Good image paging after ∧
      after.table (slotOf address) ≠ 0 ∧
      ∀ index : Fin 1024, after.entryWord (slotOf address) index =
        offset address (index * 0x1000) ||| 3 := by
  obtain ⟨between, found, ready⟩ := own.getPageTable room word
  have pde : virtualAddrToPde address = (slotOf address : ℕ) := by
    rw [slotOf_val word, virtualAddrToPde, Nat.shiftRight_eq_div_pow]
  simp only [pagingMapTable, found, pde]
  have fits := ready.own.placed.fits room ready.present
  have filled (index : Fin 1024) : loadWord
      ((List.range 1024).foldl (fillEntry (between.table (slotOf address)) address) between.memory)
      (entry (between.table (slotOf address)) index) = offset address (index * 0x1000) ||| 3 := by
    rw [loadEntry_fillEntries fits (Nat.le_refl _), if_pos index.isLt]
  have frame (other : ℕ) (outside : other < between.table (slotOf address) ∨
      between.table (slotOf address) + 4096 ≤ other) :
      (List.range 1024).foldl (fillEntry (between.table (slotOf address)) address) between.memory
        other = between.memory other :=
    fillEntries_frame fits (Nat.le_refl _) outside
  -- From here on only these two facts of the filled table matter.
  generalize (List.range 1024).foldl (fillEntry (between.table (slotOf address)) address)
    between.memory = memory at filled frame ⊢
  obtain ⟨after, added, present, entries⟩ := ready.rewrite room frame fun index => by
    rw [filled]
    exact .inr (good index)
  exact ⟨_, rfl, after, added, present, fun index => (entries index).trans (filled index)⟩

/-- **A loop of `paging_map_page`** over the pages from an address on. -/
theorem OwnTables.mapPages (own : OwnTables Good image paging) (room : image.HeapRoom)
    {ret pages : ℕ}
    (good : ∀ i < pages, Good (slotOf (offset ret (i * pageSize)))
      (indexOf (offset ret (i * pageSize))) (offset ret (i * pageSize) ||| 3)) :
    ∃ after, Mmu.mapPages paging image.kernelPageDirectory ret pages = some after ∧
      OwnTables Good image after ∧ EntriesAdded Good image paging after ∧
      ∀ i < pages, HasGood Good after (offset ret (i * pageSize)) := by
  induction pages with
  | zero => exact ⟨paging, rfl, own, .refl paging, fun i bound => absurd bound (Nat.not_lt_zero i)⟩
  | succ pages ih =>
      obtain ⟨between, looped, ownBetween, added, mapped⟩ :=
        ih fun i bound => good i (Nat.lt_succ_of_lt bound)
      obtain ⟨after, called, ownAfter, addedLast, present, word⟩ :=
        ownBetween.mapPage room (offset_lt _ _) (good pages (Nat.lt_succ_self pages))
      refine ⟨after, ?_, ownAfter, added.trans addedLast, fun i bound => ?_⟩
      · rw [mapPages_succ, looped, Option.bind_some, called]
      · rcases Nat.lt_succ_iff_lt_or_eq.mp bound with before | last
        · exact addedLast.toEntriesKept.hasGood (mapped i before)
        · rw [last]
          exact ⟨present, word.symm ▸ good pages (Nat.lt_succ_self pages)⟩

end Calls

/-! ## Own frames -/

/-- The word has its own frame, is present and may be written. -/
def OwnFrame (region index : Fin 1024) (word : ℕ) : Prop :=
  word / 0x1000 = (region : ℕ) * 1024 + (index : ℕ) ∧ word % 4 = 3

/-- The flags do not change the frame. -/
theorem or_three_div (address : ℕ) : (address ||| 3) / 0x1000 = address / 0x1000 := by
  rw [← Nat.shiftRight_eq_div_pow _ 12, Nat.shiftRight_or_distrib]
  exact (Nat.or_zero _).trans (Nat.shiftRight_eq_div_pow _ _)

theorem or_three_mod_four (address : ℕ) : (address ||| 3) % 4 = 3 := by
  have low : ∀ bits < 4, bits ||| 3 = 3 := by decide
  rw [show 4 = 2 ^ 2 from rfl, Nat.or_mod_two_pow]
  exact low _ (Nat.mod_lt _ (by decide))

section Walks

variable {image : KernelImage} {paging : Paging} {address : ℕ}

/-- The walk through the page directory and a table that is in its slot. -/
theorem OwnTables.translate_eq {Good : Fin 1024 → Fin 1024 → ℕ → Prop}
    (own : OwnTables Good image paging) (word : address < 2 ^ 32)
    (present : paging.table (slotOf address) ≠ 0) :
    translate paging.memory image.kernelPageDirectory address =
      let pte := paging.entryWord (slotOf address) (indexOf address)
      if entryPresent pte then some ⟨entryFrame pte + address % 0x1000, entryWritable pte⟩
      else none := by
  have slot := own.inSlot _ present
  rw [Paging.slotWord, slotOf_val word] at slot
  simp only [translate, slot, entryFrame_or_three (own.placed.aligned _), entryPresent_or_three,
    entryWritable_or_three, Bool.true_and, Paging.entryWord, indexOf_val]

/-- An address whose entry has its own frame is mapped to itself. -/
theorem OwnTables.translate_self (own : OwnTables OwnFrame image paging) (word : address < 2 ^ 32)
    (has : HasGood OwnFrame paging address) :
    translate paging.memory image.kernelPageDirectory address = some ⟨address, true⟩ := by
  obtain ⟨present, frame, flags⟩ := has
  rw [slotOf_val word, indexOf_val] at frame
  have isPresent : entryPresent (paging.entryWord (slotOf address) (indexOf address)) = true := by
    rw [entryPresent, Nat.testBit_zero, decide_eq_true_iff]
    omega
  have isWritable : entryWritable (paging.entryWord (slotOf address) (indexOf address)) = true := by
    rw [entryWritable, Nat.testBit_succ, Nat.testBit_zero, decide_eq_true_iff]
    omega
  have sum : entryFrame (paging.entryWord (slotOf address) (indexOf address)) + address % 0x1000 =
      address := by
    unfold entryFrame
    omega
  simp only [own.translate_eq word present, isPresent, isWritable, sum, if_true]

/-- Only entries with own frames are walked through. -/
theorem OwnTables.hasGood_of_translate (own : OwnTables OwnFrame image paging)
    (word : address < 2 ^ 32) {translation : Translation}
    (found : translate paging.memory image.kernelPageDirectory address = some translation) :
    HasGood OwnFrame paging address := by
  rcases own.slots (slotOf address) with none | ⟨present, -⟩
  · rw [Paging.slotWord, slotOf_val word] at none
    simp only [translate, none] at found
    cases found
  · refine ⟨present, (own.entries _ present (indexOf address)).resolve_left fun empty => ?_⟩
    rw [own.translate_eq word present, empty] at found
    cases found

end Walks

/-! ## The bitmap among the page tables -/

/-- The bitmap is a block of the heap at a page boundary, apart from the page tables. -/
structure BitmapApart (image : KernelImage) (physMemUpper : ℕ) (paging : Paging) : Prop where
  total : paging.pagesTotalPhys = pagesTotal physMemUpper
  above : image.kernelEndVirtual ≤ paging.pageframeBitmap
  aligned : paging.pageframeBitmap % 0x1000 = 0
  below : paging.pageframeBitmap + pagesTotal physMemUpper / 8 ≤ paging.heapCur
  tables : ∀ region : Fin 1024, paging.table region ≠ 0 →
    paging.table region + 4096 ≤ paging.pageframeBitmap ∨
      paging.pageframeBitmap + pagesTotal physMemUpper / 8 ≤ paging.table region

/-- The number of pages is no multiple of eight, and the bitmap is a number of whole pages.
Then the page behind the bitmap is the next block of the heap, and first fit may set bits
in its first byte. -/
def BitmapEndsAtPage (physMemUpper : ℕ) : Prop :=
  pagesTotal physMemUpper % 8 ≠ 0 ∧ pagesTotal physMemUpper / 8 ≠ 0 ∧
    pagesTotal physMemUpper / 8 % 0x1000 = 0

instance (physMemUpper : ℕ) : Decidable (BitmapEndsAtPage physMemUpper) :=
  inferInstanceAs (Decidable (_ ∧ _ ∧ _))

section Frames

variable {Good : Fin 1024 → Fin 1024 → ℕ → Prop} {image : KernelImage}
  {physMemUpper pages : ℕ} {paging : Paging}

theorem BitmapApart.of_added (apart : BitmapApart image physMemUpper paging) {after : Paging}
    (added : TablesAdded paging after) : BitmapApart image physMemUpper after := by
  have below := apart.below
  have heapCur := added.heapCur
  refine ⟨added.pagesTotalPhys.trans apart.total, ?_, ?_, ?_, ?_⟩
  · rw [added.pageframeBitmap]
    exact apart.above
  · rw [added.pageframeBitmap]
    exact apart.aligned
  · rw [added.pageframeBitmap]
    omega
  · intro region present
    rw [added.pageframeBitmap]
    rcases added.tables region with same | new
    · rw [same] at present ⊢
      exact apart.tables region present
    · exact .inr (by omega)

/-- Mapping does not change the bits. -/
theorem EntriesAdded.bit_eq {after : Paging} (added : EntriesAdded Good image paging after)
    (apart : BitmapApart image physMemUpper paging) (placed : TablesPlaced image paging)
    (room : image.HeapRoom) {page : ℕ} (inBitmap : page < pagesTotal physMemUpper / 8 * 8) :
    after.bit page = paging.bit page := by
  have above := apart.above
  have below := apart.below
  have top := placed.heapCur_lt room
  have place : offset paging.pageframeBitmap (page / 8) = paging.pageframeBitmap + page / 8 :=
    offset_eq (by omega)
  unfold Pageframe.bit bitmapBit
  rw [added.pageframeBitmap, place, added.memory _ (by omega) (by omega) fun region present => ?_]
  have tables := apart.tables region present
  omega

/-- The tables depend on the bytes of the page directory and of the tables only. -/
theorem OwnTables.of_memory (own : OwnTables Good image paging) (room : image.HeapRoom)
    {after : Paging} (placed : TablesPlaced image after)
    (tables : after.allocatedPageTables = paging.allocatedPageTables)
    (directory : ∀ address, image.kernelPageDirectory ≤ address →
      address < image.kernelPageDirectory + 4096 → after.memory address = paging.memory address)
    (contents : ∀ region : Fin 1024, paging.table region ≠ 0 → ∀ address,
      paging.table region ≤ address → address < paging.table region + 4096 →
      after.memory address = paging.memory address) :
    OwnTables Good image after ∧ EntriesKept Good paging after := by
  have table (region : Fin 1024) : after.table region = paging.table region :=
    congrFun tables region
  have slots (slot : Fin 1024) : after.slotWord image slot = paging.slotWord image slot :=
    loadEntry_congr (TablesPlaced.directory_fits image) directory slot
  have entries {region : Fin 1024} (present : paging.table region ≠ 0) (index : Fin 1024) :
      after.entryWord region index = paging.entryWord region index := by
    rw [Paging.entryWord, table]
    exact loadEntry_congr (own.placed.fits room present) (contents region present) index
  refine ⟨⟨⟨placed, ?_, ?_⟩, ?_⟩, fun region _ => table region,
    fun region present index => .inl (entries present index)⟩
  · intro slot
    rw [slots, table]
    exact own.slots slot
  · intro region present index
    rw [table] at present
    rw [entries present]
    exact own.entries region present index
  · intro region present
    rw [table] at present ⊢
    rw [slots]
    exact own.inSlot region present

/-- Setting up the bitmap changes nothing below the heap pointer. -/
theorem OwnTables.initialFrames (own : OwnTables Good image paging) (room : image.HeapRoom)
    (before : paging.isInitialized = false) :
    let after : Paging :=
      { paging with toPageframe := Mmu.initialFrames physMemUpper paging.toKheap }
    (OwnTables Good image after ∧ EntriesKept Good paging after) ∧
      BitmapApart image physMemUpper after := by
  have placed := own.placed
  have total := pagesTotal_lt physMemUpper
  have floor := placed.floor
  have above := le_alignUp_page paging.heapCur
  have onBudget := placed.boundary_le
  rw [before] at onBudget
  have count := tableCount_le paging.allocatedPageTables
  have low := alignUp_page_lt image.kernelEndVirtual
  have ends : alignUp 4096 paging.heapCur + 0x20000 < 2 ^ 32 := by
    unfold KernelImage.HeapRoom at room
    simp only [Bool.false_eq_true, if_false] at onBudget
    omega
  have top : offset (alignUp 4096 paging.heapCur) (pagesTotal physMemUpper / 8) =
      alignUp 4096 paging.heapCur + pagesTotal physMemUpper / 8 := offset_eq (by omega)
  have memory (address : ℕ) (inside : address < paging.heapCur) :
      (Mmu.initialFrames physMemUpper paging.toKheap).memory address = paging.memory address := by
    simp only [Mmu.initialFrames]
    rw [bitmapSetBits_frame, memset_below (by omega) (by omega)]
    intro page _ reserved
    rw [offset_eq (by omega)]
    omega
  refine ⟨own.of_memory room ⟨?_, placed.aligned, placed.injective, ?_, ?_⟩ rfl ?_ ?_,
    ⟨rfl, ?_, alignUp_mod _ _, ?_, ?_⟩⟩
  · intro region present
    have bounds := placed.inside region present
    simp only [Mmu.initialFrames, top]
    omega
  · simp only [Mmu.initialFrames, top]
    omega
  · simp only [Mmu.initialFrames, top, if_true]
    simp only [Bool.false_eq_true, if_false] at onBudget
    omega
  · intro address _ inDirectory
    have inside := image.directory_inside
    exact memory address (by omega)
  · intro region present address _ inTable
    have bounds := (placed.inside region present).2
    exact memory address (Nat.lt_of_lt_of_le inTable bounds)
  · simp only [Mmu.initialFrames]
    omega
  · simp only [Mmu.initialFrames, top]
    omega
  · intro region present
    have bounds : paging.table region + 4096 ≤ paging.heapCur := (placed.inside region present).2
    refine .inl ?_
    simp only [Mmu.initialFrames]
    exact Nat.le_trans bounds above

/-- The bytes of the pages are in the bitmap, or right behind it and not at the start of a
page. -/
def BytesInBitmap (physMemUpper start pages : ℕ) : Prop :=
  ∀ page, start ≤ page → page < start + pages → page / 8 < pagesTotal physMemUpper / 8 ∨
    page / 8 = pagesTotal physMemUpper / 8 ∧ pagesTotal physMemUpper / 8 % 0x1000 ≠ 0

/-- The pages that an allocation may find. -/
theorem bytesInBitmap_of_rounded (rounded : ¬BitmapEndsAtPage physMemUpper) {start : ℕ}
    (below : start + pages ≤ pagesTotal physMemUpper)
    (few : pages ≤ 8 → start + pages ≤ pagesTotal physMemUpper / 8 * 8) :
    BytesInBitmap physMemUpper start pages := by
  unfold BitmapEndsAtPage at rounded
  intro page above inBlock
  omega

theorem bytesInBitmap_of_le {start : ℕ}
    (inside : start + pages ≤ pagesTotal physMemUpper / 8 * 8) :
    BytesInBitmap physMemUpper start pages := by
  intro page above inBlock
  omega

/-- Marking pages leaves the page tables alone. -/
theorem OwnTables.setPages (own : OwnTables Good image paging) (room : image.HeapRoom)
    (apart : BitmapApart image physMemUpper paging) {start : ℕ}
    (bytes : BytesInBitmap physMemUpper start pages) :
    let after : Paging := { paging with toPageframe := paging.toPageframe.setPages start pages }
    (OwnTables Good image after ∧ EntriesKept Good paging after) ∧
      BitmapApart image physMemUpper after := by
  have placed := own.placed
  have total := pagesTotal_lt physMemUpper
  have inHeap := apart.below
  have heapEnd := placed.heapCur_lt room
  have bitmapAligned := apart.aligned
  have byte {page : ℕ} (above : start ≤ page) (inBlock : page < start + pages) :
      offset paging.pageframeBitmap (page / 8) = paging.pageframeBitmap + page / 8 := by
    have place := bytes page above inBlock
    exact offset_eq (by omega)
  refine ⟨own.of_memory room (placed.of_tables rfl rfl rfl) rfl ?_ ?_,
    ⟨apart.total, apart.above, apart.aligned, apart.below, apart.tables⟩⟩
  · intro address above inDirectory
    have inside := image.directory_inside
    have bitmapAbove := apart.above
    apply bitmapSetBits_frame
    intro page from' inBlock
    rw [byte from' inBlock]
    omega
  · intro region present address above inTable
    have tableApart := apart.tables region present
    have tableAligned : paging.table region % 0x1000 = 0 := placed.aligned region
    apply bitmapSetBits_frame
    intro page from' inBlock
    have place := bytes page from' inBlock
    rw [byte from' inBlock]
    omega

theorem OwnTables.pageframeAlloc_initialized {frames : Pageframe}
    (own : OwnTables Good image { paging with toPageframe := frames }) (room : image.HeapRoom)
    (apart : BitmapApart image physMemUpper { paging with toPageframe := frames })
    (rounded : ¬BitmapEndsAtPage physMemUpper) (initialized : frames.isInitialized = true) :
    ∃ ret after, Mmu.pageframeAlloc physMemUpper frames pages = some (ret, after) ∧
      (OwnTables Good image { paging with toPageframe := after } ∧
        EntriesKept Good { paging with toPageframe := frames }
          { paging with toPageframe := after }) ∧
      BitmapApart image physMemUpper { paging with toPageframe := after } ∧
      after.isInitialized = true ∧
      (ret ≠ 0 → ret % 0x1000 = 0 ∧ ret + pages * 0x1000 ≤ 2 ^ 32) := by
  have image_below := image.image_below
  have above : image.kernelEndVirtual ≤ frames.pageframeBitmap := apart.above
  have total := pagesTotal_lt physMemUpper
  rw [pageframeAlloc_eq physMemUpper initialized]
  cases found : allocPage frames pages with
  | none =>
      exact ⟨0, frames, rfl, ⟨own, .refl _⟩, apart, initialized,
        fun nonnull => absurd rfl nonnull⟩
  | some start =>
      obtain ⟨free, few⟩ := allocPage_free (by omega) found
      have below := free.below
      have size : frames.pagesTotalPhys = pagesTotal physMemUpper := apart.total
      rw [size] at below few
      have ret : pageframeAddrFromPage start = start * 0x1000 := by
        unfold pageframeAddrFromPage
        omega
      obtain ⟨kept, apartAfter⟩ :=
        own.setPages room apart (bytesInBitmap_of_rounded rounded below few)
      refine ⟨pageframeAddrFromPage start, frames.setPages start pages, rfl, kept, apartAfter,
        initialized, fun _ => ?_⟩
      rw [ret]
      omega

/-- A call of `pageframe_alloc`, the first one also, leaves the page tables alone. -/
theorem OwnTables.pageframeAlloc (own : OwnTables Good image paging) (room : image.HeapRoom)
    (apart : paging.isInitialized = true → BitmapApart image physMemUpper paging)
    (rounded : ¬BitmapEndsAtPage physMemUpper) (pages : ℕ) :
    ∃ ret frames, Mmu.pageframeAlloc physMemUpper paging.toPageframe pages = some (ret, frames) ∧
      (OwnTables Good image { paging with toPageframe := frames } ∧
        EntriesKept Good paging { paging with toPageframe := frames }) ∧
      BitmapApart image physMemUpper { paging with toPageframe := frames } ∧
      frames.isInitialized = true ∧
      (ret ≠ 0 → ret % 0x1000 = 0 ∧ ret + pages * 0x1000 ≤ 2 ^ 32) := by
  cases initialized : paging.isInitialized with
  | false =>
      obtain ⟨⟨started, keptFirst⟩, startedApart⟩ :=
        @OwnTables.initialFrames Good image physMemUpper _ own room initialized
      have init := pageframeAllocInit_eq physMemUpper (own.placed.boundary_lt room)
      rw [pageframeAlloc_first initialized init rfl]
      obtain ⟨ret, frames, called, ⟨ownAfter, kept⟩, rest⟩ :=
        started.pageframeAlloc_initialized room startedApart rounded rfl
      exact ⟨ret, frames, called, ⟨ownAfter, keptFirst.trans kept⟩, rest⟩
  | true =>
      exact OwnTables.pageframeAlloc_initialized own room (apart initialized) rounded initialized

/-- **`pageframe_alloc_liballoc`** maps the pages of the block it returns. -/
theorem OwnTables.liballoc (own : OwnTables Good image paging) (room : image.HeapRoom)
    (apart : paging.isInitialized = true → BitmapApart image physMemUpper paging)
    (rounded : ¬BitmapEndsAtPage physMemUpper)
    (good : ∀ page < 2 ^ 32, page % 0x1000 = 0 → Good (slotOf page) (indexOf page) (page ||| 3))
    (pages : ℕ) :
    ∃ ret after, pageframeAllocLiballoc physMemUpper paging image.kernelPageDirectory pages =
        some (ret, after) ∧
      OwnTables Good image after ∧ EntriesKept Good paging after ∧
      BitmapApart image physMemUpper after ∧ after.isInitialized = true ∧
      (ret ≠ 0 → ret % 0x1000 = 0 ∧ ret + pages * 0x1000 ≤ 2 ^ 32 ∧
        ∀ i < pages, HasGood Good after (ret + i * 0x1000)) := by
  obtain ⟨ret, frames, called, ⟨ownFrames, kept⟩, apartFrames, initialized, block⟩ :=
    own.pageframeAlloc room apart rounded pages
  simp only [pageframeAllocLiballoc, called]
  by_cases null : ret = 0
  · rw [if_pos null]
    exact ⟨ret, _, rfl, ownFrames, kept, apartFrames, initialized,
      fun nonnull => absurd null nonnull⟩
  · rw [if_neg null]
    obtain ⟨aligned, fits⟩ := block null
    have place {i : ℕ} (bound : i < pages) : offset ret (i * pageSize) = ret + i * 0x1000 := by
      have before : (i + 1) * 0x1000 ≤ pages * 0x1000 := Nat.mul_le_mul_right _ bound
      exact offset_eq (show ret + i * 0x1000 < 2 ^ 32 by omega)
    obtain ⟨after, looped, ownAfter, added, mapped⟩ := ownFrames.mapPages room
      (fun i bound => good _ (offset_lt _ _) (by rw [place bound]; omega))
    refine ⟨ret, after, by rw [looped]; rfl, ownAfter, kept.trans added.toEntriesKept,
      apartFrames.of_added added.toTablesAdded, added.isInitialized.trans initialized,
      fun _ => ⟨aligned, fits, fun i bound => ?_⟩⟩
    rw [← place bound]
    exact mapped i bound

end Frames

/-! ## The bitmap is set up -/

section Start

variable (image : KernelImage) (physMemUpper : ℕ)

/-- The state before the first call, in a memory of zeros. -/
def clearPaging : Paging :=
  ⟨⟨kheapInit ⟨fun _ => 0#8, 0⟩ image.toKinfo, false, 0, 0⟩, fun _ => 0⟩

/-- The state after the bitmap was set up. -/
def bitmapPaging : Paging :=
  { clearPaging image with
    toPageframe := initialFrames physMemUpper (clearPaging image).toKheap }

variable {image physMemUpper}

/-- A request for no pages sets up the bitmap. -/
theorem liballoc_clearPaging (room : image.HeapRoom) :
    ∃ ret, pageframeAllocLiballoc physMemUpper (clearPaging image) image.kernelPageDirectory 0 =
      some (ret, bitmapPaging image physMemUpper) := by
  have own : OwnTables (fun _ _ _ => True) image (clearPaging image) := .initial _ fun _ => rfl
  have boundary := own.placed.boundary_lt room
  obtain ⟨ret, after, called⟩ := pageframeAlloc_total physMemUpper 0 boundary
  have ready := called
  rw [pageframeAlloc_first rfl (pageframeAllocInit_eq physMemUpper boundary) rfl] at ready
  have same := pageframeAlloc_zero rfl ready
  refine ⟨ret, ?_⟩
  simp only [pageframeAllocLiballoc, called, same]
  split <;> rfl

end Start

end CatchOS.Mmu
