import CatchOS.Drivers.Acpi
import CatchOS.Mmu.OwnTables

/-!
# Mapping the ACPI tables

The firmware puts its tables at any address, so `acpi_map_sdt` maps pages by the addresses
of bytes inside of them: the address of the table, and then that address plus a number of
pages. Such a call writes the right frame into the entry, because the processor ignores the
lower bits of an entry, and it writes flags with it.

`selfMapSystem` has all calls of the kernel that map pages or mark them as used, in any
order: those of `paging_init`, of the drivers, of `liballoc`, and `acpi_init`. Pages that
`liballoc` requests while `acpi_init` runs are steps of their own. An invariant of all calls
is one of `OwnTables`; which words are good is left open (`MappingInvariant.step`).

For `acpi_map_sdt` the good words are those of the own frame of an entry (`OwnFrame`), which
a call of an address that is not aligned writes as well. After the call every byte of the
table is in a page that is mapped to itself and marked as used.
-/

set_option autoImplicit false

namespace CatchOS.Drivers

open CatchOS.Lib CatchOS.Mmu CatchOS.Utils

/-! ## Runs -/

/-- What the tables of the firmware are like when `acpi_init` is called. -/
structure FirmwareBoot extends AcpiBoot where
  rsdpWord : rsdp < 2 ^ 32
  tables : isPagingEnabled = true → toAcpiBoot.toMap ≠ 0 →
    RootTable heap toAcpiBoot.found ∧
      heap.Supply (mapBlocks heap.memory toAcpiBoot.found nodes supply)

/-- The calls that map pages to themselves or mark them as used. -/
inductive MappingCall where
  | mapTable (address : ℕ)
  | mapPage (address : ℕ)
  | liballoc (pages : ℕ)
  | mark (address pages : ℕ)
  | acpiMapSdt (memory : Memory) (acpiSdt : ℕ)
  | acpiInit (boot : FirmwareBoot)

def selfMapStep (image : KernelImage) (physMemUpper : ℕ) (paging : Paging) :
    MappingCall → Option Paging
  | .mapTable address =>
      if address < 2 ^ 32 then
        pagingMapTable paging address address image.kernelPageDirectory
      else
        none
  | .mapPage address =>
      if address < 2 ^ 32 then
        pagingMapPage paging address address image.kernelPageDirectory
      else
        none
  | .liballoc pages =>
      if pages < 2 ^ 32 then
        (pageframeAllocLiballoc physMemUpper paging image.kernelPageDirectory pages).map Prod.snd
      else
        none
  | .mark address pages =>
      if address < 2 ^ 32 ∧ pages < 2 ^ 32 then
        some (setPageFromAddr paging address pages)
      else
        none
  | .acpiMapSdt memory acpiSdt =>
      if acpiSdt < 2 ^ 32 then
        acpiMapSdt image.kernelPageDirectory memory paging acpiSdt
      else
        none
  | .acpiInit boot =>
      (acpiInit image.kernelPageDirectory boot.toAcpiBoot paging).map fun result => result.1.paging

/-- Runs start after `kheap_init` with an empty page directory, no page tables and the
bitmap not set up. -/
def selfMapSystem (image : KernelImage) (physMemUpper : ℕ) : System Paging MappingCall where
  initial paging := ∃ kheap : Kheap,
    paging = ⟨⟨kheapInit kheap image.toKinfo, false, 0, 0⟩, fun _ => 0⟩ ∧
    ∀ slot : Fin 1024, loadWord kheap.memory (entry image.kernelPageDirectory slot) = 0
  step := selfMapStep image physMemUpper

/-! ## What the calls mark and map -/

/-- The local variable `pages_to_alloc`. -/
def sdtPages (memory : Memory) (acpiSdt : ℕ) : ℕ :=
  let startPage := acpiSdt / pageSize
  let endPage := offset acpiSdt (sdtLength memory acpiSdt) / pageSize
  (endPage + (2 ^ 32 - startPage) + 1) % 2 ^ 32

/-- The pages have bits in the bitmap. Before the bitmap is set up, nothing is marked. -/
def MarkInBitmap (physMemUpper : ℕ) (paging : Paging) (address pages : ℕ) : Prop :=
  paging.isInitialized = true → address / 0x1000 + pages ≤ pagesTotal physMemUpper / 8 * 8

/-- The pages that `acpi_map_sdt` marks have bits in the bitmap. -/
def SdtInBitmap (physMemUpper : ℕ) (memory : Memory) (paging : Paging) (acpiSdt : ℕ) : Prop :=
  MarkInBitmap physMemUpper paging acpiSdt 2 ∧
    MarkInBitmap physMemUpper paging acpiSdt (sdtPages memory acpiSdt)

/-- The tables that `acpi_init` maps: the root table and what it lists. -/
def AcpiBoot.sdts (boot : AcpiBoot) : List ℕ :=
  if boot.isPagingEnabled = true ∧ boot.toMap ≠ 0 then
    boot.toMap :: listedEntries boot.heap.memory boot.found
  else
    []

/-- `acpi_init` maps the page of the RSDP. -/
def AcpiBoot.MapsRsdp (boot : AcpiBoot) : Prop :=
  (boot.root.acpiVer = 1 ∨ boot.root.acpiVer = 2) ∧ boot.isPagingEnabled = true

/-- The bitmap is large enough for the call. First fit leaves the bitmap only where it ends
at a page boundary. -/
def MappingCall.InBitmap (physMemUpper : ℕ) (paging : Paging) : MappingCall → Prop
  | .mapTable _ => True
  | .mapPage _ => True
  | .liballoc _ => ¬BitmapEndsAtPage physMemUpper
  | .mark address pages => MarkInBitmap physMemUpper paging address pages
  | .acpiMapSdt memory acpiSdt => SdtInBitmap physMemUpper memory paging acpiSdt
  | .acpiInit boot =>
      (boot.MapsRsdp → MarkInBitmap physMemUpper paging boot.rsdp 1) ∧
        ∀ sdt ∈ boot.sdts, SdtInBitmap physMemUpper boot.heap.memory paging sdt

/-- The words for all pages at the offset of the address are good. -/
def PagesGood (Good : Fin 1024 → Fin 1024 → ℕ → Prop) (address : ℕ) : Prop :=
  ∀ place < 2 ^ 32, place % 0x1000 = address % 0x1000 →
    Good (slotOf place) (indexOf place) (place ||| 3)

/-- The words that the call writes are good. -/
def MappingCall.WritesGood (Good : Fin 1024 → Fin 1024 → ℕ → Prop) : MappingCall → Prop
  | .mapTable address => address < 2 ^ 32 → ∀ index : Fin 1024,
      Good (slotOf address) index (offset address (index * 0x1000) ||| 3)
  | .mapPage address => PagesGood Good address
  | .liballoc _ => PagesGood Good 0
  | .mark _ _ => True
  | .acpiMapSdt _ acpiSdt => PagesGood Good acpiSdt
  | .acpiInit boot => (boot.MapsRsdp → PagesGood Good boot.rsdp) ∧
      ∀ sdt ∈ boot.sdts, PagesGood Good sdt

/-! ## Every call -/

/-- What every state of a run keeps. -/
structure MappingInvariant (Good : Fin 1024 → Fin 1024 → ℕ → Prop) (image : KernelImage)
    (physMemUpper : ℕ) (paging : Paging) : Prop where
  own : OwnTables Good image paging
  bitmap : paging.isInitialized = true → BitmapApart image physMemUpper paging
  unset : paging.isInitialized = false → paging.pageframeBitmap = 0

section Calls

variable {Good : Fin 1024 → Fin 1024 → ℕ → Prop} {image : KernelImage} {physMemUpper : ℕ}
  {paging : Paging}

theorem mappingInvariant_initial (initial : (selfMapSystem image physMemUpper).initial paging) :
    MappingInvariant Good image physMemUpper paging := by
  obtain ⟨kheap, rfl, empty⟩ := initial
  exact ⟨.initial kheap empty, fun initialized => absurd initialized Bool.false_ne_true,
    fun _ => rfl⟩

/-- Mapping pages keeps the bitmap apart from the page tables. -/
theorem MappingInvariant.of_added (invariant : MappingInvariant Good image physMemUpper paging)
    {after : Paging} (own : OwnTables Good image after)
    (added : EntriesAdded Good image paging after) :
    MappingInvariant Good image physMemUpper after := by
  refine ⟨own, fun initialized => ?_, fun unset => ?_⟩
  · exact (invariant.bitmap (added.isInitialized.symm.trans initialized)).of_added
      added.toTablesAdded
  · exact added.pageframeBitmap.trans (invariant.unset (added.isInitialized.symm.trans unset))

/-- **`pageframe_set_page_from_addr`** for pages that have bits. -/
theorem MappingInvariant.mark (invariant : MappingInvariant Good image physMemUpper paging)
    (room : image.HeapRoom) {address pages : ℕ}
    (inBitmap : MarkInBitmap physMemUpper paging address pages) :
    MappingInvariant Good image physMemUpper (setPageFromAddr paging address pages) ∧
      EntriesKept Good paging (setPageFromAddr paging address pages) := by
  cases initialized : paging.isInitialized with
  | false =>
      have frames : pageframeSetPageFromAddr paging.toPageframe address pages =
          paging.toPageframe := by
        have memory : bitmapSetBits paging.memory paging.pageframeBitmap (pageFromAddr address)
            pages = paging.memory := by
          rw [invariant.unset initialized, bitmapSetBits_null]
        rw [pageframeSetPageFromAddr, Pageframe.setPages, memory]
      rw [setPageFromAddr, frames]
      exact ⟨invariant, .refl paging⟩
  | true =>
      obtain ⟨⟨own, kept⟩, apart⟩ := invariant.own.setPages room (invariant.bitmap initialized)
        (bytesInBitmap_of_le (inBitmap initialized))
      exact ⟨⟨own, fun _ => apart, fun unset => absurd (initialized.symm.trans unset) (by decide)⟩,
        kept⟩

/-- Marking pages sets their bits, and no bit is cleared. -/
theorem MappingInvariant.bit_mark (invariant : MappingInvariant Good image physMemUpper paging)
    {address pages : ℕ} (inBitmap : MarkInBitmap physMemUpper paging address pages)
    (initialized : paging.isInitialized = true) {page : ℕ} (above : address / 0x1000 ≤ page)
    (below : page < address / 0x1000 + pages) :
    (setPageFromAddr paging address pages).bit page = true := by
  have bitmapAbove := (invariant.bitmap initialized).above
  have image_below := image.image_below
  have total := pagesTotal_lt physMemUpper
  have inside := inBitmap initialized
  have set := @bit_setPages paging.toPageframe pages (address / 0x1000) page (by omega) (by omega)
    (by omega)
  refine set.trans ?_
  rw [decide_eq_true ⟨above, below⟩, Bool.true_or]

/-- **`acpi_map_sdt`** maps and marks the pages of a table. -/
theorem MappingInvariant.acpiMapSdt (invariant : MappingInvariant Good image physMemUpper paging)
    (room : image.HeapRoom) {memory : Memory} {acpiSdt : ℕ} (word : acpiSdt < 2 ^ 32)
    (inBitmap : SdtInBitmap physMemUpper memory paging acpiSdt)
    (good : PagesGood Good acpiSdt) :
    ∃ after, Drivers.acpiMapSdt image.kernelPageDirectory memory paging acpiSdt = some after ∧
      MappingInvariant Good image physMemUpper after ∧
      after.isInitialized = paging.isInitialized ∧ EntriesKept Good paging after ∧
      (∀ i < sdtPages memory acpiSdt, HasGood Good after (offset acpiSdt (i * pageSize))) ∧
      (paging.isInitialized = true → ∀ page, acpiSdt / 0x1000 ≤ page →
        page < acpiSdt / 0x1000 + sdtPages memory acpiSdt → after.bit page = true) := by
  have place (i : ℕ) : Good (slotOf (offset acpiSdt (i * pageSize)))
      (indexOf (offset acpiSdt (i * pageSize))) (offset acpiSdt (i * pageSize) ||| 3) := by
    refine good _ (offset_lt _ _) ?_
    unfold offset pageSize
    omega
  have second := place 1
  rw [Nat.one_mul] at second
  obtain ⟨marked, keptMark⟩ := invariant.mark room inBitmap.1
  obtain ⟨first, mapped, ownFirst, addedFirst, -⟩ :=
    marked.own.mapPage room word (good acpiSdt word rfl)
  obtain ⟨next, mappedNext, ownNext, addedNext, -⟩ :=
    ownFirst.mapPage room (offset_lt _ _) second
  have both := addedFirst.trans addedNext
  have invariantNext := marked.of_added ownNext both
  have inBitmapNext : MarkInBitmap physMemUpper next acpiSdt (sdtPages memory acpiSdt) :=
    fun initialized => inBitmap.2 (both.isInitialized.symm.trans initialized)
  obtain ⟨markedNext, keptNext⟩ := invariantNext.mark room inBitmapNext
  obtain ⟨after, looped, ownAfter, added, has⟩ :=
    markedNext.own.mapPages room (fun i (_ : i < sdtPages memory acpiSdt) => place i)
  refine ⟨after, ?_, markedNext.of_added ownAfter added, ?_, ?_, has, ?_⟩
  · rw [Drivers.acpiMapSdt, mapped, Option.bind_some, mappedNext, Option.bind_some]
    exact looped
  · exact added.isInitialized.trans both.isInitialized
  · exact keptMark.trans (both.toEntriesKept.trans (keptNext.trans added.toEntriesKept))
  · intro initialized page above below
    have initializedNext := both.isInitialized.trans initialized
    have apart := markedNext.bitmap initializedNext
    have inside := inBitmap.2 initialized
    rw [added.bit_eq apart markedNext.own.placed room (by omega)]
    exact invariantNext.bit_mark inBitmapNext initializedNext above below

/-- The pages of a table do not change while its bytes are kept. -/
theorem SdtInBitmap.of_agrees {heap : Heap} {memory : Memory} {sdt : ℕ}
    (inBitmap : SdtInBitmap physMemUpper heap.memory paging sdt) (agrees : Agrees heap memory)
    (header : InUse heap ⟨sdt, sdtHeaderSize⟩) {later : Paging}
    (initialized : later.isInitialized = paging.isInitialized) :
    SdtInBitmap physMemUpper memory later sdt := by
  have pages : sdtPages memory sdt = sdtPages heap.memory sdt := by
    rw [sdtPages, sdtPages, agrees.sdtLength header]
  unfold SdtInBitmap MarkInBitmap at *
  rw [pages, initialized]
  exact inBitmap

/-- `acpi_init` sets the pointer of the version. -/
theorem AcpiBoot.table_found (boot : AcpiBoot) (present : boot.toMap ≠ 0) :
    boot.found.table = boot.toMap := by
  have version : boot.found.acpiVer = boot.root.acpiVer := by
    unfold AcpiBoot.found
    split
    · rfl
    · split <;> rfl
  unfold AcpiRoot.table AcpiBoot.toMap at *
  rw [version]
  by_cases first : boot.root.acpiVer = 1
  · rw [if_pos first, if_pos first]
  · rw [if_neg first, if_neg first]
    rw [if_neg first] at present
    by_cases second : boot.root.acpiVer = 2
    · rw [if_pos second]
    · exact absurd (if_neg second) present

/-- The page of the RSDP is mapped, or nothing. -/
theorem MappingInvariant.mapRsdp (invariant : MappingInvariant Good image physMemUpper paging)
    (room : image.HeapRoom) {boot : FirmwareBoot}
    (inBitmap : boot.MapsRsdp → MarkInBitmap physMemUpper paging boot.rsdp 1)
    (good : boot.MapsRsdp → PagesGood Good boot.rsdp) :
    ∃ after, Drivers.mapRsdp image.kernelPageDirectory boot.toAcpiBoot paging = some after ∧
      MappingInvariant Good image physMemUpper after ∧
      after.isInitialized = paging.isInitialized := by
  unfold Drivers.mapRsdp
  split
  case isTrue maps =>
      obtain ⟨marked, -⟩ := invariant.mark room (inBitmap maps)
      obtain ⟨after, mapped, own, added, -⟩ :=
        marked.own.mapPage room boot.rsdpWord (good maps _ boot.rsdpWord rfl)
      exact ⟨after, mapped, marked.of_added own added, added.isInitialized⟩
  case isFalse => exact ⟨paging, rfl, invariant, rfl⟩

/-- **`map_sdt_entries`** keeps the invariant. -/
theorem MappingInvariant.mapSdtEntries (invariant : MappingInvariant Good image physMemUpper paging)
    (room : image.HeapRoom) {root : AcpiRoot} {nodes : ℕ} {supply : ℕ → ℕ × ℕ} {heap : Heap}
    (isRoot : RootTable heap root) (blocks : heap.Supply (mapBlocks heap.memory root nodes supply))
    (inBitmap : ∀ sdt ∈ listedEntries heap.memory root,
      SdtInBitmap physMemUpper heap.memory paging sdt)
    (good : ∀ sdt ∈ listedEntries heap.memory root, PagesGood Good sdt) :
    ∃ after sdts, Drivers.mapSdtEntries image.kernelPageDirectory root nodes supply
        ⟨paging, heap⟩ = some (after, sdts) ∧
      MappingInvariant Good image physMemUpper after.paging := by
  -- The bitmap is set up in all turns or in none.
  let Holds (later : Paging) : Prop := MappingInvariant Good image physMemUpper later ∧
    later.isInitialized = paging.isInitialized
  have turn : ∀ sdt ∈ listedEntries heap.memory root, ∀ memory, Agrees heap memory →
      ∀ before after, Holds before →
        Drivers.acpiMapSdt image.kernelPageDirectory memory before sdt = some after →
          Holds after := by
    rintro sdt listed memory agrees before after ⟨invariantBefore, same⟩ called
    have isSdt := isRoot.entries sdt listed
    obtain ⟨next, calledNext, invariantNext, initializedNext, -⟩ := invariantBefore.acpiMapSdt room
      isSdt.word ((inBitmap sdt listed).of_agrees agrees isSdt.header same) (good sdt listed)
    rw [calledNext, Option.some.injEq] at called
    subst called
    exact ⟨invariantNext, initializedNext.trans same⟩
  obtain ⟨after, sdts, looped, invariantAfter, -⟩ :=
    @mapSdtEntries_paging _ root nodes supply ⟨paging, heap⟩ isRoot blocks Holds turn
      ⟨invariant, rfl⟩
  exact ⟨after, sdts, looped, invariantAfter⟩

/-- **`acpi_init`** keeps the invariant. -/
theorem MappingInvariant.acpiInit (invariant : MappingInvariant Good image physMemUpper paging)
    (room : image.HeapRoom) {boot : FirmwareBoot}
    (inBitmap : (MappingCall.acpiInit boot).InBitmap physMemUpper paging)
    (good : (MappingCall.acpiInit boot).WritesGood Good) :
    ∃ result, Drivers.acpiInit image.kernelPageDirectory boot.toAcpiBoot paging = some result ∧
      MappingInvariant Good image physMemUpper result.1.paging := by
  obtain ⟨first, mapped, invariantFirst, initialized⟩ :=
    invariant.mapRsdp room inBitmap.1 good.1
  simp only [Drivers.acpiInit, mapped, Option.bind_some]
  by_cases missing : boot.toMap = 0
  · rw [if_pos missing]
    exact ⟨_, rfl, invariantFirst⟩
  rw [if_neg missing]
  cases enabled : boot.isPagingEnabled with
  | false => exact ⟨_, rfl, invariantFirst⟩
  | true =>
      obtain ⟨isRoot, blocks⟩ := boot.tables enabled missing
      have header := isRoot.header
      rw [boot.table_found missing] at header
      have fits := (header.fits (by decide)).2
      have word : boot.toMap < 2 ^ 32 :=
        Nat.lt_of_lt_of_le (Nat.lt_add_of_pos_right (by decide)) fits
      have sdts : boot.sdts = boot.toMap :: listedEntries boot.heap.memory boot.found :=
        if_pos ⟨enabled, missing⟩
      have inBitmapSdts := inBitmap.2
      have goodSdts := good.2
      rw [sdts, List.forall_mem_cons] at inBitmapSdts goodSdts
      obtain ⟨second, mappedRoot, invariantSecond, initializedSecond, -⟩ :=
        invariantFirst.acpiMapSdt room word
          (inBitmapSdts.1.of_agrees (fun _ _ _ _ => rfl) header initialized) goodSdts.1
      obtain ⟨after, table, looped, invariantAfter⟩ := invariantSecond.mapSdtEntries room isRoot
        blocks (fun sdt listed => (inBitmapSdts.2 sdt listed).of_agrees (fun _ _ _ _ => rfl)
          (isRoot.entries sdt listed).header (initializedSecond.trans initialized)) goodSdts.2
      rw [if_pos rfl, mappedRoot, Option.bind_some, looped, Option.map_some]
      exact ⟨_, rfl, invariantAfter⟩

/-- **One call** keeps the invariant, whatever words are good. -/
theorem MappingInvariant.step (invariant : MappingInvariant Good image physMemUpper paging)
    (room : image.HeapRoom) {call : MappingCall} (inBitmap : call.InBitmap physMemUpper paging)
    (good : call.WritesGood Good) {next : Paging}
    (stepped : (selfMapSystem image physMemUpper).step paging call = some next) :
    MappingInvariant Good image physMemUpper next := by
  simp only [selfMapSystem] at stepped
  cases call with
  | mapTable address =>
      simp only [selfMapStep, Option.ite_none_right_eq_some] at stepped
      obtain ⟨word, stepped⟩ := stepped
      obtain ⟨after, called, own, added, -⟩ := invariant.own.mapTable room word (good word)
      rw [called, Option.some.injEq] at stepped
      exact stepped ▸ invariant.of_added own added
  | mapPage address =>
      simp only [selfMapStep, Option.ite_none_right_eq_some] at stepped
      obtain ⟨word, stepped⟩ := stepped
      obtain ⟨after, called, own, added, -⟩ := invariant.own.mapPage room word (good _ word rfl)
      rw [called, Option.some.injEq] at stepped
      exact stepped ▸ invariant.of_added own added
  | liballoc pages =>
      simp only [selfMapStep, Option.ite_none_right_eq_some] at stepped
      obtain ⟨ret, after, called, own, -, apart, initialized, -⟩ :=
        invariant.own.liballoc room invariant.bitmap inBitmap good pages
      rw [called, Option.map_some, Option.some.injEq] at stepped
      rw [← stepped.2]
      exact ⟨own, fun _ => apart, fun unset => absurd (initialized.symm.trans unset) (by decide)⟩
  | mark address pages =>
      simp only [selfMapStep, Option.ite_none_right_eq_some, Option.some.injEq] at stepped
      exact stepped.2 ▸ (invariant.mark room inBitmap).1
  | acpiMapSdt memory acpiSdt =>
      simp only [selfMapStep, Option.ite_none_right_eq_some] at stepped
      obtain ⟨word, stepped⟩ := stepped
      obtain ⟨after, called, invariantAfter, -⟩ := invariant.acpiMapSdt room word inBitmap good
      rw [called, Option.some.injEq] at stepped
      exact stepped ▸ invariantAfter
  | acpiInit boot =>
      obtain ⟨result, called, invariantAfter⟩ := invariant.acpiInit room inBitmap good
      simp only [selfMapStep, called, Option.map_some, Option.some.injEq] at stepped
      exact stepped ▸ invariantAfter

/-- **Every run** whose calls write good words keeps the invariant. -/
theorem mappingInvariant_reachable {guard : Paging → MappingCall → Prop} (room : image.HeapRoom)
    (inBitmap : ∀ paging call, guard paging call → call.InBitmap physMemUpper paging)
    (good : ∀ paging call, guard paging call → call.WritesGood Good)
    (reachable : (selfMapSystem image physMemUpper).ReachableUnder guard paging) :
    MappingInvariant Good image physMemUpper paging :=
  reachable.invariant (MappingInvariant Good image physMemUpper)
    (fun _ initial => mappingInvariant_initial initial)
    (fun invariant allowed stepped =>
      invariant.step room (inBitmap _ _ allowed) (good _ _ allowed) stepped)

end Calls

/-! ## Own frames -/

/-- Every address is mapped to its own frame, aligned or not. -/
theorem pagesGood_ownFrame (address : ℕ) : PagesGood OwnFrame address := by
  intro place word _
  refine ⟨?_, or_three_mod_four place⟩
  rw [or_three_div, slotOf_val word, indexOf_val]
  omega

/-- A whole table is mapped to itself when its address is in the first page of 4 MiB. Single
pages always are. -/
def MappingCall.MapsSelf : MappingCall → Prop
  | .mapTable address => address % 0x400000 < 0x1000
  | _ => True

theorem MappingCall.MapsSelf.writesGood {call : MappingCall} (self : call.MapsSelf) :
    call.WritesGood OwnFrame := by
  cases call with
  | mapTable address =>
      intro word index
      have first : address % 0x400000 < 0x1000 := self
      refine ⟨?_, or_three_mod_four _⟩
      rw [or_three_div, offset_eq (by omega), slotOf_val word]
      omega
  | mapPage address => exact pagesGood_ownFrame address
  | liballoc pages => exact pagesGood_ownFrame 0
  | mark address pages => trivial
  | acpiMapSdt memory acpiSdt => exact pagesGood_ownFrame acpiSdt
  | acpiInit boot => exact ⟨fun _ => pagesGood_ownFrame _, fun _ _ => pagesGood_ownFrame _⟩

/-! ## The pages of a table -/

/-- A byte of a table is in one of the pages that are mapped. -/
theorem page_of_byte {memory : Memory} {acpiSdt address : ℕ}
    (fits : acpiSdt + sdtLength memory acpiSdt < 2 ^ 32) (above : acpiSdt ≤ address)
    (below : address < acpiSdt + sdtLength memory acpiSdt) :
    ∃ i < sdtPages memory acpiSdt, address / 0x1000 = acpiSdt / 0x1000 + i ∧
      slotOf (offset acpiSdt (i * pageSize)) = slotOf address ∧
      indexOf (offset acpiSdt (i * pageSize)) = indexOf address := by
  have pages : sdtPages memory acpiSdt =
      (acpiSdt + sdtLength memory acpiSdt) / 0x1000 - acpiSdt / 0x1000 + 1 := by
    rw [sdtPages, offset_eq fits, pageSize]
    omega
  obtain ⟨i, page⟩ : ∃ i, address / 0x1000 = acpiSdt / 0x1000 + i :=
    Nat.exists_eq_add_of_le (Nat.div_le_div_right above)
  -- The pages that are stepped to do not wrap, also when the table ends in the last one.
  have place : offset acpiSdt (i * pageSize) = acpiSdt + i * 0x1000 :=
    offset_eq (show acpiSdt + i * 0x1000 < 2 ^ 32 by omega)
  refine ⟨i, by omega, page, ?_, ?_⟩
  · apply Fin.ext
    rw [place, slotOf_val (by omega), slotOf_val (by omega)]
    omega
  · apply Fin.ext
    rw [place, indexOf_val, indexOf_val]
    omega

/-- **ACPI tables are mapped.** After `acpi_map_sdt` every byte of the table is in a page
that is mapped to itself and marked as used, and what was mapped before is kept. -/
theorem acpiMapSdt_covers {image : KernelImage} (room : image.HeapRoom) {physMemUpper : ℕ}
    {paging : Paging}
    (reachable : (selfMapSystem image physMemUpper).ReachableUnder
      (fun paging call => call.MapsSelf ∧ call.InBitmap physMemUpper paging) paging)
    (initialized : paging.isInitialized = true) (memory : Memory) {acpiSdt : ℕ}
    (fits : acpiSdt + sdtLength memory acpiSdt < 2 ^ 32)
    (inBitmap : SdtInBitmap physMemUpper memory paging acpiSdt) :
    ∃ after, acpiMapSdt image.kernelPageDirectory memory paging acpiSdt = some after ∧
      (∀ address, acpiSdt ≤ address → address < acpiSdt + sdtLength memory acpiSdt →
        translate after.memory image.kernelPageDirectory address = some ⟨address, true⟩ ∧
          after.bit (address / 0x1000) = true) ∧
      ∀ address < 2 ^ 32, ∀ translation,
        translate paging.memory image.kernelPageDirectory address = some translation →
          translate after.memory image.kernelPageDirectory address = some translation := by
  have invariant : MappingInvariant OwnFrame image physMemUpper paging :=
    mappingInvariant_reachable room (fun _ _ allowed => allowed.2)
      (fun _ _ allowed => allowed.1.writesGood) reachable
  obtain ⟨after, called, invariantAfter, -, kept, has, bits⟩ :=
    invariant.acpiMapSdt room (by omega) inBitmap (pagesGood_ownFrame acpiSdt)
  refine ⟨after, called, ?_, ?_⟩
  · intro address above below
    obtain ⟨i, bound, page, slot, index⟩ := page_of_byte fits above below
    have hasPage := has i bound
    rw [HasGood, slot, index] at hasPage
    refine ⟨invariantAfter.own.translate_self (by omega) hasPage, ?_⟩
    exact bits initialized _ (by omega) (by omega)
  · intro address word translation found
    have before := invariant.own.hasGood_of_translate word found
    rw [invariant.own.translate_self word before] at found
    rw [← found]
    exact invariantAfter.own.translate_self word (kept.hasGood before)

/-- The bitmap may be set up first. -/
theorem selfMapSystem_bitmapPaging {image : KernelImage} {physMemUpper : ℕ} (room : image.HeapRoom)
    {guard : Paging → MappingCall → Prop} (allowed : guard (clearPaging image) (.liballoc 0)) :
    (selfMapSystem image physMemUpper).ReachableUnder guard (bitmapPaging image physMemUpper) := by
  obtain ⟨ret, called⟩ := @liballoc_clearPaging image physMemUpper room
  have start : (selfMapSystem image physMemUpper).ReachableUnder guard (clearPaging image) :=
    .start ⟨⟨fun _ => 0#8, 0⟩, rfl, fun _ => rfl⟩
  refine start.step allowed ?_
  have word : 0 < 2 ^ 32 := by decide
  simp only [selfMapSystem, selfMapStep, called, Option.map_some, if_pos word]

theorem selfMapSystem_acpiMapSdt {image : KernelImage} {physMemUpper : ℕ}
    {guard : Paging → MappingCall → Prop} {paging after : Paging} {memory : Memory} {acpiSdt : ℕ}
    (reachable : (selfMapSystem image physMemUpper).ReachableUnder guard paging)
    (allowed : guard paging (.acpiMapSdt memory acpiSdt)) (word : acpiSdt < 2 ^ 32)
    (called : acpiMapSdt image.kernelPageDirectory memory paging acpiSdt = some after) :
    (selfMapSystem image physMemUpper).ReachableUnder guard after := by
  refine reachable.step allowed ?_
  simp only [selfMapSystem, selfMapStep, if_pos word, called]

/-- There are no page tables yet then, so all words in them are good. -/
theorem bitmapPaging_invariant {Good : Fin 1024 → Fin 1024 → ℕ → Prop} {image : KernelImage}
    {physMemUpper : ℕ} (room : image.HeapRoom) :
    MappingInvariant Good image physMemUpper (bitmapPaging image physMemUpper) := by
  have clear : OwnTables Good image (clearPaging image) := .initial _ fun _ => rfl
  obtain ⟨⟨own, -⟩, apart⟩ := clear.initialFrames room rfl
  exact ⟨own, fun _ => apart, fun unset => absurd unset.symm Bool.false_ne_true⟩

/-- A table of two pages that is not aligned, on a machine with 128 MiB above the first. -/
theorem acpiMapSdt_covers_two_pages :
    let image : KernelImage := ⟨⟨0x200000, by decide, by decide⟩, 0x100000, by decide⟩
    let memory : Memory := storeWord (fun _ => 0) 0x7FE0018 0x2000
    ∃ after, acpiMapSdt image.kernelPageDirectory memory (bitmapPaging image 131072) 0x7FE0014 =
        some after ∧
      ∀ address, 0x7FE0014 ≤ address → address < 0x7FE2014 →
        translate after.memory image.kernelPageDirectory address = some ⟨address, true⟩ ∧
          after.bit (address / 0x1000) = true := by
  intro image memory
  have room : image.HeapRoom := by decide
  have length : sdtLength memory 0x7FE0014 = 0x2000 := loadWord_storeWord (by decide)
  have reachable := @selfMapSystem_bitmapPaging image 131072 room
    (fun paging call => call.MapsSelf ∧ call.InBitmap 131072 paging)
    ⟨trivial, show ¬BitmapEndsAtPage 131072 by decide⟩
  obtain ⟨after, called, covers, -⟩ := acpiMapSdt_covers room reachable rfl memory
    (show 0x7FE0014 + sdtLength memory 0x7FE0014 < 2 ^ 32 by rw [length]; decide)
    ⟨fun _ => by decide, fun _ => by rw [sdtPages, length]; decide⟩
  rw [length] at covers
  exact ⟨after, called, covers⟩

end CatchOS.Drivers
