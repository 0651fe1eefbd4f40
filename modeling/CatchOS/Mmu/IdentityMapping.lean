import CatchOS.Mmu.OwnTables

/-!
# Mapping pages to themselves

The kernel maps pages to themselves only: whole tables at boot, single pages for devices
and firmware tables, and the pages of every block that `pageframe_alloc_liballoc` returns.
The tables are in their own slots then, and the good word of an entry is that of its own
frame (`IdentityTables`).

First fit may set bits in the byte behind the bitmap, which is the first one of a page table
when the bitmap ends at a page boundary. On all other machines the identity mapping is kept
in every run (`IdentityInvariant`).
-/

set_option autoImplicit false

namespace CatchOS.Mmu

open CatchOS.Lib CatchOS.Utils

/-! ## Runs -/

/-- The state of the allocators, and the addresses of the pages that were mapped. -/
structure IdentityRun where
  paging : Paging
  mapped : List ℕ

inductive IdentityAction where
  | mapTable (address : ℕ)
  | mapPage (address : ℕ)
  | liballoc (pages : ℕ)

/-- The addresses of a run of pages. -/
def pagesFrom (address pages : ℕ) : List ℕ := (List.range pages).map fun i => address + i * 0x1000

def IdentityRun.step (image : KernelImage) (physMemUpper : ℕ) (run : IdentityRun) :
    IdentityAction → Option IdentityRun
  | .mapTable address =>
      if address < 2 ^ 32 ∧ address % 0x400000 = 0 then
        (pagingMapTable run.paging address address image.kernelPageDirectory).map fun paging =>
          ⟨paging, pagesFrom address 1024 ++ run.mapped⟩
      else
        none
  | .mapPage address =>
      if address < 2 ^ 32 ∧ address % 0x1000 = 0 then
        (pagingMapPage run.paging address address image.kernelPageDirectory).map fun paging =>
          ⟨paging, address :: run.mapped⟩
      else
        none
  | .liballoc pages =>
      if pages < 2 ^ 32 then
        (pageframeAllocLiballoc physMemUpper run.paging image.kernelPageDirectory pages).map
          fun (ret, paging) =>
            ⟨paging, if ret = 0 then run.mapped else pagesFrom ret pages ++ run.mapped⟩
      else
        none

/-- Runs start after `kheap_init` with an empty page directory, no page tables and the
bitmap not set up. -/
def identitySystem (image : KernelImage) (physMemUpper : ℕ) :
    System IdentityRun IdentityAction where
  initial run := ∃ kheap : Kheap,
    run = ⟨⟨⟨kheapInit kheap image.toKinfo, false, 0, 0⟩, fun _ => 0⟩, []⟩ ∧
    ∀ slot : Fin 1024, loadWord kheap.memory (entry image.kernelPageDirectory slot) = 0
  step := IdentityRun.step image physMemUpper

/-- Every address of a page that was mapped is mapped to itself and may be written, and no
address is mapped to another one. -/
def IdentityRun.Kept (image : KernelImage) (run : IdentityRun) : Prop :=
  (∀ page ∈ run.mapped, ∀ address, page ≤ address → address < page + 0x1000 →
    translate run.paging.memory image.kernelPageDirectory address = some ⟨address, true⟩) ∧
  ∀ address < 2 ^ 32, ∀ translation,
    translate run.paging.memory image.kernelPageDirectory address = some translation →
      translation.physAddr = address

/-! ## Tables that map to themselves -/

/-- The word of an entry that maps its page to itself. -/
def identityWord (region index : Fin 1024) : ℕ :=
  ((region : ℕ) * 0x400000 + (index : ℕ) * 0x1000) ||| 3

/-- A slot has no table or its own one, and an entry has no frame or its own one. -/
structure IdentityTables (image : KernelImage) (paging : Paging) : Prop where
  placed : TablesPlaced image paging
  slots : ∀ slot, paging.slotWord image slot = 0 ∨
    paging.table slot ≠ 0 ∧ paging.slotWord image slot = paging.table slot ||| 3
  entries : ∀ region, paging.table region ≠ 0 → ∀ index,
    paging.entryWord region index = 0 ∨ paging.entryWord region index = identityWord region index

/-- The page is mapped to itself. -/
structure PageMapped (image : KernelImage) (paging : Paging) (page : ℕ) : Prop where
  word : page < 2 ^ 32
  aligned : page % 0x1000 = 0
  present : paging.table (slotOf page) ≠ 0
  slot : paging.slotWord image (slotOf page) = paging.table (slotOf page) ||| 3
  entry : paging.entryWord (slotOf page) (indexOf page) = page ||| 3

/-- The word of a page that is mapped to itself. -/
theorem identityWord_page {page : ℕ} (word : page < 2 ^ 32) (aligned : page % 0x1000 = 0) :
    identityWord (slotOf page) (indexOf page) = page ||| 3 := by
  have address : (slotOf page : ℕ) * 0x400000 + (indexOf page : ℕ) * 0x1000 = page := by
    rw [slotOf_val word, indexOf_val]
    omega
  rw [identityWord, address]

theorem decodeEntry_identityWord (region index : Fin 1024) :
    decodeEntry (identityWord region index) =
      some ((region : ℕ) * 0x400000 + (index : ℕ) * 0x1000) :=
  decodeEntry_or_three (by omega)

section Walks

variable {image : KernelImage} {paging : Paging}

/-- A walk finds the page of the address itself, or nothing. -/
theorem IdentityTables.walk (identity : IdentityTables image paging) {slot index : Fin 1024}
    {frame : ℕ}
    (found : (pageLevels paging.memory image.kernelPageDirectory).walk slot index = some frame) :
    frame = (slot : ℕ) * 0x400000 + (index : ℕ) * 0x1000 := by
  obtain ⟨table, here, there⟩ := TwoLevel.walk_eq_some.mp found
  rcases identity.slots slot with empty | ⟨present, own⟩
  · simp only [pageLevels, empty, decodeEntry_zero] at here
    cases here
  · simp only [pageLevels, own, decodeEntry_or_three (identity.placed.aligned slot),
      Option.some.injEq] at here
    subst here
    rcases identity.entries slot present index with empty | same
    · simp only [pageLevels, empty, decodeEntry_zero] at there
      cases there
    · simp only [pageLevels, same, decodeEntry_identityWord, Option.some.injEq] at there
      exact there.symm

/-- No address is mapped to another one. -/
theorem IdentityTables.physAddr (identity : IdentityTables image paging) {address : ℕ}
    (word : address < 2 ^ 32) {translation : Translation}
    (found : translate paging.memory image.kernelPageDirectory address = some translation) :
    translation.physAddr = address := by
  have walked := translate_physAddr paging.memory image.kernelPageDirectory word
  rw [found, Option.map_some, eq_comm, Option.map_eq_some_iff] at walked
  obtain ⟨frame, here, sum⟩ := walked
  have own := identity.walk here
  rw [slotOf_val word, indexOf_val] at own
  omega

/-- The addresses of a page that is mapped are mapped to themselves. -/
theorem PageMapped.translate {page : ℕ} (mapped : PageMapped image paging page)
    (placed : TablesPlaced image paging) {address : ℕ} (above : page ≤ address)
    (below : address < page + 0x1000) :
    Mmu.translate paging.memory image.kernelPageDirectory address = some ⟨address, true⟩ := by
  have word := mapped.word
  have aligned := mapped.aligned
  have slot : address / 0x400000 = (slotOf page : ℕ) := by
    rw [slotOf_val word]
    omega
  have index : address % 0x400000 / 0x1000 = (indexOf page : ℕ) := by
    rw [indexOf_val]
    omega
  have sum : page + address % 0x1000 = address := by omega
  simp only [Mmu.translate, slot, index, mapped.slot, mapped.entry,
    entryFrame_or_three (placed.aligned _), entryFrame_or_three aligned, entryPresent_or_three,
    entryWritable_or_three, Bool.and_self, if_true, sum]

end Walks

/-! ## The calls -/

/-- The tables map to themselves and are in their slots, and the given pages are mapped. -/
structure Mapping (image : KernelImage) (paging : Paging) (mapped : List ℕ) : Prop where
  identity : IdentityTables image paging
  inSlot : ∀ region, InSlot image paging region
  pages : ∀ page ∈ mapped, PageMapped image paging page

/-- The good word of an entry maps its page to itself. -/
abbrev OwnIdentity (region index : Fin 1024) (word : ℕ) : Prop := word = identityWord region index

section Calls

variable {image : KernelImage} {physMemUpper : ℕ} {paging : Paging} {mapped : List ℕ}

theorem Mapping.own (mapping : Mapping image paging mapped) : OwnTables OwnIdentity image paging :=
  ⟨⟨mapping.identity.placed, mapping.identity.slots, mapping.identity.entries⟩, mapping.inSlot⟩

theorem OwnTables.identityTables (own : OwnTables OwnIdentity image paging) :
    IdentityTables image paging :=
  ⟨own.placed, own.slots, own.entries⟩

/-- A page whose entry has the good word is mapped to itself. -/
theorem OwnTables.pageMapped (own : OwnTables OwnIdentity image paging) {page : ℕ}
    (word : page < 2 ^ 32) (aligned : page % 0x1000 = 0) (has : HasGood OwnIdentity paging page) :
    PageMapped image paging page :=
  ⟨word, aligned, has.1, own.inSlot _ has.1, has.2.trans (identityWord_page word aligned)⟩

theorem PageMapped.hasGood {page : ℕ} (mapped : PageMapped image paging page) :
    HasGood OwnIdentity paging page :=
  ⟨mapped.present, mapped.entry.trans (identityWord_page mapped.word mapped.aligned).symm⟩

/-- Pages stay mapped to themselves, and new ones are added. -/
theorem Mapping.extend (mapping : Mapping image paging mapped) {after : Paging}
    (own : OwnTables OwnIdentity image after) (kept : EntriesKept OwnIdentity paging after)
    {new : List ℕ} (fresh : ∀ page ∈ new, page < 2 ^ 32 ∧ page % 0x1000 = 0 ∧
      HasGood OwnIdentity after page) :
    Mapping image after (new ++ mapped) := by
  refine ⟨own.identityTables, own.inSlot, fun page member => ?_⟩
  rcases List.mem_append.mp member with here | earlier
  · obtain ⟨word, aligned, has⟩ := fresh page here
    exact own.pageMapped word aligned has
  · have old := mapping.pages page earlier
    exact own.pageMapped old.word old.aligned (kept.hasGood old.hasGood)

/-- The pages from an address on. -/
theorem forall_mem_pagesFrom {P : ℕ → Prop} {address pages : ℕ} :
    (∀ page ∈ pagesFrom address pages, P page) ↔ ∀ i < pages, P (address + i * 0x1000) := by
  simp only [pagesFrom, List.forall_mem_map, List.mem_range]

/-- **`paging_map_page`** of a page to itself. -/
theorem Mapping.mapPage (mapping : Mapping image paging mapped) (room : image.HeapRoom)
    {address : ℕ} (word : address < 2 ^ 32) (aligned : address % 0x1000 = 0) :
    ∃ after, pagingMapPage paging address address image.kernelPageDirectory = some after ∧
      Mapping image after (address :: mapped) ∧ TablesAdded paging after := by
  have good := identityWord_page word aligned
  obtain ⟨after, called, own, added, present, entry⟩ := mapping.own.mapPage room word good.symm
  refine ⟨after, called, ?_, added.toTablesAdded⟩
  refine @Mapping.extend image paging mapped mapping after own added.toEntriesKept [address] ?_
  intro page member
  rw [List.mem_singleton.mp member]
  exact ⟨word, aligned, present, entry.trans good.symm⟩

/-- **`paging_map_table`** of 4 MiB to themselves. -/
theorem Mapping.mapTable (mapping : Mapping image paging mapped) (room : image.HeapRoom)
    {address : ℕ} (word : address < 2 ^ 32) (aligned : address % 0x400000 = 0) :
    ∃ after, pagingMapTable paging address address image.kernelPageDirectory = some after ∧
      Mapping image after (pagesFrom address 1024 ++ mapped) ∧ TablesAdded paging after := by
  have slot := slotOf_val word
  have good (index : Fin 1024) :
      offset address (index * 0x1000) ||| 3 = identityWord (slotOf address) index := by
    have region : (slotOf address : ℕ) * 0x400000 = address := by omega
    have inside : address + (index : ℕ) * 0x1000 < 2 ^ 32 := by omega
    rw [offset_eq inside, identityWord, region]
  obtain ⟨after, called, own, added, present, entries⟩ := mapping.own.mapTable room word good
  refine ⟨after, called, mapping.extend own added.toEntriesKept ?_, added.toTablesAdded⟩
  rw [forall_mem_pagesFrom]
  intro i bound
  have pageWord : address + i * 0x1000 < 2 ^ 32 := by omega
  have sameSlot : slotOf (address + i * 0x1000) = slotOf address := by
    apply Fin.ext
    rw [slotOf_val pageWord, slot]
    omega
  refine ⟨pageWord, by omega, ?_⟩
  rw [HasGood, sameSlot]
  exact ⟨present, (entries _).trans (good _)⟩

/-- Setting up the bitmap changes nothing below the heap pointer. -/
theorem Mapping.initialFrames (mapping : Mapping image paging mapped) (room : image.HeapRoom)
    (before : paging.isInitialized = false) :
    Mapping image { paging with toPageframe := Mmu.initialFrames physMemUpper paging.toKheap }
        mapped ∧
      BitmapApart image physMemUpper
        { paging with toPageframe := Mmu.initialFrames physMemUpper paging.toKheap } := by
  obtain ⟨⟨own, kept⟩, apart⟩ :=
    @OwnTables.initialFrames OwnIdentity image physMemUpper _ mapping.own room before
  refine ⟨@Mapping.extend image paging mapped mapping _ own kept [] ?_, apart⟩
  exact List.forall_mem_nil _

/-- **`pageframe_alloc_liballoc`** maps the pages of the block it returns. -/
theorem Mapping.liballoc (mapping : Mapping image paging mapped) (room : image.HeapRoom)
    (apart : paging.isInitialized = true → BitmapApart image physMemUpper paging)
    (rounded : ¬BitmapEndsAtPage physMemUpper) (pages : ℕ) :
    ∃ ret after, pageframeAllocLiballoc physMemUpper paging image.kernelPageDirectory pages =
        some (ret, after) ∧
      Mapping image after (if ret = 0 then mapped else pagesFrom ret pages ++ mapped) ∧
      BitmapApart image physMemUpper after := by
  obtain ⟨ret, after, called, own, kept, apartAfter, -, block⟩ :=
    mapping.own.liballoc room apart rounded
      (fun page word aligned => (identityWord_page word aligned).symm) pages
  refine ⟨ret, after, called, ?_, apartAfter⟩
  by_cases null : ret = 0
  · rw [if_pos null]
    exact @Mapping.extend image paging mapped mapping after own kept [] (List.forall_mem_nil _)
  · rw [if_neg null]
    obtain ⟨aligned, fits, has⟩ := block null
    refine mapping.extend own kept (forall_mem_pagesFrom.mpr fun i bound => ?_)
    have before : (i + 1) * 0x1000 ≤ pages * 0x1000 := Nat.mul_le_mul_right _ bound
    exact ⟨by omega, by omega, has i bound⟩

end Calls

/-! ## Every run -/

/-- What every state of a run keeps. -/
structure IdentityInvariant (image : KernelImage) (physMemUpper : ℕ) (run : IdentityRun) :
    Prop where
  mapping : Mapping image run.paging run.mapped
  bitmap : run.paging.isInitialized = true → BitmapApart image physMemUpper run.paging

theorem identityInvariant_initial {image : KernelImage} {physMemUpper : ℕ} {run : IdentityRun}
    (initial : (identitySystem image physMemUpper).initial run) :
    IdentityInvariant image physMemUpper run := by
  obtain ⟨kheap, rfl, empty⟩ := initial
  have own := @OwnTables.initial OwnIdentity image kheap empty
  exact ⟨⟨own.identityTables, own.inSlot, nofun⟩, nofun⟩

/-- Every call returns and keeps the invariant. -/
theorem IdentityInvariant.step {image : KernelImage} {physMemUpper : ℕ} {run next : IdentityRun}
    (invariant : IdentityInvariant image physMemUpper run) (room : image.HeapRoom)
    (rounded : ¬BitmapEndsAtPage physMemUpper) {action : IdentityAction}
    (stepped : run.step image physMemUpper action = some next) :
    IdentityInvariant image physMemUpper next := by
  cases action with
  | mapTable address =>
      simp only [IdentityRun.step] at stepped
      split at stepped
      case isFalse => cases stepped
      case isTrue bounds =>
          obtain ⟨after, called, mapped, added⟩ := invariant.mapping.mapTable room bounds.1 bounds.2
          rw [called, Option.map_some, Option.some.injEq] at stepped
          subst stepped
          refine ⟨mapped, fun initialized => ?_⟩
          exact (invariant.bitmap (added.isInitialized.symm.trans initialized)).of_added added
  | mapPage address =>
      simp only [IdentityRun.step] at stepped
      split at stepped
      case isFalse => cases stepped
      case isTrue bounds =>
          obtain ⟨after, called, mapped, added⟩ := invariant.mapping.mapPage room bounds.1 bounds.2
          rw [called, Option.map_some, Option.some.injEq] at stepped
          subst stepped
          refine ⟨mapped, fun initialized => ?_⟩
          exact (invariant.bitmap (added.isInitialized.symm.trans initialized)).of_added added
  | liballoc pages =>
      simp only [IdentityRun.step] at stepped
      split at stepped
      case isFalse => cases stepped
      case isTrue =>
          obtain ⟨ret, after, called, mapped, apart⟩ :=
            invariant.mapping.liballoc room invariant.bitmap rounded pages
          rw [called, Option.map_some, Option.some.injEq] at stepped
          subst stepped
          exact ⟨mapped, fun _ => apart⟩

theorem identityInvariant_reachable {image : KernelImage} {physMemUpper : ℕ} {run : IdentityRun}
    (room : image.HeapRoom) (rounded : ¬BitmapEndsAtPage physMemUpper)
    (reachable : (identitySystem image physMemUpper).Reachable run) :
    IdentityInvariant image physMemUpper run :=
  reachable.invariant (IdentityInvariant image physMemUpper)
    (fun _ initial => identityInvariant_initial initial)
    (fun invariant _ stepped => invariant.step room rounded stepped)

theorem IdentityInvariant.kept {image : KernelImage} {physMemUpper : ℕ} {run : IdentityRun}
    (invariant : IdentityInvariant image physMemUpper run) : run.Kept image := by
  refine ⟨?_, ?_⟩
  · intro page member address above below
    exact (invariant.mapping.pages page member).translate invariant.mapping.identity.placed above
      below
  · intro address word translation found
    exact invariant.mapping.identity.physAddr word found

end CatchOS.Mmu
