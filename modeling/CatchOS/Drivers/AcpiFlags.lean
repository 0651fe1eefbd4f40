import CatchOS.Drivers.AcpiMapping

/-!
# The flags of page table entries

An entry of a page table has flags in its lower twelve bits. `paging_map_page` ORs its two
flags, present and writable, into the address it is given, so the lower bits of an address
that is not aligned become flags too: bit 2 marks the page for user code, bits 3 and 4 change
how it is cached. The frame stays the right one, so nothing goes wrong that the kernel
notices.

`acpi_map_sdt` passes on the addresses of the firmware. The flags stay clean as long as the
addresses that are mapped have no bits in their pages but the lower two, which the flags
cover (`FlagsFit`); other addresses leave other flags behind (`mapPage_flagsClean_iff`).
-/

set_option autoImplicit false

namespace CatchOS.Drivers

open CatchOS.Lib CatchOS.Mmu CatchOS.Utils

/-- Every entry that is present in a page table of the page directory is its frame with the
flags present and writable, and no others. -/
def FlagsClean (image : KernelImage) (paging : Paging) : Prop :=
  ∀ slot index : Fin 1024,
    let pde := loadWord paging.memory (entry image.kernelPageDirectory slot)
    let pte := loadWord paging.memory (entry (entryFrame pde) index)
    entryPresent pde = true → entryPresent pte = true → pte = entryFrame pte + 3

/-- The flags cover the bits that the addresses have in their pages. -/
def MappingCall.FlagsFit : MappingCall → Prop
  | .mapTable address => address % 0x1000 < 4
  | .mapPage address => address % 0x1000 < 4
  | .liballoc _ => True
  | .mark _ _ => True
  | .acpiMapSdt _ acpiSdt => acpiSdt % 0x1000 < 4
  | .acpiInit boot => (boot.MapsRsdp → boot.rsdp % 0x1000 < 4) ∧
      ∀ sdt ∈ boot.sdts, sdt % 0x1000 < 4

/-! ## Words with clean flags -/

/-- The good words here: any frame, with the two flags. -/
def CleanFlags (_region _index : Fin 1024) (word : ℕ) : Prop := word % 0x1000 = 3

/-- An address gets clean flags exactly when its own bits are covered. -/
theorem or_three_mod_page (address : ℕ) :
    (address ||| 3) % 0x1000 = 3 ↔ address % 0x1000 < 4 := by
  rw [show 0x1000 = 2 ^ 12 from rfl, Nat.or_mod_two_pow, show 3 % 2 ^ 12 = 3 from rfl]
  constructor
  · intro clean
    have covered : address % 2 ^ 12 ≤ address % 2 ^ 12 ||| 3 := Nat.left_le_or
    omega
  · intro small
    have below : address % 2 ^ 12 ||| 3 < 2 ^ 2 := Nat.or_lt_two_pow small (by decide)
    have above : 3 ≤ address % 2 ^ 12 ||| 3 := Nat.right_le_or
    omega

theorem pagesGood_cleanFlags {address : ℕ} (small : address % 0x1000 < 4) :
    PagesGood CleanFlags address := by
  intro place _ same
  refine (or_three_mod_page place).mpr ?_
  rw [same]
  exact small

theorem MappingCall.FlagsFit.writesGood {call : MappingCall} (fit : call.FlagsFit) :
    call.WritesGood CleanFlags := by
  cases call with
  | mapTable address =>
      intro _ index
      have small : address % 0x1000 < 4 := fit
      refine (or_three_mod_page _).mpr ?_
      unfold offset
      omega
  | mapPage address => exact pagesGood_cleanFlags fit
  | liballoc pages => exact pagesGood_cleanFlags (by decide)
  | mark address pages => trivial
  | acpiMapSdt memory acpiSdt => exact pagesGood_cleanFlags fit
  | acpiInit boot =>
      exact ⟨fun maps => pagesGood_cleanFlags (fit.1 maps),
        fun sdt member => pagesGood_cleanFlags (fit.2 sdt member)⟩

section Tables

variable {Good : Fin 1024 → Fin 1024 → ℕ → Prop} {image : KernelImage} {paging : Paging}

/-- The slots that are present have their own tables. -/
theorem flagsClean_iff (own : OwnTables Good image paging) :
    FlagsClean image paging ↔ ∀ slot, paging.table slot ≠ 0 → ∀ index,
      entryPresent (paging.entryWord slot index) = true →
        paging.entryWord slot index % 0x1000 = 3 := by
  have word (pte : ℕ) : pte = entryFrame pte + 3 ↔ pte % 0x1000 = 3 := by
    unfold entryFrame
    omega
  have aligned (slot : Fin 1024) : entryFrame (paging.table slot ||| 3) = paging.table slot :=
    entryFrame_or_three (own.placed.aligned slot)
  simp only [FlagsClean, word]
  constructor
  · intro clean slot present index
    have inSlot : loadWord paging.memory (entry image.kernelPageDirectory slot) =
        paging.table slot ||| 3 := own.inSlot slot present
    have here := clean slot index
    rw [inSlot, aligned, entryPresent_or_three] at here
    exact here rfl
  · intro clean slot index
    rcases own.slots slot with empty | ⟨present, inSlot⟩
    · rw [Paging.slotWord] at empty
      rw [empty]
      exact fun absent => absurd absent (by decide)
    · rw [Paging.slotWord] at inSlot
      rw [inSlot, aligned]
      exact fun _ => clean slot present index

theorem flagsClean_of_own (own : OwnTables CleanFlags image paging) :
    FlagsClean image paging := by
  refine (flagsClean_iff own).mpr fun slot present index isPresent => ?_
  refine (own.entries slot present index).resolve_left fun empty => ?_
  rw [empty] at isPresent
  exact absurd isPresent (by decide)

end Tables

section Runs

variable {image : KernelImage} {physMemUpper : ℕ} {paging : Paging}

/-- **Mapping one page** keeps the flags clean exactly when they cover the bits of its
address. -/
theorem mapPage_flagsClean_iff (own : OwnTables CleanFlags image paging) (room : image.HeapRoom)
    {address : ℕ} (word : address < 2 ^ 32) :
    ∃ after, pagingMapPage paging address address image.kernelPageDirectory = some after ∧
      (FlagsClean image after ↔ address % 0x1000 < 4) := by
  have any : OwnTables (fun _ _ _ => True) image paging := own.mono fun _ _ _ _ => trivial
  obtain ⟨after, called, ownAfter, -, present, written⟩ := any.mapPage room word trivial
  refine ⟨after, called, ?_, ?_⟩
  · intro clean
    rw [← or_three_mod_page, ← written]
    refine (flagsClean_iff ownAfter).mp clean _ present _ ?_
    rw [written, entryPresent_or_three]
  · intro small
    obtain ⟨next, calledNext, ownNext, -⟩ :=
      own.mapPage room word ((or_three_mod_page address).mpr small)
    rw [called, Option.some.injEq] at calledNext
    subst calledNext
    exact flagsClean_of_own ownNext

/-- **Clean flags.** In every run in which the flags cover the bits of all addresses that are
mapped, and no bit is set outside of the bitmap, the flags are clean in every state. -/
theorem flagsClean_reachable (room : image.HeapRoom)
    (reachable : (selfMapSystem image physMemUpper).ReachableUnder
      (fun paging call => call.FlagsFit ∧ call.InBitmap physMemUpper paging) paging) :
    FlagsClean image paging :=
  flagsClean_of_own (mappingInvariant_reachable room (fun _ _ allowed => allowed.2)
    (fun _ _ allowed => allowed.1.writesGood) reachable).own

end Runs

/-- A table that is aligned, on a machine with 128 MiB above the first. -/
theorem flagsClean_aligned_table :
    let image : KernelImage := ⟨⟨0x200000, by decide, by decide⟩, 0x100000, by decide⟩
    let memory : Memory := storeWord (fun _ => 0) 0x7FE0004 0x2000
    ∃ after, acpiMapSdt image.kernelPageDirectory memory (bitmapPaging image 131072) 0x7FE0000 =
      some after ∧ FlagsClean image after := by
  intro image memory
  have room : image.HeapRoom := by decide
  have length : sdtLength memory 0x7FE0000 = 0x2000 := loadWord_storeWord (by decide)
  have reachable := @selfMapSystem_bitmapPaging image 131072 room
    (fun paging call => call.FlagsFit ∧ call.InBitmap 131072 paging)
    ⟨trivial, show ¬BitmapEndsAtPage 131072 by decide⟩
  obtain ⟨after, called⟩ := acpiMapSdt_returns image.kernelPageDirectory memory
    (bitmapPaging image 131072) 0x7FE0000
  have fit : (MappingCall.acpiMapSdt memory 0x7FE0000).FlagsFit :=
    show 0x7FE0000 % 0x1000 < 4 by decide
  have inBitmap : SdtInBitmap 131072 memory (bitmapPaging image 131072) 0x7FE0000 :=
    ⟨fun _ => by decide, fun _ => by rw [sdtPages, length]; decide⟩
  exact ⟨after, called, flagsClean_reachable room
    (selfMapSystem_acpiMapSdt reachable ⟨fit, inBitmap⟩ (by decide) called)⟩

/-- A table that is 20 bytes behind the start of a page: its entries are marked for user code,
and its pages are not cached. -/
theorem table_20_behind_not_flagsClean :
    let image : KernelImage := ⟨⟨0x200000, by decide, by decide⟩, 0x100000, by decide⟩
    ¬∀ paging, (selfMapSystem image 131072).Reachable paging → FlagsClean image paging := by
  intro image clean
  have room : image.HeapRoom := by decide
  let memory : Memory := storeWord (fun _ => 0) 0x7FE0018 0x2000
  have length : sdtLength memory 0x7FE0014 = 0x2000 := loadWord_storeWord (by decide)
  have good : PagesGood (fun _ _ word => word % 0x1000 = 0x17) 0x7FE0014 := by
    intro place _ same
    rw [show 0x1000 = 2 ^ 12 from rfl] at same ⊢
    rw [Nat.or_mod_two_pow, same]
    rfl
  have inBitmap : SdtInBitmap 131072 memory (bitmapPaging image 131072) 0x7FE0014 :=
    ⟨fun _ => by decide, fun _ => by rw [sdtPages, length]; decide⟩
  obtain ⟨after, called, invariant, -, -, has, -⟩ :=
    (bitmapPaging_invariant room).acpiMapSdt room (by decide) inBitmap good
  obtain ⟨present, flags⟩ := has 0 (by rw [sdtPages, length]; decide)
  -- The bits are 0x17: present, writable, user, and cache disabled.
  have isPresent : entryPresent (after.entryWord (slotOf (offset 0x7FE0014 (0 * pageSize)))
      (indexOf (offset 0x7FE0014 (0 * pageSize)))) = true := by
    rw [entryPresent, Nat.testBit_zero, decide_eq_true_iff]
    omega
  have reachable := @selfMapSystem_bitmapPaging image 131072 room (fun _ _ => True) trivial
  have cleanAfter := clean after (selfMapSystem_acpiMapSdt reachable trivial (by decide) called)
  have three := (flagsClean_iff invariant.own).mp cleanAfter _ present _ isPresent
  rw [flags] at three
  cases three

end CatchOS.Drivers
