import CatchOS.Mmu.Paging
import CatchOS.Utils.Hashtable
import Mathlib.Algebra.BigOperators.Group.Finset.Basic
import Mathlib.Data.List.TakeWhile

/-!
# ACPI tables

`acpi.c`: the root table of the firmware, an RSDT or an XSDT, lists the addresses of
the other tables. `map_sdt_entries` maps each of them, checks that its bytes add up to
zero, and inserts its address into a hash table under its four-byte signature; a
lookup by signature goes to the hash table.

The tables of the firmware are in blocks of the heap that are in use before, so the
blocks that `mmu_mmap` returns are apart from them. Page tables and the bitmap of the
page frames lie elsewhere, in data of the kernel: mapping writes to the memory of the
paging state, and only reads the length of a table from the memory of the tables.

`MapRun` is the loop invariant. The blocks in use before keep their bytes, and the hash
table has a pair for every table so far whose checksum is right, in the order of the
root table (`MapRun.turn`, `MapRun.loop`). With the lookup of a hash table this gives
what a lookup by signature returns (`acpiGetSdtFromSig_first`).
-/

set_option autoImplicit false

namespace CatchOS.Drivers

open CatchOS.Lib CatchOS.Mmu CatchOS.Utils

/-! ## The functions -/

/-- `sizeof(struct ACPISDTHeader)`; what follows the header starts here, both in an RSDT
and in an XSDT. -/
def sdtHeaderSize : ℕ := 36

/-- `sdt->Length`. -/
def sdtLength (memory : Memory) (sdt : ℕ) : ℕ := loadWord memory (offset sdt 4)

/-- `sdt->Signature`. -/
def sdtSignature (memory : Memory) (sdt : ℕ) : List Byte := readBytes memory sdt 4

/-- The sum is a `uint8_t`. -/
def sdtChecksumOk (memory : Memory) (header : ℕ) : Bool :=
  (List.range (sdtLength memory header)).foldl (fun sum i => sum + memory (offset header i)) 0#8 =
    0#8

/-- `acpi_ver`, `_rsdt` and `_xsdt`. -/
structure AcpiRoot where
  acpiVer : ℤ
  rsdt : ℕ
  xsdt : ℕ

/-- The bytes of an address as they are stored in a variable. -/
def pointerBytes (pointer : ℕ) : List Byte := readBytes (storeWord (fun _ => 0) 0 pointer) 0 4

/-- The variable `ret` is `NULL` before the lookup. -/
def acpiGetSdtFromSig (heap : Heap) (sdts : Hashtable) (tableSignature : List Byte) : Option ℕ :=
  (hashtableGet heap sdts tableSignature 4).map fun out =>
    loadWord (writeBytes (storeWord (fun _ => 0) 0 0) 0 (out.getD [])) 0

/-- The call that marks pages as used. -/
def setPageFromAddr (paging : Paging) (physAddr pages : ℕ) : Paging :=
  { paging with toPageframe := pageframeSetPageFromAddr paging.toPageframe physAddr pages }

/-- `memory` is that of the tables. The numbers of pages are 32-bit ones. -/
def acpiMapSdt (kernelPd : ℕ) (memory : Memory) (paging : Paging) (acpiSdt : ℕ) : Option Paging :=
  let paging := setPageFromAddr paging acpiSdt 2
  (pagingMapPage paging acpiSdt acpiSdt kernelPd).bind fun paging =>
    (pagingMapPage paging (offset acpiSdt pageSize) (offset acpiSdt pageSize) kernelPd).bind
      fun paging =>
        let startPage := acpiSdt / pageSize
        let endPage := offset acpiSdt (sdtLength memory acpiSdt) / pageSize
        let pagesToAlloc := (endPage + (2 ^ 32 - startPage) + 1) % 2 ^ 32
        let paging := setPageFromAddr paging acpiSdt pagesToAlloc
        (List.range pagesToAlloc).foldlM
          (fun paging j =>
            pagingMapPage paging (offset acpiSdt (j * pageSize)) (offset acpiSdt (j * pageSize))
              kernelPd)
          paging

/-- The `uint64_t` at an address. -/
def loadQuad (memory : Memory) (address : ℕ) : ℕ :=
  loadWord memory address + 2 ^ 32 * loadWord memory (offset address 4)

/-- How many entries of a number of bytes follow the header. The length is subtracted as
a 32-bit number. -/
def entryCount (memory : Memory) (table bytes : ℕ) : ℤ :=
  int32 ((sdtLength memory table + (2 ^ 32 - sdtHeaderSize)) % 2 ^ 32 / bytes : ℕ)

/-- The local variable `entries`. -/
def sdtEntries (memory : Memory) (root : AcpiRoot) : ℤ :=
  if root.acpiVer = 1 then entryCount memory root.rsdt 4
  else if root.acpiVer = 2 then entryCount memory root.xsdt 8
  else 0

/-- The pointer to entry `i`; the high half of an XSDT entry is cut off. -/
def sdtEntry (memory : Memory) (root : AcpiRoot) (i : ℕ) : ℕ :=
  if root.acpiVer = 1 then loadWord memory (offset root.rsdt (sdtHeaderSize + 4 * i))
  else if root.acpiVer = 2 then loadQuad memory (offset root.xsdt (sdtHeaderSize + 8 * i)) % 2 ^ 32
  else 0

/-- The state of the loop. -/
structure MapState where
  paging : Paging
  heap : Heap

/-- One turn of the loop of `map_sdt_entries`. The string in `sig` ends at the first zero.
The blocks that `mmu_mmap` returns in turn `i` are those of `supply i`. -/
def mapSdtEntry (kernelPd : ℕ) (root : AcpiRoot) (sdts : Hashtable) (supply : ℕ → ℕ × ℕ)
    (state : MapState) (i : ℕ) : Option MapState :=
  let memory := state.heap.memory
  let sdt := sdtEntry memory root i
  (acpiMapSdt kernelPd memory state.paging sdt).bind fun paging =>
    if sdtChecksumOk memory sdt then
      let sig := (sdtSignature memory sdt).takeWhile fun c => c ≠ 0
      (hashtableInsert state.heap sdts sig (pointerBytes sdt) (supply i).1 (supply i).2).map
        fun heap => ⟨paging, heap⟩
    else
      some ⟨paging, state.heap⟩

/-- The state afterwards, and `SDTs`. The array of the hash table is the block at
`nodes`. -/
def mapSdtEntries (kernelPd : ℕ) (root : AcpiRoot) (nodes : ℕ) (supply : ℕ → ℕ × ℕ)
    (state : MapState) : Option (MapState × Hashtable) :=
  (hashtableInit state.heap none 64 nodes).bind fun (heap, sdts) =>
    ((List.range (sdtEntries heap.memory root).toNat).foldlM
      (mapSdtEntry kernelPd root sdts supply) ⟨state.paging, heap⟩).map fun state => (state, sdts)

/-- What `acpi_init` reads: `acpi_ver`, `_rsdt` and `_xsdt` before, `is_paging_enabled`,
`mbinfo->rsdp`, and the heap with the tables of the firmware. -/
structure AcpiBoot where
  root : AcpiRoot
  isPagingEnabled : Bool
  rsdp : ℕ
  heap : Heap
  nodes : ℕ
  supply : ℕ → ℕ × ℕ

/-- The root table that the RSDP has, `_rsdt` or `_xsdt` afterwards. The pointer to an XSDT
is the low half of a 64-bit number. -/
def AcpiBoot.found (boot : AcpiBoot) : AcpiRoot :=
  if boot.root.acpiVer = 1 then
    { boot.root with rsdt := loadWord boot.heap.memory (offset boot.rsdp 16) }
  else if boot.root.acpiVer = 2 then
    { boot.root with xsdt := loadQuad boot.heap.memory (offset boot.rsdp 24) % 2 ^ 32 }
  else
    boot.root

/-- The local variable `to_map`. -/
def AcpiBoot.toMap (boot : AcpiBoot) : ℕ :=
  if boot.root.acpiVer = 1 then boot.found.rsdt
  else if boot.root.acpiVer = 2 then boot.found.xsdt
  else 0

/-- The page of the RSDP is mapped before the RSDP is read. -/
def mapRsdp (kernelPd : ℕ) (boot : AcpiBoot) (paging : Paging) : Option Paging :=
  if (boot.root.acpiVer = 1 ∨ boot.root.acpiVer = 2) ∧ boot.isPagingEnabled = true then
    pagingMapPage (setPageFromAddr paging boot.rsdp 1) boot.rsdp boot.rsdp kernelPd
  else
    some paging

/-- The state afterwards, and `SDTs` if it is set up. -/
def acpiInit (kernelPd : ℕ) (boot : AcpiBoot) (paging : Paging) :
    Option (MapState × Option Hashtable) :=
  (mapRsdp kernelPd boot paging).bind fun paging =>
    if boot.toMap = 0 then
      some (⟨paging, boot.heap⟩, none)
    else if boot.isPagingEnabled then
      (acpiMapSdt kernelPd boot.heap.memory paging boot.toMap).bind fun paging =>
        (mapSdtEntries kernelPd boot.found boot.nodes boot.supply ⟨paging, boot.heap⟩).map
          fun (state, sdts) => (state, some sdts)
    else
      some (⟨paging, boot.heap⟩, none)

/-! ## What the root table lists -/

/-- The root table of the version. -/
def AcpiRoot.table (root : AcpiRoot) : ℕ := if root.acpiVer = 1 then root.rsdt else root.xsdt

/-- How many bytes an entry has. -/
def AcpiRoot.stride (root : AcpiRoot) : ℕ := if root.acpiVer = 1 then 4 else 8

/-- The entries of the root table, as the 32-bit or 64-bit numbers they are. -/
def listedEntries (memory : Memory) (root : AcpiRoot) : List ℕ :=
  (List.range ((sdtLength memory root.table - sdtHeaderSize) / root.stride)).map fun i =>
    let place := root.table + sdtHeaderSize + root.stride * i
    if root.acpiVer = 1 then loadWord memory place else loadQuad memory place

/-- The bytes of the table add up to zero, and it has the signature. -/
def HasSignature (memory : Memory) (signature : List Byte) (sdt : ℕ) : Prop :=
  (∑ i ∈ Finset.range (sdtLength memory sdt), (memory (sdt + i)).toNat) % 256 = 0 ∧
    sdtSignature memory sdt = signature

instance (memory : Memory) (signature : List Byte) (sdt : ℕ) :
    Decidable (HasSignature memory signature sdt) :=
  inferInstanceAs (Decidable (_ ∧ _))

/-- Bytes that are in use before. -/
def InUse (heap : Heap) (extent : Extent) : Prop := ∃ block ∈ heap.blocks, extent.Inside block

/-- A table: its header and all of its bytes are in use, and the signature has no zero. -/
structure SdtAt (heap : Heap) (sdt : ℕ) : Prop where
  header : InUse heap ⟨sdt, sdtHeaderSize⟩
  bytes : InUse heap ⟨sdt, sdtLength heap.memory sdt⟩
  nonzero : ∀ c ∈ sdtSignature heap.memory sdt, c ≠ 0

/-- A root table of one of the two versions. Tables are below 4 GiB, so entries of an XSDT
are too. -/
structure RootTable (heap : Heap) (root : AcpiRoot) : Prop where
  version : root.acpiVer = 1 ∨ root.acpiVer = 2
  length : sdtHeaderSize ≤ sdtLength heap.memory root.table
  bytes : InUse heap ⟨root.table, sdtLength heap.memory root.table⟩
  entries : ∀ sdt ∈ listedEntries heap.memory root, SdtAt heap sdt

/-- The blocks that turn `i` requests: the node of the pair and the copy of the address. A
table with a wrong checksum needs none. -/
def turnBlocks (memory : Memory) (root : AcpiRoot) (supply : ℕ → ℕ × ℕ) (i : ℕ) : List Extent :=
  if sdtChecksumOk memory (sdtEntry memory root i) then
    [⟨(supply i).1, htPairSize⟩, ⟨(supply i).2, 4⟩]
  else
    []

/-- All blocks that are requested. -/
def mapBlocks (memory : Memory) (root : AcpiRoot) (nodes : ℕ) (supply : ℕ → ℕ × ℕ) :
    List Extent :=
  ⟨nodes, 4 * 64⟩ ::
    (List.range (listedEntries memory root).length).flatMap (turnBlocks memory root supply)

/-! ## Mapping returns -/

theorem foldlM_returns {State Turn : Type} {step : State → Turn → Option State}
    (returns : ∀ state turn, ∃ after, step state turn = some after) (turns : List Turn)
    (state : State) : ∃ after, turns.foldlM step state = some after := by
  induction turns generalizing state with
  | nil => exact ⟨state, rfl⟩
  | cons turn turns ih =>
      obtain ⟨between, first⟩ := returns state turn
      obtain ⟨after, rest⟩ := ih between
      refine ⟨after, ?_⟩
      rw [List.foldlM_cons, first]
      exact rest

/-- Mapping a table ends, whatever length it has. -/
theorem acpiMapSdt_returns (kernelPd : ℕ) (memory : Memory) (paging : Paging) (acpiSdt : ℕ) :
    ∃ after, acpiMapSdt kernelPd memory paging acpiSdt = some after := by
  obtain ⟨first, mapped⟩ :=
    pagingMapPage_returns (setPageFromAddr paging acpiSdt 2) acpiSdt acpiSdt kernelPd
  obtain ⟨second, mappedNext⟩ :=
    pagingMapPage_returns first (offset acpiSdt pageSize) (offset acpiSdt pageSize) kernelPd
  rw [acpiMapSdt, mapped, Option.bind_some, mappedNext, Option.bind_some]
  exact foldlM_returns (fun paging j => pagingMapPage_returns paging _ _ kernelPd) _ _

/-! ## Bytes that are in use -/

section InUse

variable {heap : Heap} {memory : Memory} {start size : ℕ}

/-- The memory has the bytes of the blocks that were in use. -/
def Agrees (heap : Heap) (memory : Memory) : Prop :=
  ∀ block ∈ heap.blocks, ∀ address, block.Contains address → memory address = heap.memory address

/-- Bytes in use are not at `NULL` and do not wrap. -/
theorem InUse.fits (used : InUse heap ⟨start, size⟩) (positive : 0 < size) :
    start ≠ 0 ∧ start + size ≤ 2 ^ 32 := by
  obtain ⟨block, member, inside⟩ := used
  obtain ⟨nonnull, -, blockFits⟩ := heap.inside block member
  have first := inside start ⟨Nat.le_refl _, Nat.lt_add_of_pos_right positive⟩
  have last := inside (start + size - 1) (Extent.contains_mk (by omega) (by omega))
  simp only [Extent.Contains] at first last
  omega

theorem InUse.offset_eq (used : InUse heap ⟨start, size⟩) {i : ℕ} (bound : i < size) :
    offset start i = start + i := by
  have fits := used.fits (Nat.zero_lt_of_lt bound)
  exact CatchOS.offset_eq (by omega)

theorem Agrees.byte (agrees : Agrees heap memory) (used : InUse heap ⟨start, size⟩) {i : ℕ}
    (bound : i < size) : memory (offset start i) = heap.memory (offset start i) := by
  obtain ⟨block, member, inside⟩ := id used
  rw [used.offset_eq bound]
  exact agrees block member _ (inside _ ⟨Nat.le_add_right _ _, Nat.add_lt_add_left bound _⟩)

theorem Agrees.word (agrees : Agrees heap memory) (used : InUse heap ⟨start, size⟩) {bytes : ℕ}
    (bound : bytes + 4 ≤ size) :
    loadWord memory (offset start bytes) = loadWord heap.memory (offset start bytes) := by
  refine loadWord_congr fun i small => ?_
  rw [offset_offset]
  exact agrees.byte used (by omega)

variable {sdt : ℕ}

theorem Agrees.sdtLength (agrees : Agrees heap memory) (header : InUse heap ⟨sdt, sdtHeaderSize⟩) :
    sdtLength memory sdt = Drivers.sdtLength heap.memory sdt :=
  agrees.word header (by decide)

theorem Agrees.sdtSignature (agrees : Agrees heap memory) (isSdt : SdtAt heap sdt) :
    sdtSignature memory sdt = Drivers.sdtSignature heap.memory sdt := by
  refine readBytes_congr fun i bound => agrees.byte isSdt.header ?_
  exact Nat.lt_trans bound (by decide)

theorem Agrees.sdtChecksumOk (agrees : Agrees heap memory) (isSdt : SdtAt heap sdt) :
    sdtChecksumOk memory sdt = Drivers.sdtChecksumOk heap.memory sdt := by
  have sums : (List.range (Drivers.sdtLength heap.memory sdt)).foldl
      (fun sum i => sum + memory (offset sdt i)) 0#8 =
      (List.range (Drivers.sdtLength heap.memory sdt)).foldl
        (fun sum i => sum + heap.memory (offset sdt i)) 0#8 := by
    refine List.foldl_ext _ _ _ fun sum i member => ?_
    rw [agrees.byte isSdt.bytes (List.mem_range.mp member)]
  rw [Drivers.sdtChecksumOk, Drivers.sdtChecksumOk, agrees.sdtLength isSdt.header, sums]

end InUse

/-! ## The checksum -/

/-- The loop computes the sum modulo 256. -/
theorem sumBytes_eq (bytes : ℕ → Byte) (len : ℕ) :
    (List.range len).foldl (fun sum i => sum + bytes i) 0#8 =
      BitVec.ofNat 8 (∑ i ∈ Finset.range len, (bytes i).toNat) := by
  induction len with
  | zero => rfl
  | succ len ih =>
      rw [List.range_succ, List.foldl_append, ih, Finset.sum_range_succ, BitVec.ofNat_add,
        BitVec.ofNat_toNat, BitVec.setWidth_eq]
      rfl

theorem sdtChecksumOk_iff {heap : Heap} {sdt : ℕ} (isSdt : SdtAt heap sdt) :
    sdtChecksumOk heap.memory sdt = true ↔
      (∑ i ∈ Finset.range (sdtLength heap.memory sdt), (heap.memory (sdt + i)).toNat) % 256 =
        0 := by
  have plain : ∑ i ∈ Finset.range (sdtLength heap.memory sdt),
      (heap.memory (offset sdt i)).toNat =
      ∑ i ∈ Finset.range (sdtLength heap.memory sdt), (heap.memory (sdt + i)).toNat := by
    refine Finset.sum_congr rfl fun i member => ?_
    rw [isSdt.bytes.offset_eq (Finset.mem_range.mp member)]
  rw [sdtChecksumOk, decide_eq_true_eq, sumBytes_eq, plain, ← BitVec.toNat_inj,
    BitVec.toNat_ofNat]
  rfl

/-! ## The copy of an address -/

theorem length_pointerBytes (pointer : ℕ) : (pointerBytes pointer).length = 4 :=
  length_readBytes _ _ _

/-- A word is told by its four bytes. -/
theorem loadWord_of_readBytes {memory memory' : Memory} {address : ℕ}
    (same : readBytes memory' address 4 = readBytes memory address 4) :
    loadWord memory' address = loadWord memory address :=
  loadWord_congr fun _ bound => List.map_inj_left.mp same _ (List.mem_range.mpr bound)

/-- The address that was copied is read again. -/
theorem loadWord_pointerBytes {pointer : ℕ} (word : pointer < 2 ^ 32) (memory : Memory) :
    loadWord (writeBytes memory 0 (pointerBytes pointer)) 0 = pointer := by
  have copied := @readBytes_writeBytes memory 0 (pointerBytes pointer)
    (by rw [length_pointerBytes]; decide)
  rw [length_pointerBytes] at copied
  rw [loadWord_of_readBytes copied, loadWord_storeWord word]

/-- A table is not at `NULL` and starts below 4 GiB. -/
theorem SdtAt.nonnull {heap : Heap} {sdt : ℕ} (isSdt : SdtAt heap sdt) : sdt ≠ 0 :=
  (isSdt.header.fits (by decide)).1

theorem SdtAt.word {heap : Heap} {sdt : ℕ} (isSdt : SdtAt heap sdt) : sdt < 2 ^ 32 :=
  Nat.lt_of_lt_of_le (Nat.lt_add_of_pos_right (by decide)) (isSdt.header.fits (by decide)).2

/-! ## The entries of the root table -/

section Root

variable {heap : Heap} {memory : Memory} {root : AcpiRoot}

/-- The number of entries. -/
def entryTotal (memory : Memory) (root : AcpiRoot) : ℕ :=
  (sdtLength memory root.table - sdtHeaderSize) / root.stride

theorem RootTable.header (isRoot : RootTable heap root) :
    InUse heap ⟨root.table, sdtHeaderSize⟩ := by
  obtain ⟨block, member, inside⟩ := isRoot.bytes
  have narrow : Extent.Inside ⟨root.table, sdtHeaderSize⟩
      ⟨root.table, sdtLength heap.memory root.table⟩ :=
    Extent.inside_of_le (Nat.le_refl _) (Nat.add_le_add_left isRoot.length _)
  exact ⟨block, member, fun address contained => inside address (narrow address contained)⟩

/-- The 32-bit arithmetic gives the number of entries. -/
theorem entryCount_eq {table bytes : ℕ} (header : InUse heap ⟨table, sdtHeaderSize⟩)
    (length : sdtHeaderSize ≤ sdtLength heap.memory table) (wide : 4 ≤ bytes)
    (agrees : Agrees heap memory) :
    entryCount memory table bytes =
      ((sdtLength heap.memory table - sdtHeaderSize) / bytes : ℕ) := by
  have word : sdtLength heap.memory table < 2 ^ 32 := loadWord_lt _ _
  unfold sdtHeaderSize at length
  have plain : (sdtLength heap.memory table + (2 ^ 32 - sdtHeaderSize)) % 2 ^ 32 =
      sdtLength heap.memory table - sdtHeaderSize := by
    unfold sdtHeaderSize
    omega
  have few : (sdtLength heap.memory table - sdtHeaderSize) / bytes ≤
      (sdtLength heap.memory table - sdtHeaderSize) / 4 := Nat.div_le_div_left wide (by decide)
  have small : (sdtLength heap.memory table - sdtHeaderSize) / bytes < 2 ^ 31 := by omega
  rw [entryCount, agrees.sdtLength header, plain]
  exact int32_eq (Int.le_trans (by decide) (Int.natCast_nonneg _)) (by exact_mod_cast small)

theorem RootTable.sdtEntries_eq (isRoot : RootTable heap root) (agrees : Agrees heap memory) :
    sdtEntries memory root = entryTotal heap.memory root := by
  have header := isRoot.header
  have length := isRoot.length
  rcases isRoot.version with first | second
  · simp only [entryTotal, AcpiRoot.table, AcpiRoot.stride, if_pos first] at header length ⊢
    rw [sdtEntries, if_pos first]
    exact entryCount_eq header length (by decide) agrees
  · have different : root.acpiVer ≠ 1 := by
      rw [second]
      decide
    simp only [entryTotal, AcpiRoot.table, AcpiRoot.stride, if_neg different] at header length ⊢
    rw [sdtEntries, if_neg different, if_pos second]
    exact entryCount_eq header length (by decide) agrees

/-- Entry `i` ends inside the root table. -/
theorem RootTable.entry_inside (isRoot : RootTable heap root) {i : ℕ}
    (bound : i < entryTotal heap.memory root) :
    sdtHeaderSize + root.stride * i + root.stride ≤ sdtLength heap.memory root.table := by
  have enough : root.stride * (i + 1) ≤ sdtLength heap.memory root.table - sdtHeaderSize :=
    calc root.stride * (i + 1)
        ≤ root.stride * entryTotal heap.memory root := Nat.mul_le_mul_left _ bound
      _ ≤ sdtLength heap.memory root.table - sdtHeaderSize := Nat.mul_div_le _ _
  have length := isRoot.length
  rw [Nat.mul_succ] at enough
  omega

theorem RootTable.listed_mem {i : ℕ} (bound : i < entryTotal heap.memory root) :
    (if root.acpiVer = 1 then loadWord heap.memory (root.table + sdtHeaderSize + root.stride * i)
      else loadQuad heap.memory (root.table + sdtHeaderSize + root.stride * i)) ∈
      listedEntries heap.memory root :=
  List.mem_map_of_mem (List.mem_range.mpr bound)

/-- The pointer that the loop takes is the entry. -/
theorem RootTable.sdtEntry_eq (isRoot : RootTable heap root) (agrees : Agrees heap memory) {i : ℕ}
    (bound : i < entryTotal heap.memory root) :
    sdtEntry memory root i =
      if root.acpiVer = 1 then loadWord heap.memory (root.table + sdtHeaderSize + root.stride * i)
      else loadQuad heap.memory (root.table + sdtHeaderSize + root.stride * i) := by
  have inside := isRoot.entry_inside bound
  have listed := isRoot.entries _ (RootTable.listed_mem bound)
  have bytes := isRoot.bytes
  rcases isRoot.version with first | second
  · simp only [AcpiRoot.table, AcpiRoot.stride, if_pos first] at inside bytes ⊢
    rw [sdtEntry, if_pos first, agrees.word bytes inside,
      bytes.offset_eq (by omega), ← Nat.add_assoc]
  · have different : root.acpiVer ≠ 1 := by
      rw [second]
      decide
    simp only [AcpiRoot.table, AcpiRoot.stride, if_neg different] at inside bytes listed ⊢
    have place : offset root.xsdt (sdtHeaderSize + 8 * i) = root.xsdt + sdtHeaderSize + 8 * i := by
      rw [bytes.offset_eq (by omega), ← Nat.add_assoc]
    have same : loadQuad memory (offset root.xsdt (sdtHeaderSize + 8 * i)) =
        loadQuad heap.memory (root.xsdt + sdtHeaderSize + 8 * i) := by
      rw [← place, loadQuad, loadQuad, offset_offset, agrees.word bytes (by omega),
        agrees.word bytes (by omega)]
    rw [sdtEntry, if_neg different, if_pos second, same]
    exact Nat.mod_eq_of_lt listed.word

theorem RootTable.sdtEntry_agrees (isRoot : RootTable heap root) (agrees : Agrees heap memory)
    {i : ℕ} (bound : i < entryTotal heap.memory root) :
    sdtEntry memory root i = sdtEntry heap.memory root i := by
  rw [isRoot.sdtEntry_eq agrees bound, isRoot.sdtEntry_eq (fun _ _ _ _ => rfl) bound]

theorem RootTable.sdtEntry_at (isRoot : RootTable heap root) {i : ℕ}
    (bound : i < entryTotal heap.memory root) : SdtAt heap (sdtEntry heap.memory root i) := by
  rw [isRoot.sdtEntry_eq (fun _ _ _ _ => rfl) bound]
  exact isRoot.entries _ (RootTable.listed_mem bound)

/-- The pointers of all turns. -/
theorem RootTable.map_sdtEntry (isRoot : RootTable heap root) :
    (List.range (entryTotal heap.memory root)).map (sdtEntry heap.memory root) =
      listedEntries heap.memory root :=
  List.map_congr_left fun _ member =>
    isRoot.sdtEntry_eq (fun _ _ _ _ => rfl) (List.mem_range.mp member)

end Root

/-! ## The loop -/

/-- The state of the loop, `start` being the heap before: what was in use keeps its bytes,
and the pairs are in the hash table. -/
structure MapRun (start heap : Heap) (sdts : Hashtable) (pairs : List Pair) : Prop where
  tabled : Tabled heap sdts pairs
  kept : ∀ block ∈ start.blocks, block ∈ heap.blocks
  notArray : ∀ block ∈ start.blocks, block.Apart sdts.arrayExtent
  notNode : ∀ block ∈ start.blocks, ∀ pair ∈ pairs,
    block.Apart (pair.entry.nodeExtent htPairSize)
  agrees : Agrees start heap.memory

/-- Keys and data of pairs. -/
def contents (pairs : List Pair) : List (List Byte × List Byte) :=
  pairs.map fun pair => (pair.key, pair.entry.value)

/-- What is inserted for a table. -/
def sdtContents (memory : Memory) (sdt : ℕ) : List Byte × List Byte :=
  (sdtSignature memory sdt, pointerBytes sdt)

/-- What is inserted for some tables of the root table, in their order. -/
def insertedFor (memory : Memory) (sdts : List ℕ) : List (List Byte × List Byte) :=
  (sdts.filter fun sdt => sdtChecksumOk memory sdt).map (sdtContents memory)

section Loop

variable {start : Heap} {root : AcpiRoot} {sdts : Hashtable} {pairs : List Pair}
  {supply : ℕ → ℕ × ℕ} {rest : List Extent} {state : MapState} {kernelPd i : ℕ}

/-- The signature of a table is a key. -/
theorem SdtAt.keyString (isSdt : SdtAt start i) : KeyString (sdtSignature start.memory i) :=
  ⟨by rw [sdtSignature, length_readBytes]; decide, isSdt.nonzero⟩

theorem MapRun.insert {heap : Heap} {key data : List Byte} {node tmp : ℕ}
    (run : MapRun start heap sdts pairs) (isKey : KeyString key)
    (blocks : heap.Supply ([⟨node, htPairSize⟩, ⟨tmp, data.length⟩] ++ rest)) :
    ∃ after, hashtableInsert heap sdts key data node tmp = some after ∧
      MapRun start after sdts (pairs ++ [⟨key, ⟨node, tmp, data⟩⟩]) ∧ after.Supply rest := by
  have freshNode := blocks.1 ⟨node, htPairSize⟩ List.mem_cons_self
  have freshCopy := blocks.1 ⟨tmp, data.length⟩ (List.mem_cons_of_mem _ List.mem_cons_self)
  have apart : Extent.Apart ⟨node, htPairSize⟩ ⟨tmp, data.length⟩ :=
    (List.pairwise_cons.mp blocks.2).1 _ List.mem_cons_self
  obtain ⟨after, inserted, tabled, afterBlocks, frame⟩ :=
    run.tabled.insert isKey freshNode freshCopy apart.symm
  refine ⟨after, inserted, ⟨tabled, ?_, run.notArray, ?_, ?_⟩, blocks.rest ?_⟩
  · intro block member
    rw [afterBlocks]
    exact List.mem_cons_of_mem _ (List.mem_cons_of_mem _ (run.kept block member))
  · intro block member
    refine List.forall_mem_append.mpr ⟨run.notNode block member, ?_⟩
    intro pair isNew
    rw [List.mem_singleton.mp isNew]
    exact (freshNode.2 block (run.kept block member)).symm
  · intro block member address contained
    rw [frame block (run.kept block member) (run.notArray block member)
      (run.notNode block member) address contained]
    exact run.agrees block member address contained
  · rw [afterBlocks]
    intro block member
    simp only [List.mem_cons] at member ⊢
    tauto

/-- **One turn** of the loop adds the pair of a table whose checksum is right. -/
theorem MapRun.turn (run : MapRun start state.heap sdts pairs) (isRoot : RootTable start root)
    (bound : i < entryTotal start.memory root)
    (blocks : state.heap.Supply (turnBlocks start.memory root supply i ++ rest)) :
    ∃ after more, mapSdtEntry kernelPd root sdts supply state i = some after ∧
      MapRun start after.heap sdts more ∧ after.heap.Supply rest ∧
      contents more = contents pairs ++
        insertedFor start.memory [sdtEntry start.memory root i] := by
  unfold turnBlocks at blocks
  have isSdt := isRoot.sdtEntry_at bound
  have entry := isRoot.sdtEntry_agrees run.agrees bound
  obtain ⟨paging, mapped⟩ :=
    acpiMapSdt_returns kernelPd state.heap.memory state.paging (sdtEntry start.memory root i)
  generalize sdtEntry start.memory root i = sdt at blocks isSdt entry mapped ⊢
  have signature : (sdtSignature start.memory sdt).takeWhile (fun c => c ≠ 0) =
      sdtSignature start.memory sdt := by
    refine List.takeWhile_eq_self_iff.mpr fun c member => ?_
    rw [decide_eq_true_eq]
    exact isSdt.nonzero c member
  simp only [mapSdtEntry, entry, mapped, Option.bind_some, run.agrees.sdtChecksumOk isSdt,
    run.agrees.sdtSignature isSdt, signature]
  cases checked : sdtChecksumOk start.memory sdt with
  | true =>
      rw [if_pos checked] at blocks
      obtain ⟨after, inserted, more, left⟩ := @MapRun.insert _ _ _ _ _
        (sdtSignature start.memory sdt) (pointerBytes sdt) (supply i).1 (supply i).2 run
        isSdt.keyString (by rw [length_pointerBytes]; exact blocks)
      refine ⟨⟨paging, after⟩, _, ?_, more, left, ?_⟩
      · rw [if_pos rfl, inserted, Option.map_some]
      · rw [contents, List.map_append, insertedFor, List.filter_cons_of_pos checked]
        rfl
  | false =>
      rw [checked, if_neg Bool.false_ne_true] at blocks
      refine ⟨⟨paging, state.heap⟩, pairs, ?_, run, blocks, ?_⟩
      · rw [if_neg Bool.false_ne_true]
      · rw [insertedFor, List.filter_cons_of_neg (by rw [checked]; exact Bool.false_ne_true)]
        exact (List.append_nil _).symm

/-- **The loop**, over any of the turns. -/
theorem MapRun.loop (isRoot : RootTable start root) {turns : List ℕ}
    (bound : ∀ i ∈ turns, i < entryTotal start.memory root)
    (run : MapRun start state.heap sdts pairs)
    (blocks : state.heap.Supply (turns.flatMap (turnBlocks start.memory root supply))) :
    ∃ after more, turns.foldlM (mapSdtEntry kernelPd root sdts supply) state = some after ∧
      MapRun start after.heap sdts more ∧
      contents more = contents pairs ++
        insertedFor start.memory (turns.map (sdtEntry start.memory root)) := by
  induction turns generalizing state pairs with
  | nil => exact ⟨state, pairs, rfl, run, (List.append_nil _).symm⟩
  | cons i turns ih =>
      obtain ⟨here, later⟩ := List.forall_mem_cons.mp bound
      rw [List.flatMap_cons] at blocks
      obtain ⟨between, some', turned, turnedRun, left, turnedContents⟩ :=
        @MapRun.turn start root sdts pairs supply _ state kernelPd i run isRoot here blocks
      obtain ⟨after, more, looped, loopedRun, loopedContents⟩ := ih later turnedRun left
      refine ⟨after, more, ?_, loopedRun, ?_⟩
      · rw [List.foldlM_cons, turned]
        exact looped
      · rw [loopedContents, turnedContents, List.append_assoc]
        simp only [insertedFor, ← List.map_append, ← List.filter_append]
        rfl

/-- A turn maps its table. -/
theorem mapSdtEntry_paging {after : MapState}
    (turned : mapSdtEntry kernelPd root sdts supply state i = some after) :
    acpiMapSdt kernelPd state.heap.memory state.paging (sdtEntry state.heap.memory root i) =
      some after.paging := by
  simp only [mapSdtEntry, Option.bind_eq_some_iff] at turned
  obtain ⟨paging, mapped, rest⟩ := turned
  rw [mapped]
  split at rest
  · obtain ⟨heap, -, rfl⟩ := Option.map_eq_some_iff.mp rest
    rfl
  · rw [← Option.some.inj rest]

/-- What mapping the tables keeps of the page tables, the loop keeps. -/
theorem MapRun.loop_paging (isRoot : RootTable start root) {Holds : Paging → Prop}
    (kept : ∀ i < entryTotal start.memory root, ∀ memory, Agrees start memory →
      ∀ before after, Holds before →
        acpiMapSdt kernelPd memory before (sdtEntry start.memory root i) = some after → Holds after)
    {turns : List ℕ} (bound : ∀ i ∈ turns, i < entryTotal start.memory root)
    (run : MapRun start state.heap sdts pairs)
    (blocks : state.heap.Supply (turns.flatMap (turnBlocks start.memory root supply)))
    (holds : Holds state.paging) :
    ∃ after, turns.foldlM (mapSdtEntry kernelPd root sdts supply) state = some after ∧
      Holds after.paging := by
  induction turns generalizing state pairs with
  | nil => exact ⟨state, rfl, holds⟩
  | cons i turns ih =>
      obtain ⟨here, later⟩ := List.forall_mem_cons.mp bound
      rw [List.flatMap_cons] at blocks
      obtain ⟨between, more, turned, turnedRun, left, -⟩ :=
        @MapRun.turn start root sdts pairs supply _ state kernelPd i run isRoot here blocks
      have mapped := mapSdtEntry_paging turned
      rw [isRoot.sdtEntry_agrees run.agrees here] at mapped
      obtain ⟨after, looped, holdsAfter⟩ :=
        ih later turnedRun left (kept i here _ run.agrees _ _ holds mapped)
      refine ⟨after, ?_, holdsAfter⟩
      rw [List.foldlM_cons, turned]
      exact looped

end Loop

/-! ## Looking up a signature -/

section Lookup

variable {start heap : Heap} {sdts : Hashtable} {pairs : List Pair} {tables : List ℕ}
  {key : List Byte}

/-- The hash table finds the first table that was inserted with the signature. -/
theorem MapRun.get (run : MapRun start heap sdts pairs)
    (held : contents pairs = insertedFor start.memory tables)
    (isSdt : ∀ sdt ∈ tables, SdtAt start sdt) (isKey : KeyString key) :
    hashtableGet heap sdts key 4 =
      some ((tables.find? fun sdt => HasSignature start.memory key sdt).map pointerBytes) := by
  have sizes : ∀ pair ∈ pairs, pair.entry.value.length = 4 := by
    intro pair member
    have inserted : (pair.key, pair.entry.value) ∈ insertedFor start.memory tables := by
      rw [← held]
      exact List.mem_map_of_mem member
    obtain ⟨sdt, -, same⟩ := List.mem_map.mp inserted
    rw [← (Prod.mk.inj same).2, length_pointerBytes]
  have abstract : (pairs.find? fun pair => pair.key = key).map (fun pair => pair.entry.value) =
      ((contents pairs).find? fun content => content.1 = key).map Prod.snd := by
    rw [contents, List.find?_map, Option.map_map]
    rfl
  have tests : (tables.find? fun sdt => HasSignature start.memory key sdt) =
      tables.find? fun sdt => sdtChecksumOk start.memory sdt = true ∧
        ((fun content : List Byte × List Byte => decide (content.1 = key)) ∘
          sdtContents start.memory) sdt = true := by
    refine List.find?_congr fun sdt member => decide_eq_decide.mpr ?_
    rw [sdtChecksumOk_iff (isSdt sdt member), Function.comp_apply, decide_eq_true_eq]
    rfl
  rw [run.tabled.get isKey sizes, abstract, held, insertedFor, List.find?_map, List.find?_filter,
    Option.map_map, tests]
  rfl

/-- The lookup as the kernel calls it. -/
theorem MapRun.getSdt (run : MapRun start heap sdts pairs)
    (held : contents pairs = insertedFor start.memory tables)
    (isSdt : ∀ sdt ∈ tables, SdtAt start sdt) (isKey : KeyString key) :
    acpiGetSdtFromSig heap sdts key =
      some ((tables.find? fun sdt => HasSignature start.memory key sdt).getD 0) := by
  rw [acpiGetSdtFromSig, run.get held isSdt isKey, Option.map_some]
  cases found : tables.find? fun sdt => HasSignature start.memory key sdt with
  | none =>
      rw [Option.map_none, Option.getD_none, Option.getD_none, writeBytes,
        loadWord_storeWord (by decide)]
  | some sdt =>
      have word := (isSdt sdt (List.mem_of_find?_eq_some found)).word
      rw [Option.map_some, Option.getD_some, Option.getD_some, loadWord_pointerBytes word]

/-- Entries are not `NULL`, so a lookup returns `NULL` only when no entry passes. -/
theorem RootTable.find?_eq_none_iff {root : AcpiRoot} (isRoot : RootTable start root)
    {test : ℕ → Bool} : (listedEntries start.memory root).find? test = none ↔
      some (((listedEntries start.memory root).find? test).getD 0) = some 0 := by
  cases found : (listedEntries start.memory root).find? test with
  | none => exact ⟨fun _ => rfl, fun _ => rfl⟩
  | some sdt =>
      have nonnull := (isRoot.entries sdt (List.mem_of_find?_eq_some found)).nonnull
      rw [Option.getD_some]
      exact ⟨nofun, fun zero => absurd (Option.some.inj zero) nonnull⟩

end Lookup

/-- The hash table is set up with the default hash and 64 lists. -/
theorem mapRun_init {heap : Heap} {nodes : ℕ} (fresh : heap.Fresh ⟨nodes, 4 * 64⟩) :
    ∃ after, hashtableInit heap none 64 nodes = some (after, ⟨nodes, 64, hashFnv⟩) ∧
      MapRun heap after ⟨nodes, 64, hashFnv⟩ [] ∧
      after.blocks = ⟨nodes, 4 * 64⟩ :: heap.blocks := by
  obtain ⟨after, called, tabled, blocks, frame⟩ := @Tabled.init heap none 64 nodes fresh
    (hashFnv_lt (by decide))
  refine ⟨after, called, ⟨tabled, ?_, ?_, nofun, frame⟩, blocks⟩
  · intro block member
    rw [blocks]
    exact List.mem_cons_of_mem _ member
  · exact fun block member => (fresh.2 block member).symm

/-- The loop starts with an empty hash table, and all other blocks are still free. -/
theorem mapRun_start {heap : Heap} {root : AcpiRoot} {nodes : ℕ} {supply : ℕ → ℕ × ℕ}
    (blocks : heap.Supply (mapBlocks heap.memory root nodes supply)) :
    ∃ after, hashtableInit heap none 64 nodes = some (after, ⟨nodes, 64, hashFnv⟩) ∧
      MapRun heap after ⟨nodes, 64, hashFnv⟩ [] ∧
      after.Supply ((List.range (entryTotal heap.memory root)).flatMap
        (turnBlocks heap.memory root supply)) := by
  have fresh := blocks.1 ⟨nodes, 4 * 64⟩ List.mem_cons_self
  obtain ⟨after, called, empty, afterBlocks⟩ := mapRun_init fresh
  refine ⟨after, called, empty, ?_⟩
  rw [mapBlocks, listedEntries, List.length_map, List.length_range] at blocks
  exact blocks.next afterBlocks

/-- **ACPI lookup.** After `map_sdt_entries` a lookup returns the first entry of the root
table whose checksum is right and that has the signature, and `NULL` when there is none. -/
theorem acpiGetSdtFromSig_first (kernelPd : ℕ) (root : AcpiRoot) (nodes : ℕ) (supply : ℕ → ℕ × ℕ)
    (state : MapState) (isRoot : RootTable state.heap root)
    (blocks : state.heap.Supply (mapBlocks state.heap.memory root nodes supply)) :
    ∃ after sdts, mapSdtEntries kernelPd root nodes supply state = some (after, sdts) ∧
      ∀ signature : List Byte, signature.length = 4 → (∀ c ∈ signature, c ≠ 0) →
        (∀ before sdt later, listedEntries state.heap.memory root = before ++ sdt :: later →
          HasSignature state.heap.memory signature sdt →
          (∀ other ∈ before, ¬HasSignature state.heap.memory signature other) →
          acpiGetSdtFromSig after.heap sdts signature = some sdt) ∧
        (acpiGetSdtFromSig after.heap sdts signature = some 0 ↔
          ∀ sdt ∈ listedEntries state.heap.memory root,
            ¬HasSignature state.heap.memory signature sdt) := by
  obtain ⟨between, called, empty, left⟩ := mapRun_start blocks
  obtain ⟨after, pairs, looped, run, held⟩ := @MapRun.loop state.heap root
    ⟨nodes, 64, hashFnv⟩ [] supply ⟨state.paging, between⟩ kernelPd isRoot
    (List.range (entryTotal state.heap.memory root)) (fun i => List.mem_range.mp) empty left
  rw [isRoot.map_sdtEntry] at held
  refine ⟨after, ⟨nodes, 64, hashFnv⟩, ?_, ?_⟩
  · simp only [mapSdtEntries, called, Option.bind_some, isRoot.sdtEntries_eq empty.agrees,
      Int.toNat_natCast, looped, Option.map_some]
  · intro signature length nonzero
    have isKey : KeyString signature := ⟨by rw [length]; decide, nonzero⟩
    rw [run.getSdt held isRoot.entries isKey]
    refine ⟨?_, ?_⟩
    · intro before sdt later listed has none
      have found : (listedEntries state.heap.memory root).find?
          (fun sdt => HasSignature state.heap.memory signature sdt) = some sdt := by
        refine List.find?_eq_some_iff_append.mpr ⟨decide_eq_true has, before, later, listed, ?_⟩
        intro other member
        rw [decide_eq_false (none other member), Bool.not_false]
      rw [found, Option.getD_some]
    · rw [← isRoot.find?_eq_none_iff, List.find?_eq_none]
      simp only [decide_eq_true_eq]

/-- **`map_sdt_entries`** keeps what mapping each table of the root table keeps. -/
theorem mapSdtEntries_paging {kernelPd : ℕ} {root : AcpiRoot} {nodes : ℕ} {supply : ℕ → ℕ × ℕ}
    {state : MapState} (isRoot : RootTable state.heap root)
    (blocks : state.heap.Supply (mapBlocks state.heap.memory root nodes supply))
    {Holds : Paging → Prop}
    (kept : ∀ sdt ∈ listedEntries state.heap.memory root, ∀ memory, Agrees state.heap memory →
      ∀ before after, Holds before →
        acpiMapSdt kernelPd memory before sdt = some after → Holds after)
    (holds : Holds state.paging) :
    ∃ after sdts, mapSdtEntries kernelPd root nodes supply state = some (after, sdts) ∧
      Holds after.paging := by
  obtain ⟨between, called, empty, left⟩ := mapRun_start blocks
  have turns : ∀ i < entryTotal state.heap.memory root,
      sdtEntry state.heap.memory root i ∈ listedEntries state.heap.memory root := by
    intro i bound
    rw [← isRoot.map_sdtEntry]
    exact List.mem_map_of_mem (List.mem_range.mpr bound)
  obtain ⟨after, looped, holdsAfter⟩ := @MapRun.loop_paging state.heap root ⟨nodes, 64, hashFnv⟩ []
    supply ⟨state.paging, between⟩ kernelPd isRoot Holds (fun i bound => kept _ (turns i bound))
    (List.range (entryTotal state.heap.memory root)) (fun i => List.mem_range.mp) empty left holds
  refine ⟨after, ⟨nodes, 64, hashFnv⟩, ?_, holdsAfter⟩
  simp only [mapSdtEntries, called, Option.bind_some, isRoot.sdtEntries_eq empty.agrees,
    Int.toNat_natCast, looped, Option.map_some]

/-! ## An RSDT with three tables of one signature -/

/-- A header with the signature `APIC` and the length 36. -/
def apicHeader (memory : Memory) (sdt : ℕ) (checksum : Byte) : Memory :=
  let memory := writeBytes memory sdt [0x41#8, 0x50#8, 0x49#8, 0x43#8]
  let memory := storeWord memory (sdt + 4) 36
  Function.update memory (sdt + 9) checksum

/-- The checksum of the first table is wrong. -/
def threeTables : Memory :=
  let memory := storeWord (fun _ => 0) 0x1004 48
  let memory := storeWord memory 0x1024 0x2000
  let memory := storeWord memory 0x1028 0x2040
  let memory := storeWord memory 0x102C 0x2080
  let memory := apicHeader memory 0x2000 0
  let memory := apicHeader memory 0x2040 0xBF#8
  apicHeader memory 0x2080 0xBF#8

def threeTablesState : MapState where
  paging := ⟨⟨⟨fun _ => 0, 0x300000⟩, true, 0x280000, 0x8000⟩, fun _ => 0⟩
  heap :=
    { memory := threeTables
      blocks := [⟨0x1000, 0x2000⟩]
      apart := List.pairwise_singleton _ _
      inside := by decide }

theorem threeTables_inUse {start size : ℕ} (above : 0x1000 ≤ start)
    (below : start + size ≤ 0x3000) :
    InUse threeTablesState.heap ⟨start, size⟩ :=
  ⟨_, List.mem_cons_self, Extent.inside_of_le above below⟩

theorem acpiGetSdtFromSig_first_three_tables :
    ∃ after sdts, mapSdtEntries 0x200000 ⟨1, 0x1000, 0⟩ 0x10000
        (fun i => (0x20000 + 0x100 * i, 0x20080 + 0x100 * i)) threeTablesState =
          some (after, sdts) ∧
      acpiGetSdtFromSig after.heap sdts [0x41#8, 0x50#8, 0x49#8, 0x43#8] = some 0x2040 ∧
      acpiGetSdtFromSig after.heap sdts [0x46#8, 0x41#8, 0x43#8, 0x50#8] = some 0 := by
  have listed : listedEntries threeTables ⟨1, 0x1000, 0⟩ = [0x2000] ++ 0x2040 :: [0x2080] := by
    decide +kernel
  have isRoot : RootTable threeTablesState.heap ⟨1, 0x1000, 0⟩ := by
    refine ⟨.inl rfl, by decide +kernel, threeTables_inUse (by decide +kernel) (by decide +kernel),
      ?_⟩
    rw [show listedEntries threeTablesState.heap.memory ⟨1, 0x1000, 0⟩ = _ from listed]
    simp only [List.cons_append, List.nil_append, List.forall_mem_cons]
    refine ⟨?_, ?_, ?_, nofun⟩
    all_goals
      exact ⟨threeTables_inUse (by decide +kernel) (by decide +kernel),
        threeTables_inUse (by decide +kernel) (by decide +kernel), by decide +kernel⟩
  obtain ⟨after, sdts, called, lookups⟩ := acpiGetSdtFromSig_first 0x200000 ⟨1, 0x1000, 0⟩ 0x10000
    (fun i => (0x20000 + 0x100 * i, 0x20080 + 0x100 * i)) threeTablesState isRoot
    (by decide +kernel)
  refine ⟨after, sdts, called, ?_, ?_⟩
  · exact (lookups _ rfl (by decide)).1 [0x2000] 0x2040 [0x2080] listed (by decide +kernel)
      (by decide +kernel)
  · refine (lookups _ rfl (by decide)).2.mpr ?_
    rw [show listedEntries threeTablesState.heap.memory ⟨1, 0x1000, 0⟩ = _ from listed]
    decide +kernel

end CatchOS.Drivers
