import CatchOS.Lib.TwoLevel
import CatchOS.Mmu.Allocators

/-!
# The walk through the page directory

How the processor translates an address: the upper ten bits select an entry of the page
directory, the next ten an entry of the page table it points to. Bit 0 of an entry says
that it is present, bit 1 that the page may be written, and the upper twenty bits are the
frame.

`pageLevels` reads a page directory and the page tables as a directory of shared tables.
`PageTables` is what the calls of `paging.c` keep of them: the tables lie in the heap,
apart from each other and from the directory, and every entry is zero or a frame that is
present and writable. The lemmas at the end say what a new page table and a store of an
entry do to the words.
-/

set_option autoImplicit false

namespace CatchOS.Mmu

open CatchOS.Lib CatchOS.Utils

/-! ## Entries -/

def entryPresent (word : ℕ) : Bool := word.testBit 0

def entryWritable (word : ℕ) : Bool := word.testBit 1

/-- The frame of an entry; its lower twelve bits are flags. -/
def entryFrame (word : ℕ) : ℕ := word / 0x1000 * 0x1000

/-- The physical address, and whether both entries allow writes. -/
structure Translation where
  physAddr : ℕ
  writable : Bool
deriving DecidableEq

/-- The walk of the processor; there is no translation when an entry is not present. -/
def translate (memory : Memory) (pageDir virtualAddr : ℕ) : Option Translation :=
  let pde := loadWord memory (entry pageDir (virtualAddr / 0x400000))
  let pte := loadWord memory (entry (entryFrame pde) (virtualAddr % 0x400000 / 0x1000))
  if entryPresent pde && entryPresent pte then
    some ⟨entryFrame pte + virtualAddr % 0x1000, entryWritable pde && entryWritable pte⟩
  else
    none

/-- The frame of a word, if it is present. -/
def decodeEntry (word : ℕ) : Option ℕ := if entryPresent word then some (entryFrame word) else none

/-- The word for a frame that is present and writable. -/
def encodeEntry : Option ℕ → ℕ
  | none => 0
  | some frame => frame ||| 3

/-- The word is zero, or the word of a frame. -/
def Clean (word : ℕ) : Prop := word = encodeEntry (decodeEntry word)

section Entries

variable {frame : ℕ}

theorem or_three (aligned : frame % 0x1000 = 0) : frame ||| 3 = frame + 3 := by
  have shifted : frame = 2 ^ 2 * (frame / 4) := by omega
  rw [shifted]
  exact (Nat.two_pow_add_eq_or_of_lt (by decide) _).symm

theorem or_three_lt (aligned : frame % 0x1000 = 0) (word : frame < 2 ^ 32) :
    frame ||| 3 < 2 ^ 32 := by
  rw [or_three aligned]
  omega

theorem entryPresent_or_three (frame : ℕ) : entryPresent (frame ||| 3) = true := by
  rw [entryPresent, Nat.testBit_or]
  exact Bool.or_true _

theorem entryWritable_or_three (frame : ℕ) : entryWritable (frame ||| 3) = true := by
  rw [entryWritable, Nat.testBit_or]
  exact Bool.or_true _

theorem entryFrame_or_three (aligned : frame % 0x1000 = 0) : entryFrame (frame ||| 3) = frame := by
  rw [or_three aligned, entryFrame]
  omega

theorem decodeEntry_zero : decodeEntry 0 = none := rfl

theorem decodeEntry_or_three (aligned : frame % 0x1000 = 0) :
    decodeEntry (frame ||| 3) = some frame := by
  rw [decodeEntry, if_pos (entryPresent_or_three frame), entryFrame_or_three aligned]

theorem clean_or_three (aligned : frame % 0x1000 = 0) : Clean (frame ||| 3) := by
  rw [Clean, decodeEntry_or_three aligned, encodeEntry]

/-- A clean word is that of the frame exactly when it decodes to it. -/
theorem Clean.eq_or_three_iff {word : ℕ} (clean : Clean word) (aligned : frame % 0x1000 = 0) :
    word = frame ||| 3 ↔ decodeEntry word = some frame := by
  constructor
  · intro same
    rw [same, decodeEntry_or_three aligned]
  · intro here
    rw [clean, here, encodeEntry]

end Entries

/-! ## The two levels -/

/-- The tables are named by their addresses. -/
def pageLevels (memory : Memory) (pageDir : ℕ) : TwoLevel (Fin 1024) ℕ (Fin 1024) ℕ where
  directory slot := decodeEntry (loadWord memory (entry pageDir slot))
  entries table index := decodeEntry (loadWord memory (entry table index))

/-- The slot of the page directory that an address selects. -/
def slotOf (virtualAddr : ℕ) : Fin 1024 := Fin.ofNat 1024 (virtualAddr / 0x400000)

/-- The entry of the page table that an address selects. -/
def indexOf (virtualAddr : ℕ) : Fin 1024 := Fin.ofNat 1024 (virtualAddr % 0x400000 / 0x1000)

theorem slotOf_val {virtualAddr : ℕ} (word : virtualAddr < 2 ^ 32) :
    (slotOf virtualAddr : ℕ) = virtualAddr / 0x400000 :=
  Nat.mod_eq_of_lt (by omega)

theorem indexOf_val (virtualAddr : ℕ) :
    (indexOf virtualAddr : ℕ) = virtualAddr % 0x400000 / 0x1000 :=
  Nat.mod_eq_of_lt (by omega)

/-- A page address is known by its slot and its index. -/
theorem page_eq_iff {first second : ℕ} (word : first < 2 ^ 32) (aligned : first % 0x1000 = 0)
    (word' : second < 2 ^ 32) (aligned' : second % 0x1000 = 0) :
    (slotOf first = slotOf second ∧ indexOf first = indexOf second) ↔ first = second := by
  constructor
  · rintro ⟨slot, index⟩
    have slots := congrArg Fin.val slot
    have indices := congrArg Fin.val index
    rw [slotOf_val word, slotOf_val word'] at slots
    rw [indexOf_val, indexOf_val] at indices
    omega
  · rintro rfl
    exact ⟨rfl, rfl⟩

/-- The walk of the processor is the walk through the two levels. -/
theorem translate_physAddr (memory : Memory) (pageDir : ℕ) {virtualAddr : ℕ}
    (word : virtualAddr < 2 ^ 32) :
    (translate memory pageDir virtualAddr).map Translation.physAddr =
      ((pageLevels memory pageDir).walk (slotOf virtualAddr) (indexOf virtualAddr)).map
        (· + virtualAddr % 0x1000) := by
  simp only [translate, TwoLevel.walk, pageLevels, slotOf_val word, indexOf_val, decodeEntry]
  cases entryPresent (loadWord memory (entry pageDir (virtualAddr / 0x400000))) with
  | false => rfl
  | true =>
      simp only [Bool.true_and, if_true, Option.bind_some]
      split <;> rfl

/-- The walk of a page address. -/
def MapsTo (memory : Memory) (pageDir virtualAddr physAddr : ℕ) : Prop :=
  (translate memory pageDir virtualAddr).map Translation.physAddr = some physAddr

theorem mapsTo_iff_walk {memory : Memory} {pageDir virtualAddr physAddr : ℕ}
    (word : virtualAddr < 2 ^ 32) (aligned : virtualAddr % 0x1000 = 0) :
    MapsTo memory pageDir virtualAddr physAddr ↔
      (pageLevels memory pageDir).walk (slotOf virtualAddr) (indexOf virtualAddr) =
        some physAddr := by
  unfold MapsTo
  rw [translate_physAddr memory pageDir word, aligned]
  simp only [Nat.add_zero, Option.map_id_fun']
  rfl

/-! ## Words of tables -/

section Words

variable {memory memory' : Memory} {table other value : ℕ}

theorem entry_eq (fits : table + 4096 ≤ 2 ^ 32) (index : Fin 1024) :
    entry table index = table + 4 * index :=
  offset_eq (by omega)

/-- The entries of a table depend on its own bytes only. -/
theorem loadEntry_congr (fits : table + 4096 ≤ 2 ^ 32)
    (same : ∀ address, table ≤ address → address < table + 4096 →
      memory' address = memory address) (index : Fin 1024) :
    loadWord memory' (entry table index) = loadWord memory (entry table index) := by
  apply loadWord_congr
  intro i small
  rw [entry_eq fits, offset_eq (by omega)]
  exact same _ (by omega) (by omega)

/-- A store of an entry changes no other entry of the table. -/
theorem loadEntry_storeEntry (fits : table + 4096 ≤ 2 ^ 32) (word : value < 2 ^ 32)
    (index place : Fin 1024) :
    loadWord (storeWord memory (entry table index) value) (entry table place) =
      if place = index then value else loadWord memory (entry table place) := by
  by_cases same : place = index
  · rw [if_pos same, same, loadWord_storeWord word]
  · rw [if_neg same]
    have different : (place : ℕ) ≠ index := fun equal => same (Fin.ext equal)
    apply loadWord_storeWord_of_apart
    · rw [entry_eq fits]
      omega
    · rw [entry_eq fits]
      omega
    · rw [entry_eq fits, entry_eq fits]
      omega

/-- A store of an entry changes no entry of a table that is apart. -/
theorem loadEntry_storeEntry_of_apart (fits : table + 4096 ≤ 2 ^ 32)
    (otherFits : other + 4096 ≤ 2 ^ 32) (apart : other + 4096 ≤ table ∨ table + 4096 ≤ other)
    (index place : Fin 1024) :
    loadWord (storeWord memory (entry table index) value) (entry other place) =
      loadWord memory (entry other place) := by
  apply loadEntry_congr otherFits
  intro address above below
  exact storeEntry_frame fits index.isLt (by omega)

/-- A table that was cleared has no entry. -/
theorem loadEntry_memset (fits : table + 4096 ≤ 2 ^ 32) (index : Fin 1024) :
    loadWord (memset memory table 0#8 pageSize) (entry table index) = 0 := by
  have clear (i : ℕ) (small : i < 4) :
      memset memory table 0#8 pageSize (offset (entry table index) i) = 0#8 := by
    rw [entry_eq fits, offset_eq (by omega), show table + 4 * (index : ℕ) + i =
      offset table (4 * index + i) by rw [offset_eq (by omega)]; omega]
    exact memset_inside (show 4 * (index : ℕ) + i < 4096 by omega)
  simp only [loadWord, clear 0 (by decide), clear 1 (by decide), clear 2 (by decide),
    clear 3 (by decide)]
  rfl

end Words

/-! ## Where the page tables are -/

/-- The bitmap and a page table for every 4 MiB fit between the kernel image and the end
of the address space. -/
def KernelImage.HeapRoom (image : KernelImage) : Prop := image.kernelEndVirtual + 0x421000 ≤ 2 ^ 32

instance (image : KernelImage) : Decidable image.HeapRoom := inferInstanceAs (Decidable (_ ≤ _))

/-- The page tables are page-sized blocks of the heap, one for a region of 4 MiB. -/
structure TablesPlaced (image : KernelImage) (paging : Paging) : Prop where
  inside : ∀ region, paging.allocatedPageTables region ≠ 0 →
    image.kernelEndVirtual ≤ paging.allocatedPageTables region ∧
      paging.allocatedPageTables region + 4096 ≤ paging.heapCur
  aligned : ∀ region, paging.allocatedPageTables region % 0x1000 = 0
  injective : ∀ first second, paging.allocatedPageTables first ≠ 0 →
    paging.allocatedPageTables first = paging.allocatedPageTables second → first = second
  floor : image.kernelEndVirtual ≤ paging.heapCur
  budget : paging.heapCur ≤ alignUp 4096 image.kernelEndVirtual +
    4096 * tableCount paging.allocatedPageTables + if paging.isInitialized then 0x20000 else 0

namespace TablesPlaced

variable {image : KernelImage} {paging : Paging}

theorem heapCur_lt (placed : TablesPlaced image paging) (room : image.HeapRoom) :
    paging.heapCur < 2 ^ 32 := by
  have count := tableCount_le paging.allocatedPageTables
  have onBudget := placed.budget
  have below := alignUp_page_lt image.kernelEndVirtual
  unfold KernelImage.HeapRoom at room
  split at onBudget <;> omega

theorem fits (placed : TablesPlaced image paging) (room : image.HeapRoom) {region : ℕ}
    (present : paging.allocatedPageTables region ≠ 0) :
    paging.allocatedPageTables region + 4096 ≤ 2 ^ 32 := by
  have below := (placed.inside region present).2
  have top := placed.heapCur_lt room
  omega

/-- Two tables are apart, since both are at a page boundary. -/
theorem apart (placed : TablesPlaced image paging) {first second : ℕ}
    (different : paging.allocatedPageTables first ≠ paging.allocatedPageTables second) :
    paging.allocatedPageTables first + 4096 ≤ paging.allocatedPageTables second ∨
      paging.allocatedPageTables second + 4096 ≤ paging.allocatedPageTables first := by
  have alignedFirst := placed.aligned first
  have alignedSecond := placed.aligned second
  omega

theorem directory_fits (image : KernelImage) : image.kernelPageDirectory + 4096 ≤ 2 ^ 32 :=
  Nat.le_trans image.directory_inside (Nat.le_of_lt image.word)

/-- The page directory is in the kernel image, below the tables. -/
theorem directory_apart (placed : TablesPlaced image paging) {region : ℕ}
    (present : paging.allocatedPageTables region ≠ 0) :
    image.kernelPageDirectory + 4096 ≤ paging.allocatedPageTables region :=
  Nat.le_trans image.directory_inside (placed.inside region present).1

/-- The next page boundary is within the budget. -/
theorem boundary_le (placed : TablesPlaced image paging) :
    alignUp 4096 paging.heapCur ≤ alignUp 4096 image.kernelEndVirtual +
      4096 * tableCount paging.allocatedPageTables +
        if paging.isInitialized then 0x20000 else 0 := by
  have aligned := alignUp_mod 4096 image.kernelEndVirtual
  refine alignUp_le (by decide) placed.budget ?_
  split <;> omega

theorem boundary_lt (placed : TablesPlaced image paging) (room : image.HeapRoom) :
    alignUp 4096 paging.heapCur < 2 ^ 32 := by
  have count := tableCount_le paging.allocatedPageTables
  have onBudget := placed.boundary_le
  have below := alignUp_page_lt image.kernelEndVirtual
  unfold KernelImage.HeapRoom at room
  split at onBudget <;> omega

/-- The count of tables with one more, in a region that has none. -/
theorem count_withTable (placed : TablesPlaced image paging) {physAddr : ℕ}
    (word : physAddr < 2 ^ 32) (missing : paging.allocatedPageTables (physAddr / 0x400000) = 0) :
    tableCount (paging.withTable physAddr).allocatedPageTables =
      tableCount paging.allocatedPageTables + 1 := by
  have image_below := image.image_below
  have floor := placed.floor
  have above := le_alignUp_page paging.heapCur
  rw [withTable_allocatedPageTables]
  exact tableCount_update _ (by omega) missing (by omega)

/-- A new table fits into the heap. -/
theorem new_fits (placed : TablesPlaced image paging) (room : image.HeapRoom) {physAddr : ℕ}
    (word : physAddr < 2 ^ 32) (missing : paging.allocatedPageTables (physAddr / 0x400000) = 0) :
    alignUp 4096 paging.heapCur + 4096 < 2 ^ 32 := by
  have count := tableCount_le (paging.withTable physAddr).allocatedPageTables
  rw [placed.count_withTable word missing] at count
  have onBudget := placed.boundary_le
  have below := alignUp_page_lt image.kernelEndVirtual
  unfold KernelImage.HeapRoom at room
  split at onBudget <;> omega

theorem withTable_heapCur_eq (placed : TablesPlaced image paging) (room : image.HeapRoom)
    {physAddr : ℕ} (word : physAddr < 2 ^ 32)
    (missing : paging.allocatedPageTables (physAddr / 0x400000) = 0) :
    (paging.withTable physAddr).heapCur = alignUp 4096 paging.heapCur + 4096 :=
  offset_eq (placed.new_fits room word missing)

/-- A new table goes on top of the heap. -/
theorem withTable (placed : TablesPlaced image paging) (room : image.HeapRoom) {physAddr : ℕ}
    (word : physAddr < 2 ^ 32) (missing : paging.allocatedPageTables (physAddr / 0x400000) = 0) :
    TablesPlaced image (paging.withTable physAddr) := by
  have floor := placed.floor
  have above := le_alignUp_page paging.heapCur
  have top := placed.withTable_heapCur_eq room word missing
  have old {region : ℕ} (different : region ≠ physAddr / 0x400000) :
      (paging.withTable physAddr).allocatedPageTables region =
        paging.allocatedPageTables region := by
    rw [withTable_allocatedPageTables, Function.update_of_ne different]
  have new : (paging.withTable physAddr).allocatedPageTables (physAddr / 0x400000) =
      alignUp 4096 paging.heapCur := by
    rw [withTable_allocatedPageTables, Function.update_self]
  -- The new table starts where the old ones have ended.
  have distinct {region : ℕ} (different : region ≠ physAddr / 0x400000)
      (present : paging.allocatedPageTables region ≠ 0) :
      paging.allocatedPageTables region ≠ alignUp 4096 paging.heapCur := by
    have below := (placed.inside region present).2
    omega
  refine ⟨?_, ?_, ?_, by omega, ?_⟩
  · intro region present
    by_cases same : region = physAddr / 0x400000
    · rw [same, new]
      omega
    · rw [old same] at present ⊢
      have bounds := placed.inside region present
      omega
  · intro region
    by_cases same : region = physAddr / 0x400000
    · rw [same, new]
      exact alignUp_mod _ _
    · rw [old same]
      exact placed.aligned region
  · intro first second present equal
    by_cases sameFirst : first = physAddr / 0x400000
    · by_cases sameSecond : second = physAddr / 0x400000
      · rw [sameFirst, sameSecond]
      · rw [sameFirst] at present
        rw [sameFirst, old sameSecond, new] at equal
        rw [new] at present
        exact absurd equal.symm (distinct sameSecond (by omega))
    · rw [old sameFirst] at present equal
      by_cases sameSecond : second = physAddr / 0x400000
      · rw [sameSecond, new] at equal
        exact absurd equal (distinct sameFirst present)
      · rw [old sameSecond] at equal
        exact placed.injective first second present equal
  · have onBudget := placed.boundary_le
    rw [top, placed.count_withTable word missing, withTable_isInitialized]
    omega

/-- Stores do not move the tables. -/
theorem of_tables (placed : TablesPlaced image paging) {after : Paging}
    (heapCur : after.heapCur = paging.heapCur)
    (isInitialized : after.isInitialized = paging.isInitialized)
    (tables : after.allocatedPageTables = paging.allocatedPageTables) :
    TablesPlaced image after := by
  refine ⟨?_, ?_, ?_, ?_, ?_⟩
  · rw [heapCur, tables]
    exact placed.inside
  · rw [tables]
    exact placed.aligned
  · rw [tables]
    exact placed.injective
  · rw [heapCur]
    exact placed.floor
  · rw [heapCur, tables, isInitialized]
    exact placed.budget

/-- The entries of the tables there are do not change when a table is added. -/
theorem withTable_entry (placed : TablesPlaced image paging) (room : image.HeapRoom)
    {physAddr table : ℕ} (word : physAddr < 2 ^ 32)
    (missing : paging.allocatedPageTables (physAddr / 0x400000) = 0)
    (below : table + 4096 ≤ paging.heapCur) (index : Fin 1024) :
    loadWord (paging.withTable physAddr).memory (entry table index) =
      loadWord paging.memory (entry table index) := by
  have above := le_alignUp_page paging.heapCur
  have top := placed.new_fits room word missing
  apply loadEntry_congr (by omega)
  intro address _ inTable
  rw [withTable_memory]
  exact memset_below (by omega) (show alignUp 4096 paging.heapCur + 4096 ≤ 2 ^ 32 by omega)

end TablesPlaced

end CatchOS.Mmu
