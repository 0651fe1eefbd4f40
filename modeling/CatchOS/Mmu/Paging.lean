import CatchOS.Mmu.PageframeAlloc

/-!
# Paging

`paging.c`: page tables are taken from the kernel heap, one for every 4 MiB of
physical memory that something is mapped to, and are kept for good. Mapping a
page or a whole table writes entries of one page table and one entry of the page
directory.

`getPageTable_cases` says where a page table comes from, and `EntriesWritten` what
a mapping call may write after it has its table.
-/

set_option autoImplicit false

namespace CatchOS.Mmu

open CatchOS.Lib

/-- `allocated_page_tables`, next to the heap and the page frames. -/
structure Paging extends Pageframe where
  allocatedPageTables : ℕ → ℕ

def pageSize : ℕ := 0x1000

def virtualAddrToPde (virtualAddr : ℕ) : ℕ := virtualAddr >>> 22

/-- The page table, and the state after a table was allocated if there was none. -/
def getPageTable (paging : Paging) (physAddr : ℕ) : Option (ℕ × Paging) :=
  let index := physAddr / 0x400000
  if paging.allocatedPageTables index = 0 then
    match kmallocAlign paging.toKheap pageSize 4096 with
    | none => none
    | some (table, kheap) =>
        some (table,
          { paging with
            toKheap := kheap
            allocatedPageTables := Function.update paging.allocatedPageTables index table })
  else
    some (paging.allocatedPageTables index, paging)

/-- The address of entry `index` of a page table or of the page directory. -/
def entry (table index : ℕ) : ℕ := offset table (4 * index)

def pagingMapPage (paging : Paging) (virtualAddr physAddr pageDir : ℕ) : Option Paging :=
  match getPageTable paging physAddr with
  | none => none
  | some (pageTable, paging) =>
      let pte := virtualAddr % 0x400000 / 0x1000
      if loadWord paging.memory (entry pageTable pte) = physAddr ||| 3 then
        some paging
      else
        let memory := storeWord paging.memory (entry pageTable pte) (physAddr ||| 3)
        let pde := virtualAddrToPde virtualAddr
        some { paging with memory := storeWord memory (entry pageDir pde) (pageTable ||| 3) }

/-- One turn of the loop of `paging_map_table`. -/
def fillEntry (pageTable physAddr : ℕ) (memory : Memory) (i : ℕ) : Memory :=
  storeWord memory (entry pageTable i) (offset physAddr (i * 0x1000) ||| 3)

def pagingMapTable (paging : Paging) (virtualAddr physAddr pageDir : ℕ) : Option Paging :=
  match getPageTable paging physAddr with
  | none => none
  | some (pageTable, paging) =>
      let memory := (List.range 1024).foldl (fillEntry pageTable physAddr) paging.memory
      let pde := virtualAddrToPde virtualAddr
      some { paging with memory := storeWord memory (entry pageDir pde) (pageTable ||| 3) }

/-! ## Where a page table comes from -/

/-- The state after a page table was allocated, at the least page boundary from the
heap pointer on. -/
def Paging.withTable (paging : Paging) (physAddr : ℕ) : Paging :=
  let table := alignUp 4096 paging.heapCur
  { paging with
    memory := memset paging.memory table 0#8 pageSize
    heapCur := offset table pageSize
    allocatedPageTables :=
      Function.update paging.allocatedPageTables (physAddr / 0x400000) table }

section WithTable

variable (paging : Paging) (physAddr : ℕ)

@[simp] theorem withTable_memory :
    (paging.withTable physAddr).memory =
      memset paging.memory (alignUp 4096 paging.heapCur) 0#8 pageSize := rfl

@[simp] theorem withTable_heapCur :
    (paging.withTable physAddr).heapCur = offset (alignUp 4096 paging.heapCur) pageSize := rfl

@[simp] theorem withTable_isInitialized :
    (paging.withTable physAddr).isInitialized = paging.isInitialized := rfl

@[simp] theorem withTable_pageframeBitmap :
    (paging.withTable physAddr).pageframeBitmap = paging.pageframeBitmap := rfl

@[simp] theorem withTable_allocatedPageTables :
    (paging.withTable physAddr).allocatedPageTables =
      Function.update paging.allocatedPageTables (physAddr / 0x400000)
        (alignUp 4096 paging.heapCur) := rfl

end WithTable

/-- A page table is the one already allocated for its 4 MiB, or a new one. -/
theorem getPageTable_cases (paging : Paging) (physAddr : ℕ)
    (fits : alignUp 4096 paging.heapCur < 2 ^ 32) :
    (paging.allocatedPageTables (physAddr / 0x400000) ≠ 0 ∧
        getPageTable paging physAddr =
          some (paging.allocatedPageTables (physAddr / 0x400000), paging)) ∨
      (paging.allocatedPageTables (physAddr / 0x400000) = 0 ∧
        getPageTable paging physAddr =
          some (alignUp 4096 paging.heapCur, paging.withTable physAddr)) := by
  by_cases missing : paging.allocatedPageTables (physAddr / 0x400000) = 0
  · refine .inr ⟨missing, ?_⟩
    simp only [getPageTable, if_pos missing, kmallocAlign_eq paging.toKheap _ (by decide) fits]
    rfl
  · refine .inl ⟨missing, ?_⟩
    simp only [getPageTable, if_neg missing]

theorem getPageTable_returns (paging : Paging) (physAddr : ℕ) :
    ∃ pageTable between, getPageTable paging physAddr = some (pageTable, between) := by
  obtain ⟨table, kheap, taken⟩ := kmallocAlign_page_returns paging.toKheap pageSize
  simp only [getPageTable, taken]
  split
  · exact ⟨_, _, rfl⟩
  · exact ⟨_, _, rfl⟩

theorem pagingMapPage_returns (paging : Paging) (virtualAddr physAddr pageDir : ℕ) :
    ∃ after, pagingMapPage paging virtualAddr physAddr pageDir = some after := by
  obtain ⟨pageTable, between, table⟩ := getPageTable_returns paging physAddr
  simp only [pagingMapPage, table]
  split
  · exact ⟨_, rfl⟩
  · exact ⟨_, rfl⟩

theorem pagingMapTable_returns (paging : Paging) (virtualAddr physAddr pageDir : ℕ) :
    ∃ after, pagingMapTable paging virtualAddr physAddr pageDir = some after := by
  obtain ⟨pageTable, between, table⟩ := getPageTable_returns paging physAddr
  simp only [pagingMapTable, table]
  exact ⟨_, rfl⟩

/-! ## What a mapping call writes -/

/-- Nothing but the memory changes, and the memory only inside the page table and
the page directory. -/
structure EntriesWritten (pageTable pageDir : ℕ) (before after : Paging) : Prop where
  heapCur : after.heapCur = before.heapCur
  isInitialized : after.isInitialized = before.isInitialized
  pageframeBitmap : after.pageframeBitmap = before.pageframeBitmap
  pagesTotalPhys : after.pagesTotalPhys = before.pagesTotalPhys
  allocatedPageTables : after.allocatedPageTables = before.allocatedPageTables
  memory : ∀ address, (address < pageTable ∨ pageTable + 4096 ≤ address) →
    (address < pageDir ∨ pageDir + 4096 ≤ address) → after.memory address = before.memory address

/-- An entry of a table lies inside the table. -/
theorem storeEntry_frame {memory : Memory} {table index value address : ℕ}
    (fits : table + 4096 ≤ 2 ^ 32) (inside : index < 1024)
    (outside : address < table ∨ table + 4096 ≤ address) :
    storeWord memory (entry table index) value address = memory address := by
  apply storeWord_frame
  intro i bound
  have place : entry table index = table + 4 * index := offset_eq (by omega)
  rw [place, offset_eq (by omega)]
  omega

theorem fillEntries_frame {memory : Memory} {table physAddr address turns : ℕ}
    (fits : table + 4096 ≤ 2 ^ 32) (bound : turns ≤ 1024)
    (outside : address < table ∨ table + 4096 ≤ address) :
    (List.range turns).foldl (fillEntry table physAddr) memory address = memory address := by
  induction turns with
  | zero => rfl
  | succ turns ih =>
      rw [List.range_succ, List.foldl_append, ← ih (by omega)]
      exact storeEntry_frame fits (by omega) outside

theorem virtualAddrToPde_lt {virtualAddr : ℕ} (word : virtualAddr < 2 ^ 32) :
    virtualAddrToPde virtualAddr < 1024 := by
  unfold virtualAddrToPde
  rw [Nat.shiftRight_eq_div_pow]
  omega

section Mapping

variable {paging between after : Paging} {virtualAddr physAddr pageDir pageTable : ℕ}

theorem pagingMapPage_written (word : virtualAddr < 2 ^ 32) (directory : pageDir + 4096 ≤ 2 ^ 32)
    (fits : pageTable + 4096 ≤ 2 ^ 32)
    (table : getPageTable paging physAddr = some (pageTable, between))
    (mapped : pagingMapPage paging virtualAddr physAddr pageDir = some after) :
    EntriesWritten pageTable pageDir between after := by
  simp only [pagingMapPage, table] at mapped
  split at mapped
  · simp only [Option.some.injEq] at mapped
    subst mapped
    exact ⟨rfl, rfl, rfl, rfl, rfl, fun _ _ _ => rfl⟩
  · simp only [Option.some.injEq] at mapped
    subst mapped
    refine ⟨rfl, rfl, rfl, rfl, rfl, ?_⟩
    intro address outsideTable outsideDirectory
    have pte : virtualAddr % 0x400000 / 0x1000 < 1024 := by omega
    exact (storeEntry_frame directory (virtualAddrToPde_lt word) outsideDirectory).trans
      (storeEntry_frame fits pte outsideTable)

theorem pagingMapTable_written (word : virtualAddr < 2 ^ 32) (directory : pageDir + 4096 ≤ 2 ^ 32)
    (fits : pageTable + 4096 ≤ 2 ^ 32)
    (table : getPageTable paging physAddr = some (pageTable, between))
    (mapped : pagingMapTable paging virtualAddr physAddr pageDir = some after) :
    EntriesWritten pageTable pageDir between after := by
  simp only [pagingMapTable, table, Option.some.injEq] at mapped
  subst mapped
  refine ⟨rfl, rfl, rfl, rfl, rfl, ?_⟩
  intro address outsideTable outsideDirectory
  exact (storeEntry_frame directory (virtualAddrToPde_lt word) outsideDirectory).trans
    (fillEntries_frame fits (Nat.le_refl _) outsideTable)

end Mapping

end CatchOS.Mmu
