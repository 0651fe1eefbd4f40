import CatchOS.Drivers.MadtContents

/-!
# What the MADT parser writes

`madt_parse` stores into six arrays of `_madt_info`. Five of the indices are counters that
grow with the entries of the table, one is a byte of the table, and none of them is compared
with the size of the array. The stores are listed for every entry that the parser comes to
(`entryStores`); running them and counting is what the parser does (`parseEntry_eq`).

The indices are below the sizes exactly for tables with at most 128 processors, at most 32
I/O APICs and no override of an interrupt from 24 on (`storesInBounds_iff`). An override of an
interrupt by itself is passed over, so its source may be anything.
-/

set_option autoImplicit false

namespace CatchOS.Drivers

/-! ## The stores of an entry -/

/-- The arrays of `struct MADT_info`. -/
inductive MadtArray where
  | processorIds
  | localApicIds
  | ioApicIds
  | ioApicAddrs
  | ioApicGsiBase
  | irqOverride
  deriving DecidableEq

/-- How many elements an array has. -/
def MadtArray.size : MadtArray → ℕ
  | processorIds | localApicIds => maxCpusSupported
  | ioApicIds | ioApicAddrs | ioApicGsiBase => 32
  | irqOverride => 24

/-- A store `array[index] = value`. -/
structure ArrayStore where
  array : MadtArray
  index : ℕ
  value : ℕ
  deriving DecidableEq

/-- The bytes that a store changes. The addresses and the bases are arrays of `uint32_t`. -/
def ArrayStore.run (info : Memory) (store : ArrayStore) : Memory :=
  match store.array with
  | .processorIds =>
      Function.update info (processorIdsField + store.index) (BitVec.ofNat 8 store.value)
  | .localApicIds =>
      Function.update info (localApicIdsField + store.index) (BitVec.ofNat 8 store.value)
  | .ioApicIds =>
      Function.update info (ioApicIdsField + store.index) (BitVec.ofNat 8 store.value)
  | .ioApicAddrs => storeWord info (ioApicAddrsField + 4 * store.index) store.value
  | .ioApicGsiBase => storeWord info (ioApicGsiBaseField + 4 * store.index) store.value
  | .irqOverride =>
      Function.update info (irqOverrideField + store.index) (BitVec.ofNat 8 store.value)

/-- The stores into the arrays that the `switch` makes for an entry. -/
def entryStores (table info : Memory) (entry : ℕ) : List ArrayStore :=
  if entryType table entry = 0 then
    [⟨.processorIds, processorCount info, (table (entry + 2)).toNat⟩,
      ⟨.localApicIds, processorCount info, (table (entry + 3)).toNat⟩]
  else if entryType table entry = 1 then
    [⟨.ioApicAddrs, ioApicCount info, loadWord table (entry + 4)⟩,
      ⟨.ioApicIds, ioApicCount info, (table (entry + 2)).toNat⟩,
      ⟨.ioApicGsiBase, ioApicCount info, loadWord table (entry + 8)⟩]
  else if entryType table entry = 2 then
    if overrideSource table entry ≠ overrideTarget table entry then
      [⟨.irqOverride, overrideSource table entry, overrideTarget table entry⟩]
    else []
  else []

/-- `processor_count++` and `io_apic_count++`. -/
def countEntry (table : Memory) (entry : ℕ) (info : Memory) (stored : Memory) : Memory :=
  if entryType table entry = 0 then
    Function.update stored processorCountField (info processorCountField + 1)
  else if entryType table entry = 1 then setIoApicCount stored (ioApicCount info + 1)
  else stored

/-- **The stores are all that an entry does**, but for the counters. -/
theorem parseEntry_eq (table info : Memory) (entry : ℕ) :
    parseEntry table info entry =
      countEntry table entry info ((entryStores table info entry).foldl ArrayStore.run info) := by
  unfold parseEntry entryStores countEntry
  split
  case isTrue isLocalApic =>
    rw [parseLocalApic_eq]
    simp only [List.foldl_cons, List.foldl_nil, ArrayStore.run, BitVec.ofNat_toNat,
      BitVec.setWidth_eq]
  case isFalse notLocalApic =>
    split
    case isTrue isIoApic =>
      rw [parseIoApic_eq]
      simp only [List.foldl_cons, List.foldl_nil, ArrayStore.run, BitVec.ofNat_toNat,
        BitVec.setWidth_eq]
    case isFalse notIoApic =>
      split
      case isTrue isOverride =>
        unfold parseSourceOverride overrideSource overrideTarget
        dsimp only
        split
        · rfl
        · rfl
      case isFalse notOverride => rfl

/-! ## The stores of a table -/

/-- The entries that the parser comes to, each with `_madt_info` as it is then. -/
def parseVisits (table : Memory) : List ℕ → Memory → List (ℕ × Memory)
  | [], _ => []
  | entry :: entries, info =>
      (entry, info) :: parseVisits table entries (parseEntry table info entry)

/-- The entries of a table that `madt_parse` goes over. -/
def walkedEntries (table : Memory) : List ℕ := madtEntries table (madtLen table) entriesStart

/-- At an entry: the indices are inside their arrays, and `processor_count` does not wrap. -/
def EntryInBounds (table : Memory) (visit : ℕ × Memory) : Prop :=
  (∀ store ∈ entryStores table visit.2 visit.1, store.index < store.array.size) ∧
  (entryType table visit.1 = 0 → processorCount visit.2 + 1 < 2 ^ 8)

/-- **In bounds**, at every entry. -/
def StoresInBounds (table : Memory) : Prop :=
  ∀ visit ∈ parseVisits table (walkedEntries table) (madtStart table), EntryInBounds table visit

/-- The overrides that are not passed over are of interrupts that the array has. -/
def SourcesFit (table : Memory) (entries : List ℕ) : Prop :=
  ∀ entry ∈ entries, entryType table entry = 2 →
    overrideSource table entry ≠ overrideTarget table entry → overrideSource table entry < 24

/-! ## When they are in bounds -/

section Counts

variable {table info : Memory} {entry : ℕ} {entries : List ℕ}

theorem tableProcessors_cons : (tableProcessors table (entry :: entries)).length =
    (if entryType table entry = 0 then 1 else 0) + (tableProcessors table entries).length := by
  unfold tableProcessors
  rw [List.length_map, List.length_map]
  split
  case isTrue isLocalApic =>
    rw [List.filter_cons_of_pos (by rwa [decide_eq_true_eq]), List.length_cons, Nat.add_comm]
  case isFalse notLocalApic =>
    rw [List.filter_cons_of_neg (by rwa [decide_eq_true_eq]), Nat.zero_add]

theorem tableIoApics_cons : (tableIoApics table (entry :: entries)).length =
    (if entryType table entry = 1 then 1 else 0) + (tableIoApics table entries).length := by
  unfold tableIoApics
  rw [List.length_map, List.length_map]
  split
  case isTrue isIoApic =>
    rw [List.filter_cons_of_pos (by rwa [decide_eq_true_eq]), List.length_cons, Nat.add_comm]
  case isFalse notIoApic =>
    rw [List.filter_cons_of_neg (by rwa [decide_eq_true_eq]), Nat.zero_add]

theorem forall_mem_pair {Value : Type} {holds : Value → Prop} {first second : Value} :
    (∀ value ∈ [first, second], holds value) ↔ holds first ∧ holds second := by
  rw [List.forall_mem_cons, List.forall_mem_singleton]

/-- An entry is in bounds when its array has one more element. -/
theorem entryInBounds_iff (processors : processorCount info ≤ maxCpusSupported)
    (ioApics : ioApicCount info ≤ 32) : EntryInBounds table (entry, info) ↔
      (processorCount info + (if entryType table entry = 0 then 1 else 0) ≤ maxCpusSupported ∧
      ioApicCount info + (if entryType table entry = 1 then 1 else 0) ≤ 32 ∧
      (entryType table entry = 2 → overrideSource table entry ≠ overrideTarget table entry →
        overrideSource table entry < 24)) := by
  have types (first second : Byte) (isFirst : entryType table entry = first)
      (different : first ≠ second) : entryType table entry ≠ second := isFirst ▸ different
  unfold maxCpusSupported at processors ⊢
  unfold EntryInBounds entryStores
  by_cases isLocalApic : entryType table entry = 0
  · rw [if_pos isLocalApic, if_pos isLocalApic, if_neg (types 0 1 isLocalApic (by decide)),
      forall_mem_pair]
    have notOverride := types 0 2 isLocalApic (by decide)
    unfold MadtArray.size maxCpusSupported
    dsimp only
    constructor
    · rintro ⟨⟨inIds, -⟩, -⟩
      exact ⟨inIds, by omega, fun isOverride => absurd isOverride notOverride⟩
    · rintro ⟨room, -, -⟩
      exact ⟨⟨by omega, by omega⟩, fun _ => by omega⟩
  · rw [if_neg isLocalApic, if_neg isLocalApic]
    by_cases isIoApic : entryType table entry = 1
    · rw [if_pos isIoApic, if_pos isIoApic, List.forall_mem_cons, forall_mem_pair]
      have notOverride := types 1 2 isIoApic (by decide)
      unfold MadtArray.size
      dsimp only
      constructor
      · rintro ⟨⟨inAddrs, -⟩, -⟩
        exact ⟨by omega, inAddrs, fun isOverride => absurd isOverride notOverride⟩
      · rintro ⟨-, room, -⟩
        exact ⟨⟨by omega, by omega, by omega⟩, fun isLocal => absurd isLocal isLocalApic⟩
    · rw [if_neg isIoApic, if_neg isIoApic]
      split
      case isTrue isOverride =>
        split
        case isTrue changes =>
          rw [List.forall_mem_singleton]
          unfold MadtArray.size
          dsimp only
          constructor
          · rintro ⟨inOverrides, -⟩
            exact ⟨by omega, by omega, fun _ _ => inOverrides⟩
          · rintro ⟨-, -, sourceFits⟩
            exact ⟨sourceFits isOverride changes, fun isLocal => absurd isLocal isLocalApic⟩
        case isFalse same =>
          constructor
          · intro _
            exact ⟨by omega, by omega, fun _ changes => absurd changes same⟩
          · intro _
            exact ⟨List.forall_mem_nil _, fun isLocal => absurd isLocal isLocalApic⟩
      case isFalse notOverride =>
        constructor
        · intro _
          exact ⟨by omega, by omega, fun isOverride => absurd isOverride notOverride⟩
        · intro _
          exact ⟨List.forall_mem_nil _, fun isLocal => absurd isLocal isLocalApic⟩

/-- The counters after an entry that is in bounds. -/
theorem counts_parseEntry
    (processors : processorCount info + (if entryType table entry = 0 then 1 else 0) ≤
      maxCpusSupported)
    (ioApics : ioApicCount info + (if entryType table entry = 1 then 1 else 0) ≤ 32) :
    processorCount (parseEntry table info entry) =
      processorCount info + (if entryType table entry = 0 then 1 else 0) ∧
    ioApicCount (parseEntry table info entry) =
      ioApicCount info + (if entryType table entry = 1 then 1 else 0) := by
  unfold parseEntry
  by_cases isLocalApic : entryType table entry = 0
  · have notIoApic : entryType table entry ≠ 1 := by
      rw [isLocalApic]
      decide
    rw [if_pos isLocalApic] at processors ⊢
    rw [if_pos isLocalApic, if_neg notIoApic]
    have frame {place : ℕ} (above : ioApicCountField ≤ place) :=
      @parseLocalApic_frame table entry info place processors (.inr above)
    exact ⟨processorCount_parseLocalApic processors,
      ioApicCount_congr fun place above _ => frame above⟩
  · rw [if_neg isLocalApic, if_neg isLocalApic]
    by_cases isIoApic : entryType table entry = 1
    · rw [if_pos isIoApic] at ioApics ⊢
      rw [if_pos isIoApic]
      obtain ⟨before, count⟩ := parseIoApic_spec table entry info
      refine ⟨?_, ?_⟩
      · rw [processorCount, before _ (by decide)]
        rfl
      · rw [count, Nat.mod_eq_of_lt (by omega)]
    · rw [if_neg isIoApic, if_neg isIoApic]
      split
      · refine ⟨?_, ioApicCount_congr fun place _ below => ?_⟩
        · rw [processorCount, parseSourceOverride_frame (by decide)]
          rfl
        · exact parseSourceOverride_frame (Nat.lt_trans below (by decide))
      · exact ⟨rfl, rfl⟩

/-- The entries that are left, one after another: the counters are what was counted so far. -/
theorem visits_inBounds_iff (processors : processorCount info ≤ maxCpusSupported)
    (ioApics : ioApicCount info ≤ 32) :
    (∀ visit ∈ parseVisits table entries info, EntryInBounds table visit) ↔
      (processorCount info + (tableProcessors table entries).length ≤ maxCpusSupported ∧
      ioApicCount info + (tableIoApics table entries).length ≤ 32 ∧
      SourcesFit table entries) := by
  induction entries generalizing info with
  | nil =>
      unfold parseVisits SourcesFit tableProcessors tableIoApics
      simp only [List.not_mem_nil, false_implies, implies_true, List.filter_nil, List.map_nil,
        List.length_nil, Nat.add_zero, and_true, true_iff]
      exact ⟨processors, ioApics⟩
  | cons entry entries ih =>
      rw [parseVisits, List.forall_mem_cons, entryInBounds_iff processors ioApics,
        tableProcessors_cons, tableIoApics_cons, SourcesFit, List.forall_mem_cons]
      constructor
      · rintro ⟨⟨fewProcessors, fewIoApics, sourceFits⟩, rest⟩
        obtain ⟨processorsNext, ioApicsNext⟩ := counts_parseEntry fewProcessors fewIoApics
        rw [ih (by rwa [processorsNext]) (by rwa [ioApicsNext]), processorsNext, ioApicsNext,
          Nat.add_assoc, Nat.add_assoc] at rest
        exact ⟨rest.1, rest.2.1, sourceFits, rest.2.2⟩
      · rintro ⟨fewProcessors, fewIoApics, sourceFits, sourcesFit⟩
        rw [← Nat.add_assoc] at fewProcessors fewIoApics
        have processorsHere := Nat.le_trans (Nat.le_add_right _ _) fewProcessors
        have ioApicsHere := Nat.le_trans (Nat.le_add_right _ _) fewIoApics
        obtain ⟨processorsNext, ioApicsNext⟩ := counts_parseEntry processorsHere ioApicsHere
        refine ⟨⟨processorsHere, ioApicsHere, sourceFits⟩, ?_⟩
        rw [ih (by rwa [processorsNext]) (by rwa [ioApicsNext]), processorsNext, ioApicsNext]
        exact ⟨fewProcessors, fewIoApics, sourcesFit⟩

end Counts

/-- **The stores of `madt_parse` are in bounds, and `processor_count` does not wrap, exactly**
for tables with at most 128 processors, at most 32 I/O APICs and no override of an interrupt
from 24 on by another number. -/
theorem storesInBounds_iff (table : Memory) :
    StoresInBounds table ↔
      ((tableProcessors table (walkedEntries table)).length ≤ maxCpusSupported ∧
      (tableIoApics table (walkedEntries table)).length ≤ 32 ∧
      SourcesFit table (walkedEntries table)) := by
  have start := Contents.start table
  have noProcessors : processorCount (madtStart table) = 0 := start.processorCount
  have noIoApics : ioApicCount (madtStart table) = 0 := start.ioApicCount
  rw [StoresInBounds, visits_inBounds_iff (by rw [noProcessors]; decide)
    (by rw [noIoApics]; decide), noProcessors, noIoApics, Nat.zero_add, Nat.zero_add]

/-- The override of interrupt 200 by 5 is stored behind `_madt_info`. -/
theorem override_of_200_not_inBounds :
    walkedEntries (madtTable [2, 10, 0, 200, 5, 0, 0, 0, 0, 0]) = [44] ∧
    ¬StoresInBounds (madtTable [2, 10, 0, 200, 5, 0, 0, 0, 0, 0]) := by
  have walked : walkedEntries (madtTable [2, 10, 0, 200, 5, 0, 0, 0, 0, 0]) = [44] := by
    decide +kernel
  refine ⟨walked, fun inBounds => ?_⟩
  obtain ⟨-, -, sourcesFit⟩ := (storesInBounds_iff _).mp inBounds
  rw [walked] at sourcesFit
  have fits := sourcesFit 44 (List.mem_singleton_self _) (by decide +kernel) (by decide +kernel)
  revert fits
  decide +kernel

end CatchOS.Drivers
