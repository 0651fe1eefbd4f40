import CatchOS.Machine.Memory

/-!
# The MADT

`madt_parse` walks the entries of the table that lists the interrupt controllers of
the machine, and collects what it needs in `_madt_info`. The table is given by its
bytes, from its first one on; the walk reads a little past its end. `_madt_info` is
given by its bytes too, because the parser checks no bound: the 129th processor is
written behind the array of the first 128.

For a table with at most 128 processors, what the parser leaves is the list of the
entries (`madtParse_collected`), whatever their flags say.
-/

set_option autoImplicit false

namespace CatchOS.Drivers

/-! ## Layout -/

/-- `MAX_CPUS_SUPPORTED`. -/
def maxCpusSupported : ℕ := 128

/-- The fields of `struct MADT_info`: how many bytes they are from its start. -/
def localApicAddrField : ℕ := 0

def processorCountField : ℕ := 4

def processorIdsField : ℕ := 5

def localApicIdsField : ℕ := 133

def ioApicCountField : ℕ := 262

def ioApicIdsField : ℕ := 264

def ioApicAddrsField : ℕ := 296

def ioApicGsiBaseField : ℕ := 424

def irqOverrideField : ℕ := 552

/-- `_madt_info.processor_count`. -/
def processorCount (info : Memory) : ℕ := (info processorCountField).toNat

/-- `_madt_info.local_APIC_ids[i]`. -/
def localApicId (info : Memory) (i : ℕ) : Byte := info (localApicIdsField + i)

/-- `_madt_info.io_apic_count`, a `uint16_t`. -/
def ioApicCount (info : Memory) : ℕ :=
  (info ioApicCountField).toNat + 2 ^ 8 * (info (ioApicCountField + 1)).toNat

def setIoApicCount (info : Memory) (count : ℕ) : Memory :=
  Function.update (Function.update info ioApicCountField (BitVec.ofNat 8 count))
    (ioApicCountField + 1) (BitVec.ofNat 8 (count / 2 ^ 8))

/-! ## Parsing -/

/-- `madt->h.Length`. -/
def madtLen (table : Memory) : ℕ := loadWord table 4

/-- `entry->entry_type`, of the entry at a number of bytes from the start. -/
def entryType (table : Memory) (entry : ℕ) : Byte := table entry

def entryLen (table : Memory) (entry : ℕ) : ℕ := (table (entry + 1)).toNat

/-- `case MADT_ENTRY_TYPE_LOCAL_APIC`. -/
def parseLocalApic (table : Memory) (entry : ℕ) (info : Memory) : Memory :=
  let info := Function.update info (processorIdsField + processorCount info) (table (entry + 2))
  let info := Function.update info (localApicIdsField + processorCount info) (table (entry + 3))
  Function.update info processorCountField (info processorCountField + 1)

/-- `case MADT_ENTRY_TYPE_IO_APIC`. -/
def parseIoApic (table : Memory) (entry : ℕ) (info : Memory) : Memory :=
  let info := storeWord info (ioApicAddrsField + 4 * ioApicCount info) (loadWord table (entry + 4))
  let info := Function.update info (ioApicIdsField + ioApicCount info) (table (entry + 2))
  let info := storeWord info (ioApicGsiBaseField + 4 * ioApicCount info)
    (loadWord table (entry + 8))
  setIoApicCount info (ioApicCount info + 1)

/-- `case MADT_ENTRY_TYPE_SOURCE_OVERRIDE`. -/
def parseSourceOverride (table : Memory) (entry : ℕ) (info : Memory) : Memory :=
  let src := (table (entry + 3)).toNat
  let mapped := loadWord table (entry + 4)
  if src ≠ mapped then Function.update info (irqOverrideField + src) (BitVec.ofNat 8 mapped)
  else info

/-- The `switch` on the type of an entry. Non-maskable interrupts are only logged. -/
def parseEntry (table : Memory) (info : Memory) (entry : ℕ) : Memory :=
  if entryType table entry = 0 then parseLocalApic table entry info
  else if entryType table entry = 1 then parseIoApic table entry info
  else if entryType table entry = 2 then parseSourceOverride table entry info
  else info

/-- The loop of `madt_parse`. -/
def parseLoop (table : Memory) : ℕ → ℕ → Memory → Memory
  | 0, _, info => info
  | fuel + 1, entry, info =>
      if entry + entryLen table entry ≤ madtLen table then
        if entryLen table entry = 0 then info
        else parseLoop table fuel (entry + entryLen table entry) (parseEntry table info entry)
      else info

/-- Where the entries start. -/
def entriesStart : ℕ := 44

/-- `madt_parse`, on the zeros that `_madt_info` starts with. Every entry the loop goes
over takes at least one byte of the table, so it has as many turns as there are bytes
(`parseLoop_ends`). -/
def madtParse : Option Memory → Memory
  | none => fun _ => 0
  | some table =>
      let info := storeWord (fun _ => 0) localApicAddrField (loadWord table 36)
      parseLoop table (madtLen table) entriesStart info

/-- The loop is over after as many turns as the table has bytes: more turns change
nothing. -/
theorem parseLoop_ends (table : Memory) {entry fuel : ℕ} (info : Memory) (inside : 0 < entry)
    (enough : madtLen table < entry + fuel) (more : ℕ) :
    parseLoop table (fuel + more) entry info = parseLoop table fuel entry info := by
  induction fuel generalizing entry info with
  | zero =>
      have past : ¬ entry + entryLen table entry ≤ madtLen table := by omega
      cases more with
      | zero => rfl
      | succ more => simp only [parseLoop, if_neg past]
  | succ fuel ih =>
      have turns : fuel + 1 + more = fuel + more + 1 := by omega
      rw [turns, parseLoop, parseLoop]
      split
      · split
        · rfl
        · exact ih _ (by omega) (by omega)
      · rfl

/-! ## What the table lists -/

/-- The entries that the loop goes over. -/
def madtEntries (table : Memory) : ℕ → ℕ → List ℕ
  | 0, _ => []
  | fuel + 1, entry =>
      if entry + entryLen table entry ≤ madtLen table then
        if entryLen table entry = 0 then []
        else entry :: madtEntries table fuel (entry + entryLen table entry)
      else []

/-- The local APICs that the entries list, in their order. -/
def listedApics (table : Memory) (entries : List ℕ) : List Byte :=
  (entries.filter fun entry => entryType table entry = 0).map fun entry => table (entry + 3)

def listedIoApics (table : Memory) (entries : List ℕ) : ℕ :=
  entries.countP fun entry => entryType table entry = 1

/-- The local APIC ids of a table, and how many I/O APICs it has. -/
def madtApics : Option Memory → List Byte
  | none => []
  | some table => listedApics table (madtEntries table (madtLen table) entriesStart)

def madtIoApics : Option Memory → ℕ
  | none => 0
  | some table => listedIoApics table (madtEntries table (madtLen table) entriesStart)

theorem parseLoop_eq (table : Memory) (fuel entry : ℕ) (info : Memory) :
    parseLoop table fuel entry info =
      (madtEntries table fuel entry).foldl (parseEntry table) info := by
  induction fuel generalizing entry info with
  | zero => rfl
  | succ fuel ih =>
      rw [parseLoop, madtEntries]
      split
      · split
        · rfl
        · rw [List.foldl_cons, ih]
      · rfl

/-- What `_madt_info` says about the processors and the I/O APICs. -/
structure Collected (info : Memory) (apics : List Byte) (ioApics : ℕ) : Prop where
  count : processorCount info = apics.length
  id : ∀ i id, apics[i]? = some id → localApicId info i = id
  ioCount : ioApicCount info = ioApics % 2 ^ 16

theorem ioApicCount_lt (info : Memory) : ioApicCount info < 2 ^ 16 := by
  have low := (info ioApicCountField).isLt
  have high := (info (ioApicCountField + 1)).isLt
  unfold ioApicCount
  omega

/-- The count depends on its two bytes only. -/
theorem ioApicCount_congr {info info' : Memory}
    (same : ∀ place, ioApicCountField ≤ place → place < ioApicIdsField → info' place = info place) :
    ioApicCount info' = ioApicCount info := by
  rw [ioApicCount, ioApicCount, same _ le_rfl (by decide), same _ (Nat.le_succ _) (by decide)]

/-- The three stores of `parseIoApic` are behind the count. -/
theorem parseIoApic_stores (info : Memory) (value : ℕ) (byte : Byte) {place count : ℕ}
    (before : place < ioApicIdsField) (count16 : count < 2 ^ 16) :
    storeWord info (ioApicAddrsField + 4 * count) value place = info place ∧
    Function.update info (ioApicIdsField + count) byte place = info place ∧
    storeWord info (ioApicGsiBaseField + 4 * count) value place = info place := by
  unfold ioApicIdsField at before
  refine ⟨storeWord_frame fun i bound => ?_, Function.update_of_ne ?_ _ _,
    storeWord_frame fun i bound => ?_⟩
  · rw [offset_eq (by unfold ioApicAddrsField; omega)]
    unfold ioApicAddrsField
    omega
  · unfold ioApicIdsField
    omega
  · rw [offset_eq (by unfold ioApicGsiBaseField; omega)]
    unfold ioApicGsiBaseField
    omega

/-- An I/O APIC is counted; what is before the count stays. -/
theorem parseIoApic_spec (table : Memory) (entry : ℕ) (info : Memory) :
    (∀ place < ioApicCountField, parseIoApic table entry info place = info place) ∧
    ioApicCount (parseIoApic table entry info) = (ioApicCount info + 1) % 2 ^ 16 := by
  unfold parseIoApic
  extract_lets first second third
  have same (place : ℕ) (before : place < ioApicIdsField) : third place = info place :=
    calc third place = second place :=
          (parseIoApic_stores second _ 0 before (ioApicCount_lt _)).2.2
      _ = first place := (parseIoApic_stores first 0 _ before (ioApicCount_lt _)).2.1
      _ = info place := (parseIoApic_stores info _ 0 before (ioApicCount_lt _)).1
  have count : ioApicCount third = ioApicCount info :=
    ioApicCount_congr fun place _ before => same place before
  rw [count]
  refine ⟨fun place before => ?_, ?_⟩
  · rw [setIoApicCount, Function.update_of_ne (by omega), Function.update_of_ne (by omega)]
    exact same place (Nat.lt_trans before (by decide))
  · have apart : ioApicCountField ≠ ioApicCountField + 1 := by omega
    rw [ioApicCount, setIoApicCount, Function.update_self, Function.update_of_ne apart,
      Function.update_self, BitVec.toNat_ofNat, BitVec.toNat_ofNat]
    omega

theorem parseSourceOverride_spec (table : Memory) (entry : ℕ) (info : Memory) {place : ℕ}
    (before : place < ioApicIdsField) :
    parseSourceOverride table entry info place = info place := by
  unfold parseSourceOverride
  split
  · refine Function.update_of_ne ?_ _ _
    unfold ioApicIdsField at before
    unfold irqOverrideField
    omega
  · rfl

/-- What is collected depends on the bytes before the count of the I/O APICs, and on
the count. -/
theorem Collected.congr {info info' : Memory} {apics : List Byte} {ioApics ioApics' : ℕ}
    (collected : Collected info apics ioApics) (few : apics.length ≤ maxCpusSupported)
    (same : ∀ place < ioApicCountField, info' place = info place)
    (ioCount : ioApicCount info' = ioApics' % 2 ^ 16) : Collected info' apics ioApics' := by
  refine ⟨?_, fun i id listed => ?_, ioCount⟩
  · rw [processorCount, same _ (by decide)]
    exact collected.count
  · obtain ⟨bound, -⟩ := List.getElem?_eq_some_iff.mp listed
    unfold maxCpusSupported at few
    rw [localApicId, same _ (by unfold localApicIdsField ioApicCountField; omega)]
    exact collected.id i id listed

/-- A processor is appended, as long as the arrays have room. -/
theorem Collected.localApic {table info : Memory} {apics : List Byte} {ioApics entry : ℕ}
    (collected : Collected info apics ioApics) (room : apics.length < maxCpusSupported) :
    Collected (parseLocalApic table entry info) (apics ++ [table (entry + 3)]) ioApics := by
  have bound : apics.length < 128 := room
  have count : processorCount info = apics.length := collected.count
  have counted : processorCount
      (Function.update info (processorIdsField + processorCount info) (table (entry + 2))) =
      apics.length := by
    rw [processorCount,
      Function.update_of_ne (by unfold processorCountField processorIdsField; omega)]
    exact count
  unfold parseLocalApic
  dsimp only
  rw [counted, count]
  have other (place : ℕ) (notCount : place ≠ processorCountField)
      (notPid : place ≠ processorIdsField + apics.length)
      (notId : place ≠ localApicIdsField + apics.length) (value : Byte) :
      Function.update (Function.update (Function.update info (processorIdsField + apics.length)
        (table (entry + 2))) (localApicIdsField + apics.length) (table (entry + 3)))
        processorCountField value place = info place := by
    rw [Function.update_of_ne notCount, Function.update_of_ne notId, Function.update_of_ne notPid]
  refine ⟨?_, fun i id listed => ?_, ?_⟩
  · have plain : Function.update (Function.update info (processorIdsField + apics.length)
        (table (entry + 2))) (localApicIdsField + apics.length) (table (entry + 3))
        processorCountField = info processorCountField := by
      rw [Function.update_of_ne (by unfold processorCountField localApicIdsField; omega),
        Function.update_of_ne (by unfold processorCountField processorIdsField; omega)]
    have before : (info processorCountField).toNat = apics.length := count
    have one : (1 : Byte).toNat = 1 := rfl
    rw [processorCount, Function.update_self, plain, BitVec.toNat_add, before, one,
      List.length_append, List.length_singleton, Nat.mod_eq_of_lt (by omega)]
  · by_cases last : i = apics.length
    · rw [last, List.getElem?_concat_length, Option.some.injEq] at listed
      rw [localApicId, last,
        Function.update_of_ne (by unfold processorCountField localApicIdsField; omega),
        Function.update_self]
      exact listed
    · obtain ⟨within, -⟩ := List.getElem?_eq_some_iff.mp listed
      rw [List.length_append, List.length_singleton] at within
      rw [List.getElem?_append_left (by omega)] at listed
      rw [localApicId, other _ (by unfold processorCountField localApicIdsField; omega)
        (by unfold processorIdsField localApicIdsField; omega) (by omega)]
      exact collected.id i id listed
  · refine (ioApicCount_congr fun place above below => ?_).trans collected.ioCount
    unfold ioApicCountField at above
    refine other place ?_ ?_ ?_ _
    · unfold processorCountField
      omega
    · unfold processorIdsField
      omega
    · unfold localApicIdsField
      omega

/-- The entries that are gone over, one after another. -/
theorem Collected.entries {table : Memory} (entries : List ℕ) {info : Memory} {apics : List Byte}
    {ioApics : ℕ} (collected : Collected info apics ioApics)
    (few : (apics ++ listedApics table entries).length ≤ maxCpusSupported) :
    Collected (entries.foldl (parseEntry table) info) (apics ++ listedApics table entries)
      (ioApics + listedIoApics table entries) := by
  induction entries generalizing info apics ioApics with
  | nil => simpa [listedApics, listedIoApics] using collected
  | cons entry entries ih =>
      have room : apics.length ≤ maxCpusSupported := by
        rw [List.length_append] at few
        omega
      rw [List.foldl_cons]
      by_cases localApic : entryType table entry = 0
      · have listed : listedApics table (entry :: entries) =
            table (entry + 3) :: listedApics table entries := by
          simp [listedApics, localApic]
        have counted : listedIoApics table (entry :: entries) = listedIoApics table entries := by
          simp [listedIoApics, localApic]
        rw [listed] at few ⊢
        rw [counted, parseEntry, if_pos localApic, List.append_cons]
        rw [List.append_cons] at few
        have next : apics.length < maxCpusSupported := by
          rw [List.length_append, List.length_append, List.length_singleton] at few
          omega
        exact ih (collected.localApic next) few
      · have listed : listedApics table (entry :: entries) = listedApics table entries := by
          rw [listedApics, List.filter_cons_of_neg (by rwa [decide_eq_true_eq])]
          rfl
        rw [listed] at few ⊢
        by_cases ioApic : entryType table entry = 1
        · have counted : listedIoApics table (entry :: entries) =
              listedIoApics table entries + 1 := by
            simp [listedIoApics, ioApic]
          obtain ⟨same, count⟩ := parseIoApic_spec table entry info
          rw [counted, parseEntry, if_neg localApic, if_pos ioApic, ← Nat.add_assoc,
            Nat.add_right_comm]
          refine ih (collected.congr room same ?_) few
          rw [count, collected.ioCount, Nat.mod_add_mod]
        · have counted : listedIoApics table (entry :: entries) = listedIoApics table entries := by
            rw [listedIoApics, List.countP_cons_of_neg (by rwa [decide_eq_true_eq])]
            rfl
          rw [counted, parseEntry, if_neg localApic, if_neg ioApic]
          refine ih (collected.congr room (fun place before => ?_) ?_) few
          · split
            · exact parseSourceOverride_spec table entry info (Nat.lt_trans before (by decide))
            · rfl
          · refine (ioApicCount_congr fun place _ before => ?_).trans collected.ioCount
            split
            · exact parseSourceOverride_spec table entry info before
            · rfl

/-- `_madt_info` with the address of the local APICs, before the first entry. -/
def madtStart (table : Memory) : Memory :=
  storeWord (fun _ => 0) localApicAddrField (loadWord table 36)

theorem madtStart_zero (table : Memory) {place : ℕ} (above : processorCountField ≤ place) :
    madtStart table place = 0 := by
  refine storeWord_frame fun i bound => ?_
  unfold processorCountField at above
  unfold localApicAddrField
  rw [offset_eq (by omega)]
  omega

theorem collected_start (table : Memory) : Collected (madtStart table) [] 0 := by
  refine ⟨?_, nofun, ?_⟩
  · rw [processorCount, madtStart_zero table le_rfl]
    rfl
  · rw [ioApicCount, madtStart_zero table (by decide), madtStart_zero table (by decide)]
    rfl

/-- **What the parser leaves**, for a table that lists at most as many processors as
the arrays have room for. -/
theorem madtParse_collected (madt : Option Memory)
    (few : (madtApics madt).length ≤ maxCpusSupported) :
    Collected (madtParse madt) (madtApics madt) (madtIoApics madt) := by
  cases madt with
  | none => exact ⟨rfl, nofun, rfl⟩
  | some table =>
      have parsed := (collected_start table).entries
        (madtEntries table (madtLen table) entriesStart) few
      rw [List.nil_append, Nat.zero_add, ← parseLoop_eq] at parsed
      exact parsed

end CatchOS.Drivers
