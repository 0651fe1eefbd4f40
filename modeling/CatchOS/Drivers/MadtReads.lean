import CatchOS.Drivers.MadtContents
import CatchOS.Lib.Probe

/-!
# What the MADT parser reads

The loop of `madt_parse` once more, as a program that reads the table byte by byte, with the
reads for its log. Places are counted from the start of the table. On a table it computes
what the loop computes (`run_parseProgram`).

The test of the loop reads the length of an entry before it knows that the entry is inside
the table, and an entry is decoded without a look at its length. So the reads are inside the
table exactly if every entry has room for what is decoded of it, and the loop stops at a
header that is in the table (`readsInBounds_iff`): an entry of length zero, or one that
reaches beyond the end. A table that its entries fill is never read in bounds
(`EntryList.not_readable`).
-/

set_option autoImplicit false

namespace CatchOS.Drivers

open CatchOS.Lib

/-! ## The program -/

/-- The bytes of a field. -/
def fieldBytes (place size : ℕ) : List ℕ := (List.range size).map (place + ·)

/-- A `uint32_t` of the table. -/
def askWord (place : ℕ) : Probe ℕ Byte ℕ := do
  let byte0 ← Probe.ask place
  let byte1 ← Probe.ask (place + 1)
  let byte2 ← Probe.ask (place + 2)
  let byte3 ← Probe.ask (place + 3)
  pure (byte0.toNat + 2 ^ 8 * byte1.toNat + 2 ^ 16 * byte2.toNat + 2 ^ 24 * byte3.toNat)

/-- `case MADT_ENTRY_TYPE_LOCAL_APIC`. The flags are only logged. -/
def localApicProgram (entry : ℕ) (info : Memory) : Probe ℕ Byte Memory := do
  Probe.touch ([entry + 2, entry + 3] ++ fieldBytes (entry + 4) 4)
  Probe.touch [entry + 2, entry + 3]
  let processorId ← Probe.ask (entry + 2)
  let info := Function.update info (processorIdsField + processorCount info) processorId
  let apicId ← Probe.ask (entry + 3)
  let info := Function.update info (localApicIdsField + processorCount info) apicId
  pure (Function.update info processorCountField (info processorCountField + 1))

/-- `case MADT_ENTRY_TYPE_IO_APIC`. -/
def ioApicProgram (entry : ℕ) (info : Memory) : Probe ℕ Byte Memory := do
  Probe.touch ([entry + 2] ++ fieldBytes (entry + 4) 4 ++ fieldBytes (entry + 8) 4)
  Probe.touch ([entry + 2] ++ fieldBytes (entry + 4) 4 ++ fieldBytes (entry + 8) 4)
  let addr ← askWord (entry + 4)
  let info := storeWord info (ioApicAddrsField + 4 * ioApicCount info) addr
  let id ← Probe.ask (entry + 2)
  let info := Function.update info (ioApicIdsField + ioApicCount info) id
  let gsiBase ← askWord (entry + 8)
  let info := storeWord info (ioApicGsiBaseField + 4 * ioApicCount info) gsiBase
  pure (setIoApicCount info (ioApicCount info + 1))

/-- `case MADT_ENTRY_TYPE_SOURCE_OVERRIDE`. The bus and the flags are only logged. -/
def sourceOverrideProgram (entry : ℕ) (info : Memory) : Probe ℕ Byte Memory := do
  Probe.touch ([entry + 2, entry + 3] ++ fieldBytes (entry + 4) 4 ++ fieldBytes (entry + 8) 2)
  Probe.touch ([entry + 2, entry + 3] ++ fieldBytes (entry + 4) 4 ++ fieldBytes (entry + 8) 2)
  let src ← Probe.ask (entry + 3)
  let mapped ← askWord (entry + 4)
  pure (if src.toNat ≠ mapped then
    Function.update info (irqOverrideField + src.toNat) (BitVec.ofNat 8 mapped) else info)

/-- `case MADT_ENTRY_NMI`: everything is only logged. -/
def nmiProgram (entry : ℕ) (info : Memory) : Probe ℕ Byte Memory := do
  Probe.touch ([entry + 2] ++ fieldBytes (entry + 4) 2 ++ [entry + 6])
  pure info

/-- The cases of the `switch`. -/
def caseProgram (type : Byte) (entry : ℕ) (info : Memory) : Probe ℕ Byte Memory :=
  if type = 0 then localApicProgram entry info
  else if type = 1 then ioApicProgram entry info
  else if type = 2 then sourceOverrideProgram entry info
  else if type = 4 then nmiProgram entry info
  else pure info

/-- The loop, for a table of the given length. -/
def parseProgram (len : ℕ) : ℕ → ℕ → Memory → Probe ℕ Byte (Option Memory)
  | 0, _, _ => pure none
  | turns + 1, entry, info => do
      let entryLen ← Probe.ask (entry + 1)
      if entry + entryLen.toNat ≤ len then do
        Probe.touch [entry, entry + 1]
        let entryLen ← Probe.ask (entry + 1)
        if entryLen.toNat = 0 then pure (some info)
        else do
          let type ← Probe.ask entry
          let info ← caseProgram type entry info
          let entryLen ← Probe.ask (entry + 1)
          parseProgram len turns (entry + entryLen.toNat) info
      else pure (some info)

/-! ## It is the loop -/

section Result

variable {table : Memory} {entry : ℕ}

theorem run_askWord {place : ℕ} (fits : place + 4 ≤ 2 ^ 32) :
    (askWord place).run table = loadWord table place := by
  simp only [askWord, Probe.run_bind, Probe.run_ask, Probe.run_pure, loadWord]
  rw [offset_eq (by omega), offset_eq (by omega), offset_eq (by omega), offset_eq (by omega)]
  rfl

theorem run_caseProgram (info : Memory) (fits : entry + 12 ≤ 2 ^ 32) :
    (caseProgram (entryType table entry) entry info).run table = parseEntry table info entry := by
  have word4 := @run_askWord table (entry + 4) (by omega)
  have word8 := @run_askWord table (entry + 8) (by omega)
  unfold caseProgram parseEntry
  split
  case isTrue =>
    simp only [localApicProgram, Probe.run_bind, Probe.run_ask, Probe.run_pure]
    rfl
  case isFalse =>
    split
    case isTrue =>
      simp only [ioApicProgram, Probe.run_bind, Probe.run_ask, Probe.run_pure, word4, word8]
      rfl
    case isFalse =>
      split
      case isTrue =>
        simp only [sourceOverrideProgram, Probe.run_bind, Probe.run_ask, Probe.run_pure, word4]
        rfl
      case isFalse =>
        split
        case isTrue => simp only [nmiProgram, Probe.run_bind, Probe.run_pure]
        case isFalse => exact Probe.run_pure table info

/-- **The program is the loop**, for a table that does not reach the end of the address
space. -/
theorem run_parseProgram (fits : madtLen table + 12 ≤ 2 ^ 32) (turns : ℕ) (info : Memory) :
    (parseProgram (madtLen table) turns entry info).run table =
      parseTurns table turns entry info := by
  induction turns generalizing entry info with
  | zero => rfl
  | succ turns ih =>
      rw [parseProgram, parseTurns, Probe.run_bind, Probe.run_ask]
      unfold entryLen
      split
      case isFalse => rfl
      case isTrue inside =>
        rw [Probe.run_bind, Probe.run_bind, Probe.run_ask]
        split
        case isTrue => rfl
        case isFalse =>
          have decoded := @run_caseProgram table entry info (by omega)
          unfold entryType at decoded
          rw [Probe.run_bind, Probe.run_ask, Probe.run_bind, decoded, Probe.run_bind,
            Probe.run_ask, ih]

end Result

/-! ## When it reads inside the table -/

/-- How many bytes of an entry are decoded, from the type on. -/
def decodedBytes (type : Byte) : ℕ :=
  if type = 0 then 8
  else if type = 1 then 12
  else if type = 2 then 10
  else if type = 4 then 7
  else 2

/-- **Every byte that the loop reads is in the table.** -/
def ReadsInBounds (table : Memory) : Prop :=
  ∀ turns, ∀ place ∈
    (parseProgram (madtLen table) turns entriesStart (madtStart table)).reads table,
    place < madtLen table

/-- From the given entry on every entry has room for what is decoded of it, and there is a
header in the table at which the loop stops. -/
inductive Readable (table : Memory) : ℕ → Prop where
  | stop {entry : ℕ} : entry + 2 ≤ madtLen table →
      (entryLen table entry = 0 ∨ madtLen table < entry + entryLen table entry) →
      Readable table entry
  | next {entry : ℕ} : entry + decodedBytes (entryType table entry) ≤ madtLen table →
      entryLen table entry ≠ 0 → entry + entryLen table entry ≤ madtLen table →
      Readable table (entry + entryLen table entry) → Readable table entry

section Bounds

variable {table : Memory} {entry len : ℕ}

theorem reads_askWord (place : ℕ) :
    (askWord place).reads table = [place, place + 1, place + 2, place + 3] := by
  simp only [askWord, Probe.reads_bind, Probe.reads_ask, Probe.reads_pure, List.append_nil,
    List.singleton_append]

/-- The reads of a case, with those of the header. -/
theorem caseProgram_inBounds_iff (type : Byte) (info : Memory) :
    ((∀ place ∈ (caseProgram type entry info).reads table, place < len) ∧ entry + 2 ≤ len) ↔
      entry + decodedBytes type ≤ len := by
  have two : List.range 2 = [0, 1] := rfl
  have four : List.range 4 = [0, 1, 2, 3] := rfl
  unfold caseProgram decodedBytes
  split
  case isTrue =>
    simp only [localApicProgram, fieldBytes, four, List.map_cons, List.map_nil, Probe.reads_bind,
      Probe.reads_touch, Probe.reads_ask, Probe.reads_pure, List.forall_mem_append,
      List.forall_mem_cons, List.not_mem_nil, false_implies, implies_true, and_true]
    omega
  case isFalse =>
    split
    case isTrue =>
      simp only [ioApicProgram, fieldBytes, four, List.map_cons, List.map_nil, Probe.reads_bind,
        Probe.reads_touch, Probe.reads_ask, reads_askWord, Probe.reads_pure,
        List.forall_mem_append, List.forall_mem_cons, List.not_mem_nil, false_implies,
        implies_true, and_true]
      omega
    case isFalse =>
      split
      case isTrue =>
        simp only [sourceOverrideProgram, fieldBytes, two, four, List.map_cons, List.map_nil,
          Probe.reads_bind, Probe.reads_touch, Probe.reads_ask, reads_askWord, Probe.reads_pure,
          List.forall_mem_append, List.forall_mem_cons, List.not_mem_nil, false_implies,
        implies_true, and_true]
        omega
      case isFalse =>
        split
        case isTrue =>
          simp only [nmiProgram, fieldBytes, two, List.map_cons, List.map_nil, Probe.reads_bind,
            Probe.reads_touch, Probe.reads_pure, List.forall_mem_append, List.forall_mem_cons,
            List.not_mem_nil, false_implies, implies_true, and_true]
          omega
        case isFalse =>
          simp only [Probe.reads_pure, List.not_mem_nil, false_implies, implies_true, true_and]

/-- One turn: the header, and then what the length says. -/
theorem parseProgram_inBounds_iff (turns : ℕ) (info : Memory) :
    (∀ place ∈ (parseProgram (madtLen table) (turns + 1) entry info).reads table,
      place < madtLen table) ↔
    entry + 2 ≤ madtLen table ∧
      (entryLen table entry ≠ 0 → entry + entryLen table entry ≤ madtLen table →
        entry + decodedBytes (entryType table entry) ≤ madtLen table ∧
        ∀ place ∈ (parseProgram (madtLen table) turns (entry + entryLen table entry)
          ((caseProgram (entryType table entry) entry info).run table)).reads table,
          place < madtLen table) := by
  rw [parseProgram, Probe.reads_bind, Probe.reads_ask, Probe.run_ask, List.forall_mem_append,
    List.forall_mem_singleton]
  unfold entryLen
  split
  case isFalse outside =>
    rw [Probe.reads_pure]
    constructor
    · rintro ⟨header, -⟩
      exact ⟨by omega, fun _ inside => absurd inside outside⟩
    · rintro ⟨header, -⟩
      exact ⟨by omega, List.forall_mem_nil _⟩
  case isTrue inside =>
    rw [Probe.reads_bind, Probe.reads_touch, List.forall_mem_append, Probe.reads_bind,
      Probe.reads_ask, Probe.run_ask, List.forall_mem_append, List.forall_mem_singleton]
    split
    case isTrue zero =>
      rw [Probe.reads_pure]
      constructor
      · rintro ⟨header, -⟩
        exact ⟨by omega, fun notZero => absurd zero notZero⟩
      · rintro ⟨header, -⟩
        refine ⟨by omega, ?_, by omega, List.forall_mem_nil _⟩
        simp only [List.forall_mem_cons, List.not_mem_nil, false_implies, implies_true, and_true]
        omega
    case isFalse notZero =>
      have decoded := @caseProgram_inBounds_iff table entry (madtLen table)
        (entryType table entry) info
      unfold entryType at decoded ⊢
      rw [Probe.reads_bind, Probe.reads_ask, Probe.run_ask, List.forall_mem_append,
        List.forall_mem_singleton, Probe.reads_bind, List.forall_mem_append, Probe.reads_bind,
        Probe.reads_ask, Probe.run_ask, List.forall_mem_append, List.forall_mem_singleton]
      constructor
      · rintro ⟨header, -, -, -, fields, -, rest⟩
        exact ⟨by omega, fun _ _ => ⟨decoded.mp ⟨fields, by omega⟩, rest⟩⟩
      · rintro ⟨header, next⟩
        obtain ⟨fields, rest⟩ := next notZero inside
        refine ⟨by omega, ?_, by omega, by omega, (decoded.mpr fields).1, by omega, rest⟩
        simp only [List.forall_mem_cons, List.not_mem_nil, false_implies, implies_true, and_true]
        omega

/-- In any number of turns. The entry moves on towards the end of the table. -/
theorem forall_turns_inBounds_iff (info : Memory) :
    (∀ turns, ∀ place ∈ (parseProgram (madtLen table) turns entry info).reads table,
      place < madtLen table) ↔ Readable table entry := by
  constructor
  · intro inBounds
    induction left : madtLen table - entry using Nat.strongRecOn generalizing entry info with
    | ind left ih =>
        have turn (turns : ℕ) := (parseProgram_inBounds_iff turns info).mp (inBounds (turns + 1))
        have header := (turn 0).1
        by_cases goesOn : entryLen table entry ≠ 0 ∧ entry + entryLen table entry ≤ madtLen table
        · refine .next ((turn 0).2 goesOn.1 goesOn.2).1 goesOn.1 goesOn.2 ?_
          exact ih _ (by omega) _ (fun turns => ((turn turns).2 goesOn.1 goesOn.2).2) rfl
        · exact .stop header (by omega)
  · intro readable
    induction readable generalizing info with
    | stop header stops =>
        intro turns
        cases turns with
        | zero => exact List.forall_mem_nil _
        | succ turns =>
            exact (parseProgram_inBounds_iff turns info).mpr
              ⟨header, fun notZero inside => by omega⟩
    | next fields notZero inside _ ih =>
        intro turns
        cases turns with
        | zero => exact List.forall_mem_nil _
        | succ turns =>
            have header := ((@caseProgram_inBounds_iff table _ _ _ info).mpr fields).2
            exact (parseProgram_inBounds_iff turns info).mpr
              ⟨header, fun _ _ => ⟨fields, ih _ turns⟩⟩

end Bounds

/-- **The parser reads inside the table exactly** if the entries can be read and the loop
stops at a header that is in the table. -/
theorem readsInBounds_iff (table : Memory) : ReadsInBounds table ↔ Readable table entriesStart :=
  forall_turns_inBounds_iff (madtStart table)

/-- Behind entries that fill the table there is no header left to stop at. -/
theorem EntryList.not_readable {table : Memory} {entry : ℕ} {entries : List ℕ}
    (filled : EntryList table entry entries) : ¬Readable table entry := by
  induction filled with
  | nil =>
      intro readable
      cases readable with
      | stop header _ => omega
      | next _ notZero inside _ => omega
  | cons header rest ih =>
      intro readable
      have inside := rest.le_len
      cases readable with
      | stop _ stops => omega
      | next _ _ _ further => exact ih further

/-- One processor in a table of 52 bytes: the byte at 53 is read. -/
theorem one_processor_not_inBounds :
    madtLen (madtTable [0, 8, 1, 7, 1, 0, 0, 0]) = 52 ∧
    53 ∈ (parseProgram 52 2 entriesStart
      (madtStart (madtTable [0, 8, 1, 7, 1, 0, 0, 0]))).reads
        (madtTable [0, 8, 1, 7, 1, 0, 0, 0]) ∧
    ¬ReadsInBounds (madtTable [0, 8, 1, 7, 1, 0, 0, 0]) := by
  have len : madtLen (madtTable [0, 8, 1, 7, 1, 0, 0, 0]) = 52 := by decide +kernel
  have read : 53 ∈ (parseProgram 52 2 entriesStart
      (madtStart (madtTable [0, 8, 1, 7, 1, 0, 0, 0]))).reads
        (madtTable [0, 8, 1, 7, 1, 0, 0, 0]) := by decide +kernel
  refine ⟨len, read, fun inBounds => ?_⟩
  have below := inBounds 2 53 (by rwa [len])
  rw [len] at below
  exact absurd below (by decide)

end CatchOS.Drivers
