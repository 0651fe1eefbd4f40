import CatchOS.Drivers.Madt
import Mathlib.Data.List.Induction

/-!
# What the MADT says is what the parser leaves

A MADT is a header of 44 bytes and entries of any types and lengths, which fill the table
exactly (`EntryList`). Behind the last entry the parser looks at one more header, which is
not part of the table; whatever it finds there, it stops (`madtEntries_eq`).

`Contents` says what `_madt_info` holds then: the processors and the I/O APICs in the order
of the table, and of every interrupt the low byte of the last override that changes it. It
is kept entry by entry (`Contents.parseEntry`), as long as the arrays have room.
-/

set_option autoImplicit false

namespace CatchOS.Drivers

/-! ## Tables that are filled -/

/-- The entries from the given place up to the end of the table. Of the length of an entry
it is only asked that it covers the header. -/
inductive EntryList (table : Memory) : ℕ → List ℕ → Prop where
  | nil : EntryList table (madtLen table) []
  | cons {entry : ℕ} {entries : List ℕ} : 2 ≤ entryLen table entry →
      EntryList table (entry + entryLen table entry) entries →
      EntryList table entry (entry :: entries)

namespace EntryList

variable {table : Memory} {entry : ℕ} {entries : List ℕ}

/-- All entries are inside the table. -/
theorem le_len (list : EntryList table entry entries) :
    entry + 2 * entries.length ≤ madtLen table := by
  induction list with
  | nil => exact Nat.le_refl _
  | cons header _ ih =>
      rw [List.length_cons]
      omega

/-- **The walk stops at the end of the table**, and goes over all entries: behind the last
one the length is either not zero, and then too long, or it is zero. -/
theorem madtEntries_eq (list : EntryList table entry entries) {fuel : ℕ}
    (enough : entries.length < fuel) : madtEntries table fuel entry = entries := by
  induction list generalizing fuel with
  | nil =>
      obtain ⟨left, rfl⟩ := Nat.exists_eq_add_of_lt enough
      rw [madtEntries]
      split
      case isTrue inside =>
        have zero : entryLen table (madtLen table) = 0 := by omega
        rw [if_pos zero]
      case isFalse => rfl
  | @cons entry entries header rest ih =>
      have inside := rest.le_len
      cases fuel with
      | zero => cases enough
      | succ fuel =>
          rw [madtEntries, if_pos (by omega), if_neg (by omega), ih (Nat.lt_of_succ_lt_succ enough)]

end EntryList

/-! ## What is in `_madt_info` -/

structure Processor where
  processorId : Byte
  apicId : Byte
  deriving DecidableEq

structure IoApic where
  addr : ℕ
  id : Byte
  gsiBase : ℕ
  deriving DecidableEq

/-- `processor_ids[i]` and `local_APIC_ids[i]`. -/
def processorAt (info : Memory) (i : ℕ) : Processor :=
  ⟨info (processorIdsField + i), localApicId info i⟩

/-- `io_apic_addrs[i]`, `io_apic_ids[i]` and `io_apic_gsi_base[i]`. -/
def ioApicAt (info : Memory) (i : ℕ) : IoApic :=
  ⟨loadWord info (ioApicAddrsField + 4 * i), info (ioApicIdsField + i),
    loadWord info (ioApicGsiBaseField + 4 * i)⟩

/-- `irq_override[irq]`. -/
def irqOverride (info : Memory) (irq : ℕ) : Byte := info (irqOverrideField + irq)

/-! ## What is in the table -/

def tableProcessors (table : Memory) (entries : List ℕ) : List Processor :=
  (entries.filter fun entry => entryType table entry = 0).map fun entry =>
    ⟨table (entry + 2), table (entry + 3)⟩

def tableIoApics (table : Memory) (entries : List ℕ) : List IoApic :=
  (entries.filter fun entry => entryType table entry = 1).map fun entry =>
    ⟨loadWord table (entry + 4), table (entry + 2), loadWord table (entry + 8)⟩

/-- The source and the target of an override. -/
def overrideSource (table : Memory) (entry : ℕ) : ℕ := (table (entry + 3)).toNat

def overrideTarget (table : Memory) (entry : ℕ) : ℕ := loadWord table (entry + 4)

/-- The overrides of an interrupt by another number. -/
def tableOverrides (table : Memory) (irq : ℕ) (entries : List ℕ) : List ℕ :=
  entries.filter fun entry => entryType table entry = 2 ∧
    overrideSource table entry = irq ∧ overrideTarget table entry ≠ irq

/-- The low byte of the last one, and zero if there is none. -/
def lastOverride (table : Memory) (irq : ℕ) (entries : List ℕ) : Byte :=
  (tableOverrides table irq entries).getLast?.elim 0 fun entry =>
    BitVec.ofNat 8 (overrideTarget table entry)

/-- **What `_madt_info` holds after some of the entries.** The arrays are filled in the order
of the table, and are zero behind that. -/
structure Contents (table : Memory) (entries : List ℕ) (info : Memory) : Prop where
  localApicAddr : loadWord info localApicAddrField = loadWord table 36
  processorCount : processorCount info = (tableProcessors table entries).length
  processors : ∀ i < maxCpusSupported,
    processorAt info i = (tableProcessors table entries)[i]?.getD ⟨0, 0⟩
  ioApicCount : ioApicCount info = (tableIoApics table entries).length
  ioApics : ∀ i < 32, ioApicAt info i = (tableIoApics table entries)[i]?.getD ⟨0, 0, 0⟩
  overrides : ∀ irq < 24, irqOverride info irq = lastOverride table irq entries

/-! ## The bytes that an entry changes -/

section Bytes

variable (table : Memory) (entry : ℕ) (info : Memory)

/-- The index of a processor is the count before, also for the second array. -/
theorem parseLocalApic_eq : parseLocalApic table entry info =
    Function.update (Function.update (Function.update info
      (processorIdsField + processorCount info) (table (entry + 2)))
      (localApicIdsField + processorCount info) (table (entry + 3)))
      processorCountField (info processorCountField + 1) := by
  have counted : processorCount (Function.update info (processorIdsField + processorCount info)
      (table (entry + 2))) = processorCount info := by
    rw [processorCount, processorCount,
      Function.update_of_ne (by unfold processorCountField processorIdsField; omega)]
  unfold parseLocalApic
  dsimp only
  rw [counted]
  congr 2
  rw [Function.update_of_ne (by unfold processorCountField localApicIdsField; omega),
    Function.update_of_ne (by unfold processorCountField processorIdsField; omega)]

/-- The index of an I/O APIC is the count before, in all three arrays. -/
theorem parseIoApic_eq : parseIoApic table entry info =
    setIoApicCount (storeWord (Function.update (storeWord info
      (ioApicAddrsField + 4 * ioApicCount info) (loadWord table (entry + 4)))
      (ioApicIdsField + ioApicCount info) (table (entry + 2)))
      (ioApicGsiBaseField + 4 * ioApicCount info) (loadWord table (entry + 8)))
      (ioApicCount info + 1) := by
  have bound := ioApicCount_lt info
  have first : ioApicCount (storeWord info (ioApicAddrsField + 4 * ioApicCount info)
      (loadWord table (entry + 4))) = ioApicCount info :=
    ioApicCount_congr fun place _ before => (parseIoApic_stores info _ 0 before bound).1
  have second (info : Memory) : ioApicCount (Function.update info
      (ioApicIdsField + ioApicCount info) (table (entry + 2))) = ioApicCount info :=
    ioApicCount_congr fun place _ before =>
      (parseIoApic_stores info 0 _ before (ioApicCount_lt info)).2.1
  have third (info : Memory) : ioApicCount (storeWord info
      (ioApicGsiBaseField + 4 * ioApicCount info) (loadWord table (entry + 8))) =
      ioApicCount info :=
    ioApicCount_congr fun place _ before =>
      (parseIoApic_stores info _ 0 before (ioApicCount_lt info)).2.2
  unfold parseIoApic
  dsimp only
  rw [third, second, first]

variable {table entry info} {place : ℕ}

/-- A processor changes its place in the two arrays and the count. -/
theorem parseLocalApic_frame (room : processorCount info < maxCpusSupported)
    (outside : place < processorCountField ∨ ioApicCountField ≤ place) :
    parseLocalApic table entry info place = info place := by
  unfold maxCpusSupported at room
  unfold processorCountField ioApicCountField at outside
  rw [parseLocalApic_eq, Function.update_of_ne (by unfold processorCountField; omega),
    Function.update_of_ne (by unfold localApicIdsField; omega),
    Function.update_of_ne (by unfold processorIdsField; omega)]

/-- An I/O APIC changes nothing before the count and nothing behind the three arrays. -/
theorem parseIoApic_frame (room : ioApicCount info < 32)
    (outside : place < ioApicCountField ∨ irqOverrideField ≤ place) :
    parseIoApic table entry info place = info place := by
  unfold ioApicCountField irqOverrideField at outside
  rw [parseIoApic_eq, setIoApicCount, Function.update_of_ne (by unfold ioApicCountField; omega),
    Function.update_of_ne (by unfold ioApicCountField; omega)]
  rw [storeWord_frame, Function.update_of_ne (by unfold ioApicIdsField; omega), storeWord_frame]
  · intro i small
    unfold ioApicAddrsField
    rw [offset_eq (by omega)]
    omega
  · intro i small
    unfold ioApicGsiBaseField
    rw [offset_eq (by omega)]
    omega

theorem parseSourceOverride_frame (before : place < irqOverrideField) :
    parseSourceOverride table entry info place = info place := by
  unfold parseSourceOverride
  split
  · exact Function.update_of_ne (by omega) _ _
  · rfl

end Bytes

/-! ## The fields after an entry -/

/-- A byte outside a word does not change the word. -/
theorem loadWord_update {memory : Memory} {place address : ℕ} {byte : Byte}
    (fits : address + 4 ≤ 2 ^ 32) (apart : place < address ∨ address + 4 ≤ place) :
    loadWord (Function.update memory place byte) address = loadWord memory address := by
  refine loadWord_congr fun i small => ?_
  rw [offset_eq (by omega)]
  exact Function.update_of_ne (by omega) _ _

section Fields

variable {table : Memory} {entry : ℕ} {info info' : Memory} {i : ℕ}

theorem processorCount_parseLocalApic (room : processorCount info < maxCpusSupported) :
    processorCount (parseLocalApic table entry info) = processorCount info + 1 := by
  unfold maxCpusSupported at room
  have one : (1 : Byte).toNat = 1 := rfl
  have before : (info processorCountField).toNat = processorCount info := rfl
  rw [processorCount, parseLocalApic_eq, Function.update_self, BitVec.toNat_add, before, one,
    Nat.mod_eq_of_lt (by omega)]

theorem processorAt_parseLocalApic (room : processorCount info < maxCpusSupported)
    (bound : i < maxCpusSupported) : processorAt (parseLocalApic table entry info) i =
      if i = processorCount info then ⟨table (entry + 2), table (entry + 3)⟩
      else processorAt info i := by
  unfold maxCpusSupported at room bound
  have id : parseLocalApic table entry info (processorIdsField + i) =
      if i = processorCount info then table (entry + 2) else info (processorIdsField + i) := by
    rw [parseLocalApic_eq,
      Function.update_of_ne (by unfold processorCountField processorIdsField; omega),
      Function.update_of_ne (by unfold processorIdsField localApicIdsField; omega),
      Function.update_apply]
    simp only [Nat.add_left_cancel_iff]
  have apicId : parseLocalApic table entry info (localApicIdsField + i) =
      if i = processorCount info then table (entry + 3) else info (localApicIdsField + i) := by
    rw [parseLocalApic_eq,
      Function.update_of_ne (by unfold processorCountField localApicIdsField; omega),
      Function.update_apply,
      Function.update_of_ne (by unfold processorIdsField localApicIdsField; omega)]
    simp only [Nat.add_left_cancel_iff]
  unfold processorAt localApicId
  rw [id, apicId]
  split <;> rfl

/-- The three arrays of the I/O APICs are written at the place of the new one only. -/
theorem ioApicAddr_parseIoApic (room : ioApicCount info < 32) (bound : i < 32) :
    loadWord (parseIoApic table entry info) (ioApicAddrsField + 4 * i) =
      if i = ioApicCount info then loadWord table (entry + 4)
      else loadWord info (ioApicAddrsField + 4 * i) := by
  unfold ioApicAddrsField
  rw [parseIoApic_eq, setIoApicCount,
    loadWord_update (by omega) (by unfold ioApicCountField; omega),
    loadWord_update (by omega) (by unfold ioApicCountField; omega),
    loadWord_storeWord_of_apart (by unfold ioApicGsiBaseField; omega) (by omega)
      (by unfold ioApicGsiBaseField; omega),
    loadWord_update (by omega) (by unfold ioApicIdsField; omega)]
  unfold ioApicAddrsField
  split
  case isTrue here => rw [here, loadWord_storeWord (loadWord_lt _ _)]
  case isFalse => exact loadWord_storeWord_of_apart (by omega) (by omega) (by omega)

theorem ioApicGsiBase_parseIoApic (room : ioApicCount info < 32) (bound : i < 32) :
    loadWord (parseIoApic table entry info) (ioApicGsiBaseField + 4 * i) =
      if i = ioApicCount info then loadWord table (entry + 8)
      else loadWord info (ioApicGsiBaseField + 4 * i) := by
  unfold ioApicGsiBaseField
  rw [parseIoApic_eq, setIoApicCount,
    loadWord_update (by omega) (by unfold ioApicCountField; omega),
    loadWord_update (by omega) (by unfold ioApicCountField; omega)]
  unfold ioApicGsiBaseField
  split
  case isTrue here => rw [here, loadWord_storeWord (loadWord_lt _ _)]
  case isFalse =>
    rw [loadWord_storeWord_of_apart (by omega) (by omega) (by omega),
      loadWord_update (by omega) (by unfold ioApicIdsField; omega),
      loadWord_storeWord_of_apart (by unfold ioApicAddrsField; omega) (by omega)
        (by unfold ioApicAddrsField; omega)]

theorem ioApicId_parseIoApic (room : ioApicCount info < 32) (bound : i < 32) :
    parseIoApic table entry info (ioApicIdsField + i) =
      if i = ioApicCount info then table (entry + 2) else info (ioApicIdsField + i) := by
  rw [parseIoApic_eq, setIoApicCount,
    Function.update_of_ne (by unfold ioApicCountField ioApicIdsField; omega),
    Function.update_of_ne (by unfold ioApicCountField ioApicIdsField; omega), storeWord_frame,
    Function.update_apply, storeWord_frame]
  · simp only [Nat.add_left_cancel_iff]
  · intro j small
    unfold ioApicIdsField ioApicAddrsField
    rw [offset_eq (by omega)]
    omega
  · intro j small
    unfold ioApicIdsField ioApicGsiBaseField
    rw [offset_eq (by omega)]
    omega

theorem ioApicAt_parseIoApic (room : ioApicCount info < 32) (bound : i < 32) :
    ioApicAt (parseIoApic table entry info) i =
      if i = ioApicCount info then
        ⟨loadWord table (entry + 4), table (entry + 2), loadWord table (entry + 8)⟩
      else ioApicAt info i := by
  unfold ioApicAt
  rw [ioApicAddr_parseIoApic room bound, ioApicId_parseIoApic room bound,
    ioApicGsiBase_parseIoApic room bound]
  split <;> rfl

theorem irqOverride_parseSourceOverride {irq : ℕ} :
    irqOverride (parseSourceOverride table entry info) irq =
      if overrideSource table entry = irq ∧ overrideTarget table entry ≠ irq then
        BitVec.ofNat 8 (overrideTarget table entry)
      else irqOverride info irq := by
  unfold irqOverride parseSourceOverride overrideSource overrideTarget
  by_cases changes : (table (entry + 3)).toNat ≠ loadWord table (entry + 4)
  · have here : irqOverrideField + irq = irqOverrideField + (table (entry + 3)).toNat ↔
        (table (entry + 3)).toNat = irq ∧ loadWord table (entry + 4) ≠ irq := by omega
    rw [if_pos changes, Function.update_apply]
    simp only [here]
  · rw [if_neg changes, if_neg (by omega)]

/-- The processors depend on their own bytes only, and so do the I/O APICs. -/
theorem processorAt_congr (bound : i < maxCpusSupported)
    (same : ∀ place, processorIdsField ≤ place → place < ioApicCountField →
      info' place = info place) : processorAt info' i = processorAt info i := by
  unfold maxCpusSupported at bound
  unfold processorAt localApicId
  rw [same _ (Nat.le_add_right _ _) (by unfold processorIdsField ioApicCountField; omega),
    same _ (by unfold processorIdsField localApicIdsField; omega)
      (by unfold localApicIdsField ioApicCountField; omega)]

theorem ioApicAt_congr (bound : i < 32)
    (same : ∀ place, ioApicIdsField ≤ place → place < irqOverrideField →
      info' place = info place) : ioApicAt info' i = ioApicAt info i := by
  have word {field : ℕ} (above : ioApicIdsField ≤ field) (below : field + 128 ≤ irqOverrideField) :
      loadWord info' (field + 4 * i) = loadWord info (field + 4 * i) := by
    refine loadWord_congr fun j small => ?_
    unfold irqOverrideField at below
    rw [offset_eq (by omega)]
    exact same _ (by omega) (by unfold irqOverrideField; omega)
  unfold ioApicAt
  rw [word (by decide) (by decide), word (by decide) (by decide),
    same _ (Nat.le_add_right _ _) (by unfold ioApicIdsField irqOverrideField; omega)]

end Fields

/-! ## Entry by entry -/

theorem getD_concat {Value : Type} (values : List Value) (value fallback : Value) (i : ℕ) :
    (values ++ [value])[i]?.getD fallback =
      if i = values.length then value else values[i]?.getD fallback := by
  by_cases last : i = values.length
  · rw [if_pos last, last, List.getElem?_concat_length, Option.getD_some]
  · rw [if_neg last]
    by_cases before : i < values.length
    · rw [List.getElem?_append_left before]
    · rw [List.getElem?_eq_none (by rw [List.length_append, List.length_singleton]; omega),
        List.getElem?_eq_none (by omega)]

section Concat

theorem filter_concat {Value : Type} (test : Value → Prop) [DecidablePred test]
    (values : List Value) (value : Value) :
    (values ++ [value]).filter (fun value => test value) =
      if test value then values.filter (fun value => test value) ++ [value]
      else values.filter fun value => test value := by
  rw [List.filter_append]
  split
  case isTrue passes =>
    rw [List.filter_cons_of_pos (by rwa [decide_eq_true_eq]), List.filter_nil]
  case isFalse fails =>
    rw [List.filter_cons_of_neg (by rwa [decide_eq_true_eq]), List.filter_nil, List.append_nil]

variable (table : Memory) (entries : List ℕ) (entry : ℕ)

theorem tableProcessors_concat : tableProcessors table (entries ++ [entry]) =
    if entryType table entry = 0 then
      tableProcessors table entries ++ [⟨table (entry + 2), table (entry + 3)⟩]
    else tableProcessors table entries := by
  rw [tableProcessors, filter_concat]
  split
  · rw [List.map_append]
    rfl
  · rfl

theorem tableIoApics_concat : tableIoApics table (entries ++ [entry]) =
    if entryType table entry = 1 then
      tableIoApics table entries ++
        [⟨loadWord table (entry + 4), table (entry + 2), loadWord table (entry + 8)⟩]
    else tableIoApics table entries := by
  rw [tableIoApics, filter_concat]
  split
  · rw [List.map_append]
    rfl
  · rfl

theorem lastOverride_concat (irq : ℕ) : lastOverride table irq (entries ++ [entry]) =
    if entryType table entry = 2 ∧
        overrideSource table entry = irq ∧ overrideTarget table entry ≠ irq then
      BitVec.ofNat 8 (overrideTarget table entry)
    else lastOverride table irq entries := by
  rw [lastOverride, tableOverrides, filter_concat]
  split
  · rw [List.getLast?_concat, Option.elim_some]
  · rfl

end Concat

namespace Contents

variable {table info : Memory} {entries : List ℕ} {entry : ℕ}

theorem localApic (contents : Contents table entries info) (isLocalApic : entryType table entry = 0)
    (room : (tableProcessors table entries).length < maxCpusSupported) :
    Contents table (entries ++ [entry]) (parseLocalApic table entry info) := by
  have count := contents.processorCount
  rw [← count] at room
  have frame {place : ℕ} (outside : place < processorCountField ∨ ioApicCountField ≤ place) :=
    @parseLocalApic_frame table entry info place room outside
  have notIoApic : entryType table entry ≠ 1 := by
    rw [isLocalApic]
    decide
  have notOverride : entryType table entry ≠ 2 := by
    rw [isLocalApic]
    decide
  refine ⟨?_, ?_, ?_, ?_, ?_, ?_⟩
  · refine (loadWord_congr fun i small => frame (.inl ?_)).trans contents.localApicAddr
    unfold localApicAddrField processorCountField
    rw [offset_eq (by omega)]
    omega
  · rw [processorCount_parseLocalApic room, count, tableProcessors_concat, if_pos isLocalApic,
      List.length_append, List.length_singleton]
  · intro i bound
    rw [processorAt_parseLocalApic room bound, tableProcessors_concat, if_pos isLocalApic,
      getD_concat, contents.processors i bound, count]
  · rw [tableIoApics_concat, if_neg notIoApic, ← contents.ioApicCount]
    exact ioApicCount_congr fun place above _ => frame (.inr above)
  · intro i bound
    rw [tableIoApics_concat, if_neg notIoApic, ← contents.ioApics i bound]
    exact ioApicAt_congr bound fun place above _ => frame (.inr (Nat.le_trans (by decide) above))
  · intro irq bound
    rw [lastOverride_concat, if_neg fun changes => notOverride changes.1,
      ← contents.overrides irq bound]
    exact frame (.inr (Nat.le_trans (by decide) (Nat.le_add_right _ _)))

theorem ioApic (contents : Contents table entries info) (isIoApic : entryType table entry = 1)
    (room : (tableIoApics table entries).length < 32) :
    Contents table (entries ++ [entry]) (parseIoApic table entry info) := by
  have count := contents.ioApicCount
  rw [← count] at room
  have frame {place : ℕ} (outside : place < ioApicCountField ∨ irqOverrideField ≤ place) :=
    @parseIoApic_frame table entry info place room outside
  have notLocalApic : entryType table entry ≠ 0 := by
    rw [isIoApic]
    decide
  have notOverride : entryType table entry ≠ 2 := by
    rw [isIoApic]
    decide
  refine ⟨?_, ?_, ?_, ?_, ?_, ?_⟩
  · refine (loadWord_congr fun i small => frame (.inl ?_)).trans contents.localApicAddr
    unfold localApicAddrField ioApicCountField
    rw [offset_eq (by omega)]
    omega
  · rw [tableProcessors_concat, if_neg notLocalApic, ← contents.processorCount,
      Drivers.processorCount, frame (.inl (by decide)), Drivers.processorCount]
  · intro i bound
    rw [tableProcessors_concat, if_neg notLocalApic, ← contents.processors i bound]
    exact processorAt_congr bound fun place _ below => frame (.inl below)
  · rw [(parseIoApic_spec table entry info).2, Nat.mod_eq_of_lt (by omega), count,
      tableIoApics_concat, if_pos isIoApic, List.length_append, List.length_singleton]
  · intro i bound
    rw [ioApicAt_parseIoApic room bound, tableIoApics_concat, if_pos isIoApic, getD_concat,
      contents.ioApics i bound, count]
  · intro irq bound
    rw [lastOverride_concat, if_neg fun changes => notOverride changes.1,
      ← contents.overrides irq bound]
    exact frame (.inr (Nat.le_add_right _ _))

/-- An entry that is neither a processor nor an I/O APIC and changes the overrides only. -/
theorem override (contents : Contents table entries info) {next : Memory}
    (notLocalApic : entryType table entry ≠ 0) (notIoApic : entryType table entry ≠ 1)
    (frame : ∀ place < irqOverrideField, next place = info place)
    (overrides : ∀ irq < 24, irqOverride next irq = lastOverride table irq (entries ++ [entry])) :
    Contents table (entries ++ [entry]) next := by
  refine ⟨?_, ?_, ?_, ?_, ?_, overrides⟩
  · refine (loadWord_congr fun i small => frame _ ?_).trans contents.localApicAddr
    unfold localApicAddrField irqOverrideField
    rw [offset_eq (by omega)]
    omega
  · rw [tableProcessors_concat, if_neg notLocalApic, ← contents.processorCount,
      Drivers.processorCount, frame _ (by decide), Drivers.processorCount]
  · intro i bound
    rw [tableProcessors_concat, if_neg notLocalApic, ← contents.processors i bound]
    exact processorAt_congr bound fun place _ below => frame _ (Nat.lt_trans below (by decide))
  · rw [tableIoApics_concat, if_neg notIoApic, ← contents.ioApicCount]
    exact ioApicCount_congr fun place _ below => frame _ (Nat.lt_trans below (by decide))
  · intro i bound
    rw [tableIoApics_concat, if_neg notIoApic, ← contents.ioApics i bound]
    exact ioApicAt_congr bound fun place _ below => frame _ below

theorem sourceOverride (contents : Contents table entries info)
    (isOverride : entryType table entry = 2) :
    Contents table (entries ++ [entry]) (parseSourceOverride table entry info) := by
  refine contents.override (by rw [isOverride]; decide) (by rw [isOverride]; decide)
    (fun place before => parseSourceOverride_frame before) fun irq bound => ?_
  rw [irqOverride_parseSourceOverride, lastOverride_concat, contents.overrides irq bound]
  simp only [isOverride, true_and]

/-- **One entry**, of any type. -/
theorem parseEntry (contents : Contents table entries info)
    (fewProcessors : (tableProcessors table (entries ++ [entry])).length ≤ maxCpusSupported)
    (fewIoApics : (tableIoApics table (entries ++ [entry])).length ≤ 32) :
    Contents table (entries ++ [entry]) (parseEntry table info entry) := by
  unfold Drivers.parseEntry
  split
  case isTrue isLocalApic =>
    rw [tableProcessors_concat, if_pos isLocalApic, List.length_append,
      List.length_singleton] at fewProcessors
    exact contents.localApic isLocalApic fewProcessors
  case isFalse notLocalApic =>
    split
    case isTrue isIoApic =>
      rw [tableIoApics_concat, if_pos isIoApic, List.length_append,
        List.length_singleton] at fewIoApics
      exact contents.ioApic isIoApic fewIoApics
    case isFalse notIoApic =>
      split
      case isTrue isOverride => exact contents.sourceOverride isOverride
      case isFalse notOverride =>
        refine contents.override notLocalApic notIoApic (fun _ _ => rfl) fun irq bound => ?_
        rw [lastOverride_concat, if_neg fun changes => notOverride changes.1,
          contents.overrides irq bound]

theorem start (table : Memory) : Contents table [] (madtStart table) := by
  have zero {place : ℕ} (above : processorCountField ≤ place) := madtStart_zero table above
  have word {address : ℕ} (above : processorCountField ≤ address) (fits : address + 4 ≤ 2 ^ 32) :
      loadWord (madtStart table) address = 0 := by
    refine (loadWord_congr fun i small => ?_).trans
      (show loadWord (fun _ => 0) address = 0 from rfl)
    rw [offset_eq (by omega), zero (by omega)]
  refine ⟨loadWord_storeWord (loadWord_lt _ _), ?_, ?_, ?_, ?_, ?_⟩
  · rw [Drivers.processorCount, zero (Nat.le_refl _)]
    rfl
  · intro i _
    rw [processorAt, localApicId, zero (Nat.le_trans (by decide) (Nat.le_add_right _ _)),
      zero (Nat.le_trans (by decide) (Nat.le_add_right _ _))]
    rfl
  · rw [Drivers.ioApicCount, zero (by decide), zero (by decide)]
    rfl
  · intro i bound
    rw [ioApicAt, zero (Nat.le_trans (by decide) (Nat.le_add_right _ _)),
      word (Nat.le_trans (by decide) (Nat.le_add_right _ _)) (by unfold ioApicAddrsField; omega),
      word (Nat.le_trans (by decide) (Nat.le_add_right _ _)) (by unfold ioApicGsiBaseField; omega)]
    rfl
  · intro irq _
    rw [irqOverride, zero (Nat.le_trans (by decide) (Nat.le_add_right _ _))]
    rfl

/-- All of the entries, one after another. -/
theorem all (table : Memory) (entries : List ℕ)
    (fewProcessors : (tableProcessors table entries).length ≤ maxCpusSupported)
    (fewIoApics : (tableIoApics table entries).length ≤ 32) :
    Contents table entries (entries.foldl (Drivers.parseEntry table) (madtStart table)) := by
  induction entries using List.reverseRecOn with
  | nil => exact start table
  | append_singleton entries entry ih =>
      rw [List.foldl_append]
      have processorsBefore : (tableProcessors table entries).length ≤
          (tableProcessors table (entries ++ [entry])).length := by
        rw [tableProcessors, tableProcessors, List.filter_append, List.map_append,
          List.length_append]
        exact Nat.le_add_right _ _
      have ioApicsBefore : (tableIoApics table entries).length ≤
          (tableIoApics table (entries ++ [entry])).length := by
        rw [tableIoApics, tableIoApics, List.filter_append, List.map_append, List.length_append]
        exact Nat.le_add_right _ _
      exact (ih (by omega) (by omega)).parseEntry fewProcessors fewIoApics

end Contents

/-! ## The parser -/

/-- The loop of `madt_parse` with a bound on its turns, and no result when the bound is
reached before the loop ends. -/
def parseTurns (table : Memory) : ℕ → ℕ → Memory → Option Memory
  | 0, _, _ => none
  | turns + 1, entry, info =>
      if entry + entryLen table entry ≤ madtLen table then
        if entryLen table entry = 0 then some info
        else parseTurns table turns (entry + entryLen table entry) (parseEntry table info entry)
      else some info

/-- Every turn takes at least one byte of the table, so the loop ends, on every table. -/
theorem parseTurns_eq (table : Memory) {turns entry : ℕ} (info : Memory)
    (enough : madtLen table < entry + turns) (some' : 0 < turns) :
    parseTurns table turns entry info = some (parseLoop table turns entry info) := by
  induction turns generalizing entry info with
  | zero => cases some'
  | succ turns ih =>
      rw [parseTurns, parseLoop]
      split
      case isFalse => rfl
      case isTrue inside =>
        split
        case isTrue => rfl
        case isFalse =>
          cases turns with
          | zero => omega
          | succ turns => exact ih _ (by omega) (Nat.succ_pos turns)

/-- The parser returns, and has gone over the entries that it comes to. -/
theorem madtParse_returns (table : Memory) {turns : ℕ} (enough : madtLen table < turns) :
    parseTurns table turns entriesStart (madtStart table) = some (madtParse (some table)) := by
  obtain ⟨more, rfl⟩ := Nat.exists_eq_add_of_lt enough
  rw [parseTurns_eq table _ (by omega) (by omega), Nat.add_assoc]
  exact congrArg some (parseLoop_ends table _ (by decide)
    (Nat.lt_add_of_pos_left (by decide)) (more + 1))

/-- **MADT parsing.** When entries of any types fill the table exactly, with at most 128
processors and at most 32 I/O APICs, `madt_parse` returns, whatever follows the table, and
`_madt_info` holds what the table says. -/
theorem madtParse_contents {table : Memory} {entries : List ℕ}
    (filled : EntryList table entriesStart entries)
    (fewProcessors : (tableProcessors table entries).length ≤ maxCpusSupported)
    (fewIoApics : (tableIoApics table entries).length ≤ 32) :
    (∀ turns, madtLen table < turns →
      parseTurns table turns entriesStart (madtStart table) = some (madtParse (some table))) ∧
    Contents table entries (madtParse (some table)) := by
  refine ⟨fun turns enough => madtParse_returns table enough, ?_⟩
  have inside := filled.le_len
  unfold entriesStart at inside
  have walked := filled.madtEntries_eq (show entries.length < madtLen table by omega)
  have contents := Contents.all table entries fewProcessors fewIoApics
  rwa [← walked, ← parseLoop_eq, walked] at contents

/-- A table of less than 256 bytes with the given entries. -/
def madtTable (entries : List Byte) : Memory := fun address =>
  if address = 4 then BitVec.ofNat 8 (44 + entries.length)
  else if address < 44 then 0
  else entries.getD (address - 44) 0

/-- A processor, an entry of an unknown type, an I/O APIC at `0xFEC00000`, and the override of
interrupt 0 by 2. -/
def fourEntryTable : Memory :=
  madtTable [0, 8, 1, 7, 1, 0, 0, 0, 9, 3, 0, 1, 12, 5, 0, 0, 0, 0xC0, 0xFE, 0, 0, 0, 0,
    2, 10, 0, 0, 2, 0, 0, 0, 0, 0]

theorem fourEntryTable_filled : EntryList fourEntryTable entriesStart [44, 52, 55, 67] :=
  .cons (by decide +kernel) (.cons (by decide +kernel) (.cons (by decide +kernel)
    (.cons (by decide +kernel) .nil)))

theorem madtParse_contents_four_entries :
    processorAt (madtParse (some fourEntryTable)) 0 = ⟨1, 7⟩ ∧
    ioApicAt (madtParse (some fourEntryTable)) 0 = ⟨0xFEC00000, 5, 0⟩ ∧
    irqOverride (madtParse (some fourEntryTable)) 0 = 2 := by
  obtain ⟨-, contents⟩ :=
    madtParse_contents fourEntryTable_filled (by decide +kernel) (by decide +kernel)
  refine ⟨(contents.processors 0 (by decide)).trans ?_,
    (contents.ioApics 0 (by decide)).trans ?_, (contents.overrides 0 (by decide)).trans ?_⟩
  all_goals decide +kernel

end CatchOS.Drivers
