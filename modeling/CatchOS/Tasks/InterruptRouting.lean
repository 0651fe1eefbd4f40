import CatchOS.Drivers.MadtContents
import CatchOS.Tasks.SchedTimer
import Mathlib.Data.List.Induction

/-!
# Routing of interrupts

The MADT says which global system interrupt an ISA interrupt is (`gsiOf`), and which
I/O APIC has the pin of it: the one with the greatest base not above. `Routed` says that
redirecting the interrupt writes the entry of that pin. The header of `madt.c` says the
same of an override: "Look for I/O APIC with base below this number, then make redirection
entry (interrupt - base)".

The driver keeps less. It redirects on the I/O APIC that was initialized last, the parser
keeps the low byte of an override that differs from its source, and the driver adds this
byte to the number of the interrupt. `pin_eq_iff` says when the sum is the right pin, and
`routed_iff` when an interrupt is routed as the table says: with one I/O APIC at base zero
these are the interrupts without an override and interrupt 0.
-/

set_option autoImplicit false

namespace CatchOS.Tasks

open CatchOS.Lib CatchOS.Drivers

/-! ## The driver -/

/-- `_madt_info.io_apic_addrs[i]`. -/
def ioApicAddr (info : Memory) (i : ℕ) : ℕ := loadWord info (ioApicAddrsField + 4 * i)

/-- `_lapic_base` after the loop of `init_io_apic`: every `ioapic_init` sets it. -/
def lapicBase (info : Memory) : ℕ :=
  (List.range (ioApicCount info)).foldl (fun _ i => ioApicAddr info i) 0

/-- `union ioapic_redir_entry`; `reserved` is zero. -/
structure IoapicRedirEntry where
  vector : ℕ
  deliveryMode : ℕ
  destMode : ℕ
  deliveryStat : ℕ
  pinPolarity : ℕ
  triggerIrr : ℕ
  triggerMode : ℕ
  disabled : ℕ
  dest : ℕ

namespace IoapicRedirEntry

def low (entry : IoapicRedirEntry) : ℕ :=
  entry.vector + 2 ^ 8 * entry.deliveryMode + 2 ^ 11 * entry.destMode +
    2 ^ 12 * entry.deliveryStat + 2 ^ 13 * entry.pinPolarity + 2 ^ 14 * entry.triggerIrr +
    2 ^ 15 * entry.triggerMode + 2 ^ 16 * entry.disabled

def high (entry : IoapicRedirEntry) : ℕ := 2 ^ 24 * entry.dest

end IoapicRedirEntry

/-- A call of `ioapic_write_reg`. -/
structure RegisterWrite where
  apicBase : ℕ
  regIndex : ℕ
  data : ℕ
  deriving DecidableEq

/-- `IOAPIC_EXTERNAL_IRQ_BASE`. -/
def ioapicExternalIrqBase : ℕ := 0x10

/-- The fields that `ioapic_redirect_external_int` sets after it has cleared the entry. -/
def redirEntry (redirection : Redirection) : IoapicRedirEntry where
  vector := redirection.vector.toNat
  deliveryMode := 0
  destMode := 0
  deliveryStat := 0
  pinPolarity := 0
  triggerIrr := 0
  triggerMode := 0
  disabled := 0
  dest := redirection.dest.toNat

/-- The writes of `ioapic_redirect_external_int` after `init_io_apic`. -/
def redirectWrites (info : Memory) (irq destLapic : Byte) : List RegisterWrite :=
  let redirection := ioapicRedirectExternalInt info irq destLapic
  let entry := redirEntry redirection
  let reg := ioapicExternalIrqBase + redirection.pin.toNat * 2
  [⟨lapicBase info, reg, entry.low⟩, ⟨lapicBase info, reg + 1, entry.high⟩]

/-! ## What the table says -/

/-- The I/O APICs that the entries list. -/
def ioApicEntries (table : Memory) (entries : List ℕ) : List ℕ :=
  entries.filter fun entry => entryType table entry = 1

def entryIoApicAddr (table : Memory) (entry : ℕ) : ℕ := loadWord table (entry + 4)

def entryGsiBase (table : Memory) (entry : ℕ) : ℕ := loadWord table (entry + 8)

/-- The overrides of an interrupt. -/
def overrideEntries (table : Memory) (irq : Byte) (entries : List ℕ) : List ℕ :=
  entries.filter fun entry => entryType table entry = 2 ∧ table (entry + 3) = irq

def entryGsi (table : Memory) (entry : ℕ) : ℕ := loadWord table (entry + 4)

/-- The global system interrupt of an interrupt: that of its override if there is one. -/
def gsiOf (table : Memory) (irq : Byte) (entries : List ℕ) : ℕ :=
  (overrideEntries table irq entries).head?.elim irq.toNat (entryGsi table)

/-- The base of the I/O APIC is the greatest one that is not above the interrupt. -/
structure Responsible (table : Memory) (entries : List ℕ) (gsi ioApic : ℕ) : Prop where
  listed : ioApic ∈ ioApicEntries table entries
  below : entryGsiBase table ioApic ≤ gsi
  greatest : ∀ other ∈ ioApicEntries table entries, entryGsiBase table other ≤ gsi →
    entryGsiBase table other ≤ entryGsiBase table ioApic

/-- **Routed as the table says**: the writes are of the two registers of the pin, in the I/O
APIC that has it, with the vector, the destination and the mask clear. -/
def Routed (table : Memory) (entries : List ℕ) (irq dest : Byte) (writes : List RegisterWrite) :
    Prop :=
  let gsi := gsiOf table irq entries
  ∃ ioApic low high, Responsible table entries gsi ioApic ∧
    let reg := 0x10 + 2 * (gsi - entryGsiBase table ioApic)
    writes = [⟨entryIoApicAddr table ioApic, reg, low⟩,
      ⟨entryIoApicAddr table ioApic, reg + 1, high⟩] ∧
    low % 2 ^ 8 = irq.toNat + 32 ∧ low.testBit 16 = false ∧ high / 2 ^ 24 = dest.toNat

/-! ## What the parser keeps -/

/-- The address of an I/O APIC is appended. -/
theorem ioApicAddr_parseIoApic (table : Memory) (entry : ℕ) {info : Memory}
    (room : ioApicCount info < 32) {i : ℕ} (bound : i < 32) :
    ioApicAddr (parseIoApic table entry info) i =
      if i = ioApicCount info then entryIoApicAddr table entry else ioApicAddr info i := by
  refine (congrArg IoApic.addr (ioApicAt_parseIoApic room bound)).trans ?_
  split <;> rfl

/-- An override changes the byte of its source, unless it changes nothing. -/
theorem parseSourceOverride_place (table : Memory) (entry : ℕ) (info : Memory) (place : ℕ) :
    parseSourceOverride table entry info place =
      if place = irqOverrideField + (table (entry + 3)).toNat ∧
          (table (entry + 3)).toNat ≠ entryGsi table entry
      then BitVec.ofNat 8 (entryGsi table entry) else info place := by
  unfold parseSourceOverride entryGsi
  by_cases changes : (table (entry + 3)).toNat ≠ loadWord table (entry + 4)
  · rw [if_pos changes, Function.update_apply]
    simp only [changes, ne_eq, not_false_eq_true, and_true]
  · rw [if_neg changes]
    simp only [changes, and_false, if_false]

theorem ioApicAddr_congr {info info' : Memory} {i : ℕ} (bound : i < 32)
    (same : ∀ place, ioApicIdsField ≤ place → place < irqOverrideField →
      info' place = info place) : ioApicAddr info' i = ioApicAddr info i :=
  congrArg IoApic.addr (ioApicAt_congr bound same)

/-- The overrides that the parser does not pass over: an override of an interrupt by itself
says nothing. -/
def changingOverrides (table : Memory) (irq : Byte) (entries : List ℕ) : List ℕ :=
  (overrideEntries table irq entries).filter fun entry => irq.toNat ≠ entryGsi table entry

/-- What `_madt_info` says about interrupts after some of the entries: the addresses of the
I/O APICs, and of each interrupt the low byte of its last override. -/
structure Kept (table : Memory) (entries : List ℕ) (info : Memory) : Prop where
  addrs : ∀ i entry, (ioApicEntries table entries)[i]? = some entry →
    ioApicAddr info i = entryIoApicAddr table entry
  overrides : ∀ irq : Byte, info (irqOverrideField + irq.toNat) =
    (changingOverrides table irq entries).getLast?.elim 0 fun entry =>
      BitVec.ofNat 8 (entryGsi table entry)

namespace Kept

variable {table info : Memory} {entries : List ℕ} {entry : ℕ}

theorem ioApicEntries_concat (table : Memory) (entries : List ℕ) (entry : ℕ) :
    ioApicEntries table (entries ++ [entry]) =
      if entryType table entry = 1 then ioApicEntries table entries ++ [entry]
      else ioApicEntries table entries := by
  rw [ioApicEntries, filter_concat]
  rfl

theorem changingOverrides_concat (table : Memory) (irq : Byte) (entries : List ℕ) (entry : ℕ) :
    changingOverrides table irq (entries ++ [entry]) =
      if (entryType table entry = 2 ∧ table (entry + 3) = irq) ∧ irq.toNat ≠ entryGsi table entry
      then changingOverrides table irq entries ++ [entry]
      else changingOverrides table irq entries := by
  simp only [changingOverrides, overrideEntries, List.filter_filter, List.filter_append]
  split
  case isTrue changes =>
    rw [List.filter_cons_of_pos, List.filter_nil]
    rw [Bool.and_eq_true, decide_eq_true_eq, decide_eq_true_eq]
    exact changes.symm
  case isFalse other =>
    rw [List.filter_cons_of_neg, List.filter_nil, List.append_nil]
    rw [Bool.and_eq_true, decide_eq_true_eq, decide_eq_true_eq]
    exact fun both => other both.symm

/-- An entry that is neither an I/O APIC nor an override, when what follows the count of the
I/O APICs is as it was. -/
theorem other (kept : Kept table entries info) (few : (ioApicEntries table entries).length ≤ 32)
    {next : Memory} (notIoApic : entryType table entry ≠ 1)
    (notOverride : entryType table entry ≠ 2)
    (same : ∀ place, ioApicCountField ≤ place → next place = info place) :
    Kept table (entries ++ [entry]) next := by
  refine ⟨fun i listed isListed => ?_, fun irq => ?_⟩
  · rw [ioApicEntries_concat, if_neg notIoApic] at isListed
    obtain ⟨bound, -⟩ := List.getElem?_eq_some_iff.mp isListed
    rw [ioApicAddr_congr (by omega)
      fun place above _ => same place (Nat.le_trans (by decide) above)]
    exact kept.addrs i listed isListed
  · rw [changingOverrides_concat, if_neg fun changes => notOverride changes.1.1,
      same _ (Nat.le_trans (by decide) (Nat.le_add_right _ _)), kept.overrides]

/-- An I/O APIC is appended. -/
theorem ioApic (kept : Kept table entries info) (few : (ioApicEntries table entries).length < 32)
    (count : ioApicCount info = (ioApicEntries table entries).length)
    (isIoApic : entryType table entry = 1) :
    Kept table (entries ++ [entry]) (parseIoApic table entry info) := by
  have room : ioApicCount info < 32 := count ▸ few
  refine ⟨fun i listed isListed => ?_, fun irq => ?_⟩
  · rw [ioApicEntries_concat, if_pos isIoApic] at isListed
    obtain ⟨bound, -⟩ := List.getElem?_eq_some_iff.mp isListed
    rw [List.length_append, List.length_singleton] at bound
    rw [ioApicAddr_parseIoApic table entry room (by omega), count]
    split
    case isTrue last =>
      rw [last, List.getElem?_concat_length, Option.some.injEq] at isListed
      rw [isListed]
    case isFalse notLast =>
      rw [List.getElem?_append_left (by omega)] at isListed
      exact kept.addrs i listed isListed
  · have notOverride : entryType table entry ≠ 2 := by
      rw [isIoApic]
      decide
    rw [changingOverrides_concat, if_neg fun changes => notOverride changes.1.1,
      parseIoApic_frame room (.inr (Nat.le_add_right _ _)), kept.overrides]

/-- An override that changes something replaces the earlier one. -/
theorem sourceOverride (kept : Kept table entries info)
    (few : (ioApicEntries table entries).length ≤ 32) (isOverride : entryType table entry = 2) :
    Kept table (entries ++ [entry]) (parseSourceOverride table entry info) := by
  have notIoApic : entryType table entry ≠ 1 := by
    rw [isOverride]
    decide
  refine ⟨fun i listed isListed => ?_, fun irq => ?_⟩
  · rw [ioApicEntries_concat, if_neg notIoApic] at isListed
    obtain ⟨bound, -⟩ := List.getElem?_eq_some_iff.mp isListed
    rw [ioApicAddr_congr (by omega), kept.addrs i listed isListed]
    exact fun place _ below => parseSourceOverride_frame below
  · have source : irqOverrideField + irq.toNat = irqOverrideField + (table (entry + 3)).toNat ↔
        table (entry + 3) = irq := by
      rw [Nat.add_left_cancel_iff, eq_comm, BitVec.toNat_inj]
    rw [changingOverrides_concat, parseSourceOverride_place]
    simp only [source]
    by_cases here : table (entry + 3) = irq
    · by_cases changes : irq.toNat ≠ entryGsi table entry
      · rw [if_pos ⟨here, here ▸ changes⟩, if_pos ⟨⟨isOverride, here⟩, changes⟩,
          List.getLast?_concat, Option.elim_some]
      · rw [if_neg fun both => changes (here ▸ both.2), if_neg fun all => changes all.2,
          kept.overrides]
    · rw [if_neg fun both => here both.1, if_neg fun all => here all.1.2, kept.overrides]

/-- One more entry. -/
theorem parseEntry (kept : Kept table entries info)
    (few : (ioApicEntries table entries).length ≤ 32)
    (processors : entryType table entry = 0 → processorCount info < maxCpusSupported)
    (ioApics : entryType table entry = 1 →
      ioApicCount info = (ioApicEntries table entries).length ∧
        (ioApicEntries table entries).length < 32) :
    Kept table (entries ++ [entry]) (Drivers.parseEntry table info entry) := by
  unfold Drivers.parseEntry
  split_ifs with isLocal isIoApic isOverride
  · refine kept.other few ?_ ?_ fun place above =>
      parseLocalApic_frame (processors isLocal) (.inr above)
    · rw [isLocal]
      decide
    · rw [isLocal]
      decide
  · obtain ⟨count, room⟩ := ioApics isIoApic
    exact kept.ioApic room count isIoApic
  · exact kept.sourceOverride few isOverride
  · exact kept.other few isIoApic isOverride fun _ _ => rfl

theorem start (table : Memory) : Kept table [] (madtStart table) := by
  refine ⟨nofun, fun irq => ?_⟩
  exact madtStart_zero table (Nat.le_trans (by decide) (Nat.le_add_right _ _))

theorem length_ioApicEntries (table : Memory) (entries : List ℕ) :
    listedIoApics table entries = (ioApicEntries table entries).length :=
  List.countP_eq_length_filter

/-- All entries, one after another. -/
theorem all (table : Memory) (entries : List ℕ)
    (processors : (listedApics table entries).length ≤ maxCpusSupported)
    (ioApics : (ioApicEntries table entries).length ≤ 32) :
    Kept table entries (entries.foldl (Drivers.parseEntry table) (madtStart table)) := by
  induction entries using List.reverseRecOn with
  | nil => exact start table
  | append_singleton before entry ih =>
      have listed : listedApics table (before ++ [entry]) =
          listedApics table before ++ listedApics table [entry] := by
        rw [listedApics, List.filter_append, List.map_append]
        rfl
      rw [listed, List.length_append] at processors
      rw [ioApicEntries, List.filter_append, List.length_append] at ioApics
      have fewProcessors : (listedApics table before).length ≤ maxCpusSupported := by omega
      have fewIoApics : (ioApicEntries table before).length ≤ 32 := by
        rw [ioApicEntries]
        omega
      have collected := (collected_start table).entries before (by rwa [List.nil_append])
      rw [List.nil_append, Nat.zero_add, length_ioApicEntries] at collected
      rw [List.foldl_append]
      refine (ih fewProcessors fewIoApics).parseEntry fewIoApics ?_ ?_
      · intro isLocal
        have one : (listedApics table [entry]).length = 1 := by simp [listedApics, isLocal]
        rw [collected.count]
        omega
      · intro isIoApic
        have one : ([entry].filter fun entry => entryType table entry = 1).length = 1 := by
          simp [isIoApic]
        have room : (ioApicEntries table before).length < 32 := by
          rw [ioApicEntries]
          omega
        rw [collected.ioCount]
        exact ⟨Nat.mod_eq_of_lt (by omega), room⟩

end Kept

/-! ## The pin -/

/-- There is one override of the interrupt, or all of them say the same. -/
def OneOverride (table : Memory) (irq : Byte) (entries : List ℕ) : Prop :=
  ∀ entry ∈ overrideEntries table irq entries, entryGsi table entry = gsiOf table irq entries

section Pin

variable {table info : Memory} {entries : List ℕ} {irq : Byte}

/-- The byte of an interrupt is the low one of its override, or zero. -/
theorem Kept.override_eq (kept : Kept table entries info) (one : OneOverride table irq entries) :
    info (irqOverrideField + irq.toNat) = if irq.toNat = gsiOf table irq entries then 0
      else BitVec.ofNat 8 (gsiOf table irq entries) := by
  rw [kept.overrides]
  cases last : (changingOverrides table irq entries).getLast? with
  | none =>
      have nothing := List.getLast?_eq_none_iff.mp last
      have same : irq.toNat = gsiOf table irq entries := by
        cases first : (overrideEntries table irq entries).head? with
        | none => rw [gsiOf, first, Option.elim_none]
        | some entry =>
            by_contra different
            have member := List.mem_of_head? first
            have changing : entry ∈ changingOverrides table irq entries := by
              refine List.mem_filter.mpr ⟨member, decide_eq_true ?_⟩
              rw [one entry member]
              exact different
            rw [nothing] at changing
            cases changing
      rw [if_pos same, Option.elim_none]
  | some entry =>
      obtain ⟨member, changes⟩ := List.mem_filter.mp (List.mem_of_getLast? last)
      rw [decide_eq_true_eq, one entry member] at changes
      rw [if_neg changes, Option.elim_some, one entry member]

/-- The pin that the driver takes: the number of the interrupt, with the low byte of the
override added to it. -/
theorem Kept.pin_eq (kept : Kept table entries info) (one : OneOverride table irq entries)
    (dest : Byte) : (ioapicRedirectExternalInt info irq dest).pin.toNat =
      if irq.toNat = gsiOf table irq entries ∨ gsiOf table irq entries % 256 = 0 then irq.toNat
      else (irq.toNat + gsiOf table irq entries) % 256 := by
  have small := irq.isLt
  simp only [ioapicRedirectExternalInt, kept.override_eq one]
  generalize gsiOf table irq entries = gsi
  by_cases same : irq.toNat = gsi
  · rw [if_pos same, if_neg (by decide), if_pos (.inl same)]
  · rw [if_neg same, BitVec.toNat_ofNat]
    by_cases low : gsi % 256 = 0
    · rw [if_neg (by omega), if_pos (.inr low)]
    · rw [if_pos (by omega), if_neg (by omega), BitVec.toNat_add, BitVec.toNat_ofNat,
        Nat.add_mod_mod]

/-- The pin is the one of the interrupt in an I/O APIC with the given base. -/
def RightPin (irq gsi base : ℕ) : Prop :=
  if irq = gsi ∨ gsi % 256 = 0 then gsi = irq + base
  else gsi < base + 256 ∧ (irq + base) % 256 = 0

theorem Kept.pin_eq_iff (kept : Kept table entries info) (one : OneOverride table irq entries)
    (dest : Byte) {base : ℕ} (below : base ≤ gsiOf table irq entries) :
    (ioapicRedirectExternalInt info irq dest).pin.toNat = gsiOf table irq entries - base ↔
      RightPin irq.toNat (gsiOf table irq entries) base := by
  rw [kept.pin_eq one, RightPin]
  generalize gsiOf table irq entries = gsi at below
  split
  · omega
  · omega

end Pin

/-! ## When an interrupt is routed as the table says -/

/-- The entries of a table. -/
def tableEntries (table : Memory) : List ℕ := madtEntries table (madtLen table) entriesStart

/-- The driver writes to the I/O APIC that is listed last. -/
theorem Kept.lapicBase_eq {table info : Memory} {entries : List ℕ} {last : ℕ}
    (kept : Kept table entries info)
    (count : ioApicCount info = (ioApicEntries table entries).length)
    (ends : (ioApicEntries table entries).getLast? = some last) :
    lapicBase info = entryIoApicAddr table last := by
  have nonempty : ioApicEntries table entries ≠ [] := by
    intro nothing
    rw [nothing] at ends
    cases ends
  obtain ⟨before, length⟩ := Nat.exists_eq_succ_of_ne_zero (mt List.length_eq_zero_iff.mp nonempty)
  rw [lapicBase, count, length, List.range_succ, List.foldl_append, List.foldl_cons, List.foldl_nil]
  refine kept.addrs before last ?_
  rw [List.getLast?_eq_getElem?, length] at ends
  exact ends

/-- The data of the two writes. -/
theorem redirEntry_data (info : Memory) {irq : Byte} (dest : Byte) (isa : irq.toNat < 24) :
    (redirEntry (ioapicRedirectExternalInt info irq dest)).low % 2 ^ 8 = irq.toNat + 32 ∧
    (redirEntry (ioapicRedirectExternalInt info irq dest)).low.testBit 16 = false ∧
    (redirEntry (ioapicRedirectExternalInt info irq dest)).high / 2 ^ 24 = dest.toNat := by
  have vector : (irq + irqRedirBase).toNat = irq.toNat + 32 := by
    have base : irqRedirBase.toNat = 32 := rfl
    rw [BitVec.toNat_add, base]
    exact Nat.mod_eq_of_lt (by omega)
  have low : (redirEntry (ioapicRedirectExternalInt info irq dest)).low = irq.toNat + 32 := by
    simp only [IoapicRedirEntry.low, redirEntry, ioapicRedirectExternalInt, vector, Nat.mul_zero,
      Nat.add_zero]
  rw [low]
  refine ⟨Nat.mod_eq_of_lt (by omega), Nat.testBit_lt_two_pow (by omega), ?_⟩
  exact Nat.mul_div_cancel_left _ (by decide)

/-- **Interrupts are routed by the last I/O APIC and a sum.** For a table with as many
processors and I/O APICs as `_madt_info` has room for, and with one override of the
interrupt at most, redirecting it writes what the table says if and only if the I/O APIC
that is listed last has the pin of it, and the pin is the one that the driver computes. -/
theorem routed_iff {table : Memory} {irq : Byte} (dest : Byte) (isa : irq.toNat < 24)
    (processors : (madtApics (some table)).length ≤ maxCpusSupported)
    (ioApics : madtIoApics (some table) ≤ 32)
    (one : OneOverride table irq (tableEntries table)) :
    Routed table (tableEntries table) irq dest
        (redirectWrites (madtParse (some table)) irq dest) ↔
      ∃ ioApic last,
        Responsible table (tableEntries table) (gsiOf table irq (tableEntries table)) ioApic ∧
        (ioApicEntries table (tableEntries table)).getLast? = some last ∧
        entryIoApicAddr table ioApic = entryIoApicAddr table last ∧
        RightPin irq.toNat (gsiOf table irq (tableEntries table)) (entryGsiBase table ioApic) := by
  have collected := madtParse_collected (some table) processors
  have counted : madtIoApics (some table) = (ioApicEntries table (tableEntries table)).length :=
    Kept.length_ioApicEntries table (tableEntries table)
  rw [counted] at ioApics
  have kept : Kept table (tableEntries table) (madtParse (some table)) := by
    have all := Kept.all table (tableEntries table) processors ioApics
    rw [tableEntries, ← parseLoop_eq] at all
    exact all
  have count : ioApicCount (madtParse (some table)) =
      (ioApicEntries table (tableEntries table)).length := by
    rw [collected.ioCount, counted]
    exact Nat.mod_eq_of_lt (by omega)
  generalize madtParse (some table) = info at kept count
  constructor
  · rintro ⟨ioApic, low, high, responsible, writes, -⟩
    obtain ⟨last, ends⟩ : ∃ last, (ioApicEntries table (tableEntries table)).getLast? = some last :=
      Option.ne_none_iff_exists'.mp fun none' =>
        List.ne_nil_of_mem responsible.listed (List.getLast?_eq_none_iff.mp none')
    have first := (List.cons.inj writes).1
    rw [RegisterWrite.mk.injEq, kept.lapicBase_eq count ends, ioapicExternalIrqBase] at first
    obtain ⟨address, register, -⟩ := first
    refine ⟨ioApic, last, responsible, ends, address.symm, ?_⟩
    rw [← kept.pin_eq_iff one dest responsible.below]
    omega
  · rintro ⟨ioApic, last, responsible, ends, address, right⟩
    have pin := (kept.pin_eq_iff one dest responsible.below).mpr right
    refine ⟨ioApic, _, _, responsible, ?_, redirEntry_data info dest isa⟩
    simp only [redirectWrites, kept.lapicBase_eq count ends, ioapicExternalIrqBase, pin, address,
      Nat.mul_comm 2]

/-! ## Two tables -/

/-- An I/O APIC at `0xFEC00000` with base zero, and an override. -/
def oneOverrideTable (irq gsi : Byte) : Memory :=
  madtTable [1, 12, 0, 0, 0, 0, 0xC0, 0xFE, 0, 0, 0, 0, 2, 10, 0, irq, gsi, 0, 0, 0, 0, 0]

/-- The usual override of the timer, from 0 to 2. -/
theorem routed_timer : Routed (oneOverrideTable 0 2) (tableEntries (oneOverrideTable 0 2)) 0 3
    (redirectWrites (madtParse (some (oneOverrideTable 0 2))) 0 3) := by
  refine (routed_iff 3 (by decide) (by decide +kernel) (by decide +kernel) ?_).mpr
    ⟨44, 44, ⟨by decide +kernel, by decide +kernel, by decide +kernel⟩, by decide +kernel, rfl, ?_⟩
  · unfold OneOverride
    decide +kernel
  · unfold RightPin
    decide +kernel

/-- With interrupt 9 at global system interrupt 20, the entry of pin 29 is written. -/
theorem override_not_routed :
    redirectWrites (madtParse (some (oneOverrideTable 9 20))) 9 3 =
        [⟨0xFEC00000, 0x10 + 2 * 29, 41⟩, ⟨0xFEC00000, 0x10 + 2 * 29 + 1, 3 * 2 ^ 24⟩] ∧
      ¬Routed (oneOverrideTable 9 20) (tableEntries (oneOverrideTable 9 20)) 9 3
        (redirectWrites (madtParse (some (oneOverrideTable 9 20))) 9 3) := by
  have written : redirectWrites (madtParse (some (oneOverrideTable 9 20))) 9 3 =
      [⟨0xFEC00000, 0x10 + 2 * 29, 41⟩, ⟨0xFEC00000, 0x10 + 2 * 29 + 1, 3 * 2 ^ 24⟩] := by
    decide +kernel
  refine ⟨written, ?_⟩
  rw [written]
  rintro ⟨ioApic, low, high, responsible, writes, -⟩
  have only : ioApicEntries (oneOverrideTable 9 20) (tableEntries (oneOverrideTable 9 20))
      = [44] := by
    decide +kernel
  have gsi : gsiOf (oneOverrideTable 9 20) 9 (tableEntries (oneOverrideTable 9 20)) = 20 := by
    decide +kernel
  have listed := responsible.listed
  rw [only, List.mem_singleton] at listed
  subst listed
  have base : entryGsiBase (oneOverrideTable 9 20) 44 = 0 := by decide +kernel
  have first := (List.cons.inj writes).1
  rw [RegisterWrite.mk.injEq, gsi, base] at first
  exact absurd first.2.1 (by decide)

end CatchOS.Tasks
