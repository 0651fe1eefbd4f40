import CatchOS.Drivers.Acpi
import CatchOS.Utils.String
import Mathlib.Tactic.IntervalCases

/-!
# Power-off

`shutdown` looks for the `_S5_` object in the DSDT, decodes the two sleep types from it, and
writes each to a control port of the FADT. The part that goes through the table is a program
that reads the memory byte by byte, so that both its result and its reads can be stated.

A sleep type belongs into bits 10 to 12 of the control word, but the shifted value is kept in
a `uint8_t`, which has no such bits. So the decoded types never reach the ports: the words are
right exactly if both types are zero (`powersOff_iff`).
-/

set_option autoImplicit false

namespace CatchOS.Power

open CatchOS.Lib CatchOS.Drivers CatchOS.Utils

/-! ## Finding the object -/

/-- `header->Length`. -/
def lengthProgram (header : ℕ) : Probe ℕ Byte ℕ := do
  let byte0 ← Probe.ask (offset (offset header 4) 0)
  let byte1 ← Probe.ask (offset (offset header 4) 1)
  let byte2 ← Probe.ask (offset (offset header 4) 2)
  let byte3 ← Probe.ask (offset (offset header 4) 3)
  pure (byte0.toNat + 2 ^ 8 * byte1.toNat + 2 ^ 16 * byte2.toNat + 2 ^ 24 * byte3.toNat)

/-- The loop of `sdt_checksum_ok`. The test reads the length again in every turn. -/
def sumProgram (header : ℕ) : ℕ → ℕ → Byte → Probe ℕ Byte Byte
  | 0, _, sum => pure sum
  | left + 1, i, sum => do
      let byte ← Probe.ask (offset header i)
      let _ ← lengthProgram header
      sumProgram header left (i + 1) (sum + byte)

/-- `sdt_checksum_ok`. -/
def checksumProgram (header : ℕ) : Probe ℕ Byte Bool := do
  let len ← lengthProgram header
  let sum ← sumProgram header len 0 0
  pure (sum = 0)

/-- `"DSDT"`. -/
def dsdtText : List Byte := [0x44, 0x53, 0x44, 0x54]

/-- `"_S5_"`. -/
def s5Text : List Byte := [0x5F, 0x53, 0x35, 0x5F]

/-- `acpi_dsdt_get_s5obj`, for the DSDT at `h`; `NULL` is zero. The window of the search has
the length of the whole table, although it starts behind the header. -/
def acpiDsdtGetS5obj (h : ℕ) : Probe ℕ Byte ℕ := do
  let ok ← checksumProgram h
  if ok then do
    let order ← strncmp h dsdtText 4
    if order = 0 then do
      let _ ← lengthProgram h
      let len ← lengthProgram h
      strnstr (offset h sdtHeaderSize) s5Text len
    else pure 0
  else pure 0

/-! ## Decoding the object -/

/-- `*(s5obj - 1) == 0x08 || (*(s5obj - 2) == 0x08 && *(s5obj - 1) == '\\')`. -/
def nameOpProgram (s5obj : ℕ) : Probe ℕ Byte Bool := do
  let before ← Probe.ask (offset s5obj (2 ^ 32 - 1))
  if before = 0x08 then pure true
  else do
    let second ← Probe.ask (offset s5obj (2 ^ 32 - 2))
    if second = 0x08 then do
      let before ← Probe.ask (offset s5obj (2 ^ 32 - 1))
      pure (before = 0x5C)
    else pure false

/-- `((lead & 0xC0) >> 6)`: how many bytes of the PkgLength follow its first one. -/
def pkgLengthMore (lead : Byte) : ℕ := ((lead &&& 0xC0) >>> 6).toNat

/-- An element of the package: where its value is, behind the byte prefix if there is one,
and the value. -/
def elementProgram (s5obj : ℕ) : Probe ℕ Byte (ℕ × Byte) := do
  let first ← Probe.ask s5obj
  if first = 0x0A then do
    let value ← Probe.ask (offset s5obj 1)
    pure (offset s5obj 1, value)
  else do
    let value ← Probe.ask s5obj
    pure (s5obj, value)

/-- A `uint8_t` that holds a byte shifted by ten. -/
def slpTyp (value : Byte) : ℕ := (value.toNat <<< 10) % 2 ^ 8

/-- What `shutdown` does with `s5obj`: `SLP_TYPa` and `SLP_TYPb`, or nothing on a parse
error. -/
def decodeS5obj (s5obj : ℕ) : Probe ℕ Byte (Option (ℕ × ℕ)) := do
  let named ← nameOpProgram s5obj
  if named then do
    let packageOp ← Probe.ask (offset s5obj 4)
    if packageOp = 0x12 then do
      let lead ← Probe.ask (offset s5obj 5)
      let first ← elementProgram (offset (offset s5obj 5) (pkgLengthMore lead + 2))
      let second ← elementProgram (offset first.1 1)
      pure (some (slpTyp first.2, slpTyp second.2))
    else pure none
  else pure none

/-- Both parts, one after another. -/
def s5Program (h : ℕ) : Probe ℕ Byte (Option (ℕ × ℕ)) := do
  let s5obj ← acpiDsdtGetS5obj h
  decodeS5obj s5obj

/-! ## Powering off -/

/-- `outw`: both arguments are `unsigned short`. -/
structure PortWrite where
  port : ℕ
  data : ℕ
  deriving DecidableEq

def outw (port data : ℕ) : PortWrite := ⟨port % 2 ^ 16, data % 2 ^ 16⟩

/-- `acpi_get_dsdt`: `fadt->Dsdt`. -/
def acpiGetDsdt (memory : Memory) (fadt : ℕ) : ℕ := loadWord memory (offset fadt 40)

/-- `fadt->PM1aControlBlock` and `fadt->PM1bControlBlock`. -/
def pm1aControlBlock (memory : Memory) (fadt : ℕ) : ℕ := loadWord memory (offset fadt 64)

def pm1bControlBlock (memory : Memory) (fadt : ℕ) : ℕ := loadWord memory (offset fadt 68)

/-- `SLP_EN`. -/
def slpEn : ℕ := 1 <<< 13

/-- `shutdown`: what it writes to the ports. -/
def shutdown (memory : Memory) (fadt : ℕ) : List PortWrite :=
  ((s5Program (acpiGetDsdt memory fadt)).run memory).elim [] fun types =>
    outw (pm1aControlBlock memory fadt) (types.1 ||| slpEn) ::
      if types.2 ≠ 0 then [outw (pm1bControlBlock memory fadt) (types.2 ||| slpEn)] else []

/-! ## The result of the search -/

section Search

variable (memory : Memory) (h : ℕ)

theorem run_lengthProgram : (lengthProgram h).run memory = sdtLength memory h := by
  simp only [lengthProgram, Probe.run_bind, Probe.run_ask, Probe.run_pure, sdtLength, loadWord]

theorem run_sumProgram (left i : ℕ) (sum : Byte) :
    (sumProgram h left i sum).run memory =
      (List.range left).foldl (fun sum j => sum + memory (offset h (i + j))) sum := by
  induction left generalizing i sum with
  | zero => rfl
  | succ left ih =>
      rw [sumProgram, Probe.run_bind, Probe.run_ask, Probe.run_bind, ih, List.range_succ_eq_map,
        List.foldl_cons, List.foldl_map]
      have next (j : ℕ) : i + 1 + j = i + j.succ := by omega
      simp only [next, Nat.add_zero]

theorem run_checksumProgram : (checksumProgram h).run memory = sdtChecksumOk memory h := by
  rw [checksumProgram, Probe.run_bind, run_lengthProgram, Probe.run_bind, run_sumProgram,
    Probe.run_pure, sdtChecksumOk]
  simp only [Nat.zero_add]
  rfl

theorem dsdtText_nonzero : ∀ c ∈ dsdtText, c ≠ 0 := by decide

theorem s5Text_nonzero : ∀ c ∈ s5Text, c ≠ 0 := by decide

variable {memory h}

/-- Without a valid table there is no object. -/
theorem run_acpiDsdtGetS5obj_of_invalid
    (invalid : ¬(sdtChecksumOk memory h = true ∧ sdtSignature memory h = dsdtText)) :
    (acpiDsdtGetS5obj h).run memory = 0 := by
  rw [acpiDsdtGetS5obj, Probe.run_bind, run_checksumProgram]
  split
  case isFalse => rfl
  case isTrue ok =>
    rw [Probe.run_bind, if_neg]
    · rfl
    · exact fun equal => invalid ⟨ok, (run_strncmp_eq_zero dsdtText_nonzero).mp equal⟩

/-- In a valid table the result is that of the search. -/
theorem run_acpiDsdtGetS5obj (ok : sdtChecksumOk memory h = true)
    (signature : sdtSignature memory h = dsdtText) :
    (acpiDsdtGetS5obj h).run memory =
      (strnstrLoop s5Text (sdtLength memory h) (offset h sdtHeaderSize)).run memory := by
  have equal : (strncmp h dsdtText 4).run memory = 0 :=
    (run_strncmp_eq_zero dsdtText_nonzero).mpr signature
  rw [acpiDsdtGetS5obj, Probe.run_bind, run_checksumProgram, if_pos ok, Probe.run_bind,
    if_pos equal, Probe.run_bind, Probe.run_bind, run_lengthProgram, strnstr, if_neg (by decide)]

/-- The object that is found: the first one behind the header. -/
def FirstS5 (memory : Memory) (h p : ℕ) : Prop :=
  IsLeast {q | sdtHeaderSize ≤ q ∧ TextAt memory s5Text (offset h q)} p

/-- What the search does in a table that has the object in it. -/
theorem strnstrLoop_firstS5 {p : ℕ} (first : FirstS5 memory h p)
    (inside : p + 4 ≤ sdtLength memory h) :
    (strnstrLoop s5Text (sdtLength memory h) (offset h sdtHeaderSize)).run memory = offset h p ∧
    ∀ place ∈ (strnstrLoop s5Text (sdtLength memory h) (offset h sdtHeaderSize)).reads memory,
      ∃ k < p + 4, place = offset h k := by
  obtain ⟨⟨behind, isThere⟩, least⟩ := first
  obtain ⟨i, rfl⟩ := Nat.exists_eq_add_of_le behind
  have place (j : ℕ) : offset (offset h sdtHeaderSize) j = offset h (sdtHeaderSize + j) :=
    offset_offset _ _ _
  have length : s5Text.length = 4 := rfl
  obtain ⟨result, reads⟩ := @strnstrLoop_found memory s5Text (sdtLength memory h)
    (offset h sdtHeaderSize) s5Text_nonzero (by decide) (offset_lt _ _) i (by omega)
    (by rwa [place]) fun j before isEarlier => by
      rw [place] at isEarlier
      have later : sdtHeaderSize + i ≤ sdtHeaderSize + j :=
        least ⟨Nat.le_add_right _ _, isEarlier⟩
      omega
  refine ⟨by rw [result, place], fun address read => ?_⟩
  obtain ⟨k, bound, isAddress⟩ := reads address read
  exact ⟨sdtHeaderSize + k, by omega, by rw [isAddress, place]⟩

end Search

/-! ## The result of decoding -/

section Decode

variable {memory : Memory} {h p : ℕ}

/-- The object has a NameOp in front of it, with or without a backslash between them. -/
def Named (memory : Memory) (h p : ℕ) : Prop :=
  memory (offset h (p - 1)) = 0x08 ∨
    (memory (offset h (p - 2)) = 0x08 ∧ memory (offset h (p - 1)) = 0x5C)

instance (memory : Memory) (h p : ℕ) : Decidable (Named memory h p) :=
  inferInstanceAs (Decidable (_ ∨ _))

/-- Moving a pointer into the table back. -/
theorem offset_back {back : ℕ} (behind : back ≤ p) (small : back ≤ 2 ^ 32) :
    offset (offset h p) (2 ^ 32 - back) = offset h (p - back) := by
  rw [offset_offset]
  unfold offset
  omega

theorem run_nameOpProgram (behind : 2 ≤ p) :
    (nameOpProgram (offset h p)).run memory = true ↔ Named memory h p := by
  rw [nameOpProgram, offset_back (by omega) (by decide), offset_back behind (by decide),
    Probe.run_bind, Probe.run_ask, Named]
  split
  case isTrue nameOp => exact iff_of_true rfl (.inl nameOp)
  case isFalse other =>
    rw [Probe.run_bind, Probe.run_ask]
    split
    case isTrue second =>
      rw [Probe.run_bind, Probe.run_ask, Probe.run_pure, decide_eq_true_eq]
      exact ⟨fun backslash => .inr ⟨second, backslash⟩,
        fun named => (named.resolve_left other).2⟩
    case isFalse notSecond =>
      exact iff_of_false Bool.false_ne_true fun named => notSecond (named.resolve_left other).1

/-- Where the value of the element at a place is. -/
def valuePlace (memory : Memory) (h q : ℕ) : ℕ :=
  if memory (offset h q) = 0x0A then q + 1 else q

theorem elementProgram_spec (q : ℕ) :
    (elementProgram (offset h q)).run memory =
      (offset h (valuePlace memory h q), memory (offset h (valuePlace memory h q))) ∧
    (elementProgram (offset h q)).reads memory =
      [offset h q, offset h (valuePlace memory h q)] := by
  have next : offset (offset h q) 1 = offset h (q + 1) := offset_offset _ _ _
  rw [elementProgram, Probe.run_bind, Probe.reads_bind, Probe.run_ask, Probe.reads_ask, next]
  unfold valuePlace
  split
  · exact ⟨rfl, rfl⟩
  · exact ⟨rfl, rfl⟩

/-- Where the values of the two elements are, in a package that starts behind the name. -/
def firstValue (memory : Memory) (h p : ℕ) : ℕ :=
  valuePlace memory h (p + 7 + pkgLengthMore (memory (offset h (p + 5))))

def secondValue (memory : Memory) (h p : ℕ) : ℕ :=
  valuePlace memory h (firstValue memory h p + 1)

/-- The object behind its name. -/
theorem decodeS5obj_spec (behind : 2 ≤ p) :
    (decodeS5obj (offset h p)).run memory =
      (if Named memory h p ∧ memory (offset h (p + 4)) = 0x12 then
        some (slpTyp (memory (offset h (firstValue memory h p))),
          slpTyp (memory (offset h (secondValue memory h p))))
      else none) ∧
    (decodeS5obj (offset h p)).reads memory =
      (nameOpProgram (offset h p)).reads memory ++
        if Named memory h p then
          offset h (p + 4) ::
            if memory (offset h (p + 4)) = 0x12 then
              [offset h (p + 5), offset h (p + 7 + pkgLengthMore (memory (offset h (p + 5)))),
                offset h (firstValue memory h p), offset h (firstValue memory h p + 1),
                offset h (secondValue memory h p)]
            else []
        else [] := by
  have place (i : ℕ) : offset (offset h p) i = offset h (p + i) := offset_offset _ _ _
  rw [decodeS5obj, Probe.run_bind, Probe.reads_bind]
  by_cases named : Named memory h p
  · rw [if_pos ((run_nameOpProgram behind).mpr named), if_pos named, Probe.run_bind,
      Probe.reads_bind, Probe.run_ask, Probe.reads_ask, place]
    by_cases packageOp : memory (offset h (p + 4)) = 0x12
    · have start (more : ℕ) : offset (offset (offset h p) 5) (more + 2) =
          offset h (p + 7 + more) := by
        rw [offset_offset, offset_offset]
        congr 1
        omega
      have next : offset (offset h (firstValue memory h p)) 1 =
          offset h (firstValue memory h p + 1) := offset_offset _ _ _
      obtain ⟨first, firstReads⟩ := @elementProgram_spec memory h
        (p + 7 + pkgLengthMore (memory (offset h (p + 5))))
      obtain ⟨second, secondReads⟩ := @elementProgram_spec memory h (firstValue memory h p + 1)
      rw [← firstValue] at first firstReads
      rw [← secondValue] at second secondReads
      rw [if_pos packageOp, if_pos packageOp, if_pos ⟨named, packageOp⟩, Probe.run_bind,
        Probe.reads_bind, Probe.run_ask, Probe.reads_ask, start, place, Probe.run_bind,
        Probe.reads_bind, first, firstReads, Probe.run_bind, Probe.reads_bind, next, second,
        secondReads]
      exact ⟨rfl, rfl⟩
    · rw [if_neg packageOp, if_neg packageOp, if_neg fun both => packageOp both.2]
      exact ⟨rfl, rfl⟩
  · rw [if_neg fun run => named ((run_nameOpProgram behind).mp run), if_neg named,
      if_neg fun both => named both.1]
    exact ⟨rfl, rfl⟩

end Decode

/-! ## A table with the object in it -/

/-- A number as one byte, with or without the byte prefix `0x0A`: from a place of the table on,
with its value at another. -/
inductive ElementAt (memory : Memory) (h : ℕ) (value : Byte) : ℕ → ℕ → Prop where
  | plain {q : ℕ} : memory (offset h q) = value → ElementAt memory h value q q
  | marked {q : ℕ} : memory (offset h q) = 0x0A → memory (offset h (q + 1)) = value →
      ElementAt memory h value q (q + 1)

/-- **A valid DSDT with one `_S5_` object**: a NameOp, the name, a PackageOp, a PkgLength with
as many further bytes as the two high bits of its first one say, the number of elements, and
two elements below eight. All of it is behind the header and in the table. -/
structure S5Object (memory : Memory) (h : ℕ) (typA typB : Byte) (p first second : ℕ) : Prop where
  checksum : sdtChecksumOk memory h = true
  signature : sdtSignature memory h = dsdtText
  behindHeader : sdtHeaderSize < p
  name : TextAt memory s5Text (offset h p)
  only : ∀ q, q + 4 ≤ sdtLength memory h → TextAt memory s5Text (offset h q) → q = p
  nameOp : Named memory h p
  packageOp : memory (offset h (p + 4)) = 0x12
  elementA : ElementAt memory h typA
    (p + 5 + (1 + (memory (offset h (p + 5))).toNat / 2 ^ 6) + 1) first
  elementB : ElementAt memory h typB (first + 1) second
  inside : second < sdtLength memory h
  smallA : typA.toNat < 8
  smallB : typB.toNat < 8

/-- The words that belong into the control registers. -/
def PowersOff (memory : Memory) (fadt : ℕ) (typA typB : Byte) (writes : List PortWrite) : Prop :=
  outw (pm1aControlBlock memory fadt) ((typA.toNat <<< 10) ||| (1 <<< 13)) ∈ writes ∧
    (typB ≠ 0 →
      outw (pm1bControlBlock memory fadt) ((typB.toNat <<< 10) ||| (1 <<< 13)) ∈ writes)

section Object

variable {memory : Memory} {h p q first second : ℕ} {value typA typB : Byte}

theorem pkgLengthMore_eq : ∀ lead, pkgLengthMore lead = lead.toNat / 2 ^ 6 := by
  decide +kernel

theorem ElementAt.valuePlace_eq (element : ElementAt memory h value q first)
    (small : value.toNat < 8) :
    valuePlace memory h q = first ∧ memory (offset h first) = value ∧ q ≤ first := by
  unfold valuePlace
  cases element with
  | plain isValue =>
      have notMark : memory (offset h q) ≠ 0x0A := by
        intro isMark
        rw [← isValue, isMark] at small
        exact absurd small (by decide)
      exact ⟨if_neg notMark, isValue, Nat.le_refl q⟩
  | marked isMark isValue => exact ⟨if_pos isMark, isValue, Nat.le_succ q⟩

/-- The types are decoded, and lost: no bit of them is left after the shift. -/
theorem slpTyp_eq_zero (value : Byte) : slpTyp value = 0 := by
  unfold slpTyp
  rw [Nat.shiftLeft_eq]
  omega

theorem S5Object.firstS5 (object : S5Object memory h typA typB p first second) :
    FirstS5 memory h p ∧ p + 4 ≤ sdtLength memory h := by
  have afterA := (object.elementA.valuePlace_eq object.smallA).2.2
  have afterB := (object.elementB.valuePlace_eq object.smallB).2.2
  have inside := object.inside
  refine ⟨⟨⟨Nat.le_of_lt object.behindHeader, object.name⟩, fun q other => ?_⟩, by omega⟩
  by_contra before
  have same := object.only q (by omega) other.2
  omega

/-- The object is found and decoded. -/
theorem S5Object.run_s5Program (object : S5Object memory h typA typB p first second) :
    (s5Program h).run memory = some (0, 0) := by
  obtain ⟨isFirst, inside⟩ := object.firstS5
  have behind : 2 ≤ p := Nat.le_trans (by decide) (Nat.le_of_lt object.behindHeader)
  rw [s5Program, Probe.run_bind, run_acpiDsdtGetS5obj object.checksum object.signature,
    (strnstrLoop_firstS5 isFirst inside).1, (decodeS5obj_spec behind).1,
    if_pos ⟨object.nameOp, object.packageOp⟩, slpTyp_eq_zero, slpTyp_eq_zero]

/-- A word with a sleep type in it is not the one without. -/
theorem controlWord_eq_iff (small : value.toNat < 8) :
    ((value.toNat <<< 10) ||| (1 <<< 13)) % 2 ^ 16 = 1 <<< 13 ↔ value = 0 := by
  rw [← BitVec.toNat_inj]
  generalize value.toNat = number at small
  interval_cases number
  all_goals decide

/-- **`shutdown` writes the right words exactly if both types are zero**: the word with no
type in it goes to the first port, and nothing to the second one. -/
theorem powersOff_iff {fadt : ℕ}
    (object : S5Object memory (acpiGetDsdt memory fadt) typA typB p first second) :
    PowersOff memory fadt typA typB (shutdown memory fadt) ↔ typA = 0 ∧ typB = 0 := by
  have writes : shutdown memory fadt = [outw (pm1aControlBlock memory fadt) slpEn] := by
    rw [shutdown, object.run_s5Program]
    rfl
  have word (port other : ℕ) {value : Byte} (small : value.toNat < 8)
      (written : outw port ((value.toNat <<< 10) ||| (1 <<< 13)) = outw other slpEn) :
      value = 0 :=
    (controlWord_eq_iff small).mp (congrArg PortWrite.data written)
  rw [PowersOff, writes, List.mem_singleton, List.mem_singleton]
  constructor
  · rintro ⟨writtenA, writtenB⟩
    refine ⟨word _ _ object.smallA writtenA, ?_⟩
    by_contra nonzero
    exact nonzero (word _ _ object.smallB (writtenB nonzero))
  · rintro ⟨rfl, rfl⟩
    exact ⟨rfl, fun nonzero => absurd rfl nonzero⟩

end Object

/-! ## Two tables -/

/-- A DSDT of 48 bytes: a header with the given checksum, and an object with the same sleep
type twice. -/
def s5Table (checksum typ : Byte) : List Byte :=
  dsdtText ++ [48, 0, 0, 0, 0, checksum] ++ List.replicate 26 0 ++
    [0x08, 0x5F, 0x53, 0x35, 0x5F, 0x12, 0x06, 0x02, 0x0A, typ, 0x0A, typ]

/-- A FADT at 256 with the ports `0x404` and `0x408`, and the DSDT at 512. -/
def s5Memory (checksum typ : Byte) : Memory := fun address =>
  if address < 512 then
    (List.replicate 40 0 ++ [0, 2, 0, 0] ++ List.replicate 20 0 ++
      [4, 4, 0, 0, 8, 4, 0, 0]).getD (address - 256) 0
  else (s5Table checksum typ).getD (address - 512) 0

theorem s5Memory_object {checksum typ : Byte} (small : typ.toNat < 8)
    (ok : sdtChecksumOk (s5Memory checksum typ) 512 = true)
    (only : ∀ q < 45, TextAt (s5Memory checksum typ) s5Text (offset 512 q) → q = 37) :
    S5Object (s5Memory checksum typ) (acpiGetDsdt (s5Memory checksum typ) 256) typ typ 37 45
      47 := by
  have dsdt : acpiGetDsdt (s5Memory checksum typ) 256 = 512 := rfl
  have length : sdtLength (s5Memory checksum typ) 512 = 48 := rfl
  have lead : s5Memory checksum typ (offset 512 (37 + 5)) = 6 := rfl
  rw [dsdt]
  refine ⟨ok, rfl, by decide, rfl, ?_, .inl rfl, rfl, ?_, .marked rfl rfl, ?_, small, small⟩
  · intro q inside isThere
    exact only q (by omega) isThere
  · have place : 37 + 5 + (1 + (6 : Byte).toNat / 2 ^ 6) + 1 = 44 := by decide
    rw [lead, place]
    exact .marked rfl rfl
  · rw [length]
    decide

theorem powersOff_zero : PowersOff (s5Memory 37 0) 256 0 0 (shutdown (s5Memory 37 0) 256) :=
  (powersOff_iff (s5Memory_object (by decide) (by decide +kernel) (by decide +kernel))).mpr
    ⟨rfl, rfl⟩

/-- With the sleep type 5 the word `0x2000` is written to the first port, not `0x3400`. -/
theorem type_five_not_powersOff :
    S5Object (s5Memory 27 5) (acpiGetDsdt (s5Memory 27 5) 256) 5 5 37 45 47 ∧
    shutdown (s5Memory 27 5) 256 = [⟨0x404, 0x2000⟩] ∧
    ¬PowersOff (s5Memory 27 5) 256 5 5 (shutdown (s5Memory 27 5) 256) := by
  have object : S5Object (s5Memory 27 5) (acpiGetDsdt (s5Memory 27 5) 256) 5 5 37 45 47 :=
    s5Memory_object (by decide) (by decide +kernel) (by decide +kernel)
  refine ⟨object, by decide +kernel, fun powersOff => ?_⟩
  exact absurd ((powersOff_iff object).mp powersOff).1 (by decide)

end CatchOS.Power
