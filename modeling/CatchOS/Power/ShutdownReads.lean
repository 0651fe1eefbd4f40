import CatchOS.Power.Shutdown

/-!
# What power-off reads

The bytes that `acpi_dsdt_get_s5obj` and `shutdown` read through the pointer to the DSDT and
through `s5obj`. The checksum and the signature are read inside the table, whatever it holds.
The search goes on behind the table unless it finds the object in it, and `s5obj` is used
without a look at whether there is one.

All reads are in the table, and `NULL` is not used, exactly if the checksum and the signature
are right, the first object behind the header is in the table, and so is what is decoded of
it (`readsOnlyDsdt_iff`).
-/

set_option autoImplicit false

namespace CatchOS.Power

open CatchOS.Lib CatchOS.Drivers CatchOS.Utils

/-- The table has a header and does not wrap around the address space, and it leaves a few
bytes of the address space to others. -/
structure DsdtAt (memory : Memory) (h : ℕ) : Prop where
  header : sdtHeaderSize ≤ sdtLength memory h
  fits : h + sdtLength memory h ≤ 2 ^ 32
  others : sdtLength memory h + 16 ≤ 2 ^ 32

/-- An address of the table. -/
def InTable (memory : Memory) (h place : ℕ) : Prop :=
  h ≤ place ∧ place < h + sdtLength memory h

/-- **Only the table is read**, and `s5obj` is not used if no object was found. -/
def ReadsOnlyDsdt (memory : Memory) (h : ℕ) : Prop :=
  (∀ place ∈ (s5Program h).reads memory, InTable memory h place) ∧
  ((acpiDsdtGetS5obj h).run memory = 0 → (decodeS5obj 0).reads memory = [])

/-- **The object can be read**: it is the first one behind the header and in the table, and so
are the PackageOp if there is a NameOp, and the two elements if there is a PackageOp. -/
structure S5Readable (memory : Memory) (h p : ℕ) : Prop where
  first : FirstS5 memory h p
  name : p + 4 ≤ sdtLength memory h
  packageOp : Named memory h p → p + 4 < sdtLength memory h
  elements : Named memory h p → memory (offset h (p + 4)) = 0x12 →
    secondValue memory h p < sdtLength memory h

section Reads

variable {memory : Memory} {h p : ℕ}

/-- A place of the table by its distance from the start. -/
theorem DsdtAt.inTable_iff (dsdt : DsdtAt memory h) {k : ℕ}
    (near : k < sdtLength memory h + 16) :
    InTable memory h (offset h k) ↔ k < sdtLength memory h := by
  have fits := dsdt.fits
  have others := dsdt.others
  have positive : 0 < sdtLength memory h := Nat.lt_of_lt_of_le (by decide) dsdt.header
  unfold InTable offset
  omega

/-! ## The header and the bytes of the table -/

theorem DsdtAt.reads_lengthProgram (dsdt : DsdtAt memory h) :
    ∀ place ∈ (lengthProgram h).reads memory, InTable memory h place := by
  have header := dsdt.header
  unfold sdtHeaderSize at header
  have field {i : ℕ} (small : i < 4) : InTable memory h (offset (offset h 4) i) := by
    rw [offset_offset, dsdt.inTable_iff (by omega)]
    omega
  simp only [lengthProgram, Probe.reads_bind, Probe.reads_ask, Probe.reads_pure,
    List.forall_mem_append, List.forall_mem_singleton]
  exact ⟨field (by decide), field (by decide), field (by decide), field (by decide),
    List.forall_mem_nil _⟩

theorem DsdtAt.reads_sumProgram (dsdt : DsdtAt memory h) {left i : ℕ} (sum : Byte)
    (inside : i + left ≤ sdtLength memory h) :
    ∀ place ∈ (sumProgram h left i sum).reads memory, InTable memory h place := by
  induction left generalizing i sum with
  | zero => exact List.forall_mem_nil _
  | succ left ih =>
      rw [sumProgram, Probe.reads_bind, Probe.reads_ask, List.forall_mem_append,
        List.forall_mem_singleton, Probe.reads_bind, List.forall_mem_append]
      exact ⟨(dsdt.inTable_iff (by omega)).mpr (by omega), dsdt.reads_lengthProgram,
        ih _ (by omega)⟩

theorem DsdtAt.reads_checksumProgram (dsdt : DsdtAt memory h) :
    ∀ place ∈ (checksumProgram h).reads memory, InTable memory h place := by
  rw [checksumProgram, Probe.reads_bind, List.forall_mem_append, run_lengthProgram,
    Probe.reads_bind, List.forall_mem_append]
  exact ⟨dsdt.reads_lengthProgram, dsdt.reads_sumProgram 0 (Nat.le_of_eq (Nat.zero_add _)),
    List.forall_mem_nil _⟩

theorem DsdtAt.reads_signature (dsdt : DsdtAt memory h) :
    ∀ place ∈ (strncmp h dsdtText 4).reads memory, InTable memory h place := by
  intro place read
  obtain ⟨i, bound, rfl⟩ := reads_strncmp read
  have header := dsdt.header
  unfold sdtHeaderSize at header
  exact (dsdt.inTable_iff (by omega)).mpr (by omega)

/-- In a valid table it is the search that decides. -/
theorem DsdtAt.reads_acpiDsdtGetS5obj (dsdt : DsdtAt memory h)
    (ok : sdtChecksumOk memory h = true) (signature : sdtSignature memory h = dsdtText) :
    (∀ place ∈ (acpiDsdtGetS5obj h).reads memory, InTable memory h place) ↔
      ∀ place ∈ (strnstrLoop s5Text (sdtLength memory h) (offset h sdtHeaderSize)).reads memory,
        InTable memory h place := by
  have equal : (strncmp h dsdtText 4).run memory = 0 :=
    (run_strncmp_eq_zero dsdtText_nonzero).mpr signature
  rw [acpiDsdtGetS5obj, Probe.reads_bind, List.forall_mem_append, run_checksumProgram, if_pos ok,
    Probe.reads_bind, List.forall_mem_append, if_pos equal, Probe.reads_bind,
    List.forall_mem_append, Probe.reads_bind, List.forall_mem_append, run_lengthProgram, strnstr,
    if_neg (by decide)]
  constructor
  · rintro ⟨-, -, -, -, search⟩
    exact search
  · intro search
    exact ⟨dsdt.reads_checksumProgram, dsdt.reads_signature, dsdt.reads_lengthProgram,
      dsdt.reads_lengthProgram, search⟩

/-! ## The search -/

/-- If the search stays in the table, it finds the object there: else it comes to the byte
behind the table. -/
theorem DsdtAt.exists_firstS5 (dsdt : DsdtAt memory h)
    (inTable : ∀ place ∈ (strnstrLoop s5Text (sdtLength memory h)
      (offset h sdtHeaderSize)).reads memory, InTable memory h place) :
    ∃ p, FirstS5 memory h p ∧ p + 4 ≤ sdtLength memory h := by
  have header := dsdt.header
  have length : s5Text.length = 4 := rfl
  have place (j : ℕ) : offset (offset h sdtHeaderSize) j = offset h (sdtHeaderSize + j) :=
    offset_offset _ _ _
  by_contra nowhere
  have behind : offset (offset h sdtHeaderSize) (sdtLength memory h - sdtHeaderSize) ∈
      (strnstrLoop s5Text (sdtLength memory h) (offset h sdtHeaderSize)).reads memory := by
    refine mem_reads_strnstrLoop s5Text_nonzero (by decide) (offset_lt _ _) ?_ ?_
    · unfold sdtHeaderSize at header ⊢
      omega
    · intro j before isThere
      rw [place] at isThere
      -- some object is in the table, so the first one is
      have some' : ∃ q, sdtHeaderSize ≤ q ∧ TextAt memory s5Text (offset h q) :=
        ⟨sdtHeaderSize + j, Nat.le_add_right _ _, isThere⟩
      refine nowhere ⟨Nat.find some', ⟨Nat.find_spec some', fun q other => ?_⟩, ?_⟩
      · exact Nat.find_min' some' other
      · have least := Nat.find_min' some' ⟨Nat.le_add_right _ _, isThere⟩
        omega
  have bad := inTable _ behind
  rw [place, Nat.add_sub_cancel' header, dsdt.inTable_iff (by omega)] at bad
  omega

/-! ## Decoding -/

theorem valuePlace_bounds (q : ℕ) : q ≤ valuePlace memory h q ∧ valuePlace memory h q ≤ q + 1 := by
  unfold valuePlace
  split <;> omega

theorem values_bounds : p + 7 + pkgLengthMore (memory (offset h (p + 5))) ≤ firstValue memory h p ∧
    firstValue memory h p < secondValue memory h p ∧ secondValue memory h p ≤ p + 13 := by
  have more : pkgLengthMore (memory (offset h (p + 5))) ≤ 3 := by
    have byte := (memory (offset h (p + 5))).isLt
    rw [pkgLengthMore_eq]
    omega
  have first := @valuePlace_bounds memory h (p + 7 + pkgLengthMore (memory (offset h (p + 5))))
  have second := @valuePlace_bounds memory h (firstValue memory h p + 1)
  rw [← firstValue] at first
  rw [← secondValue] at second
  omega

/-- The places before the name are in the table. -/
theorem DsdtAt.reads_nameOpProgram (dsdt : DsdtAt memory h) (behind : 2 ≤ p)
    (inside : p ≤ sdtLength memory h) :
    ∀ place ∈ (nameOpProgram (offset h p)).reads memory, InTable memory h place := by
  have one := (dsdt.inTable_iff (show p - 1 < sdtLength memory h + 16 by omega)).mpr (by omega)
  have two := (dsdt.inTable_iff (show p - 2 < sdtLength memory h + 16 by omega)).mpr (by omega)
  rw [nameOpProgram, offset_back (by omega) (by decide), offset_back behind (by decide),
    Probe.reads_bind, Probe.reads_ask, List.forall_mem_append, List.forall_mem_singleton]
  refine ⟨one, ?_⟩
  split
  · exact List.forall_mem_nil _
  · rw [Probe.reads_bind, Probe.reads_ask, List.forall_mem_append, List.forall_mem_singleton]
    refine ⟨two, ?_⟩
    split
    · rw [Probe.reads_bind, Probe.reads_ask, List.forall_mem_append, List.forall_mem_singleton]
      exact ⟨one, List.forall_mem_nil _⟩
    · exact List.forall_mem_nil _

/-- What is decoded is in the table if its last byte is. -/
theorem DsdtAt.reads_decodeS5obj (dsdt : DsdtAt memory h) (behind : 2 ≤ p)
    (inside : p + 4 ≤ sdtLength memory h) :
    (∀ place ∈ (decodeS5obj (offset h p)).reads memory, InTable memory h place) ↔
      ((Named memory h p → p + 4 < sdtLength memory h) ∧
      (Named memory h p → memory (offset h (p + 4)) = 0x12 →
        secondValue memory h p < sdtLength memory h)) := by
  obtain ⟨afterLead, afterFirst, near⟩ := @values_bounds memory h p
  rw [(decodeS5obj_spec behind).2, List.forall_mem_append]
  have names := dsdt.reads_nameOpProgram behind (Nat.le_trans (Nat.le_add_right p 4) inside)
  by_cases named : Named memory h p
  · rw [if_pos named, List.forall_mem_cons, dsdt.inTable_iff (by omega)]
    by_cases packageOp : memory (offset h (p + 4)) = 0x12
    · rw [if_pos packageOp]
      simp only [List.forall_mem_cons, List.not_mem_nil, false_implies, implies_true, and_true]
      rw [dsdt.inTable_iff (by omega), dsdt.inTable_iff (by omega), dsdt.inTable_iff (by omega),
        dsdt.inTable_iff (by omega), dsdt.inTable_iff (by omega)]
      constructor
      · rintro ⟨-, op, -, -, -, -, last⟩
        exact ⟨fun _ => op, fun _ _ => last⟩
      · rintro ⟨op, last⟩
        have lastInside := last named packageOp
        exact ⟨names, op named, by omega, by omega, by omega, by omega, lastInside⟩
    · rw [if_neg packageOp]
      constructor
      · rintro ⟨-, op, -⟩
        exact ⟨fun _ => op, fun _ isPackage => absurd isPackage packageOp⟩
      · rintro ⟨op, -⟩
        exact ⟨names, op named, List.forall_mem_nil _⟩
  · rw [if_neg named]
    constructor
    · intro _
      exact ⟨fun isNamed => absurd isNamed named, fun isNamed => absurd isNamed named⟩
    · intro _
      exact ⟨names, List.forall_mem_nil _⟩

/-- Decoding always uses its pointer. -/
theorem decodeS5obj_reads_ne_nil (s5obj : ℕ) : (decodeS5obj s5obj).reads memory ≠ [] :=
  List.cons_ne_nil _ _

end Reads

/-! ## Both parts -/

/-- **Only the table is read exactly if** it is a valid DSDT and the first object behind its
header can be read in it. -/
theorem readsOnlyDsdt_iff {memory : Memory} {h : ℕ} (dsdt : DsdtAt memory h) :
    ReadsOnlyDsdt memory h ↔
      (sdtChecksumOk memory h = true ∧ sdtSignature memory h = dsdtText ∧
      ∃ p, S5Readable memory h p) := by
  rw [ReadsOnlyDsdt, s5Program, Probe.reads_bind, List.forall_mem_append]
  constructor
  · rintro ⟨⟨finding, decoding⟩, notNull⟩
    have valid : sdtChecksumOk memory h = true ∧ sdtSignature memory h = dsdtText := by
      by_contra invalid
      exact decodeS5obj_reads_ne_nil 0 (notNull (run_acpiDsdtGetS5obj_of_invalid invalid))
    refine ⟨valid.1, valid.2, ?_⟩
    obtain ⟨p, first, inside⟩ :=
      dsdt.exists_firstS5 ((dsdt.reads_acpiDsdtGetS5obj valid.1 valid.2).mp finding)
    have behind : 2 ≤ p := Nat.le_trans (by decide) first.1.1
    rw [run_acpiDsdtGetS5obj valid.1 valid.2, (strnstrLoop_firstS5 first inside).1,
      dsdt.reads_decodeS5obj behind inside] at decoding
    exact ⟨p, first, inside, decoding.1, decoding.2⟩
  · rintro ⟨ok, signature, p, readable⟩
    obtain ⟨found, searched⟩ := strnstrLoop_firstS5 readable.first readable.name
    have inside := readable.name
    have behind : sdtHeaderSize ≤ p := readable.first.1.1
    have result : (acpiDsdtGetS5obj h).run memory = offset h p := by
      rw [run_acpiDsdtGetS5obj ok signature, found]
    refine ⟨⟨(dsdt.reads_acpiDsdtGetS5obj ok signature).mpr fun place read => ?_, ?_⟩, ?_⟩
    · obtain ⟨k, bound, rfl⟩ := searched place read
      exact (dsdt.inTable_iff (by omega)).mpr (by omega)
    · rw [result, dsdt.reads_decodeS5obj (Nat.le_trans (by decide) behind) inside]
      exact ⟨readable.packageOp, readable.elements⟩
    · intro null
      have fits := dsdt.fits
      unfold sdtHeaderSize at behind
      rw [result, offset_eq (by omega)] at null
      omega

theorem s5Memory_dsdtAt (checksum typ : Byte) : DsdtAt (s5Memory checksum typ) 512 := by
  have length : sdtLength (s5Memory checksum typ) 512 = 48 := rfl
  refine ⟨?_, ?_, ?_⟩
  all_goals
    rw [length]
    decide

theorem readsOnlyDsdt_types_zero : ReadsOnlyDsdt (s5Memory 37 0) 512 := by
  have object : S5Object (s5Memory 37 0) 512 0 0 37 45 47 :=
    s5Memory_object (by decide) (by decide +kernel) (by decide +kernel)
  obtain ⟨first, name⟩ := object.firstS5
  refine (readsOnlyDsdt_iff (s5Memory_dsdtAt 37 0)).mpr
    ⟨object.checksum, object.signature, 37, first, name, ?_, ?_⟩
  · decide +kernel
  · decide +kernel

/-- With a wrong checksum the byte before `NULL` is read. -/
theorem wrong_checksum_not_readsOnlyDsdt :
    DsdtAt (s5Memory 0 0) 512 ∧ 0xFFFFFFFF ∈ (s5Program 512).reads (s5Memory 0 0) ∧
    ¬ReadsOnlyDsdt (s5Memory 0 0) 512 := by
  have read : 0xFFFFFFFF ∈ (s5Program 512).reads (s5Memory 0 0) := by decide +kernel
  refine ⟨s5Memory_dsdtAt 0 0, read, fun readsOnly => ?_⟩
  have valid := ((readsOnlyDsdt_iff (s5Memory_dsdtAt 0 0)).mp readsOnly).1
  revert valid
  decide +kernel

end CatchOS.Power
