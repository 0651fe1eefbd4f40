import CatchOS.Lib.Extent

/-!
# Extents in a row

The pieces of a region that are in use, in the order of their addresses: each one starts
where the one before it stops, or later, and all of them lie between two bounds. A `Row` is
cut in two at any place (`row_append`), so a piece that is put into a gap and a piece that is
taken out are looked at from the two parts next to it (`Row.insert`, `Row.remove`).

`Fits` says that some gap of a row has room for a number of units. A gap is all the room
there is: when no gap has it, no place of the region has it (`fits_iff_vacant`), and a gap is
never larger than what the pieces leave over (`Row.gap_le`).
-/

set_option autoImplicit false

namespace CatchOS.Lib

namespace Extent

/-- The first unit behind the extent. -/
def stop (extent : Extent) : ℕ := extent.start + extent.size

end Extent

/-- The extents lie one behind the other, from `low` on and up to `high`. -/
def Row : ℕ → List Extent → ℕ → Prop
  | low, [], high => low ≤ high
  | low, extent :: rest, high => low ≤ extent.start ∧ Row extent.stop rest high

/-- Where the extents stop, or `low` when there are none. -/
def rowStop : ℕ → List Extent → ℕ
  | low, [] => low
  | _, extent :: rest => rowStop extent.stop rest

/-- Where the extents start, or `high` when there are none. -/
def rowStart : List Extent → ℕ → ℕ
  | [], high => high
  | extent :: _, _ => extent.start

variable {low high : ℕ} {extent : Extent} {extents front back : List Extent}

@[simp] theorem rowStop_nil (low : ℕ) : rowStop low [] = low := rfl

@[simp] theorem rowStop_cons (low : ℕ) (extent : Extent) (rest : List Extent) :
    rowStop low (extent :: rest) = rowStop extent.stop rest := rfl

@[simp] theorem rowStart_nil (high : ℕ) : rowStart [] high = high := rfl

@[simp] theorem rowStart_cons (extent : Extent) (rest : List Extent) (high : ℕ) :
    rowStart (extent :: rest) high = extent.start := rfl

theorem rowStop_concat (low : ℕ) (extents : List Extent) (extent : Extent) :
    rowStop low (extents ++ [extent]) = extent.stop := by
  induction extents generalizing low with
  | nil => rfl
  | cons first rest ih => exact ih first.stop

/-! ## Rows and their parts -/

/-- A row is cut in two behind any of its extents. -/
theorem row_append :
    Row low (front ++ back) high ↔
      Row low front (rowStop low front) ∧ Row (rowStop low front) back high := by
  induction front generalizing low with
  | nil => simp [Row]
  | cons first rest ih =>
      rw [List.cons_append, Row, ih, Row, rowStop_cons, and_assoc]

theorem Row.le (row : Row low extents high) : low ≤ high := by
  induction extents generalizing low with
  | nil => exact row
  | cons first rest ih =>
      have behind := ih row.2
      have before := row.1
      rw [Extent.stop] at behind
      omega

theorem Row.le_rowStart (row : Row low extents high) : low ≤ rowStart extents high := by
  cases extents with
  | nil => exact row
  | cons first rest => exact row.1

theorem Row.rowStart_le (row : Row low extents high) : rowStart extents high ≤ high := by
  cases extents with
  | nil => exact Nat.le_refl _
  | cons first rest =>
      have behind := row.2.le
      rw [Extent.stop] at behind
      rw [rowStart_cons]
      omega

/-- Only where its first extent starts matters to what is before a row. -/
theorem Row.lower {lower : ℕ} (row : Row low extents high) (below : lower ≤ rowStart extents high) :
    Row lower extents high := by
  cases extents with
  | nil => exact below
  | cons first rest => exact ⟨below, row.2⟩

/-- The gap behind the front part is before the back part. -/
theorem Row.gap (row : Row low (front ++ back) high) : rowStop low front ≤ rowStart back high :=
  (row_append.mp row).2.le_rowStart

/-- **A new extent in a gap.** -/
theorem Row.insert (row : Row low (front ++ back) high) (behind : rowStop low front ≤ extent.start)
    (before : extent.stop ≤ rowStart back high) : Row low (front ++ extent :: back) high := by
  obtain ⟨inFront, inBack⟩ := row_append.mp row
  exact row_append.mpr ⟨inFront, behind, inBack.lower before⟩

/-- **An extent is taken out.** -/
theorem Row.remove (row : Row low (front ++ extent :: back) high) :
    Row low (front ++ back) high := by
  obtain ⟨inFront, behind, inBack⟩ := row_append.mp row
  refine row_append.mpr ⟨inFront, inBack.lower ?_⟩
  have onward := inBack.le_rowStart
  rw [Extent.stop] at onward
  omega

/-! ## The extents of a row -/

theorem Row.inside (row : Row low extents high) :
    ∀ extent ∈ extents, low ≤ extent.start ∧ extent.stop ≤ high := by
  intro extent member
  obtain ⟨front, back, rfl⟩ := List.append_of_mem member
  obtain ⟨inFront, behind, inBack⟩ := row_append.mp row
  exact ⟨Nat.le_trans inFront.le behind, inBack.le⟩

/-- Each extent stops before the later ones start. -/
theorem Row.sorted (row : Row low extents high) :
    extents.Pairwise fun first second => first.stop ≤ second.start := by
  induction extents generalizing low with
  | nil => exact .nil
  | cons first rest ih =>
      exact List.pairwise_cons.mpr ⟨fun other member => (row.2.inside other member).1, ih row.2⟩

/-- Extents in a row are apart. -/
theorem Row.apart (row : Row low extents high) : extents.Pairwise Extent.Apart :=
  row.sorted.imp Extent.apart_of_le

/-- The units in use and the gap behind the front part are together no more than the region. -/
theorem Row.gap_le (row : Row low (front ++ back) high) :
    rowStart back high - rowStop low front + ((front ++ back).map Extent.size).sum ≤
      high - low := by
  have used : ∀ {extents : List Extent} {low high : ℕ}, Row low extents high →
      (extents.map Extent.size).sum + low ≤ high := by
    intro extents
    induction extents with
    | nil =>
        intro low high row
        have le : low ≤ high := row
        simpa using le
    | cons first rest ih =>
        intro low high row
        have behind := ih row.2
        have before := row.1
        rw [List.map_cons, List.sum_cons]
        rw [Extent.stop] at behind
        omega
  obtain ⟨inFront, inBack⟩ := row_append.mp row
  have front' := used inFront
  have back' := used (inBack.lower (Nat.le_refl (rowStart back high)))
  have gap := row.gap
  rw [List.map_append, List.sum_append]
  omega

/-! ## Room in a row -/

/-- Some gap of the row has room for the units. -/
def Fits (low : ℕ) (extents : List Extent) (high units : ℕ) : Prop :=
  ∃ front back, extents = front ++ back ∧ rowStop low front + units ≤ rowStart back high

/-- Without an extent the whole region is one gap. -/
theorem fits_nil {units : ℕ} : Fits low [] high units ↔ low + units ≤ high := by
  constructor
  · rintro ⟨front, back, split, room⟩
    obtain ⟨rfl, rfl⟩ := List.append_eq_nil_iff.mp split.symm
    exact room
  · intro room
    exact ⟨[], [], rfl, room⟩

/-- The units fit before the first extent, or behind it. -/
theorem fits_cons {units : ℕ} :
    Fits low (extent :: extents) high units ↔
      low + units ≤ extent.start ∨ Fits extent.stop extents high units := by
  constructor
  · rintro ⟨front, back, split, room⟩
    rcases List.cons_eq_append_iff.mp split with ⟨rfl, rfl⟩ | ⟨rest, rfl, rfl⟩
    · exact .inl room
    · exact .inr ⟨rest, back, rfl, room⟩
  · rintro (room | ⟨front, back, rfl, room⟩)
    · exact ⟨[], extent :: extents, rfl, room⟩
    · exact ⟨extent :: front, back, rfl, room⟩

/-- More units than the extents leave over fit nowhere. -/
theorem Row.not_fits {units : ℕ} (row : Row low extents high)
    (full : high - low < units + (extents.map Extent.size).sum) : ¬Fits low extents high units := by
  rintro ⟨front, back, rfl, room⟩
  have bound := row.gap_le
  omega

/-- **Gaps are all the room there is.** The units fit into a gap exactly when some place of the
region for them has no unit in use. -/
theorem Row.fits_iff_vacant {units : ℕ} (row : Row low extents high) (some' : 0 < units)
    (occupied : ∀ extent ∈ extents, 0 < extent.size) :
    Fits low extents high units ↔ ∃ start, low ≤ start ∧ start + units ≤ high ∧
      ∀ extent ∈ extents, Extent.Apart ⟨start, units⟩ extent := by
  induction extents generalizing low with
  | nil =>
      rw [fits_nil]
      constructor
      · intro room
        exact ⟨low, Nat.le_refl _, room, fun extent member => absurd member List.not_mem_nil⟩
      · rintro ⟨start, above, room, -⟩
        omega
  | cons first rest ih =>
      obtain ⟨solid, occupied⟩ := List.forall_mem_cons.mp occupied
      have bounds := row.2.inside
      have end' := row.2.le
      have start' := row.1
      rw [fits_cons, ih row.2 occupied]
      simp only [Extent.stop] at bounds end' ⊢
      constructor
      · rintro (room | ⟨start, above, room, apart⟩)
        · refine ⟨low, Nat.le_refl _, by omega, List.forall_mem_cons.mpr ⟨?_, ?_⟩⟩
          · exact Extent.apart_of_le room
          · intro extent member
            have behind := (bounds extent member).1
            exact Extent.apart_of_le (by simp only; omega)
        · refine ⟨start, by omega, room, List.forall_mem_cons.mpr ⟨?_, apart⟩⟩
          exact (Extent.apart_of_le above).symm
      · rintro ⟨start, above, room, apart⟩
        obtain ⟨fromFirst, apart⟩ := List.forall_mem_cons.mp apart
        have order := Extent.apart_iff.mp fromFirst
        simp only at order
        by_cases before : start + units ≤ first.start
        · exact .inl (by omega)
        · exact .inr ⟨start, by omega, room, apart⟩

end CatchOS.Lib
