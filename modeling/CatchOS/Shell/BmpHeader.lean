import CatchOS.Shell.Bmp

/-!
# Accepted bitmap files

`libbmp_decode_bmp` returns `-1` for a file without the magic number. For a header of the
newer kind its helper returns `-1` when the file is compressed, but the result of the
helper is dropped: every file with the magic number is accepted (`decode_accepts_iff`).
So the verdict is right exactly for the files that are not a compressed bitmap with such
a header (`decodesHeader_iff`). The fields are those of the file in any case.
-/

set_option autoImplicit false

namespace CatchOS.Shell

/-! ## The header of a file -/

/-- The number that the given number of bytes hold; the low byte comes first. -/
def littleEndian (file : Memory) (place : ℕ) : ℕ → ℕ
  | 0 => 0
  | size + 1 => littleEndian file place size + 256 ^ size * (file (place + size)).toNat

/-- The file starts with `BM`. -/
def HasMagic (file : Memory) : Prop := file 0 = 0x42#8 ∧ file 1 = 0x4D#8

/-- The header of the file is a `BITMAPCOREHEADER`. -/
def HasCoreHeader (file : Memory) : Prop :=
  littleEndian file 14 4 = 12 ∨ littleEndian file 14 4 = 16 ∨ littleEndian file 14 4 = 64

/-- The file has a `BITMAPINFOHEADER` that says how it is compressed. -/
def Compressed (file : Memory) : Prop := ¬ HasCoreHeader file ∧ littleEndian file 30 4 ≠ 0

instance (file : Memory) : Decidable (HasMagic file) := inferInstanceAs (Decidable (_ ∧ _))

instance (file : Memory) : Decidable (HasCoreHeader file) :=
  inferInstanceAs (Decidable (_ ∨ _ ∨ _))

instance (file : Memory) : Decidable (Compressed file) := inferInstanceAs (Decidable (_ ∧ _))

/-- The fields of the file, by the kind of its header. -/
structure HoldsFields (file : Memory) (bmp : Bmp) : Prop where
  w : bmp.w = if HasCoreHeader file then littleEndian file 18 2 else littleEndian file 18 4
  h : bmp.h = if HasCoreHeader file then littleEndian file 20 2 else littleEndian file 22 4
  bpp : bmp.bpp = if HasCoreHeader file then littleEndian file 24 2 else littleEndian file 28 2
  pixelarrayOffset : bmp.pixelarrayOffset = littleEndian file 10 4
  pixelarray : bmp.pixelarray = littleEndian file 10 4

/-- The decoder accepts the files it can read, and these only, and finds their fields. -/
structure DecodesHeader (file : Memory) (out : Bmp) : Prop where
  accepts : (libbmpDecodeBmp file out).1 = 0 ↔ HasMagic file ∧ ¬ Compressed file
  fields : (libbmpDecodeBmp file out).1 = 0 → HoldsFields file (libbmpDecodeBmp file out).2

/-! ## The fields -/

theorem loadWord_littleEndian {file : Memory} {place : ℕ} (fits : place + 3 < 2 ^ 32) :
    loadWord file place = littleEndian file place 4 := by
  rw [loadWord, offset_eq (by omega), offset_eq (by omega), offset_eq (by omega), offset_eq fits]
  simp only [littleEndian]
  omega

theorem loadHalf_littleEndian {file : Memory} {place : ℕ} (fits : place + 1 < 2 ^ 32) :
    loadHalf file place = littleEndian file place 2 := by
  rw [loadHalf, offset_eq (by omega), offset_eq fits]
  simp only [littleEndian]
  omega

variable {file : Memory} {out : Bmp}

/-- A file without the magic number is rejected, and nothing is written. -/
theorem decode_rejects (without : ¬ HasMagic file) : libbmpDecodeBmp file out = (-1, out) := by
  rw [HasMagic, not_and_or] at without
  exact if_pos without

/-- What the decoder does with a file that has the magic number. -/
theorem decode_accepts (magic : HasMagic file) :
    (libbmpDecodeBmp file out).1 = 0 ∧ HoldsFields file (libbmpDecodeBmp file out).2 := by
  have accepted : ¬ (file 0 ≠ 0x42#8 ∨ file 1 ≠ 0x4D#8) := by
    rw [not_or, not_not, not_not]
    exact magic
  have size : loadWord file bmpDibHeaderOff = littleEndian file 14 4 :=
    loadWord_littleEndian (by decide)
  rw [libbmpDecodeBmp, if_neg accepted]
  dsimp only
  rw [size]
  by_cases core : HasCoreHeader file
  · have sizes : littleEndian file 14 4 = 12 ∨ littleEndian file 14 4 = 16 ∨
        littleEndian file 14 4 = 64 := core
    rw [if_pos sizes]
    refine ⟨rfl, ?_, ?_, ?_, loadWord_littleEndian (by decide), loadWord_littleEndian (by decide)⟩
    · rw [if_pos core]
      exact loadHalf_littleEndian (by decide)
    · rw [if_pos core]
      exact loadHalf_littleEndian (by decide)
    · rw [if_pos core]
      exact loadHalf_littleEndian (by decide)
  · have sizes : ¬ (littleEndian file 14 4 = 12 ∨ littleEndian file 14 4 = 16 ∨
        littleEndian file 14 4 = 64) := core
    rw [if_neg sizes]
    -- Whether the helper returns 0 makes no difference.
    unfold getBmpDimensionsInfo
    rw [apply_ite Prod.snd, ite_self]
    refine ⟨rfl, ?_, ?_, ?_, loadWord_littleEndian (by decide), loadWord_littleEndian (by decide)⟩
    · rw [if_neg core]
      exact loadWord_littleEndian (by decide)
    · rw [if_neg core]
      exact loadWord_littleEndian (by decide)
    · rw [if_neg core]
      exact loadHalf_littleEndian (by decide)

/-- The magic number alone decides. -/
theorem decode_accepts_iff (file : Memory) (out : Bmp) :
    (libbmpDecodeBmp file out).1 = 0 ↔ HasMagic file := by
  constructor
  · intro accepted
    by_contra without
    rw [decode_rejects without] at accepted
    cases accepted
  · intro magic
    exact (decode_accepts magic).1

/-- **Accepted files.** The verdict of the decoder and the fields it finds are right
exactly for the files that are not compressed bitmaps. -/
theorem decodesHeader_iff (file : Memory) (out : Bmp) :
    DecodesHeader file out ↔ ¬ (HasMagic file ∧ Compressed file) := by
  constructor
  · rintro decodes ⟨magic, compressed⟩
    exact (decodes.accepts.mp (decode_accepts magic).1).2 compressed
  · intro readable
    refine ⟨?_, fun accepted => (decode_accepts ((decode_accepts_iff file out).mp accepted)).2⟩
    rw [decode_accepts_iff]
    exact ⟨fun magic => ⟨magic, fun compressed => readable ⟨magic, compressed⟩⟩, And.left⟩

/-- A compressed file is accepted: the header is of 40 bytes and the compression is 1. -/
theorem compressed_accepted : ∃ file : Memory, ∀ out,
    (libbmpDecodeBmp file out).1 = 0 ∧ ¬ DecodesHeader file out := by
  obtain ⟨file, magic, compressed⟩ : ∃ file : Memory, HasMagic file ∧ Compressed file := by
    refine ⟨fun place => if place = 0 then 0x42 else if place = 1 then 0x4D
      else if place = 14 then 40 else if place = 30 then 1 else 0, ?_, ?_⟩ <;> decide
  refine ⟨file, fun out => ⟨(decode_accepts magic).1, fun decodes => ?_⟩⟩
  exact (decodes.accepts.mp (decode_accepts magic).1).2 compressed

end CatchOS.Shell
