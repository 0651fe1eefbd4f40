import CatchOS.Mmu.Kheap

/-!
# Bitmap files

`bmp.c` reads uncompressed bitmap files. A file is given by its bytes, from its first one
on, and what is read behind its end is whatever is there. `IsBmp` says which files hold an
array of pixels: the rows follow each other, each padded to a multiple of four bytes.

The decoder rounds `(bpp * w + 31) / 8` up to a multiple of four. The quotient is one for
double words and is too large for bytes already, so the result is the size of a row for a
depth of 24 and widths that are 3 modulo 4, and four bytes too many otherwise
(`decodedRowSize_eq`). A file with one row is read right anyway: `decodesPixels_iff`.
-/

set_option autoImplicit false

namespace CatchOS.Shell

open CatchOS.Lib CatchOS.Mmu

/-! ## The functions -/

/-- `struct bmp`; `pixelarray` is the number of bytes from the start of the file. -/
structure Bmp where
  filesize : ℤ
  w : ℕ
  h : ℕ
  bpp : ℕ
  pixelarrayOffset : ℕ
  pixelarray : ℕ

/-- `struct bmp_pixel`; `a` is not written. -/
structure BmpPixel where
  r : Byte
  g : Byte
  b : Byte
  deriving DecidableEq

/-- The `uint16_t` at a place of a file. -/
def loadHalf (file : Memory) (place : ℕ) : ℕ :=
  (file (offset place 0)).toNat + 2 ^ 8 * (file (offset place 1)).toNat

/-- `_get_bmp_dimensions_BITMAPCOREHEADER`. -/
def getBmpDimensionsCore (file : Memory) (dibHeader : ℕ) (out : Bmp) : Bmp :=
  { out with
    w := loadHalf file (dibHeader + 4)
    h := loadHalf file (dibHeader + 6)
    bpp := loadHalf file (dibHeader + 10) }

/-- `_get_bmp_dimensions_BITMAPINFOHEADER`; that a compression is not supported is returned,
and its caller drops it. -/
def getBmpDimensionsInfo (file : Memory) (dibHeader : ℕ) (out : Bmp) : ℤ × Bmp :=
  let out := { out with
    w := loadWord file (dibHeader + 4)
    h := loadWord file (dibHeader + 8)
    bpp := loadHalf file (dibHeader + 14) }
  if loadWord file (dibHeader + 16) ≠ 0 then (-1, out) else (0, out)

/-- `BMP_DIB_HEADER_OFF`. -/
def bmpDibHeaderOff : ℕ := 14

def libbmpDecodeBmp (file : Memory) (out : Bmp) : ℤ × Bmp :=
  if file 0 ≠ 0x42#8 ∨ file 1 ≠ 0x4D#8 then
    (-1, out)
  else
    let out := { out with
      filesize := int32 (loadWord file 2)
      pixelarrayOffset := loadWord file 10
      pixelarray := loadWord file 10 }
    let dibHeaderSz := loadWord file bmpDibHeaderOff
    if dibHeaderSz = 12 ∨ dibHeaderSz = 16 ∨ dibHeaderSz = 64 then
      (0, getBmpDimensionsCore file bmpDibHeaderOff out)
    else
      (0, (getBmpDimensionsInfo file bmpDibHeaderOff out).2)

/-- `round_up` counts up as `kmalloc_align` does. -/
def roundUp (n alignment : ℕ) : Option ℕ := nextAligned alignment alignment n

/-- `row_sz`; the product and the sum have 32 bits. -/
def rowSz (bmp : Bmp) : Option ℕ := roundUp ((bmp.bpp * bmp.w + 31) % 2 ^ 32 / 8) 4

/-- The pixel that is read at a place of the file. -/
def pixelOf (file : Memory) (pixel : ℕ) : BmpPixel :=
  let data := loadWord file pixel
  ⟨BitVec.ofNat 8 (data / 2 ^ 16), BitVec.ofNat 8 (data / 2 ^ 8), BitVec.ofNat 8 data⟩

/-- The pixels that are written to `array_out`, in their order. -/
def libbmpGetAllPixels (file : Memory) (bmp : Bmp) : Option (List BmpPixel) :=
  (rowSz bmp).map fun rowSz =>
    (List.range bmp.h).flatMap fun y => (List.range bmp.w).flatMap fun x =>
      let pixelOffset := (rowSz * y + x * (bmp.bpp / 8)) % 2 ^ 32
      if bmp.bpp = 32 ∨ bmp.bpp = 24 then [pixelOf file (offset bmp.pixelarray pixelOffset)]
      else []

/-! ## The format -/

/-- The bytes of a row: those of its pixels, padded to a multiple of four. -/
def rowSize (w bpp : ℕ) : ℕ := alignUp 4 (bpp / 8 * w)

/-- Where a pixel is in a file with the given offset of its pixels. -/
def pixelPlace (w bpp off x y : ℕ) : ℕ := off + rowSize w bpp * y + bpp / 8 * x

/-- **The file holds the pixels**, uncompressed and behind a `BITMAPINFOHEADER`. -/
structure IsBmp (file : Memory) (w h bpp off : ℕ) (pixels : ℕ → ℕ → BmpPixel) : Prop where
  magic : file 0 = 0x42#8 ∧ file 1 = 0x4D#8
  filesize : loadWord file 2 = off + rowSize w bpp * h
  offset : loadWord file 10 = off
  header : loadWord file 14 = 40
  width : loadWord file 18 = w
  height : loadWord file 22 = h
  depth : loadHalf file 28 = bpp
  compression : loadWord file 30 = 0
  behind : 54 ≤ off
  blue : ∀ y < h, ∀ x < w, file (pixelPlace w bpp off x y) = (pixels x y).b
  green : ∀ y < h, ∀ x < w, file (pixelPlace w bpp off x y + 1) = (pixels x y).g
  red : ∀ y < h, ∀ x < w, file (pixelPlace w bpp off x y + 2) = (pixels x y).r

/-- The pixels row by row. -/
def allPixels (w h : ℕ) (pixels : ℕ → ℕ → BmpPixel) : List BmpPixel :=
  (List.range h).flatMap fun y => (List.range w).map fun x => pixels x y

/-- **The decoder inverts the format** for the given sizes and depth: it returns them, and the
pixels, of every file that holds pixels. -/
def DecodesPixels (w h bpp : ℕ) : Prop :=
  ∀ (file : Memory) (off : ℕ) (pixels : ℕ → ℕ → BmpPixel) (out : Bmp),
    IsBmp file w h bpp off pixels → off + rowSize w bpp * h < 2 ^ 32 →
    ∃ bmp, libbmpDecodeBmp file out = (0, bmp) ∧ bmp.w = w ∧ bmp.h = h ∧ bmp.bpp = bpp ∧
      libbmpGetAllPixels file bmp = some (allPixels w h pixels)

/-! ## The size of a row -/

/-- What the decoder takes for the size of a row. -/
def decodedRowSize (w bpp : ℕ) : ℕ := alignUp 4 ((bpp * w + 31) / 8)

theorem rowSz_eq {bmp : Bmp} (word : bmp.bpp * bmp.w + 31 < 2 ^ 32) :
    rowSz bmp = some (decodedRowSize bmp.w bmp.bpp) := by
  rw [rowSz, roundUp, Nat.mod_eq_of_lt word]
  have positive : 0 < 4 := by decide
  refine nextAligned_eq (le_alignUp positive _) ?_ (alignUp_lt positive _) (alignUp_mod _ _)
    fun _ => alignUp_le positive
  have below := alignUp_lt positive ((bmp.bpp * bmp.w + 31) / 8)
  unfold decodedRowSize
  omega

/-- Four bytes too many, but for every fourth width with 24 bits per pixel. -/
theorem decodedRowSize_eq {w bpp : ℕ} (depth : bpp = 24 ∨ bpp = 32) :
    decodedRowSize w bpp = rowSize w bpp + if bpp = 24 ∧ w % 4 = 3 then 0 else 4 := by
  unfold decodedRowSize rowSize alignUp
  obtain ⟨quarter, rest⟩ : ∃ quarter, w = 4 * quarter + w % 4 := ⟨w / 4, by omega⟩
  rcases depth with rfl | rfl
  · -- The bytes of the pixels are three times the width; the residue decides.
    rcases (by omega : w % 4 = 0 ∨ w % 4 = 1 ∨ w % 4 = 2 ∨ w % 4 = 3) with
      residue | residue | residue | residue
    all_goals
      rw [residue] at rest ⊢
      split
      all_goals omega
  · rw [if_neg fun both => absurd both.1 (by decide)]
    omega

theorem rowSize_ge (w bpp : ℕ) : bpp / 8 * w ≤ rowSize w bpp := le_alignUp (by decide) _

/-! ## Files that are read right -/

theorem pixelOf_eq {file : Memory} {place : ℕ} (fits : place + 2 < 2 ^ 32) :
    pixelOf file place = ⟨file (place + 2), file (place + 1), file place⟩ := by
  have high := @byte_loadWord file place 2 (by decide)
  have middle := @byte_loadWord file place 1 (by decide)
  have low := @byte_loadWord file place 0 (by decide)
  rw [offset_eq fits] at high
  rw [offset_eq (by omega)] at middle
  rw [offset_eq (by omega), Nat.add_zero, Nat.mul_zero, Nat.pow_zero, Nat.div_one] at low
  rw [pixelOf, ← high, ← middle, ← low]

/-- The last byte of a pixel is in the file. -/
theorem pixelPlace_lt {w h bpp off x y : ℕ} (depth : bpp = 24 ∨ bpp = 32) (row : y < h)
    (column : x < w) : pixelPlace w bpp off x y + 2 < off + rowSize w bpp * h := by
  have wide := rowSize_ge w bpp
  have rows : rowSize w bpp * y + rowSize w bpp ≤ rowSize w bpp * h := by
    rw [← Nat.mul_succ]
    exact Nat.mul_le_mul_left _ row
  have columns : bpp / 8 * x + bpp / 8 ≤ bpp / 8 * w := by
    rw [← Nat.mul_succ]
    exact Nat.mul_le_mul_left _ column
  have bytes : 3 ≤ bpp / 8 := by omega
  unfold pixelPlace
  omega

section Read

variable {file : Memory} {w h bpp off : ℕ} {pixels : ℕ → ℕ → BmpPixel}

theorem IsBmp.pixel (isBmp : IsBmp file w h bpp off pixels) (depth : bpp = 24 ∨ bpp = 32)
    (fits : off + rowSize w bpp * h < 2 ^ 32) {x y : ℕ} (row : y < h) (column : x < w) :
    pixelOf file (pixelPlace w bpp off x y) = pixels x y := by
  have inside := @pixelPlace_lt _ _ _ off _ _ depth row column
  rw [pixelOf_eq (by omega), isBmp.blue y row x column, isBmp.green y row x column,
    isBmp.red y row x column]

/-- What the decoder finds in the header. -/
theorem IsBmp.decode (isBmp : IsBmp file w h bpp off pixels) (out : Bmp) :
    ∃ filesize, libbmpDecodeBmp file out = (0, ⟨filesize, w, h, bpp, off, off⟩) := by
  refine ⟨int32 (loadWord file 2), ?_⟩
  have right : ¬(file 0 ≠ 0x42#8 ∨ file 1 ≠ 0x4D#8) := by
    rw [not_or, not_not, not_not]
    exact isBmp.magic
  unfold libbmpDecodeBmp getBmpDimensionsInfo bmpDibHeaderOff
  rw [if_neg right]
  simp only [isBmp.header, isBmp.offset, isBmp.width, isBmp.height, isBmp.depth, isBmp.compression]
  rfl

/-- What the decoder reads, with its own size of a row. -/
theorem getAllPixels_eq (file : Memory) (filesize : ℤ) (depth : bpp = 24 ∨ bpp = 32)
    (word : w * bpp + 31 < 2 ^ 32) :
    libbmpGetAllPixels file ⟨filesize, w, h, bpp, off, off⟩ = some (allPixels w h fun x y =>
      pixelOf file (offset off ((decodedRowSize w bpp * y + bpp / 8 * x) % 2 ^ 32))) := by
  rw [Nat.mul_comm] at word
  have supported : bpp = 32 ∨ bpp = 24 := depth.symm
  rw [libbmpGetAllPixels, rowSz_eq word, Option.map_some, allPixels]
  simp only [if_pos supported, Nat.mul_comm _ (bpp / 8), List.map_eq_flatMap]

/-- Arrays with the same pixels are the same list. -/
theorem allPixels_congr {other : ℕ → ℕ → BmpPixel}
    (same : ∀ y < h, ∀ x < w, other x y = pixels x y) :
    allPixels w h other = allPixels w h pixels := by
  unfold allPixels
  rw [List.flatMap_def, List.flatMap_def]
  refine congrArg _ (List.map_congr_left fun y row => List.map_congr_left fun x column => ?_)
  exact same y (List.mem_range.mp row) x (List.mem_range.mp column)

/-- When the rows that are read are where the rows are, the pixels are read right. -/
theorem decodesPixels_of_rows (depth : bpp = 24 ∨ bpp = 32) (word : w * bpp + 31 < 2 ^ 32)
    (rows : ∀ y < h, decodedRowSize w bpp * y = rowSize w bpp * y) : DecodesPixels w h bpp := by
  intro file off pixels out isBmp fits
  obtain ⟨filesize, decoded⟩ := isBmp.decode out
  refine ⟨_, decoded, rfl, rfl, rfl, ?_⟩
  rw [getAllPixels_eq file filesize depth word]
  refine congrArg some (allPixels_congr fun y row x column => ?_)
  have inside := @pixelPlace_lt _ _ _ off _ _ depth row column
  rw [← isBmp.pixel depth fits row column, rows y row]
  unfold pixelPlace at inside ⊢
  rw [Nat.mod_eq_of_lt (by omega), offset_eq (by omega), Nat.add_assoc]

end Read

/-! ## A file for every array of pixels -/

/-- The four bytes of a word. -/
def wordBytes (value : ℕ) : List Byte :=
  (List.range 4).map fun i => BitVec.ofNat 8 (value / 2 ^ (8 * i))

/-- The file header and the first fields of the `BITMAPINFOHEADER`. -/
def bmpHeader (w h bpp : ℕ) : List Byte :=
  [0x42#8, 0x4D#8] ++ wordBytes (54 + rowSize w bpp * h) ++ wordBytes 0 ++ wordBytes 54 ++
    wordBytes 40 ++ wordBytes w ++ wordBytes h ++ [1, 0] ++ [BitVec.ofNat 8 bpp, 0]

/-- A byte of the pixels: blue, green and red, and zeros. -/
def pixelByte (w h bpp : ℕ) (pixels : ℕ → ℕ → BmpPixel) (place : ℕ) : Byte :=
  let y := place / rowSize w bpp
  let x := place % rowSize w bpp / (bpp / 8)
  let channel := place % rowSize w bpp % (bpp / 8)
  if y < h ∧ x < w then
    if channel = 0 then (pixels x y).b
    else if channel = 1 then (pixels x y).g
    else if channel = 2 then (pixels x y).r
    else 0
  else 0

/-- The file with the given pixels; zeros follow it. -/
def encodeBmp (w h bpp : ℕ) (pixels : ℕ → ℕ → BmpPixel) : Memory := fun place =>
  if place < 54 then (bmpHeader w h bpp).getD place 0 else pixelByte w h bpp pixels (place - 54)

section Encode

variable {w h bpp : ℕ} {pixels : ℕ → ℕ → BmpPixel}

theorem pixelByte_eq {x y channel : ℕ} (positive : 0 < bpp / 8) (row : y < h) (column : x < w)
    (bound : channel < bpp / 8) :
    pixelByte w h bpp pixels (rowSize w bpp * y + (bpp / 8 * x + channel)) =
      if channel = 0 then (pixels x y).b
      else if channel = 1 then (pixels x y).g
      else if channel = 2 then (pixels x y).r
      else 0 := by
  have wide := rowSize_ge w bpp
  have columns : bpp / 8 * x + bpp / 8 ≤ bpp / 8 * w := by
    rw [← Nat.mul_succ]
    exact Nat.mul_le_mul_left _ column
  have inRow : bpp / 8 * x + channel < rowSize w bpp := by omega
  have divided : (rowSize w bpp * y + (bpp / 8 * x + channel)) / rowSize w bpp = y := by
    rw [Nat.mul_add_div (by omega), Nat.div_eq_of_lt inRow, Nat.add_zero]
  have remains : (rowSize w bpp * y + (bpp / 8 * x + channel)) % rowSize w bpp =
      bpp / 8 * x + channel := by
    rw [Nat.mul_add_mod, Nat.mod_eq_of_lt inRow]
  have isColumn : (bpp / 8 * x + channel) / (bpp / 8) = x := by
    rw [Nat.mul_add_div positive, Nat.div_eq_of_lt bound, Nat.add_zero]
  have isChannel : (bpp / 8 * x + channel) % (bpp / 8) = channel := by
    rw [Nat.mul_add_mod, Nat.mod_eq_of_lt bound]
  unfold pixelByte
  simp only [divided, remains, isColumn, isChannel, row, column, and_self, if_true]

theorem encodeBmp_header {place : ℕ} (bound : place < 54) :
    encodeBmp w h bpp pixels place = (bmpHeader w h bpp).getD place 0 :=
  if_pos bound

/-- A word of the header. -/
theorem loadWord_encodeBmp {place value : ℕ} (small : value < 2 ^ 32) (bound : place + 3 < 54)
    (held : (List.range 4).map (fun i => (bmpHeader w h bpp).getD (place + i) 0)
      = wordBytes value) :
    loadWord (encodeBmp w h bpp pixels) place = value := by
  refine loadWord_of_bytes small fun i less => ?_
  rw [offset_eq (by omega), encodeBmp_header (by omega)]
  exact List.map_inj_left.mp held i (List.mem_range.mpr less)

theorem encodeBmp_pixel {x y channel : ℕ} (depth : bpp = 24 ∨ bpp = 32) (row : y < h)
    (column : x < w) (bound : channel < 3) :
    encodeBmp w h bpp pixels (pixelPlace w bpp 54 x y + channel) =
      if channel = 0 then (pixels x y).b
      else if channel = 1 then (pixels x y).g
      else if channel = 2 then (pixels x y).r
      else 0 := by
  have behind : ¬pixelPlace w bpp 54 x y + channel < 54 := by
    unfold pixelPlace
    omega
  have place : pixelPlace w bpp 54 x y + channel - 54 =
      rowSize w bpp * y + (bpp / 8 * x + channel) := by
    unfold pixelPlace
    omega
  rw [encodeBmp, if_neg behind, place, pixelByte_eq (by omega) row column (by omega)]

/-- The encoded file holds the pixels. -/
theorem encodeBmp_isBmp (depth : bpp = 24 ∨ bpp = 32) (width : w < 2 ^ 32) (height : h < 2 ^ 32)
    (fits : 54 + rowSize w bpp * h < 2 ^ 32) :
    IsBmp (encodeBmp w h bpp pixels) w h bpp 54 pixels where
  magic := ⟨rfl, rfl⟩
  -- Each word of the header is where its field is.
  filesize := loadWord_encodeBmp fits (by decide) (by simp [bmpHeader, wordBytes, List.range_succ])
  offset := loadWord_encodeBmp (by decide) (by decide)
    (by simp [bmpHeader, wordBytes, List.range_succ])
  header := loadWord_encodeBmp (by decide) (by decide)
    (by simp [bmpHeader, wordBytes, List.range_succ])
  width := loadWord_encodeBmp width (by decide) (by simp [bmpHeader, wordBytes, List.range_succ])
  height := loadWord_encodeBmp height (by decide) (by simp [bmpHeader, wordBytes, List.range_succ])
  depth := by
    have low : encodeBmp w h bpp pixels (offset 28 0) = BitVec.ofNat 8 bpp := rfl
    have high : encodeBmp w h bpp pixels (offset 28 1) = 0 := rfl
    rw [loadHalf, low, high, BitVec.toNat_ofNat]
    rcases depth with rfl | rfl
    all_goals rfl
  compression := loadWord_encodeBmp (by decide) (by decide)
    (by simp [bmpHeader, wordBytes, List.range_succ])
  behind := Nat.le_refl 54
  blue y row x column := encodeBmp_pixel depth row column (show 0 < 3 by decide)
  green y row x column := encodeBmp_pixel depth row column (show 1 < 3 by decide)
  red y row x column := encodeBmp_pixel depth row column (show 2 < 3 by decide)

end Encode

/-! ## Files that are read wrong -/

/-- Black, but for the first pixel of the second row. -/
def oneBluePixel (x y : ℕ) : BmpPixel :=
  if x = 0 ∧ y = 1 then ⟨0, 0, 1⟩ else ⟨0, 0, 0⟩

/-- Every byte of these pixels but one is zero. -/
theorem pixelByte_oneBluePixel {w h bpp place : ℕ} (elsewhere : place ≠ rowSize w bpp) :
    pixelByte w h bpp oneBluePixel place = 0 := by
  have whole := Nat.div_add_mod place (rowSize w bpp)
  have row := Nat.div_add_mod (place % rowSize w bpp) (bpp / 8)
  unfold pixelByte
  dsimp only
  generalize place / rowSize w bpp = y at whole
  generalize place % rowSize w bpp = rest at whole row
  generalize rest / (bpp / 8) = x at row
  generalize rest % (bpp / 8) = channel at row
  by_cases here : x = 0 ∧ y = 1
  · have notBlue : channel ≠ 0 := by
      intro blue
      rw [here.1, blue, Nat.mul_zero] at row
      rw [here.2, ← row, Nat.mul_one] at whole
      exact elsewhere whole.symm
    rw [oneBluePixel, if_pos here, if_neg notBlue, ite_self, ite_self, ite_self]
  · rw [oneBluePixel, if_neg here, ite_self, ite_self, ite_self, ite_self]

/-- The first pixel of the second row. -/
theorem allPixels_second_row {w h : ℕ} {pixels other : ℕ → ℕ → BmpPixel} (width : 1 ≤ w)
    (height : 2 ≤ h) (same : allPixels w h other = allPixels w h pixels) :
    other 0 1 = pixels 0 1 := by
  obtain ⟨rows, rfl⟩ := Nat.exists_eq_add_of_le' height
  obtain ⟨columns, rfl⟩ := Nat.exists_eq_add_of_le' width
  have lists : List.range (rows + 2) = 0 :: 1 :: (List.range rows).map (· + 2) := by
    rw [List.range_succ_eq_map, List.range_succ_eq_map, List.map_cons, List.map_map]
    rfl
  unfold allPixels at same
  rw [lists, List.flatMap_cons, List.flatMap_cons, List.flatMap_cons, List.flatMap_cons] at same
  obtain ⟨-, later⟩ := List.append_inj same (by rw [List.length_map, List.length_map])
  obtain ⟨second, -⟩ := List.append_inj later (by rw [List.length_map, List.length_map])
  exact List.map_inj_left.mp second 0 (List.mem_range.mpr (Nat.succ_pos _))

/-- With rows that are taken as four bytes too long, the second row is not read. -/
theorem not_decodesPixels {w h bpp : ℕ} (width : 1 ≤ w) (height : 2 ≤ h)
    (depth : bpp = 24 ∨ bpp = 32) (word : w * bpp + 31 < 2 ^ 32)
    (fits : 54 + rowSize w bpp * h < 2 ^ 32)
    (long : decodedRowSize w bpp = rowSize w bpp + 4) : ¬DecodesPixels w h bpp := by
  intro decodes
  have rows : rowSize w bpp * 2 ≤ rowSize w bpp * h := Nat.mul_le_mul_left _ height
  have wide := rowSize_ge w bpp
  have narrow : w * 1 ≤ w * bpp := Nat.mul_le_mul_left _ (by omega)
  have nonempty : 1 ≤ rowSize w bpp := by
    have pixel : 1 * 1 ≤ bpp / 8 * w := Nat.mul_le_mul (by omega) width
    omega
  have low : 1 * h ≤ rowSize w bpp * h := Nat.mul_le_mul_right _ nonempty
  have isBmp := @encodeBmp_isBmp w h bpp oneBluePixel depth (by omega) (by omega) fits
  obtain ⟨bmp, decoded, -, -, -, read⟩ := decodes _ 54 oneBluePixel ⟨0, 0, 0, 0, 0, 0⟩ isBmp fits
  obtain ⟨filesize, header⟩ := isBmp.decode ⟨0, 0, 0, 0, 0, 0⟩
  rw [header, Prod.mk.injEq] at decoded
  obtain ⟨-, rfl⟩ := decoded
  rw [getAllPixels_eq _ filesize depth word, Option.some.injEq] at read
  have second := congrArg BmpPixel.b (allPixels_second_row width height read)
  -- The second row is looked for four bytes behind the place where it is.
  have place : offset 54 ((decodedRowSize w bpp * 1 + bpp / 8 * 0) % 2 ^ 32) =
      54 + (rowSize w bpp + 4) := by
    rw [Nat.mul_one, Nat.mul_zero, Nat.add_zero, long, Nat.mod_eq_of_lt (by omega),
      offset_eq (by omega)]
  have black : encodeBmp w h bpp oneBluePixel (54 + (rowSize w bpp + 4)) = 0 := by
    rw [encodeBmp, if_neg (by omega), Nat.add_sub_cancel_left]
    exact pixelByte_oneBluePixel (by omega)
  rw [place, pixelOf_eq (by omega)] at second
  exact absurd (black.symm.trans second) (by decide)

/-- **When bitmap files are decoded.** For every width, height and depth of 24 or 32 bits, the
decoder returns the pixels of every file that holds pixels if and only if there is one row, or
the depth is 24 and the width is 3 modulo 4. -/
theorem decodesPixels_iff {w h bpp : ℕ} (width : 1 ≤ w) (height : 1 ≤ h)
    (depth : bpp = 24 ∨ bpp = 32) (word : w * bpp + 31 < 2 ^ 32)
    (fits : 54 + rowSize w bpp * h < 2 ^ 32) :
    DecodesPixels w h bpp ↔ h = 1 ∨ bpp = 24 ∧ w % 4 = 3 := by
  have size := @decodedRowSize_eq w bpp depth
  constructor
  · intro decodes
    by_contra wrong
    rw [not_or] at wrong
    rw [if_neg wrong.2] at size
    exact not_decodesPixels width (by omega) depth word fits size decodes
  · intro right
    refine decodesPixels_of_rows depth word fun y row => ?_
    rcases right with one | fourth
    · obtain rfl : y = 0 := by omega
      rw [Nat.mul_zero, Nat.mul_zero]
    · rw [if_pos fourth, Nat.add_zero] at size
      rw [size]

/-- Three pixels in each of two rows. -/
theorem decodesPixels_three_two : DecodesPixels 3 2 24 :=
  (decodesPixels_iff (by decide) (by decide) (.inl rfl) (by decide) (by decide)).mpr
    (.inr ⟨rfl, rfl⟩)

/-- The encoded file of two rows of one pixel each: the second pixel is lost. -/
theorem two_rows_not_decoded :
    libbmpGetAllPixels (encodeBmp 1 2 24 oneBluePixel)
        (libbmpDecodeBmp (encodeBmp 1 2 24 oneBluePixel) ⟨0, 0, 0, 0, 0, 0⟩).2 =
          some [⟨0, 0, 0⟩, ⟨0, 0, 0⟩] ∧
      allPixels 1 2 oneBluePixel = [⟨0, 0, 0⟩, ⟨0, 0, 1⟩] ∧ ¬DecodesPixels 1 2 24 :=
  ⟨by decide +kernel, by decide +kernel,
    not_decodesPixels (by decide) (by decide) (.inl rfl) (by decide) (by decide) (by decide)⟩

end CatchOS.Shell
