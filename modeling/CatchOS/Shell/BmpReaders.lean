import CatchOS.Lib.Probe
import CatchOS.Shell.BmpHeader

/-!
# The two readers of pixels

`libbmp_get_pixel` reads one pixel and `libbmp_get_all_pixels` all of them. Both find a pixel
by the same arithmetic. The first supports a depth of 24 bits only and leaves its result
as it is for any other, the second supports 32 bits too; so they agree exactly on the
images with 24 bits and on empty ones (`readersAgree_iff`).

What the functions read of a file is the log of programs that compute what they compute
(`run_decodeProgram`, `run_getPixelProgram`, `run_getAllPixelsProgram`). The test of the
coordinates lets the width and the height themselves through, so there is no file on which
the readers behave as they should (`not_readsStayInFile`). The whole image is read inside the
file exactly when four bytes from the start of its last pixel on are in it
(`getAllPixels_inside_iff`), which a well-formed image with 32 bits and two rows does not
grant (`isBmp_not_inside`).
-/

set_option autoImplicit false

namespace CatchOS.Shell

open CatchOS.Lib CatchOS.Mmu

/-! ## One pixel -/

/-- `struct bmp_pixel` with its field `a`, which only `libbmp_get_pixel` writes. -/
structure PixelOut where
  pixel : BmpPixel
  a : Byte
  deriving DecidableEq

/-- The coordinates that `libbmp_get_pixel` rejects. -/
def Rejects (bmp : Bmp) (x y : ℕ) : Prop := x > bmp.w ∨ y > bmp.h

instance (bmp : Bmp) (x y : ℕ) : Decidable (Rejects bmp x y) :=
  inferInstanceAs (Decidable (_ ∨ _))

/-- Where both readers look for a pixel. -/
def pixelAddress (bmp : Bmp) (rowSz x y : ℕ) : ℕ :=
  offset bmp.pixelarray ((rowSz * y + x * (bmp.bpp / 8)) % 2 ^ 32)

def libbmpGetPixel (file : Memory) (bmp : Bmp) (x y : ℕ) (out : PixelOut) : Option PixelOut :=
  if Rejects bmp x y then some out
  else
    (rowSz bmp).map fun rowSz =>
      if bmp.bpp = 24 then ⟨pixelOf file (pixelAddress bmp rowSz x y), 0⟩ else out

/-- The single pixels are those of the whole image, whatever the result held before. -/
def ReadersAgree (file : Memory) (bmp : Bmp) : Prop :=
  ∃ all, libbmpGetAllPixels file bmp = some all ∧
    ∀ y < bmp.h, ∀ x < bmp.w, ∀ out, ∃ result,
      libbmpGetPixel file bmp x y out = some result ∧ all[y * bmp.w + x]? = some result.pixel

/-- `round_up` ends: it counts up to a multiple of four. -/
theorem exists_rowSz (bmp : Bmp) :
    rowSz bmp = some (alignUp 4 ((bmp.bpp * bmp.w + 31) % 2 ^ 32 / 8)) := by
  have positive : 0 < 4 := by decide
  have below := alignUp_lt positive ((bmp.bpp * bmp.w + 31) % 2 ^ 32 / 8)
  rw [rowSz, roundUp]
  exact nextAligned_eq (le_alignUp positive _) (by omega) (alignUp_lt positive _)
    (alignUp_mod _ _) fun _ => alignUp_le positive

/-- The whole image, with a depth that is supported. -/
theorem getAllPixels_supported (file : Memory) {bmp : Bmp} (depth : bmp.bpp = 24 ∨ bmp.bpp = 32) :
    ∃ size, rowSz bmp = some size ∧ libbmpGetAllPixels file bmp =
      some (allPixels bmp.w bmp.h fun x y => pixelOf file (pixelAddress bmp size x y)) := by
  refine ⟨_, exists_rowSz bmp, ?_⟩
  rw [libbmpGetAllPixels, exists_rowSz, Option.map_some, allPixels]
  simp only [if_pos depth.symm, List.map_eq_flatMap, pixelAddress]

theorem length_allPixels (w h : ℕ) (pixels : ℕ → ℕ → BmpPixel) :
    (allPixels w h pixels).length = h * w := by
  simp only [allPixels, List.length_flatMap, List.length_map, List.length_range, List.map_const',
    List.sum_replicate]
  rfl

/-- The pixels of a row follow those of the rows before it. -/
theorem getElem?_allPixels {w h x y : ℕ} (pixels : ℕ → ℕ → BmpPixel) (row : y < h)
    (column : x < w) : (allPixels w h pixels)[y * w + x]? = some (pixels x y) := by
  induction h with
  | zero => cases row
  | succ h ih =>
      have split : allPixels w (h + 1) pixels =
          allPixels w h pixels ++ (List.range w).map fun x => pixels x h := by
        rw [allPixels, List.range_succ, List.flatMap_append, List.flatMap_singleton]
        rfl
      rw [split]
      by_cases last : y = h
      · subst last
        rw [List.getElem?_append_right (by rw [length_allPixels]; omega), length_allPixels,
          Nat.add_sub_cancel_left, List.getElem?_map, List.getElem?_range column]
        rfl
      · have above : y < h := by omega
        have inside : y * w + x < h * w := by
          have rows := Nat.mul_le_mul_right w (Nat.succ_le_of_lt above)
          rw [Nat.succ_mul] at rows
          omega
        rw [List.getElem?_append_left (by rwa [length_allPixels])]
        exact ih above

/-- The first pixel stays what the result held, once a black and once a white one. -/
theorem not_readersAgree (file : Memory) {bmp : Bmp} (other : bmp.bpp ≠ 24) (wide : 0 < bmp.w)
    (high : 0 < bmp.h) : ¬ ReadersAgree file bmp := by
  rintro ⟨_, _, agree⟩
  have stays (out : PixelOut) : libbmpGetPixel file bmp 0 0 out = some out := by
    rw [libbmpGetPixel, exists_rowSz, if_neg (by unfold Rejects; omega), Option.map_some,
      if_neg other]
  have first (out : PixelOut) := agree 0 high 0 wide out
  obtain ⟨black, left, blackEntry⟩ := first ⟨⟨0, 0, 0⟩, 0⟩
  obtain ⟨white, right, whiteEntry⟩ := first ⟨⟨255, 255, 255⟩, 0⟩
  rw [stays, Option.some.injEq] at left right
  rw [← left] at blackEntry
  rw [← right, blackEntry] at whiteEntry
  exact absurd whiteEntry (by decide)

/-- **The readers agree** on the images with 24 bits, and on those without pixels. -/
theorem readersAgree_iff (file : Memory) (bmp : Bmp) (depth : bmp.bpp = 24 ∨ bmp.bpp = 32) :
    ReadersAgree file bmp ↔ bmp.bpp = 24 ∨ bmp.w = 0 ∨ bmp.h = 0 := by
  obtain ⟨size, row, all⟩ := getAllPixels_supported file depth
  constructor
  · intro agree
    by_contra others
    rw [not_or, not_or] at others
    obtain ⟨other, wide, high⟩ := others
    exact not_readersAgree file other (Nat.pos_of_ne_zero wide) (Nat.pos_of_ne_zero high) agree
  · intro readable
    refine ⟨_, all, fun y high x wide out => ?_⟩
    have deep : bmp.bpp = 24 := readable.resolve_right (by omega)
    refine ⟨⟨pixelOf file (pixelAddress bmp size x y), 0⟩, ?_, getElem?_allPixels _ high wide⟩
    rw [libbmpGetPixel, row, if_neg (by unfold Rejects; omega), Option.map_some, if_pos deep]

/-- One pixel with 32 bits is read by one reader and not by the other. -/
theorem readers_disagree : ¬ ∀ (file : Memory) (out bmp : Bmp),
    libbmpDecodeBmp file out = (0, bmp) → bmp.bpp = 24 ∨ bmp.bpp = 32 →
      ReadersAgree file bmp := by
  intro all
  have isBmp := @encodeBmp_isBmp 1 1 32 oneBluePixel (.inr rfl) (by decide) (by decide)
    (by decide)
  obtain ⟨filesize, decoded⟩ := isBmp.decode ⟨0, 0, 0, 0, 0, 0⟩
  have deep : 32 ≠ 24 := by decide
  exact not_readersAgree _ deep Nat.one_pos Nat.one_pos (all _ _ _ decoded (.inr rfl))

/-- With 24 bits they agree. -/
theorem readers_agree_24 :
    ReadersAgree (encodeBmp 1 1 24 oneBluePixel) ⟨58, 1, 1, 24, 54, 54⟩ :=
  (readersAgree_iff _ ⟨58, 1, 1, 24, 54, 54⟩ (.inl rfl)).mpr (.inl rfl)

/-! ## What is read -/

/-- A `uint32_t` of the file. -/
def askFileWord (place : ℕ) : Probe ℕ Byte ℕ := do
  let byte0 ← Probe.ask (offset place 0)
  let byte1 ← Probe.ask (offset place 1)
  let byte2 ← Probe.ask (offset place 2)
  let byte3 ← Probe.ask (offset place 3)
  pure (byte0.toNat + 2 ^ 8 * byte1.toNat + 2 ^ 16 * byte2.toNat + 2 ^ 24 * byte3.toNat)

/-- A `uint16_t` of the file. -/
def askFileHalf (place : ℕ) : Probe ℕ Byte ℕ := do
  let byte0 ← Probe.ask (offset place 0)
  let byte1 ← Probe.ask (offset place 1)
  pure (byte0.toNat + 2 ^ 8 * byte1.toNat)

/-- `_get_bmp_dimensions_BITMAPCOREHEADER`. -/
def coreProgram (dibHeader : ℕ) (out : Bmp) : Probe ℕ Byte Bmp := do
  let w ← askFileHalf (dibHeader + 4)
  let h ← askFileHalf (dibHeader + 6)
  let bpp ← askFileHalf (dibHeader + 10)
  pure { out with w := w, h := h, bpp := bpp }

/-- `_get_bmp_dimensions_BITMAPINFOHEADER`. -/
def infoProgram (dibHeader : ℕ) (out : Bmp) : Probe ℕ Byte (ℤ × Bmp) := do
  let w ← askFileWord (dibHeader + 4)
  let h ← askFileWord (dibHeader + 8)
  let bpp ← askFileHalf (dibHeader + 14)
  let compression ← askFileWord (dibHeader + 16)
  let out := { out with w := w, h := h, bpp := bpp }
  pure (if compression ≠ 0 then (-1, out) else (0, out))

/-- `libbmp_decode_bmp`. -/
def decodeProgram (out : Bmp) : Probe ℕ Byte (ℤ × Bmp) := do
  let first ← Probe.ask 0
  if first ≠ 0x42#8 then pure (-1, out)
  else do
    let second ← Probe.ask 1
    if second ≠ 0x4D#8 then pure (-1, out)
    else do
      let filesize ← askFileWord 2
      let pixelarrayOffset ← askFileWord 10
      let out := { out with
        filesize := int32 filesize
        pixelarrayOffset := pixelarrayOffset
        pixelarray := pixelarrayOffset }
      let dibHeaderSz ← askFileWord bmpDibHeaderOff
      if dibHeaderSz = 12 ∨ dibHeaderSz = 16 ∨ dibHeaderSz = 64 then do
        let out ← coreProgram bmpDibHeaderOff out
        pure (0, out)
      else do
        let result ← infoProgram bmpDibHeaderOff out
        pure (0, result.2)

/-- The pixel in a word. -/
def pixelOfData (data : ℕ) : BmpPixel :=
  ⟨BitVec.ofNat 8 (data / 2 ^ 16), BitVec.ofNat 8 (data / 2 ^ 8), BitVec.ofNat 8 data⟩

/-- `libbmp_get_pixel`. -/
def getPixelProgram (bmp : Bmp) (x y : ℕ) (out : PixelOut) : Probe ℕ Byte (Option PixelOut) :=
  if Rejects bmp x y then pure (some out)
  else
    match rowSz bmp with
    | none => pure none
    | some rowSz =>
        if bmp.bpp = 24 then do
          let data ← askFileWord (pixelAddress bmp rowSz x y)
          pure (some ⟨pixelOfData data, 0⟩)
        else pure (some out)

/-- `libbmp_get_all_pixels` reads the word of a pixel before it looks at the depth. -/
def getAllPixelsProgram (bmp : Bmp) : Probe ℕ Byte (Option (List BmpPixel)) :=
  match rowSz bmp with
  | none => pure none
  | some rowSz => do
      let all ← Probe.collect (fun y => Probe.collect (fun x => do
        let data ← askFileWord (pixelAddress bmp rowSz x y)
        pure (if bmp.bpp = 32 ∨ bmp.bpp = 24 then [pixelOfData data] else []))
        (List.range bmp.w)) (List.range bmp.h)
      pure (some all)

variable {file : Memory} {bmp out : Bmp}

@[simp] theorem run_askFileWord (place : ℕ) :
    (askFileWord place).run file = loadWord file place := by
  simp only [askFileWord, Probe.run_bind, Probe.run_ask, Probe.run_pure, loadWord]

@[simp] theorem run_askFileHalf (place : ℕ) :
    (askFileHalf place).run file = loadHalf file place := by
  simp only [askFileHalf, Probe.run_bind, Probe.run_ask, Probe.run_pure, loadHalf]

@[simp] theorem reads_askFileWord (place : ℕ) :
    (askFileWord place).reads file = (List.range 4).map (offset place) := by
  simp only [askFileWord, Probe.reads_bind, Probe.reads_ask, Probe.reads_pure]
  rfl

/-- The program computes what the function does. -/
theorem run_decodeProgram (file : Memory) (out : Bmp) :
    (decodeProgram out).run file = libbmpDecodeBmp file out := by
  rw [decodeProgram, Probe.run_bind, Probe.run_ask, libbmpDecodeBmp]
  by_cases first : file 0 ≠ 0x42#8
  · rw [if_pos first, if_pos (.inl first), Probe.run_pure]
  · rw [if_neg first, Probe.run_bind, Probe.run_ask]
    by_cases second : file 1 ≠ 0x4D#8
    · rw [if_pos second, if_pos (.inr second), Probe.run_pure]
    · rw [if_neg second, if_neg (not_or.mpr ⟨first, second⟩)]
      simp only [Probe.run_bind, run_askFileWord]
      by_cases core : loadWord file bmpDibHeaderOff = 12 ∨ loadWord file bmpDibHeaderOff = 16 ∨
          loadWord file bmpDibHeaderOff = 64
      · rw [if_pos core, if_pos core]
        simp only [coreProgram, Probe.run_bind, run_askFileHalf, Probe.run_pure,
          getBmpDimensionsCore]
      · rw [if_neg core, if_neg core]
        simp only [infoProgram, Probe.run_bind, run_askFileHalf, run_askFileWord, Probe.run_pure,
          getBmpDimensionsInfo]

theorem run_getPixelProgram (file : Memory) (bmp : Bmp) (x y : ℕ) (out : PixelOut) :
    (getPixelProgram bmp x y out).run file = libbmpGetPixel file bmp x y out := by
  rw [getPixelProgram, libbmpGetPixel, exists_rowSz]
  by_cases rejected : Rejects bmp x y
  · rw [if_pos rejected, if_pos rejected, Probe.run_pure]
  · rw [if_neg rejected, if_neg rejected, Option.map_some]
    by_cases depth : bmp.bpp = 24
    · simp only [if_pos depth, Probe.run_bind, run_askFileWord, Probe.run_pure]
      rfl
    · simp only [if_neg depth, Probe.run_pure]

theorem run_getAllPixelsProgram (file : Memory) (bmp : Bmp) :
    (getAllPixelsProgram bmp).run file = libbmpGetAllPixels file bmp := by
  rw [getAllPixelsProgram, libbmpGetAllPixels, exists_rowSz, Option.map_some]
  simp only [Probe.run_bind, Probe.run_collect, run_askFileWord, Probe.run_pure]
  rfl

/-- The words of all pixels are read, row by row. -/
theorem reads_getAllPixelsProgram {size : ℕ} (row : rowSz bmp = some size) :
    (getAllPixelsProgram bmp).reads file =
      (List.range bmp.h).flatMap fun y => (List.range bmp.w).flatMap fun x =>
        (List.range 4).map (offset (pixelAddress bmp size x y)) := by
  rw [getAllPixelsProgram, row]
  simp only [Probe.reads_bind, Probe.reads_collect, reads_askFileWord, Probe.reads_pure,
    List.append_nil]

/-! ## Reads in the file -/

/-- The file is as long as it says, everything that is read of it is inside it, and the
coordinates outside the image are rejected. -/
structure ReadsStayInFile (file : Memory) (out bmp : Bmp) : Prop where
  decode : ∀ place ∈ (decodeProgram out).reads file, place < loadWord file 2
  all : ∀ place ∈ (getAllPixelsProgram bmp).reads file, place < loadWord file 2
  pixel : ∀ x < 2 ^ 32, ∀ y < 2 ^ 32, ¬ Rejects bmp x y → ∀ result,
    ∀ place ∈ (getPixelProgram bmp x y result).reads file, place < loadWord file 2
  rejects : ∀ x < 2 ^ 32, ∀ y < 2 ^ 32, bmp.w ≤ x ∨ bmp.h ≤ y → Rejects bmp x y

theorem littleEndian_lt (file : Memory) (place size : ℕ) :
    littleEndian file place size < 256 ^ size := by
  induction size with
  | zero => exact Nat.one_pos
  | succ size ih =>
      have byte := Nat.mul_le_mul_left (256 ^ size)
        (Nat.le_of_lt_succ (file (place + size)).isLt)
      rw [littleEndian, pow_succ]
      omega

/-- The width of a decoded image. -/
theorem decoded_w_lt (decoded : libbmpDecodeBmp file out = (0, bmp)) : bmp.w < 2 ^ 32 := by
  have magic := (decode_accepts_iff file out).mp (congrArg Prod.fst decoded)
  have fields := (@decode_accepts file out magic).2
  rw [decoded] at fields
  rw [fields.w]
  split
  · exact (littleEndian_lt file 18 2).trans (by decide)
  · exact littleEndian_lt file 18 4

/-- **No file is read as it should be**: the test of the coordinates lets the width
through. -/
theorem not_readsStayInFile (file : Memory) (out bmp : Bmp)
    (decoded : libbmpDecodeBmp file out = (0, bmp)) : ¬ ReadsStayInFile file out bmp := by
  intro stays
  obtain beyond | above := stays.rejects bmp.w (decoded_w_lt decoded) 0 (by decide)
    (.inl (le_refl _))
  · exact Nat.lt_irrefl _ beyond
  · exact Nat.not_lt_zero _ above

/-- One pixel with 24 bits. -/
theorem onePixel_not_readsStayInFile : ∃ out bmp : Bmp,
    libbmpDecodeBmp (encodeBmp 1 1 24 oneBluePixel) out = (0, bmp) ∧
      ¬ ReadsStayInFile (encodeBmp 1 1 24 oneBluePixel) out bmp := by
  have isBmp := @encodeBmp_isBmp 1 1 24 oneBluePixel (.inl rfl) (by decide) (by decide)
    (by decide)
  obtain ⟨filesize, decoded⟩ := isBmp.decode ⟨0, 0, 0, 0, 0, 0⟩
  exact ⟨_, _, decoded, not_readsStayInFile _ _ _ decoded⟩

/-- Without a wrap, the pixel that is farthest from the start is the last one. -/
theorem getAllPixels_inside_iff {size length : ℕ} (row : rowSz bmp = some size)
    (wide : 0 < bmp.w) (high : 0 < bmp.h)
    (fits : bmp.pixelarray + (size * (bmp.h - 1) + (bmp.w - 1) * (bmp.bpp / 8)) + 4 ≤ 2 ^ 32) :
    (∀ place ∈ (getAllPixelsProgram bmp).reads file, place < length) ↔
      bmp.pixelarray + (size * (bmp.h - 1) + (bmp.w - 1) * (bmp.bpp / 8)) + 4 ≤ length := by
  have address {x y : ℕ} (column : x < bmp.w) (line : y < bmp.h) {i : ℕ} (byte : i < 4) :
      offset (pixelAddress bmp size x y) i =
          bmp.pixelarray + (size * y + x * (bmp.bpp / 8)) + i ∧
        size * y + x * (bmp.bpp / 8) ≤ size * (bmp.h - 1) + (bmp.w - 1) * (bmp.bpp / 8) := by
    have rows : size * y ≤ size * (bmp.h - 1) := Nat.mul_le_mul_left _ (by omega)
    have columns : x * (bmp.bpp / 8) ≤ (bmp.w - 1) * (bmp.bpp / 8) :=
      Nat.mul_le_mul_right _ (by omega)
    have start : offset bmp.pixelarray (size * y + x * (bmp.bpp / 8)) =
        bmp.pixelarray + (size * y + x * (bmp.bpp / 8)) := offset_eq (by omega)
    refine ⟨?_, by omega⟩
    rw [pixelAddress, Nat.mod_eq_of_lt (by omega), start, offset_eq (by omega)]
  rw [reads_getAllPixelsProgram row]
  constructor
  · intro inside
    have column : bmp.w - 1 < bmp.w := by omega
    have line : bmp.h - 1 < bmp.h := by omega
    have last := inside (offset (pixelAddress bmp size (bmp.w - 1) (bmp.h - 1)) 3) <|
      List.mem_flatMap.mpr ⟨bmp.h - 1, List.mem_range.mpr line,
        List.mem_flatMap.mpr ⟨bmp.w - 1, List.mem_range.mpr column,
          List.mem_map.mpr ⟨3, by decide, rfl⟩⟩⟩
    rw [(address column line (by decide)).1] at last
    omega
  · intro room place member
    simp only [List.mem_flatMap, List.mem_map, List.mem_range] at member
    obtain ⟨y, line, x, column, i, byte, rfl⟩ := member
    obtain ⟨place, below⟩ := address column line byte
    rw [place]
    omega

/-- An image with 32 bits and a second row is read behind its end. -/
theorem isBmp_not_inside {w h off : ℕ} {pixels : ℕ → ℕ → BmpPixel}
    (isBmp : IsBmp file w h 32 off pixels) (wide : 1 ≤ w) (high : 2 ≤ h)
    (word : 32 * w + 31 < 2 ^ 32) (fits : off + (rowSize w 32 + 4) * h ≤ 2 ^ 32) :
    ∃ bmp, libbmpDecodeBmp file out = (0, bmp) ∧
      ¬ ∀ place ∈ (getAllPixelsProgram bmp).reads file, place < loadWord file 2 := by
  obtain ⟨filesize, decoded⟩ := isBmp.decode out
  refine ⟨_, decoded, ?_⟩
  have row : rowSz ⟨filesize, w, h, 32, off, off⟩ = some (rowSize w 32 + 4) := by
    rw [rowSz_eq word, decodedRowSize_eq (.inr rfl)]
    rfl
  have rowBytes : rowSize w 32 = 4 * w := by
    unfold rowSize alignUp
    omega
  have lines : (rowSize w 32 + 4) * h = (rowSize w 32 + 4) * (h - 1) + (rowSize w 32 + 4) := by
    rw [← Nat.mul_succ, Nat.succ_eq_add_one, Nat.sub_add_cancel (by omega)]
  have whole : (rowSize w 32 + 4) * h = rowSize w 32 * h + 4 * h := Nat.add_mul _ _ _
  rw [getAllPixels_inside_iff row wide (show 0 < h by omega) (by dsimp only; omega),
    isBmp.filesize]
  dsimp only
  omega

/-- Two rows of one pixel with 32 bits are read behind the end of their file. -/
theorem twoRows_read_behind : ¬ ∀ (file : Memory) (out bmp : Bmp),
    libbmpDecodeBmp file out = (0, bmp) → ReadsStayInFile file out bmp := by
  intro all
  have isBmp := @encodeBmp_isBmp 1 2 32 oneBluePixel (.inr rfl) (by decide) (by decide)
    (by decide)
  obtain ⟨bmp, decoded, behind⟩ := @isBmp_not_inside _ ⟨0, 0, 0, 0, 0, 0⟩ _ _ _ _ isBmp
    (by decide) (by decide) (by decide) (by decide)
  exact behind (all _ _ _ decoded).all

end CatchOS.Shell
