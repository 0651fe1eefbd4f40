import CatchOS.Lib.Transition
import CatchOS.Machine.Memory
import CatchOS.Utils.Bitmap

/-!
# The screen and its back buffer

`svga.c` draws every pixel twice, into the linear framebuffer and into `_backbuffer`, so
that scrolling can move the lines in the back buffer and copy them out. The two buffers are
given by their bytes, from their start on; how far a byte is from the start is computed in
32 bits.

With 24 bits per pixel the driver masks the fourth byte of the word it writes to the
framebuffer, and does not mask it in the back buffer. A pixel is drawn as it should be
exactly when the byte behind it in the back buffer has the value already (`OverwritesSame`).
In the runs in which all pixels are, the buffers agree (`buffers_agree`); with any other
depth these are all runs.
-/

set_option autoImplicit false

namespace CatchOS.Drivers

open CatchOS.Lib

/-- `FONT_W` and `FONT_H`. -/
def fontW : ℕ := 8

def fontH : ℕ := 9

/-- The fields of the framebuffer tag that the driver uses, and the bytes of
`console_font_7x9`. -/
structure ScreenMode where
  bpp : ℕ
  pitch : ℕ
  width : ℕ
  height : ℕ
  font : ℕ → Byte

/-- `_svga_lfb` and `_backbuffer`. -/
structure Svga where
  lfb : Memory
  backbuffer : Memory

namespace ScreenMode

variable (mode : ScreenMode)

def scrColumns : ℕ := mode.width / fontW

def scrRows : ℕ := mode.height / (fontH + 2)

/-- How many bytes a pixel has; other depths are not supported. -/
def pixelBytes : ℕ :=
  if mode.bpp = 8 then 1
  else if mode.bpp = 15 ∨ mode.bpp = 16 then 2
  else if mode.bpp = 24 then 3
  else if mode.bpp = 32 then 4
  else 0

/-- How far a pixel is from the start of its buffer. -/
def pixelAt (x y : ℕ) : ℕ := (mode.pitch * y + mode.pixelBytes * x) % 2 ^ 32

end ScreenMode

/-- The low bytes of a value; the lowest one comes first. -/
def storeLow (memory : Memory) (address width value : ℕ) : Memory :=
  (List.range width).foldl
    (fun memory i =>
      Function.update memory (offset address i) (BitVec.ofNat 8 (value / 2 ^ (8 * i))))
    memory

/-- With 24 bits per pixel, the fourth byte of the word stays in the framebuffer only. -/
def svgaDrawPixel (mode : ScreenMode) (svga : Svga) (x y color : ℕ) : Svga :=
  let pixel := mode.pixelAt x y
  if mode.bpp = 8 then
    ⟨storeLow svga.lfb pixel 1 color, storeLow svga.backbuffer pixel 1 color⟩
  else if mode.bpp = 15 ∨ mode.bpp = 16 then
    ⟨storeLow svga.lfb pixel 2 color, storeLow svga.backbuffer pixel 2 color⟩
  else if mode.bpp = 24 then
    let kept := loadWord svga.lfb pixel / 2 ^ 24 * 2 ^ 24
    ⟨storeLow svga.lfb pixel 4 (color % 2 ^ 24 + kept), storeLow svga.backbuffer pixel 4 color⟩
  else if mode.bpp = 32 then
    ⟨storeLow svga.lfb pixel 4 color, storeLow svga.backbuffer pixel 4 color⟩
  else
    svga

/-! ## Calls that draw pixels -/

/-- `bitmap_get_bit_reverse` of a bitmap in the font. -/
def bitmapGetBitReverse (font : ℕ → Byte) (bitstring bitno : ℕ) : Bool :=
  (font (bitstring + bitno / 8)).getLsbD (7 - bitno % 8)

/-- It is what the function of `bitmap.c` reads in a memory that holds the font. -/
theorem utilsBitmapGetBitReverse_eq {memory : Memory} {font : ℕ → Byte}
    {start bitstring bitno : ℕ} (allocated : offset start bitstring ≠ 0)
    (placed : ∀ k, memory (offset start k) = font k) :
    Utils.bitmapGetBitReverse memory (offset start bitstring) bitno =
      if bitmapGetBitReverse font bitstring bitno then 1 else 0 := by
  simp only [Utils.bitmapGetBitReverse, if_neg allocated, offset_offset, placed,
    bitmapGetBitReverse]
  exact Utils.toNat_ushiftRight_and_one _ _

/-- `font_get_char`. -/
def fontGetChar (c : Byte) : ℕ := c.toNat * (fontW * fontH / 8)

inductive DrawCall where
  | pixel (x y color : ℕ)
  | rect (x1 y1 x2 y2 color : ℕ)
  | char (x y : ℕ) (c : Byte) (color : ℕ)
  | charCell (scrpos : ℕ) (c : Byte) (color : ℕ)

namespace DrawCall

/-- The pixels of `svga_draw_rect`, line by line. -/
def rectPixels (x1 y1 x2 y2 : ℕ) : List (ℕ × ℕ) :=
  (List.range' y1 (y2 - y1)).flatMap fun y => (List.range' x1 (x2 - x1)).map fun x => (x, y)

/-- The pixels of `svga_draw_char`; the sums are computed in 32 bits. -/
def charPixels (mode : ScreenMode) (x y : ℕ) (c : Byte) : List (ℕ × ℕ) :=
  (List.range fontH).flatMap fun yy =>
    ((List.range fontW).filter fun xx =>
      bitmapGetBitReverse mode.font (fontGetChar c) (yy * fontW + xx)).map fun xx =>
        (offset x xx, offset y yy)

/-- The calls of `svga_draw_pixel` that a call makes. -/
def pixels (mode : ScreenMode) : DrawCall → List (ℕ × ℕ)
  | pixel x y _ => [(x, y)]
  | rect x1 y1 x2 y2 _ => rectPixels x1 y1 x2 y2
  | char x y c _ => charPixels mode x y c
  | charCell scrpos c _ =>
      let y := scrpos / mode.scrColumns
      let x := scrpos % mode.scrColumns
      charPixels mode (fontW * x) ((fontH + 2) * y) c

def color : DrawCall → ℕ
  | pixel _ _ color => color
  | rect _ _ _ _ color => color
  | char _ _ _ color => color
  | charCell _ _ color => color

/-- A call of `svga_draw_char_cell` divides by the number of columns and does not scroll. -/
def noScroll (mode : ScreenMode) : DrawCall → Bool
  | charCell scrpos _ _ =>
      mode.scrColumns ≠ 0 ∧ offset scrpos 1 ≤ mode.scrRows * mode.scrColumns % 2 ^ 32
  | _ => true

end DrawCall

/-- The pixel is on the screen. -/
def ScreenMode.OnScreen (mode : ScreenMode) (place : ℕ × ℕ) : Prop :=
  place.1 < mode.width ∧ place.2 < mode.height

instance (mode : ScreenMode) (place : ℕ × ℕ) : Decidable (mode.OnScreen place) :=
  inferInstanceAs (Decidable (_ ∧ _))

def drawPixels (mode : ScreenMode) (svga : Svga) (color : ℕ) (places : List (ℕ × ℕ)) : Svga :=
  places.foldl (fun svga place => svgaDrawPixel mode svga place.1 place.2 color) svga

/-- A call with all its pixels on the screen. -/
def Svga.draw (mode : ScreenMode) (svga : Svga) (call : DrawCall) : Option Svga :=
  if call.noScroll mode ∧ ∀ place ∈ call.pixels mode, mode.OnScreen place then
    some (drawPixels mode svga call.color (call.pixels mode))
  else
    none

/-- The bytes of the screen are the same in both buffers. -/
def Svga.Agree (mode : ScreenMode) (svga : Svga) : Prop :=
  ∀ place < mode.height * mode.pitch, svga.lfb place = svga.backbuffer place

/-- Runs start with equal buffers. -/
def svgaSystem (mode : ScreenMode) : System Svga DrawCall where
  initial svga := svga.Agree mode
  step := Svga.draw mode

/-! ## One pixel -/

/-- The byte belongs to the pixel. -/
def ScreenMode.InPixel (mode : ScreenMode) (x y place : ℕ) : Prop :=
  ∃ i < mode.pixelBytes, place = offset (mode.pixelAt x y) i

/-- The call of `svga_draw_pixel` changes only bytes of its own pixel. -/
def OwnPixelOnly (mode : ScreenMode) (svga : Svga) (x y color : ℕ) : Prop :=
  ∀ place, ¬mode.InPixel x y place →
    (svgaDrawPixel mode svga x y color).lfb place = svga.lfb place ∧
    (svgaDrawPixel mode svga x y color).backbuffer place = svga.backbuffer place

/-- With 24 bits per pixel, the byte behind the pixel in the back buffer is the high byte of
the color. -/
def OverwritesSame (mode : ScreenMode) (svga : Svga) (x y color : ℕ) : Prop :=
  mode.bpp = 24 →
    svga.backbuffer (offset (mode.pixelAt x y) 3) = BitVec.ofNat 8 (color / 2 ^ 24)

section StoreLow

variable {memory : Memory} {address width value : ℕ}

theorem storeLow_succ : storeLow memory address (width + 1) value =
    Function.update (storeLow memory address width value) (offset address width)
      (BitVec.ofNat 8 (value / 2 ^ (8 * width))) := by
  rw [storeLow, List.range_succ, List.foldl_append]
  rfl

theorem storeLow_outside {place : ℕ} (outside : ∀ i < width, place ≠ offset address i) :
    storeLow memory address width value place = memory place := by
  induction width with
  | zero => rfl
  | succ width ih =>
      rw [storeLow_succ, Function.update_of_ne (outside width (Nat.lt_succ_self _))]
      exact ih fun i bound => outside i (Nat.lt_succ_of_lt bound)

theorem storeLow_byte {i : ℕ} (few : width ≤ 4) (bound : i < width) :
    storeLow memory address width value (offset address i) =
      BitVec.ofNat 8 (value / 2 ^ (8 * i)) := by
  induction width with
  | zero => cases bound
  | succ width ih =>
      rw [storeLow_succ]
      by_cases last : i = width
      · rw [last, Function.update_self]
      · rw [Function.update_of_ne, ih (by omega) (by omega)]
        rw [ne_eq, offset_inj (by omega) (by omega)]
        exact last

end StoreLow

/-- The four bytes of a word with its low three bytes replaced. -/
theorem byte_replaced {memory : Memory} {pixel color i : ℕ} (bound : i < 4) :
    BitVec.ofNat 8 ((color % 2 ^ 24 + loadWord memory pixel / 2 ^ 24 * 2 ^ 24) / 2 ^ (8 * i)) =
      if i < 3 then BitVec.ofNat 8 (color / 2 ^ (8 * i)) else memory (offset pixel i) := by
  split
  case isTrue low =>
    apply BitVec.eq_of_toNat_eq
    rw [BitVec.toNat_ofNat, BitVec.toNat_ofNat]
    rcases (by omega : i = 0 ∨ i = 1 ∨ i = 2) with rfl | rfl | rfl
    all_goals omega
  case isFalse high =>
    obtain rfl : i = 3 := by omega
    rw [← @byte_loadWord memory pixel 3 bound]
    have quotient : (color % 2 ^ 24 + loadWord memory pixel / 2 ^ 24 * 2 ^ 24) / 2 ^ (8 * 3) =
        loadWord memory pixel / 2 ^ (8 * 3) := by omega
    rw [quotient]

section Pixel

variable (mode : ScreenMode) (svga : Svga) (x y color : ℕ)

/-- What a pixel leaves in a buffer: its bytes are those of the color, and no other byte
changes. -/
structure Drawn (before after : Memory) : Prop where
  inside : ∀ i < mode.pixelBytes,
    after (offset (mode.pixelAt x y) i) = BitVec.ofNat 8 (color / 2 ^ (8 * i))
  outside : ∀ place, ¬mode.InPixel x y place → after place = before place

variable {mode x y color}

/-- A store of as many bytes as the pixel has. -/
theorem Drawn.storeLow {width : ℕ} (whole : mode.pixelBytes = width) (few : width ≤ 4)
    (memory : Memory) :
    Drawn mode x y color memory (storeLow memory (mode.pixelAt x y) width color) := by
  refine ⟨fun i bound => storeLow_byte few (whole ▸ bound), fun place outside => ?_⟩
  refine storeLow_outside fun i bound same => outside ⟨i, whole ▸ bound, same⟩

/-- A store of four bytes, when the pixel has three. -/
theorem Drawn.storeWord {value : ℕ} {memory : Memory} (three : mode.pixelBytes = 3)
    (low : ∀ i < 3, BitVec.ofNat 8 (value / 2 ^ (8 * i)) = BitVec.ofNat 8 (color / 2 ^ (8 * i)))
    (high : BitVec.ofNat 8 (value / 2 ^ 24) = memory (offset (mode.pixelAt x y) 3)) :
    Drawn mode x y color memory (Drivers.storeLow memory (mode.pixelAt x y) 4 value) := by
  refine ⟨fun i bound => ?_, fun place outside => ?_⟩
  · rw [three] at bound
    rw [storeLow_byte (by decide) (by omega), low i bound]
  · by_cases behind : place = offset (mode.pixelAt x y) 3
    · rw [behind, storeLow_byte (by decide) (by decide), ← high]
    · refine storeLow_outside fun i bound same => ?_
      have small : i < 3 := by
        rcases Nat.lt_or_eq_of_le (Nat.le_of_lt_succ bound) with less | rfl
        · exact less
        · exact absurd same behind
      exact outside ⟨i, three ▸ small, same⟩

end Pixel

section Modes

variable {mode : ScreenMode}

theorem pixelBytes_24 (depth : mode.bpp = 24) : mode.pixelBytes = 3 := by
  simp only [ScreenMode.pixelBytes, depth]
  rfl

/-- With any other depth both buffers get the bytes of the pixel. -/
theorem svgaDrawPixel_other (other : mode.bpp ≠ 24) (svga : Svga) (x y color : ℕ) :
    svgaDrawPixel mode svga x y color =
      ⟨storeLow svga.lfb (mode.pixelAt x y) mode.pixelBytes color,
        storeLow svga.backbuffer (mode.pixelAt x y) mode.pixelBytes color⟩ := by
  unfold svgaDrawPixel ScreenMode.pixelBytes
  split_ifs
  all_goals rfl

theorem svgaDrawPixel_24 (depth : mode.bpp = 24) (svga : Svga) (x y color : ℕ) :
    svgaDrawPixel mode svga x y color =
      ⟨storeLow svga.lfb (mode.pixelAt x y) 4
          (color % 2 ^ 24 + loadWord svga.lfb (mode.pixelAt x y) / 2 ^ 24 * 2 ^ 24),
        storeLow svga.backbuffer (mode.pixelAt x y) 4 color⟩ := by
  simp only [svgaDrawPixel, depth]
  rfl

theorem pixelBytes_le (mode : ScreenMode) : mode.pixelBytes ≤ 4 := by
  unfold ScreenMode.pixelBytes
  split_ifs
  all_goals decide

/-- The framebuffer gets the pixel, whatever the depth is. -/
theorem drawn_lfb (svga : Svga) (x y color : ℕ) :
    Drawn mode x y color svga.lfb (svgaDrawPixel mode svga x y color).lfb := by
  by_cases depth : mode.bpp = 24
  · rw [svgaDrawPixel_24 depth]
    refine .storeWord (pixelBytes_24 depth) ?_ ?_
    · intro i bound
      rw [byte_replaced (by omega), if_pos bound]
    · exact (@byte_replaced _ _ color 3 (by decide)).trans (if_neg (by decide))
  · rw [svgaDrawPixel_other depth]
    exact .storeLow rfl (pixelBytes_le mode) _

/-- The back buffer gets the pixel when the byte behind it has its value already. -/
theorem drawn_backbuffer {svga : Svga} {x y color : ℕ} (same : OverwritesSame mode svga x y color) :
    Drawn mode x y color svga.backbuffer (svgaDrawPixel mode svga x y color).backbuffer := by
  by_cases depth : mode.bpp = 24
  · rw [svgaDrawPixel_24 depth]
    exact .storeWord (pixelBytes_24 depth) (fun _ _ => rfl) (same depth).symm
  · rw [svgaDrawPixel_other depth]
    exact .storeLow rfl (pixelBytes_le mode) _

/-- A pixel is drawn as it should be exactly when the byte behind it stays. -/
theorem ownPixelOnly_iff {svga : Svga} {x y color : ℕ} :
    OwnPixelOnly mode svga x y color ↔ OverwritesSame mode svga x y color := by
  constructor
  · intro own depth
    have behind : ¬mode.InPixel x y (offset (mode.pixelAt x y) 3) := by
      rintro ⟨i, bound, same⟩
      rw [pixelBytes_24 depth] at bound
      rw [offset_inj (by decide) (by omega)] at same
      omega
    have kept := (own _ behind).2
    rw [← kept, svgaDrawPixel_24 depth]
    exact storeLow_byte (by decide) (by decide)
  · intro same place outside
    exact ⟨(drawn_lfb svga x y color).outside place outside,
      (drawn_backbuffer same).outside place outside⟩

/-- A pixel that is drawn as it should be keeps the buffers equal. -/
theorem Svga.Agree.drawPixel {svga : Svga} (agree : svga.Agree mode) {x y color : ℕ}
    (same : OverwritesSame mode svga x y color) :
    (svgaDrawPixel mode svga x y color).Agree mode := by
  have front := @drawn_lfb mode svga x y color
  have back := drawn_backbuffer same
  intro place onScreen
  by_cases inside : mode.InPixel x y place
  · obtain ⟨i, bound, rfl⟩ := inside
    rw [front.inside i bound, back.inside i bound]
  · rw [front.outside place inside, back.outside place inside, agree place onScreen]

end Modes

/-! ## Runs -/

/-- Each of the pixels is drawn as it should be, one after another. -/
def PixelsSame (mode : ScreenMode) (color : ℕ) : Svga → List (ℕ × ℕ) → Prop
  | _, [] => True
  | svga, (x, y) :: places =>
      OverwritesSame mode svga x y color ∧
        PixelsSame mode color (svgaDrawPixel mode svga x y color) places

/-- All pixels of a call are drawn as they should be. -/
def CallSame (mode : ScreenMode) (svga : Svga) (call : DrawCall) : Prop :=
  PixelsSame mode call.color svga (call.pixels mode)

section Decidable

variable (mode : ScreenMode)

instance (svga : Svga) (x y color : ℕ) : Decidable (OverwritesSame mode svga x y color) :=
  inferInstanceAs (Decidable (_ → _))

instance decidablePixelsSame (color : ℕ) :
    (svga : Svga) → (places : List (ℕ × ℕ)) → Decidable (PixelsSame mode color svga places)
  | _, [] => .isTrue trivial
  | svga, (x, y) :: places =>
      have := decidablePixelsSame color (svgaDrawPixel mode svga x y color) places
      inferInstanceAs (Decidable (_ ∧ _))

instance (svga : Svga) (call : DrawCall) : Decidable (CallSame mode svga call) :=
  decidablePixelsSame mode call.color svga (call.pixels mode)

end Decidable

theorem Svga.Agree.drawPixels {mode : ScreenMode} {color : ℕ} {places : List (ℕ × ℕ)} {svga : Svga}
    (agree : svga.Agree mode) (same : PixelsSame mode color svga places) :
    (drawPixels mode svga color places).Agree mode := by
  induction places generalizing svga with
  | nil => exact agree
  | cons place places ih => exact ih (agree.drawPixel same.1) same.2

/-- With any depth but 24 there is no condition on the pixels. -/
theorem callSame_of_depth {mode : ScreenMode} (depth : mode.bpp ≠ 24) (svga : Svga)
    (call : DrawCall) : CallSame mode svga call := by
  unfold CallSame
  generalize call.pixels mode = places
  induction places generalizing svga with
  | nil => trivial
  | cons place places ih => exact ⟨fun deep => absurd deep depth, ih _⟩

/-- What one call keeps, a run keeps. -/
theorem agree_reachable {mode : ScreenMode} {svga : Svga}
    (reachable : (svgaSystem mode).ReachableUnder (CallSame mode) svga) : svga.Agree mode := by
  refine reachable.invariant (Svga.Agree mode) (fun _ initial => initial) ?_
  intro svga call next agree same stepped
  obtain ⟨-, drawn⟩ := Option.ite_none_right_eq_some.mp stepped
  obtain rfl := Option.some.inj drawn
  exact agree.drawPixels same

/-- **Front and back buffer.** In every run whose pixels all find the byte behind them as
they leave it, the buffers agree, and a further pixel changes its own bytes only if and only
if it finds that byte so too. -/
theorem buffers_agree {mode : ScreenMode} {svga : Svga}
    (reachable : (svgaSystem mode).ReachableUnder (CallSame mode) svga) :
    svga.Agree mode ∧ ∀ x y color,
      OwnPixelOnly mode svga x y color ↔ OverwritesSame mode svga x y color := by
  exact ⟨agree_reachable reachable, fun x y color => ownPixelOnly_iff⟩

/-- With any depth but 24 bits per pixel the buffers agree in every run. -/
theorem agree_of_depth {mode : ScreenMode} (depth : mode.bpp ≠ 24) {svga : Svga}
    (reachable : (svgaSystem mode).Reachable svga) : svga.Agree mode := by
  exact agree_reachable (reachable.mono fun svga call _ => callSame_of_depth depth svga call)

/-- Two pixels of three bytes. -/
def twoPixels : ScreenMode := ⟨24, 6, 2, 1, fun _ => 0⟩

/-- From left to right every pixel finds a zero behind it. -/
theorem buffers_agree_left_to_right : ∃ svga,
    (svgaSystem twoPixels).ReachableUnder (CallSame twoPixels) svga ∧
      svga.backbuffer 3 = 7 ∧ svga.Agree twoPixels := by
  have initial : (svgaSystem twoPixels).initial ⟨fun _ => 0, fun _ => 0⟩ := fun _ _ => rfl
  obtain ⟨svga, reachable, tested⟩ := System.exists_reachableUnder_of_replay (svgaSystem twoPixels)
    (CallSame twoPixels) initial [.pixel 0 0 9, .pixel 1 0 7]
    (fun svga => svga.backbuffer 3 = 7) (by decide +kernel)
  exact ⟨svga, reachable, of_decide_eq_true tested, (buffers_agree reachable).1⟩

/-- From right to left the second pixel clears a byte of the first one in the back buffer. -/
theorem right_to_left_disagrees : ∃ svga, (svgaSystem twoPixels).Reachable svga ∧
    svga.lfb 3 = 7 ∧ svga.backbuffer 3 = 0 ∧ ¬svga.Agree twoPixels := by
  have initial : (svgaSystem twoPixels).initial ⟨fun _ => 0, fun _ => 0⟩ := fun _ _ => rfl
  obtain ⟨svga, reachable, tested⟩ := System.exists_reachableUnder_of_replay (svgaSystem twoPixels)
    (fun _ _ => True) initial [.pixel 1 0 7, .pixel 0 0 9]
    (fun svga => svga.lfb 3 = 7 ∧ svga.backbuffer 3 = 0) (by decide +kernel)
  obtain ⟨front, back⟩ := of_decide_eq_true tested
  refine ⟨svga, reachable, front, back, fun agree => ?_⟩
  have same := agree 3 (by decide)
  rw [front, back] at same
  exact absurd same (by decide)

end CatchOS.Drivers
