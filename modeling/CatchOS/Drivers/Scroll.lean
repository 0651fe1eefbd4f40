import CatchOS.Drivers.TextScreen

/-!
# Scrolling

`svga_scroll_down` moves the lines of the back buffer up by `_memcpy` within the buffer,
clears the last row of characters and copies the buffer to the framebuffer. It copies all
scan lines but one, however many are scrolled, and so reads behind the back buffer
whenever there is something to copy (`svgaScrollDown_iff`). What it brings in from there
stays on the screen above the cleared row, unless a single row is scrolled: the lines are
scrolled as they should be exactly when the bytes behind the back buffer, as many as the
other rows have, are zero.

The loop copies the first byte first, and from higher places to lower ones, so every byte
is read before it is overwritten (`memcpyBack_backbuffer`).
-/

set_option autoImplicit false

namespace CatchOS.Drivers

/-! ## The function -/

/-- Both buffers, and the places of the back buffer that were read. -/
structure Scrolling where
  svga : Svga
  reads : List ℕ

/-- `_memcpy` within the back buffer. -/
def memcpyBack (dst src : ℕ) (scrolling : Scrolling) : ℕ → Scrolling
  | 0 => scrolling
  | len + 1 =>
      let before := memcpyBack dst src scrolling len
      let backbuffer := before.svga.backbuffer
      { svga := { before.svga with
          backbuffer := Function.update backbuffer (offset dst len) (backbuffer (offset src len)) }
        reads := before.reads ++ [offset src len] }

/-- `_memcpy` of the back buffer to the framebuffer. -/
def memcpyOut (scrolling : Scrolling) : ℕ → Scrolling
  | 0 => scrolling
  | len + 1 =>
      let before := memcpyOut scrolling len
      { svga := { before.svga with
          lfb := Function.update before.svga.lfb (offset 0 len)
            (before.svga.backbuffer (offset 0 len)) }
        reads := before.reads ++ [offset 0 len] }

def svgaScrollDown (mode : ScreenMode) (svga : Svga) (lines : ℕ) : Scrolling :=
  let lines := if mode.scrRows < lines then mode.scrRows else lines
  let lineSize := mode.pitch
  let fbSize := mode.height * lineSize % 2 ^ 32
  let rowSize := lineSize * (fontH + 2) % 2 ^ 32
  let moved := memcpyBack 0 (lines * rowSize % 2 ^ 32) ⟨svga, []⟩
    (offset fbSize (2 ^ 32 - lineSize))
  let cleared := { moved with
    svga := { moved.svga with
      backbuffer := memset moved.svga.backbuffer (offset fbSize (2 ^ 32 - rowSize)) 0 rowSize } }
  memcpyOut cleared fbSize

/-! ## Scrolling as it should be -/

/-- A mode whose two buffers are in the memory of the machine. -/
structure Framebuffer extends ScreenMode where
  inMemory : 2 * (height * pitch) ≤ 2 ^ 32

/-- Only the back buffer is read. -/
def ReadsInside (mode : ScreenMode) (svga : Svga) (lines : ℕ) : Prop :=
  ∀ place ∈ (svgaScrollDown mode svga lines).reads, place < mode.height * mode.pitch

/-- Every scan line of both buffers is the one that is the given number of rows below it,
or zero behind the last one. -/
def Scrolled (mode : ScreenMode) (svga : Svga) (lines : ℕ) : Prop :=
  ∀ y < mode.height, ∀ x < mode.pitch,
    let below := y + lines * (fontH + 2)
    let byte := if below < mode.height then svga.backbuffer (below * mode.pitch + x) else 0
    (svgaScrollDown mode svga lines).svga.backbuffer (y * mode.pitch + x) = byte ∧
      (svgaScrollDown mode svga lines).svga.lfb (y * mode.pitch + x) = byte

/-- The bytes behind the back buffer that are brought in above the cleared row. -/
def ZeroBehind (mode : ScreenMode) (svga : Svga) (lines : ℕ) : Prop :=
  ∀ i < (lines - 1) * ((fontH + 2) * mode.pitch),
    svga.backbuffer (mode.height * mode.pitch + i) = 0

/-! ## The loops -/

variable {scrolling : Scrolling} {src len : ℕ}

/-- The places below the length get the bytes that were at the source before the loop. -/
theorem memcpyBack_backbuffer (fits : src + len ≤ 2 ^ 32) (place : ℕ) :
    (memcpyBack 0 src scrolling len).svga.backbuffer place =
      if place < len then scrolling.svga.backbuffer (src + place)
      else scrolling.svga.backbuffer place := by
  induction len generalizing place with
  | zero => rfl
  | succ len ih =>
      have copied := ih (by omega)
      rw [memcpyBack]
      dsimp only
      rw [offset_eq (by omega), offset_eq (by omega), Nat.zero_add]
      by_cases here : place = len
      · subst here
        -- The source is not below the places that are written already.
        rw [Function.update_self, copied, if_neg (by omega), if_pos (Nat.lt_succ_self _)]
      · rw [Function.update_of_ne here, copied]
        have same : place < len + 1 ↔ place < len := by omega
        simp only [same]

theorem memcpyBack_reads :
    (memcpyBack 0 src scrolling len).reads =
      scrolling.reads ++ (List.range len).map (offset src) := by
  induction len with
  | zero => exact (List.append_nil _).symm
  | succ len ih =>
      rw [memcpyBack, List.range_succ, List.map_append, ← List.append_assoc, ← ih]
      rfl

theorem memcpyOut_backbuffer :
    (memcpyOut scrolling len).svga.backbuffer = scrolling.svga.backbuffer := by
  induction len with
  | zero => rfl
  | succ len ih => exact ih

theorem memcpyOut_lfb (fits : len ≤ 2 ^ 32) {place : ℕ} (inside : place < len) :
    (memcpyOut scrolling len).svga.lfb place = scrolling.svga.backbuffer place := by
  induction len with
  | zero => cases inside
  | succ len ih =>
      rw [memcpyOut, memcpyOut_backbuffer]
      dsimp only
      rw [offset_eq (by omega), Nat.zero_add]
      by_cases here : place = len
      · rw [here, Function.update_self]
      · rw [Function.update_of_ne here]
        exact ih (by omega) (by omega)

theorem memcpyOut_reads :
    (memcpyOut scrolling len).reads = scrolling.reads ++ (List.range len).map (offset 0) := by
  induction len with
  | zero => exact (List.append_nil _).symm
  | succ len ih =>
      rw [memcpyOut, List.range_succ, List.map_append, ← List.append_assoc, ← ih]
      rfl

/-! ## The scan lines -/

variable {buffer : Framebuffer} {svga : Svga} {lines : ℕ}

/-- The sizes that the function computes, without a wrap. -/
structure Sizes (buffer : Framebuffer) (lines : ℕ) : Prop where
  distance : lines * ((fontH + 2) * buffer.pitch) ≤ buffer.height * buffer.pitch
  row : (fontH + 2) * buffer.pitch ≤ lines * ((fontH + 2) * buffer.pitch)
  inMemory : 2 * (buffer.height * buffer.pitch) ≤ 2 ^ 32

theorem sizes (one : 1 ≤ lines) (few : lines ≤ buffer.scrRows) : Sizes buffer lines := by
  refine ⟨?_, Nat.le_mul_of_pos_left _ one, buffer.inMemory⟩
  rw [← Nat.mul_assoc]
  refine Nat.mul_le_mul_right _ ((Nat.mul_le_mul_right _ few).trans ?_)
  exact Nat.div_mul_le_self _ _

/-- The function with its sizes. -/
theorem svgaScrollDown_eq (one : 1 ≤ lines) (few : lines ≤ buffer.scrRows) :
    let size := buffer.height * buffer.pitch
    let row := (fontH + 2) * buffer.pitch
    let moved := memcpyBack 0 (lines * row) ⟨svga, []⟩ (size - buffer.pitch)
    svgaScrollDown buffer.toScreenMode svga lines =
      memcpyOut { moved with
        svga := { moved.svga with
          backbuffer := memset moved.svga.backbuffer (size - row) 0 row } } size := by
  intro size row moved
  have distance : lines * row ≤ size := (sizes one few).distance
  have atLeast : row ≤ lines * row := (sizes one few).row
  have inMemory : 2 * size ≤ 2 ^ 32 := buffer.inMemory
  have positive : buffer.pitch ≤ row := Nat.le_mul_of_pos_left _ (by decide)
  have sizeWord : buffer.height * buffer.pitch % 2 ^ 32 = size :=
    Nat.mod_eq_of_lt (show size < 2 ^ 32 by omega)
  have rowWord : buffer.pitch * (fontH + 2) % 2 ^ 32 = row := by
    rw [Nat.mul_comm]
    exact Nat.mod_eq_of_lt (show row < 2 ^ 32 by omega)
  have distanceWord : lines * row % 2 ^ 32 = lines * row := Nat.mod_eq_of_lt (by omega)
  have copied : offset size (2 ^ 32 - buffer.pitch) = size - buffer.pitch := by
    unfold offset
    omega
  have cleared : offset size (2 ^ 32 - row) = size - row := by
    unfold offset
    omega
  rw [svgaScrollDown, if_neg (Nat.not_lt.mpr few)]
  dsimp only
  rw [sizeWord, rowWord, distanceWord, copied, cleared]

/-- The places that are read: the lines to be moved, and the whole buffer. -/
theorem reads_eq (one : 1 ≤ lines) (few : lines ≤ buffer.scrRows) :
    (svgaScrollDown buffer.toScreenMode svga lines).reads =
      (List.range (buffer.height * buffer.pitch - buffer.pitch)).map
        (offset (lines * ((fontH + 2) * buffer.pitch))) ++
      (List.range (buffer.height * buffer.pitch)).map (offset 0) := by
  rw [svgaScrollDown_eq one few, memcpyOut_reads]
  dsimp only
  rw [memcpyBack_reads]
  rfl

/-- The bytes of both buffers afterwards: the moved bytes, and zeros in the last row. -/
theorem bytes_eq (one : 1 ≤ lines) (few : lines ≤ buffer.scrRows) {place : ℕ}
    (inside : place < buffer.height * buffer.pitch) :
    let after := (svgaScrollDown buffer.toScreenMode svga lines).svga
    let row := (fontH + 2) * buffer.pitch
    (after.backbuffer place = if place < buffer.height * buffer.pitch - row then
        svga.backbuffer (place + lines * row) else 0) ∧
      after.lfb place = after.backbuffer place := by
  intro after row
  have distance : lines * row ≤ buffer.height * buffer.pitch := (sizes one few).distance
  have atLeast : row ≤ lines * row := (sizes one few).row
  have inMemory := buffer.inMemory
  have positive : buffer.pitch ≤ row := Nat.le_mul_of_pos_left _ (by decide)
  have shown : after.lfb place = after.backbuffer place := by
    simp only [after, svgaScrollDown_eq one few, memcpyOut_backbuffer]
    exact memcpyOut_lfb (by omega) inside
  refine ⟨?_, shown⟩
  simp only [after, svgaScrollDown_eq one few, memcpyOut_backbuffer]
  by_cases kept : place < buffer.height * buffer.pitch - row
  · have fits : lines * ((fontH + 2) * buffer.pitch) +
        (buffer.height * buffer.pitch - buffer.pitch) ≤ 2 ^ 32 := by
      have far := (sizes one few).distance
      omega
    rw [if_pos kept, memset_below kept (by omega), memcpyBack_backbuffer fits,
      if_pos (by omega), Nat.add_comm]
  · rw [if_neg kept]
    obtain ⟨i, rfl⟩ := Nat.exists_eq_add_of_le (Nat.not_lt.mp kept)
    rw [← offset_eq (show buffer.height * buffer.pitch - row + i < 2 ^ 32 by omega)]
    exact memset_inside (by omega)

/-- With something to copy, the byte behind the back buffer is read. -/
theorem behind_mem_reads (one : 1 ≤ lines) (few : lines ≤ buffer.scrRows)
    (positive : 0 < buffer.pitch) :
    buffer.height * buffer.pitch ∈ (svgaScrollDown buffer.toScreenMode svga lines).reads := by
  have distance := (sizes one few).distance
  have atLeast := (sizes one few).row
  have inMemory := buffer.inMemory
  have larger : buffer.pitch < (fontH + 2) * buffer.pitch := by
    unfold fontH
    omega
  rw [reads_eq one few, List.mem_append, List.mem_map]
  refine .inl ⟨buffer.height * buffer.pitch - lines * ((fontH + 2) * buffer.pitch), ?_, ?_⟩
  · rw [List.mem_range]
    omega
  · rw [offset_eq (by omega)]
    omega

/-- Nothing is read behind the back buffer only when it is empty. -/
theorem readsInside_iff (one : 1 ≤ lines) (few : lines ≤ buffer.scrRows) :
    ReadsInside buffer.toScreenMode svga lines ↔ buffer.pitch = 0 := by
  constructor
  · intro inside
    by_contra positive
    exact Nat.lt_irrefl _ (inside _ (behind_mem_reads one few (Nat.pos_of_ne_zero positive)))
  · intro empty place member
    rw [reads_eq one few, empty, Nat.mul_zero] at member
    simp at member

/-- A byte of a scan line is in the buffer when the line is. -/
theorem place_lt_iff {pitch height x y : ℕ} (inLine : x < pitch) :
    y * pitch + x < height * pitch ↔ y < height := by
  constructor
  · intro inside
    by_contra outside
    have above := Nat.mul_le_mul_right pitch (Nat.not_lt.mp outside)
    omega
  · intro inside
    have above := Nat.mul_le_mul_right pitch (Nat.succ_le_of_lt inside)
    rw [Nat.succ_mul] at above
    omega

/-- Scrolling by place: what is brought in from behind the buffer should be zero. -/
theorem scrolled_iff_places (one : 1 ≤ lines) (few : lines ≤ buffer.scrRows) :
    Scrolled buffer.toScreenMode svga lines ↔
      ∀ place < buffer.height * buffer.pitch - (fontH + 2) * buffer.pitch,
        buffer.height * buffer.pitch ≤ place + lines * ((fontH + 2) * buffer.pitch) →
          svga.backbuffer (place + lines * ((fontH + 2) * buffer.pitch)) = 0 := by
  have atLeast := (sizes one few).row
  have below (x y : ℕ) : (y + lines * (fontH + 2)) * buffer.pitch + x =
      y * buffer.pitch + x + lines * ((fontH + 2) * buffer.pitch) := by ring
  constructor
  · intro scrolled place kept behind
    have positive : 0 < buffer.pitch := by
      by_contra none
      rw [Nat.eq_zero_of_not_pos none] at kept
      simp at kept
    have split := Nat.div_add_mod' place buffer.pitch
    have inLine := Nat.mod_lt place positive
    have inScreen : place / buffer.pitch < buffer.height := by
      rw [← place_lt_iff inLine, split]
      omega
    have byte := (scrolled _ inScreen _ inLine).1
    have past : ¬ place / buffer.pitch + lines * (fontH + 2) < buffer.height := by
      rw [← place_lt_iff inLine, below, split]
      omega
    rw [if_neg past, split, (bytes_eq one few (by omega)).1, if_pos kept] at byte
    exact byte
  · intro zero y inScreen x inLine
    have inside := (place_lt_iff inLine).mpr inScreen
    obtain ⟨moved, shown⟩ := @bytes_eq buffer svga lines one few _ inside
    have byte : (svgaScrollDown buffer.toScreenMode svga lines).svga.backbuffer
        (y * buffer.pitch + x) =
          if y + lines * (fontH + 2) < buffer.height then
            svga.backbuffer ((y + lines * (fontH + 2)) * buffer.pitch + x) else 0 := by
      rw [moved, below]
      by_cases kept : y * buffer.pitch + x <
          buffer.height * buffer.pitch - (fontH + 2) * buffer.pitch
      · rw [if_pos kept]
        by_cases onScreen : y + lines * (fontH + 2) < buffer.height
        · rw [if_pos onScreen]
        · rw [if_neg onScreen]
          rw [← place_lt_iff inLine, below] at onScreen
          exact zero _ kept (Nat.not_lt.mp onScreen)
      · have past : ¬ y + lines * (fontH + 2) < buffer.height := by
          rw [← place_lt_iff inLine, below]
          omega
        rw [if_neg kept, if_neg past]
    exact ⟨byte, shown.trans byte⟩

/-- The lines are scrolled as they should be when the bytes behind the back buffer are
zero. -/
theorem scrolled_iff (one : 1 ≤ lines) (few : lines ≤ buffer.scrRows) :
    Scrolled buffer.toScreenMode svga lines ↔ ZeroBehind buffer.toScreenMode svga lines := by
  have distance := (sizes one few).distance
  have atLeast := (sizes one few).row
  have others : lines * ((fontH + 2) * buffer.pitch) =
      (lines - 1) * ((fontH + 2) * buffer.pitch) + (fontH + 2) * buffer.pitch := by
    rw [← Nat.succ_mul, Nat.succ_eq_add_one, Nat.sub_add_cancel one]
  rw [scrolled_iff_places one few]
  constructor
  · intro zero i bound
    have place := zero (buffer.height * buffer.pitch + i -
      lines * ((fontH + 2) * buffer.pitch)) (by omega) (by omega)
    rwa [Nat.sub_add_cancel (by omega)] at place
  · intro zero place kept behind
    have byte := zero (place + lines * ((fontH + 2) * buffer.pitch) -
      buffer.height * buffer.pitch) (by omega)
    rwa [Nat.add_sub_cancel' behind] at byte

/-- **Scrolling.** The function reads behind the back buffer unless the buffer is empty. The
lines are scrolled as they should be exactly when the bytes brought in from there are
zero. -/
theorem svgaScrollDown_iff (buffer : Framebuffer) (svga : Svga) {lines : ℕ} (one : 1 ≤ lines)
    (few : lines ≤ buffer.scrRows) :
    (ReadsInside buffer.toScreenMode svga lines ∧ Scrolled buffer.toScreenMode svga lines ↔
      buffer.pitch = 0) ∧
    (Scrolled buffer.toScreenMode svga lines ↔ ZeroBehind buffer.toScreenMode svga lines) := by
  refine ⟨?_, scrolled_iff one few⟩
  rw [readsInside_iff one few]
  refine ⟨fun both => both.1, fun empty => ⟨empty, (scrolled_iff one few).mpr fun i bound => ?_⟩⟩
  rw [empty, Nat.mul_zero, Nat.mul_zero] at bound
  cases bound

/-- 640 times 480 pixels with four bytes each. -/
def vgaBuffer : Framebuffer where
  toScreenMode := vga.toScreenMode
  inMemory := by decide

/-- One row is scrolled right, whatever is behind the back buffer: here all bytes are 1. -/
theorem vga_one_row_scrolled : Scrolled vgaBuffer.toScreenMode ⟨fun _ => 1, fun _ => 1⟩ 1 :=
  (svgaScrollDown_iff vgaBuffer ⟨fun _ => 1, fun _ => 1⟩ (le_refl 1) (by decide)).2.mpr
    fun i bound => by
      rw [Nat.sub_self, Nat.zero_mul] at bound
      cases bound

/-- Scrolling one row reads behind the back buffer. -/
theorem vga_reads_behind : ¬ ∀ (buffer : Framebuffer) (svga : Svga) (lines : ℕ), 1 ≤ lines →
    lines ≤ buffer.scrRows →
      ReadsInside buffer.toScreenMode svga lines ∧ Scrolled buffer.toScreenMode svga lines := by
  intro all
  have inside := (all vgaBuffer ⟨fun _ => 0, fun _ => 0⟩ 1 (le_refl 1) (by decide)).1
  exact absurd ((readsInside_iff (le_refl 1) (by decide)).mp inside) (by decide)

end CatchOS.Drivers
