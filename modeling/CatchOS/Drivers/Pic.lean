import CatchOS.Machine.Memory
import Mathlib.Data.BitVec
import Mathlib.Tactic.IntervalCases

/-!
# The interrupt controllers

`pic.c` over the two controllers that it drives. The driver is the list of bytes that each of its
functions writes to ports, and the two masks that it keeps. A controller is what its data sheet says
of these bytes: the first word of an initialization makes it expect three more at its data port, the
first of which is the offset of its vectors; at any other time a byte at the data port is the mask,
and a command `0x20` ends the interrupt of the highest priority that is in service.

`Ready` says that both controllers are initialized as `pic_remap` does, and that their masks are
those the driver keeps. Every function of the driver leaves them ready.
-/

set_option autoImplicit false

namespace CatchOS.Drivers

/-! ## The driver -/

/-- `outb(port, data)`. -/
structure PortWrite where
  port : ℕ
  data : Byte
  deriving DecidableEq

def pic1Command : ℕ := 0x20

def pic1Data : ℕ := pic1Command + 1

def pic2Command : ℕ := 0xa0

def pic2Data : ℕ := pic2Command + 1

def pic1StartInterrupt : ℕ := 0x20

def pic2StartInterrupt : ℕ := 0x28

def pic2EndInterrupt : ℕ := pic2StartInterrupt + 7

/-- `PIC_ACK`. -/
def picAckCommand : Byte := 0x20

def icw1Icw4 : Byte := 0x01

def icw1Init : Byte := 0x10

def icw48086 : Byte := 0x01

/-- The masks `pic1` and `pic2` that the driver keeps. -/
structure Pic where
  pic1 : Byte
  pic2 : Byte
  deriving DecidableEq

def picRemap (offset1 offset2 : ℕ) : List PortWrite :=
  [⟨pic1Command, icw1Init + icw1Icw4⟩, ⟨pic2Command, icw1Init + icw1Icw4⟩,
    ⟨pic1Data, BitVec.ofNat 8 offset1⟩, ⟨pic2Data, BitVec.ofNat 8 offset2⟩,
    ⟨pic1Data, 4⟩, ⟨pic2Data, 2⟩, ⟨pic1Data, icw48086⟩, ⟨pic2Data, icw48086⟩]

def picInit : Pic × List PortWrite :=
  (⟨0xff, 0xff⟩, picRemap pic1StartInterrupt pic2StartInterrupt ++
    [⟨pic1Data, 0xff⟩, ⟨pic2Data, 0xff⟩])

def picUninit : Pic × List PortWrite := picInit

def picEnableIrq (pic : Pic) (irqNo : ℕ) : Pic × List PortWrite :=
  if irqNo < 8 then
    let pic1 := pic.pic1 &&& ~~~((1 : Byte) <<< irqNo)
    ({ pic with pic1 := pic1 }, [⟨pic1Data, pic1⟩])
  else if irqNo < 16 then
    let pic2 := pic.pic2 &&& ~~~((1 : Byte) <<< (irqNo - 8))
    ({ pic with pic2 := pic2 }, [⟨pic2Data, pic2⟩])
  else
    (pic, [])

def picAck (picIntNum : ℕ) : List PortWrite :=
  if picIntNum < pic1StartInterrupt ∨ picIntNum > pic2EndInterrupt then
    []
  else if picIntNum < pic2StartInterrupt then
    [⟨pic1Command, picAckCommand⟩]
  else
    [⟨pic2Command, picAckCommand⟩]

/-! ## The controllers -/

/-- A controller of eight lines, of which line 0 has the highest priority. -/
structure Chip where
  /-- The words of an initialization that are still to come. -/
  expected : ℕ
  offset : Byte
  mask : Byte
  /-- The lines whose interrupts have not been ended. -/
  inService : Byte
  deriving DecidableEq

namespace Chip

/-- A byte at the command port: the start of an initialization, or the end of an interrupt. -/
def command (chip : Chip) (data : Byte) : Chip :=
  if data.getLsbD 4 then
    { chip with expected := 3, mask := 0, inService := 0 }
  else if data = 0x20 then
    -- The lowest bit that is set is cleared.
    { chip with inService := chip.inService &&& (chip.inService - 1) }
  else
    chip

/-- A byte at the data port: offset, cascade and mode of an initialization, or the mask. -/
def data (chip : Chip) (data : Byte) : Chip :=
  match chip.expected with
  | 0 => { chip with mask := data }
  | 3 => { chip with expected := 2, offset := data }
  | expected + 1 => { chip with expected := expected }

/-- The controller takes up an interrupt of a line. -/
def serve (chip : Chip) (line : ℕ) : Chip :=
  { chip with inService := chip.inService ||| (1 : Byte) <<< line }

end Chip

/-- The two controllers; the second is connected to line 2 of the first. -/
structure Chips where
  master : Chip
  slave : Chip
  deriving DecidableEq

namespace Chips

def outb (chips : Chips) (write : PortWrite) : Chips :=
  if write.port = pic1Command then
    { chips with master := chips.master.command write.data }
  else if write.port = pic1Data then
    { chips with master := chips.master.data write.data }
  else if write.port = pic2Command then
    { chips with slave := chips.slave.command write.data }
  else if write.port = pic2Data then
    { chips with slave := chips.slave.data write.data }
  else
    chips

def outbs (chips : Chips) (writes : List PortWrite) : Chips := writes.foldl outb chips

/-- The line may interrupt: it is not masked, and for one of the second controller neither is the
line of that controller. -/
def Unmasked (chips : Chips) (line : ℕ) : Prop :=
  (line < 8 ∧ chips.master.mask.getLsbD line = false) ∨
    (8 ≤ line ∧ line < 16 ∧ chips.slave.mask.getLsbD (line - 8) = false ∧
      chips.master.mask.getLsbD 2 = false)

instance (chips : Chips) (line : ℕ) : Decidable (chips.Unmasked line) :=
  inferInstanceAs (Decidable (_ ∨ _))

/-- The vector of a line. -/
def vector (chips : Chips) (line : ℕ) : ℕ :=
  if line < 8 then chips.master.offset.toNat + line else chips.slave.offset.toNat + (line - 8)

/-- A line interrupts. -/
def raise (chips : Chips) (line : ℕ) : Chips :=
  if line < 8 then
    { chips with master := chips.master.serve line }
  else
    { master := chips.master.serve 2, slave := chips.slave.serve (line - 8) }

end Chips

/-! ## Ready controllers -/

/-- Both are initialized as `pic_remap` does, with the masks of the driver, and no interrupt is in
service. -/
def Ready (chips : Chips) (pic : Pic) : Prop :=
  chips = ⟨⟨0, BitVec.ofNat 8 pic1StartInterrupt, pic.pic1, 0⟩,
    ⟨0, BitVec.ofNat 8 pic2StartInterrupt, pic.pic2, 0⟩⟩

/-- **`pic_init`** makes the controllers ready, whatever they were, with all lines masked. -/
theorem picInit_ready (chips : Chips) : Ready (chips.outbs picInit.2) picInit.1 := by
  obtain ⟨⟨_, _, _, _⟩, ⟨_, _, _, _⟩⟩ := chips
  rfl

theorem picEnableIrq_ready {chips : Chips} {pic : Pic} (ready : Ready chips pic) (irqNo : ℕ) :
    Ready (chips.outbs (picEnableIrq pic irqNo).2) (picEnableIrq pic irqNo).1 := by
  subst ready
  unfold picEnableIrq
  split
  · rfl
  · split
    · rfl
    · rfl

/-- **`pic_ack`** of the vector of a line of the first controller ends its interrupt. -/
theorem picAck_ready {chips : Chips} {pic : Pic} {line : ℕ} (ready : Ready chips pic)
    (ofMaster : line < 8) : Ready ((chips.raise line).outbs (picAck (chips.vector line))) pic := by
  subst ready
  have place : BitVec.toNat (BitVec.ofNat 8 pic1StartInterrupt) = pic1StartInterrupt := rfl
  have cleared : ((0 : Byte) ||| (1 : Byte) <<< line) &&&
      (((0 : Byte) ||| (1 : Byte) <<< line) - 1) = 0 := by
    interval_cases line <;> rfl
  have acks : picAck (pic1StartInterrupt + line) = [⟨pic1Command, picAckCommand⟩] := by
    interval_cases line <;> rfl
  simp only [Chips.raise, Chips.vector, ofMaster, if_true, place, acks, Chips.outbs,
    List.foldl_cons,
    List.foldl_nil, Chips.outb, Chip.command, Chip.serve]
  rw [if_neg (by decide), if_pos (by rfl), cleared]
  rfl

/-- A line that was enabled is not masked, and the others are as before. -/
theorem getLsbD_enable (mask : Byte) {line other : ℕ} (bound : other < 8) :
    (mask &&& ~~~((1 : Byte) <<< line)).getLsbD other =
      (mask.getLsbD other && decide (other ≠ line)) := by
  have one : (1 : Byte) = 1#8 := rfl
  simp only [one, BitVec.getLsbD_and, BitVec.getLsbD_not, BitVec.getLsbD_shiftLeft,
    BitVec.getLsbD_one, bound, decide_true,
    Bool.true_and]
  grind

end CatchOS.Drivers
