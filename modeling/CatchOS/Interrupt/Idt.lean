import CatchOS.Interrupt.InterruptHnd
import Mathlib.Tactic.IntervalCases

/-!
# The descriptor table and the arguments of `interrupt_handler`

`interrupt_init` fills the entries of the descriptor table, and the processor reads one of them when
an interrupt comes (`fetchGate`). `gate_encode` is the round trip between the two: the gate of an
entry that `interrupt_encode_idt_entry` has written leads to its handler, and all others are not
present.

Together with the way in this says with which arguments `interrupt_handler` is called, for every
interrupt in every state of the machine (`interrupt_arguments`).
-/

set_option autoImplicit false

namespace CatchOS.Interrupt

open CatchOS

/-! ## Entries -/

/-- `struct idt_entry`. -/
structure IdtEntry where
  offsetLow : BitVec 16
  segmentSelector : BitVec 16
  reserved : Byte
  typeAndAttr : Byte
  offsetHigh : BitVec 16
  deriving DecidableEq

/-- The entry in memory. -/
def IdtEntry.bytes (entry : IdtEntry) : List Byte :=
  [entry.offsetLow.extractLsb' 0 8, entry.offsetLow.extractLsb' 8 8,
    entry.segmentSelector.extractLsb' 0 8, entry.segmentSelector.extractLsb' 8 8,
    entry.reserved, entry.typeAndAttr,
    entry.offsetHigh.extractLsb' 0 8, entry.offsetHigh.extractLsb' 8 8]

/-- What `interrupt_encode_idt_entry` stores in an entry. -/
def encodedEntry (fPtrHandler : Word) : IdtEntry where
  offsetLow := (fPtrHandler &&& 0xffff).setWidth 16
  offsetHigh := ((fPtrHandler >>> 16) &&& 0xffff).setWidth 16
  segmentSelector := 0x8
  reserved := 0x0
  typeAndAttr := (1 <<< 7) ||| (0 <<< 6) ||| (0 <<< 5) ||| (0 <<< 4) ||| 0xe

def interruptEncodeIdtEntry (entries : ℕ → IdtEntry) (interruptNum : ℕ) (fPtrHandler : Word) :
    ℕ → IdtEntry :=
  Function.update entries interruptNum (encodedEntry fPtrHandler)

/-- `idt_entries` before `interrupt_init`. -/
def zeroEntries : ℕ → IdtEntry := fun _ => ⟨0, 0, 0, 0, 0⟩

/-- The order in which `interrupt_init` encodes the handlers. -/
def encodedHandlers : List ℕ := [13, 14, 15, 32, 33, 36, 39, 128]

/-- `idt_entries` after `interrupt_init`. -/
def idtEntries (code : HandlerCode) : ℕ → IdtEntry :=
  encodedHandlers.foldl
    (fun entries number => interruptEncodeIdtEntry entries number (code.asmIntHandler number))
    zeroEntries

/-- `IDT_SIZE`. -/
def idtSize : ℕ := 256

/-- `struct idt`. -/
structure Idt where
  size : ℕ
  address : ℕ

/-- `IDT` after `interrupt_init`, with `idt_entries` at the given address. -/
def loadedIdt (address : ℕ) : Idt := ⟨8 * idtSize - 1, address⟩

/-- The entries are in memory. -/
def EntriesAt (memory : Memory) (address : ℕ) (entries : ℕ → IdtEntry) : Prop :=
  ∀ number < idtSize, readBytes memory (address + 8 * number) 8 = (entries number).bytes

/-! ## The processor -/

/-- A gate as the processor reads it. -/
structure Gate where
  offset : Word
  selector : BitVec 16
  present : Bool
  privilege : BitVec 2
  /-- The system bit and the type. -/
  kind : BitVec 5
  deriving DecidableEq

/-- The fields of a descriptor of eight bytes. -/
def decodeGate (byte : ℕ → Byte) : Gate where
  offset := byte 7 ++ byte 6 ++ byte 1 ++ byte 0
  selector := byte 3 ++ byte 2
  present := (byte 5).getLsbD 7
  privilege := (byte 5).extractLsb' 5 2
  kind := (byte 5).extractLsb' 0 5

/-- The gate of an interrupt, if it is within the table. -/
def fetchGate (memory : Memory) (idt : Idt) (number : ℕ) : Option Gate :=
  if 8 * number + 7 ≤ idt.size then
    some (decodeGate fun i => memory (offset (idt.address + 8 * number) i))
  else
    none

/-- An interrupt that the processor delivers through the descriptor table. Without an interrupt
gate of 32 bits that is present there is a fault. All code of the kernel runs with `kernelCs`: the
processor pushes it as the segment of what was interrupted, and the gate must lead to it too. -/
def interruptThrough (machine : Machine) (idt : Idt) (number : ℕ) (errorCode : Word) :
    Option Machine :=
  (fetchGate machine.memory idt number).bind fun gate =>
    if gate.present = true ∧ gate.kind = 0xe ∧ gate.selector.setWidth 32 = kernelCs then
      some (machine.deliver kernelCs
        (if number ∈ errorCodeExceptions then some errorCode else none) gate.offset)
    else
      none

section

variable {code : HandlerCode} {memory : Memory} {address number : ℕ}

/-- Several places of an array are set. -/
theorem foldl_update {Value : Type} (value : ℕ → Value) (start : ℕ → Value) (places : List ℕ)
    (place : ℕ) : places.foldl (fun array i => Function.update array i (value i)) start place =
      if place ∈ places then value place else start place := by
  induction places using List.reverseRecOn with
  | nil => simp
  | append_singleton places last ih =>
      rw [List.foldl_append, List.foldl_cons, List.foldl_nil]
      by_cases here : place = last
      · rw [here, Function.update_self, if_pos (by simp)]
      · rw [Function.update_of_ne here, ih]
        simp [here]

/-- The entry of every number. -/
theorem idtEntries_eq (code : HandlerCode) (number : ℕ) :
    idtEntries code number =
      if number ∈ encodedHandlers then encodedEntry (code.asmIntHandler number)
      else ⟨0, 0, 0, 0, 0⟩ :=
  foldl_update (fun number => encodedEntry (code.asmIntHandler number)) zeroEntries encodedHandlers
    number

/-- A word of two halves, each in two bytes. -/
theorem halves_bytes (high low : BitVec 16) :
    high.extractLsb' 8 8 ++ high.extractLsb' 0 8 ++ low.extractLsb' 8 8 ++ low.extractLsb' 0 8 =
      high ++ low := by
  ext i bound
  simp only [BitVec.getElem_append, BitVec.getElem_extractLsb']
  grind

/-- The halves of the address of a handler. -/
theorem encodedEntry_offset (fPtrHandler : Word) :
    (encodedEntry fPtrHandler).offsetHigh ++ (encodedEntry fPtrHandler).offsetLow =
      fPtrHandler := by
  have mask : (0xffff : Word).toNat = 2 ^ 16 - 1 := rfl
  apply BitVec.eq_of_toNat_eq
  rw [BitVec.toNat_append, ← Nat.shiftLeft_add_eq_or_of_lt (BitVec.isLt _), Nat.shiftLeft_eq]
  simp only [encodedEntry, BitVec.toNat_setWidth, BitVec.toNat_and, BitVec.toNat_ushiftRight, mask,
    Nat.and_two_pow_sub_one_eq_mod, Nat.shiftRight_eq_div_pow]
  have bound := fPtrHandler.isLt
  omega

/-- **Round trip.** The processor reads the address of the handler that was encoded, with the
code segment of the kernel. -/
theorem gate_encode {byte : ℕ → Byte} {fPtrHandler : Word}
    (bytes : (List.range 8).map byte = (encodedEntry fPtrHandler).bytes) :
    decodeGate byte = ⟨fPtrHandler, 0x8, true, 0, 0xe⟩ := by
  have eight : (List.range 8).map byte =
      [byte 0, byte 1, byte 2, byte 3, byte 4, byte 5, byte 6, byte 7] := rfl
  simp only [eight, IdtEntry.bytes, List.cons.injEq, and_true] at bytes
  obtain ⟨first, second, third, fourth, -, attr, seventh, eighth⟩ := bytes
  have offset := (halves_bytes _ _).trans (encodedEntry_offset fPtrHandler)
  have selector : (encodedEntry fPtrHandler).segmentSelector = 0x8 := rfl
  have typeAndAttr : (encodedEntry fPtrHandler).typeAndAttr = 0x8e := by
    simp only [encodedEntry]
    decide
  rw [decodeGate, first, second, third, fourth, attr, seventh, eighth, offset, selector,
    typeAndAttr]
  simp only [Gate.mk.injEq, true_and]
  decide

/-- An entry that was not encoded is not present. -/
theorem gate_zero {byte : ℕ → Byte}
    (bytes : (List.range 8).map byte = IdtEntry.bytes ⟨0, 0, 0, 0, 0⟩) :
    (decodeGate byte).present = false := by
  have eight : (List.range 8).map byte =
      [byte 0, byte 1, byte 2, byte 3, byte 4, byte 5, byte 6, byte 7] := rfl
  simp only [eight, IdtEntry.bytes, List.cons.injEq, and_true] at bytes
  obtain ⟨-, -, -, -, -, attr, -, -⟩ := bytes
  rw [decodeGate, attr]
  rfl

/-- An interrupt through the table that `interrupt_init` has loaded: with a handler it is delivered
to it, and otherwise there is a fault. -/
theorem interruptThrough_eq {machine : Machine} {errorCode : Word}
    (entries : EntriesAt machine.memory address (idtEntries code)) (bound : number < idtSize) :
    interruptThrough machine (loadedIdt address) number errorCode =
      if number ∈ encodedHandlers then
        some (machine.deliver kernelCs
          (if number ∈ errorCodeExceptions then some errorCode else none)
          (code.asmIntHandler number))
      else none := by
  have bytes := entries number bound
  rw [idtEntries_eq, readBytes] at bytes
  have within : 8 * number + 7 ≤ (loadedIdt address).size := by
    unfold idtSize at bound
    simp only [loadedIdt, idtSize]
    omega
  rw [interruptThrough, fetchGate, if_pos within, Option.bind_some]
  by_cases encoded : number ∈ encodedHandlers
  · rw [if_pos encoded] at bytes ⊢
    have gate : (decodeGate fun i =>
        machine.memory (offset ((loadedIdt address).address + 8 * number) i)) =
        ⟨code.asmIntHandler number, 0x8, true, 0, 0xe⟩ := gate_encode bytes
    have selector : (0x8 : BitVec 16).setWidth 32 = kernelCs := rfl
    simp only [gate, selector, and_self, if_true]
  · rw [if_neg encoded] at bytes ⊢
    have gate : (decodeGate fun i =>
        machine.memory (offset ((loadedIdt address).address + 8 * number) i)).present = false :=
      gate_zero bytes
    rw [gate, if_neg fun both => Bool.false_ne_true both.1]

end

/-! ## The arguments -/

/-- `struct cpu_state`. -/
structure CpuState where
  esp : Word
  edi : Word
  esi : Word
  ebp : Word
  edx : Word
  ecx : Word
  ebx : Word
  eax : Word

/-- `struct stack_state`. -/
structure StackState where
  errorCode : Word
  eip : Word
  cs : Word
  eflags : Word

/-- The arguments of `interrupt_handler`. -/
structure InterruptArguments where
  returnReg : Word
  cpuState : CpuState
  interruptNum : Word
  stackState : StackState

/-- The arguments at the first instruction of `interrupt_handler`: they lie above the address that
it returns to. -/
def argumentsAt (memory : Memory) (esp : Word) : InterruptArguments :=
  let argument (i : ℕ) := load memory (after (esp + 4) i)
  { returnReg := argument 0
    cpuState :=
      { esp := argument 1, edi := argument 2, esi := argument 3, ebp := argument 4,
        edx := argument 5, ecx := argument 6, ebx := argument 7, eax := argument 8 }
    interruptNum := argument 9
    stackState :=
      { errorCode := argument 10, eip := argument 11, cs := argument 12, eflags := argument 13 } }

/-- The arguments of a frame. -/
def InterruptFrame.arguments (frame : InterruptFrame) : InterruptArguments where
  returnReg := frame.slot
  cpuState :=
    { esp := frame.reg .esp - 48, edi := frame.reg .edi, esi := frame.reg .esi,
      ebp := frame.reg .ebp, edx := frame.reg .edx, ecx := frame.reg .ecx, ebx := frame.reg .ebx,
      eax := frame.result }
  interruptNum := frame.number
  stackState :=
    { errorCode := frame.errorCode, eip := frame.eip, cs := kernelCs, eflags := frame.reg .eflags }

/-- The words of a frame are the arguments. -/
theorem argumentsAt_eq {frame : InterruptFrame} {memory : Memory} {esp : Word}
    (place : esp + 4 = frame.base) (held : Holds memory frame.base frame.words) :
    argumentsAt memory esp = frame.arguments := by
  have argument {i : ℕ} {word : Word} (isWord : frame.words[i]? = some word) :
      load memory (after frame.base i) = word := held.load isWord
  simp only [argumentsAt, place, argument (i := 0) rfl, argument (i := 1) rfl,
    argument (i := 2) rfl, argument (i := 3) rfl, argument (i := 4) rfl, argument (i := 5) rfl,
    argument (i := 6) rfl, argument (i := 7) rfl, argument (i := 8) rfl, argument (i := 9) rfl,
    argument (i := 10) rfl, argument (i := 11) rfl, argument (i := 12) rfl,
    argument (i := 13) rfl]
  rfl

/-- The handlers that are encoded are those there are. -/
theorem mem_encodedHandlers {number : ℕ} :
    number ∈ encodedHandlers ↔ ∃ pushes, (number, pushes) ∈ asmIntHandlers := by
  have all : ∀ number ∈ encodedHandlers, ∃ handler ∈ asmIntHandlers, handler.1 = number := by decide
  have back : ∀ handler ∈ asmIntHandlers, handler.1 ∈ encodedHandlers := by decide
  constructor
  · intro encoded
    obtain ⟨handler, listed, rfl⟩ := all number encoded
    exact ⟨handler.2, listed⟩
  · rintro ⟨pushes, listed⟩
    exact back _ listed

/-- **What `interrupt_handler` is called with.** In every state of the machine in which the
descriptor table is in memory, an interrupt of a number that has a handler goes through the table
to it, and it calls `interrupt_handler` with interrupts off. The arguments are the registers, the
number, and the error code, address and flags of what was interrupted, and `return_reg` is the
address of the word that `eax` is taken from afterwards. Below the old top of the stack nothing else
is written. An interrupt without a handler is a fault. -/
theorem interrupt_arguments {code : HandlerCode} {machine : Machine} {address number : ℕ}
    (entries : EntriesAt machine.memory address (idtEntries code)) (bound : number < idtSize)
    (errorCode : Word) :
    (∀ pushes, (number, pushes) ∈ asmIntHandlers → ∃ delivered called,
      interruptThrough machine (loadedIdt address) number errorCode = some delivered ∧
      delivered.eip = code.asmIntHandler number ∧
      delivered.runHandler (asmIntHandler (number, pushes) ++ asmIntHandlerCommon code) = called ∧
      called.eip = code.interruptHandler ∧ called.reg .eflags &&& gateFlags = 0 ∧
      argumentsAt called.memory (called.reg .esp) =
        { returnReg := machine.reg .esp - 24
          cpuState :=
            { esp := machine.reg .esp - 48, edi := machine.reg .edi, esi := machine.reg .esi,
              ebp := machine.reg .ebp, edx := machine.reg .edx, ecx := machine.reg .ecx,
              ebx := machine.reg .ebx, eax := machine.reg .eax }
          interruptNum := BitVec.ofNat 32 number
          stackState :=
            { errorCode := if number ∈ errorCodeExceptions then errorCode else 0
              eip := machine.eip, cs := kernelCs, eflags := machine.reg .eflags } } ∧
      load called.memory (machine.reg .esp - 24) = machine.reg .eax ∧
      Set.EqOn called.memory machine.memory (span (machine.reg .esp - 60) 60)ᶜ) ∧
    ((∀ pushes, (number, pushes) ∉ asmIntHandlers) →
      interruptThrough machine (loadedIdt address) number errorCode = none) := by
  have through := @interruptThrough_eq code address number machine errorCode entries bound
  refine ⟨fun pushes listed => ?_, fun unlisted => ?_⟩
  · rw [if_pos (mem_encodedHandlers.mpr ⟨pushes, listed⟩)] at through
    obtain ⟨called, isCalled⟩ : ∃ called, enter code (number, pushes) errorCode machine = called :=
      ⟨_, rfl⟩
    obtain ⟨-, reg, eip⟩ := enter_eq listed isCalled
    obtain ⟨held, outside⟩ := enter_frame listed isCalled
    have place : machine.reg .esp - 60 + 4 = machine.reg .esp - 56 := by bv_omega
    have words := held.2
    rw [place] at words
    refine ⟨_, called, through, ?_, ?_, eip, ?_, ?_, ?_, outside⟩
    · exact Machine.deliver_eip _ _ _ _
    · rw [← isCalled]
      simp only [enter]
    · simp only [reg, ne_eq, reduceCtorEq, not_false_eq_true, Function.update_of_ne,
        Function.update_self]
      have none' : ~~~gateFlags &&& gateFlags = 0 := by decide
      rw [BitVec.and_assoc, none']
      exact BitVec.and_zero
    · rw [reg, Function.update_self]
      have arguments := @argumentsAt_eq (.interrupted machine (number, pushes) errorCode) _ _ place
        words
      rw [arguments]
      simp only [InterruptFrame.arguments, InterruptFrame.interrupted, InterruptFrame.slot]
    · have slot : after (machine.reg .esp - 56) 8 = machine.reg .esp - 24 := by
        unfold after
        bv_omega
      have isEax := words.load (i := 8) rfl
      rw [slot] at isEax
      exact isEax
  · rw [if_neg fun encoded => ?_] at through
    · exact through
    · obtain ⟨pushes, listed⟩ := mem_encodedHandlers.mp encoded
      exact unlisted pushes listed

/-- A table can be put anywhere in memory. -/
theorem exists_entriesAt (entries : ℕ → IdtEntry) {address : ℕ}
    (fits : address + 8 * idtSize ≤ 2 ^ 32) : ∃ memory, EntriesAt memory address entries := by
  refine ⟨fun byte => (entries ((byte - address) / 8)).bytes.getD ((byte - address) % 8) 0,
    fun number bound => ?_⟩
  have length : (entries number).bytes.length = 8 := rfl
  apply List.ext_getElem
  · rw [length_readBytes, length]
  · intro i below _
    rw [length_readBytes] at below
    have place : offset (address + 8 * number) i - address = 8 * number + i := by
      rw [offset_eq (by omega)]
      omega
    simp only [readBytes, List.getElem_map, List.getElem_range, place]
    rw [Nat.mul_add_div (by decide), Nat.div_eq_of_lt below, Nat.mul_add_mod,
      Nat.mod_eq_of_lt below,
      Nat.add_zero, List.getD_eq_getElem?_getD, List.getElem?_eq_getElem (length ▸ below),
      Option.getD_some]

/-- A system call for a block of 100 bytes. -/
theorem interrupt_arguments_syscall : ∃ (machine called : Machine),
    machine.reg .eax = 2 ∧ machine.reg .ecx = 100 ∧
      (argumentsAt called.memory (called.reg .esp)).interruptNum = 128 ∧
      (argumentsAt called.memory (called.reg .esp)).cpuState.eax = 2 ∧
      (argumentsAt called.memory (called.reg .esp)).cpuState.ecx = 100 := by
  obtain ⟨memory, entries⟩ := exists_entriesAt (idtEntries exampleCode)
    (show 0x9000 + 8 * idtSize ≤ 2 ^ 32 by decide)
  let machine : Machine :=
    { reg := fun register => if register = .eax then 2 else if register = .ecx then 100 else 0x8000
      eip := 0x200
      memory := memory }
  have entriesAt : EntriesAt machine.memory 0x9000 (idtEntries exampleCode) := entries
  obtain ⟨handled, -⟩ := interrupt_arguments entriesAt (show 128 < idtSize by decide) 0
  obtain ⟨delivered, called, -, -, -, -, -, arguments, -⟩ := handled false (by decide)
  refine ⟨machine, called, rfl, rfl, ?_, ?_, ?_⟩
  · rw [arguments]
    rfl
  · rw [arguments]
    rfl
  · rw [arguments]
    rfl

end CatchOS.Interrupt
