import CatchOS.Machine.Interrupt

/-!
# Entry and exit of interrupt handlers

`interrupt_hnd.S` instruction by instruction. The processor pushes the flags, the code segment and
the address to continue at, and for some exceptions an error code; the handler of a number pushes
what is missing up to the number, and `asm_int_handler_common` the registers, in the order of
`struct cpu_state`, with the address of the one that holds `eax` below them. So when
`interrupt_handler` is called its arguments lie on the stack: `return_reg`, `cpu_state`,
`interrupt_num` and `stack_state`.

`enter_frame` says what lies on the stack then, and `exit_frame` that the way out takes it up
again: every register is as it was at the interrupt, but for `eax`, which is what lies in its slot.
-/

set_option autoImplicit false

namespace CatchOS.Interrupt

open CatchOS

/-! ## The code -/

/-- Where the code of the handlers was linked. -/
structure HandlerCode where
  asmIntHandler : ℕ → Word
  interruptHandler : Word
  /-- The instruction after `call interrupt_handler`. -/
  afterCall : Word

/-- A place for the code. -/
def exampleCode : HandlerCode := ⟨fun _ => 0x103000, 0x104000, 0x105000⟩

/-- The selector of the code segment in the GDT. -/
def kernelCs : Word := 0x8

def noErrorCodeInterruptHandler (number : ℕ) : List HandlerInstruction :=
  [.pushValue 0, .pushValue (BitVec.ofNat 32 number)]

def errorCodeInterruptHandler (number : ℕ) : List HandlerInstruction :=
  [.pushValue (BitVec.ofNat 32 number)]

/-- The numbers of the handlers, each with whether it is made by `error_code_interrupt_handler`. -/
def asmIntHandlers : List (ℕ × Bool) :=
  [(32, false), (33, false), (36, false), (39, false), (15, false), (14, true), (13, true),
    (128, false)]

/-- The code of a handler before `asm_int_handler_common`. -/
def asmIntHandler (handler : ℕ × Bool) : List HandlerInstruction :=
  if handler.2 then errorCodeInterruptHandler handler.1 else noErrorCodeInterruptHandler handler.1

/-- `asm_int_handler_common` up to the call. -/
def asmIntHandlerCommon (code : HandlerCode) : List HandlerInstruction :=
  [.plain (.push .eax), .plain (.push .ebx), .plain (.push .ecx), .plain (.push .edx),
    .plain (.push .ebp), .plain (.push .esi), .plain (.push .edi), .plain (.push .esp),
    .lea .eax .esp 28, .plain (.push .eax), .call code.interruptHandler code.afterCall]

/-- `asm_int_handler_common` after the call. -/
def asmIntHandlerReturn : List HandlerInstruction :=
  [.plain (.pop .eax), .plain (.pop .esp)] ++
    ([.edi, .esi, .ebp, .edx, .ecx, .ebx, .eax].map Instruction.pop).map .plain ++
    [.add .esp 8, .iret]

/-- The exceptions for which the processor pushes an error code. -/
def errorCodeExceptions : List ℕ := [8, 10, 11, 12, 13, 14, 17, 21]

/-- An interrupt of a number that has a handler, up to the first instruction of
`interrupt_handler`. -/
def enter (code : HandlerCode) (handler : ℕ × Bool) (errorCode : Word) (machine : Machine) :
    Machine :=
  let pushed := if handler.1 ∈ errorCodeExceptions then some errorCode else none
  (machine.deliver kernelCs pushed (code.asmIntHandler handler.1)).runHandler
    (asmIntHandler handler ++ asmIntHandlerCommon code)

/-! ## What lies on the stack -/

/-- What was interrupted, and what will be in `eax` afterwards. -/
structure InterruptFrame where
  reg : Register → Word
  eip : Word
  number : Word
  errorCode : Word
  result : Word

namespace InterruptFrame

/-- The top of the stack when `interrupt_handler` has returned. -/
def base (frame : InterruptFrame) : Word := frame.reg .esp - 56

/-- The place of `eax`, which is `return_reg`. -/
def slot (frame : InterruptFrame) : Word := frame.reg .esp - 24

/-- The registers in the order in which the way out pops them. -/
def general (frame : InterruptFrame) : List Word :=
  [frame.reg .edi, frame.reg .esi, frame.reg .ebp, frame.reg .edx, frame.reg .ecx, frame.reg .ebx,
    frame.result]

/-- The words from the base on: `return_reg`, `cpu_state`, `interrupt_num`, `stack_state`. -/
def words (frame : InterruptFrame) : List Word :=
  [frame.slot, frame.reg .esp - 48] ++ frame.general ++
    [frame.number, frame.errorCode, frame.eip, kernelCs, frame.reg .eflags]

@[simp] theorem length_words (frame : InterruptFrame) : frame.words.length = 14 := rfl

/-- The frame of an interrupt. -/
def interrupted (machine : Machine) (handler : ℕ × Bool) (errorCode : Word) : InterruptFrame where
  reg := machine.reg
  eip := machine.eip
  number := BitVec.ofNat 32 handler.1
  errorCode := if handler.1 ∈ errorCodeExceptions then errorCode else 0
  result := machine.reg .eax

end InterruptFrame

/-- A handler pushes an error code exactly if the processor does not. -/
theorem asmIntHandlers_errorCode :
    ∀ handler ∈ asmIntHandlers, handler.2 = decide (handler.1 ∈ errorCodeExceptions) := by
  decide

section

variable {code : HandlerCode} {handler : ℕ × Bool} {errorCode : Word} {machine : Machine}

/-- The words of the processor and of the handler of a number. -/
theorem asmIntHandler_eq (listed : handler ∈ asmIntHandlers) {entered : Machine}
    (isEntered : (machine.deliver kernelCs (if handler.1 ∈ errorCodeExceptions then some errorCode
      else none) (code.asmIntHandler handler.1)).runHandler (asmIntHandler handler) = entered) :
    entered.memory = (machine.pushWords [machine.reg .eflags, kernelCs, machine.eip,
        if handler.1 ∈ errorCodeExceptions then errorCode else 0,
        BitVec.ofNat 32 handler.1]).memory ∧
      entered.reg = Function.update (Function.update machine.reg .eflags
        (machine.reg .eflags &&& ~~~gateFlags)) .esp (machine.reg .esp - 20) := by
  have kind := asmIntHandlers_errorCode handler listed
  have down : machine.reg .esp - 4 - 4 - 4 - 4 - 4 = machine.reg .esp - 20 := by bv_omega
  subst isEntered
  rw [← down]
  by_cases pushes : handler.1 ∈ errorCodeExceptions
  · rw [decide_eq_true pushes] at kind
    simp only [asmIntHandler, kind, pushes, if_true]
    constructor
    · simp [errorCodeInterruptHandler, Machine.deliver, Machine.execHandler, Machine.setReg_reg]
    · funext register
      cases register <;>
        simp [errorCodeInterruptHandler, Machine.deliver, Machine.execHandler, Machine.setReg_reg,
          Machine.pushWord_reg]
  · rw [decide_eq_false pushes] at kind
    simp only [asmIntHandler, kind, pushes, if_false]
    constructor
    · simp [noErrorCodeInterruptHandler, Machine.deliver, Machine.execHandler, Machine.setReg_reg]
    · funext register
      cases register <;>
        simp [noErrorCodeInterruptHandler, Machine.deliver, Machine.execHandler, Machine.setReg_reg,
          Machine.pushWord_reg]

/-- The registers that `asm_int_handler_common` pushes. -/
theorem asmIntHandlerCommon_eq (machine : Machine) :
    machine.runHandler (asmIntHandlerCommon code) =
      (machine.pushWords [machine.reg .eax, machine.reg .ebx, machine.reg .ecx, machine.reg .edx,
        machine.reg .ebp, machine.reg .esi, machine.reg .edi, machine.reg .esp - 28]).runHandler
        [.lea .eax .esp 28, .plain (.push .eax), .call code.interruptHandler code.afterCall] := by
  have saved : machine.reg .esp - 4 - 4 - 4 - 4 - 4 - 4 - 4 = machine.reg .esp - 28 := by bv_omega
  simp only [asmIntHandlerCommon, Machine.runHandler_cons, Machine.runHandler_nil,
    Machine.execHandler, Machine.exec_push, Machine.pushWord_esp, saved, Machine.pushWord_reg,
    ne_eq, reduceCtorEq,
    not_false_eq_true, Machine.pushWords_cons, Machine.pushWords_nil]

/-- The call of `interrupt_handler`. -/
theorem callHandler_eq (machine : Machine) {called : Machine}
    (isCalled : machine.runHandler [.lea .eax .esp 28, .plain (.push .eax),
      .call code.interruptHandler code.afterCall] = called) :
    called.memory = (machine.pushWords [machine.reg .esp + 28, code.afterCall]).memory ∧
      called.reg = Function.update (Function.update machine.reg .eax (machine.reg .esp + 28)) .esp
        (machine.reg .esp - 8) ∧
      called.eip = code.interruptHandler := by
  have down : machine.reg .esp - 4 - 4 = machine.reg .esp - 8 := by bv_omega
  subst isCalled
  simp only [Machine.runHandler_cons, Machine.runHandler_nil, Machine.execHandler,
    Machine.exec_push]
  refine ⟨?_, ?_, trivial⟩
  · simp [Machine.setReg_reg]
  · funext register
    cases register
    case esp => simpa [Machine.setReg_reg] using down
    all_goals simp [Machine.setReg_reg, Machine.pushWord_reg]

/-- **The way in.** What is pushed are the words of the frame, below them the address that the
call returns to. -/
theorem enter_eq (listed : handler ∈ asmIntHandlers) {entered : Machine}
    (isEntered : enter code handler errorCode machine = entered) :
    entered.memory = (machine.pushWords (code.afterCall ::
        (InterruptFrame.interrupted machine handler errorCode).words).reverse).memory ∧
      entered.reg = Function.update (Function.update (Function.update machine.reg .eflags
        (machine.reg .eflags &&& ~~~gateFlags)) .eax (machine.reg .esp - 24)) .esp
        (machine.reg .esp - 60) ∧
      entered.eip = code.interruptHandler := by
  rw [enter, Machine.runHandler_append, asmIntHandlerCommon_eq] at isEntered
  obtain ⟨memory, reg⟩ := @asmIntHandler_eq code handler errorCode machine listed _ rfl
  generalize (machine.deliver kernelCs (if handler.1 ∈ errorCodeExceptions then some errorCode
    else none) (code.asmIntHandler handler.1)).runHandler (asmIntHandler handler) = numbered
    at isEntered memory reg
  obtain ⟨written, registers, eip⟩ := callHandler_eq _ isEntered
  have esp : numbered.reg .esp = machine.reg .esp - 20 := by rw [reg, Function.update_self]
  have general {register : Register} (notTop : register ≠ .esp) (notFlags : register ≠ .eflags) :
      numbered.reg register = machine.reg register := by
    rw [reg, Function.update_of_ne notTop, Function.update_of_ne notFlags]
  have values : [numbered.reg .eax, numbered.reg .ebx, numbered.reg .ecx, numbered.reg .edx,
      numbered.reg .ebp, numbered.reg .esi, numbered.reg .edi, numbered.reg .esp - 28] =
      [machine.reg .eax, machine.reg .ebx, machine.reg .ecx, machine.reg .edx, machine.reg .ebp,
        machine.reg .esi, machine.reg .edi, machine.reg .esp - 48] := by
    simp only [general, ne_eq, reduceCtorEq, not_false_eq_true, esp]
    congr 8
    bv_omega
  rw [values] at written registers
  have bottom : machine.reg .esp - 20 - 32 = machine.reg .esp - 52 := by bv_omega
  have slot : machine.reg .esp - 52 + 28 = machine.reg .esp - 24 := by bv_omega
  have down : machine.reg .esp - 52 - 8 = machine.reg .esp - 60 := by bv_omega
  have lowered : (numbered.pushWords [machine.reg .eax, machine.reg .ebx, machine.reg .ecx,
      machine.reg .edx, machine.reg .ebp, machine.reg .esi, machine.reg .edi,
      machine.reg .esp - 48]).reg = Function.update numbered.reg .esp (machine.reg .esp - 52) := by
    rw [Machine.pushWords_reg, esp, ← bottom]
    rfl
  refine ⟨?_, ?_, eip⟩
  · rw [written, lowered, Function.update_self, slot, ← Machine.pushWords_append]
    refine (Machine.pushWords_memory_congr memory ?_ _).trans ?_
    · rw [esp, Machine.pushWords_reg, Function.update_self]
      rfl
    · rw [← Machine.pushWords_append]
      rfl
  · rw [registers, lowered, Function.update_self, slot, down, reg]
    funext register
    cases register <;> rfl

/-- **The frame of an interrupt** lies below the old top of the stack, and nothing else was
written. -/
theorem enter_frame (listed : handler ∈ asmIntHandlers) {entered : Machine}
    (isEntered : enter code handler errorCode machine = entered) :
    Holds entered.memory (machine.reg .esp - 60)
        (code.afterCall :: (InterruptFrame.interrupted machine handler errorCode).words) ∧
      Set.EqOn entered.memory machine.memory (span (machine.reg .esp - 60) 60)ᶜ := by
  obtain ⟨memory, -, -⟩ := enter_eq listed isEntered
  obtain ⟨held, frame⟩ := machine.pushWords_pushed (code.afterCall ::
    (InterruptFrame.interrupted machine handler errorCode).words).reverse
    (by rw [List.length_reverse, List.length_cons, InterruptFrame.length_words]; decide)
  have esp : (machine.pushWords (code.afterCall ::
      (InterruptFrame.interrupted machine handler errorCode).words).reverse).reg .esp =
      machine.reg .esp - 60 := by
    rw [Machine.pushWords_reg, Function.update_self]
    rfl
  rw [esp, List.reverse_reverse] at held
  rw [esp] at frame
  rw [memory]
  exact ⟨held, frame⟩

/-! ## The way out -/

/-- The parts of a frame in memory: the words below the registers, the registers, and the words of
the processor. -/
theorem InterruptFrame.held_parts {frame : InterruptFrame} {memory : Memory}
    (held : Holds memory frame.base frame.words) :
    load memory (frame.base + 4) = frame.reg .esp - 48 ∧
      Holds memory (frame.reg .esp - 48) frame.general ∧
      load memory (frame.reg .esp - 12) = frame.eip ∧
      load memory (frame.reg .esp - 4) = frame.reg .eflags := by
  obtain ⟨lower, -, -, eip, -, flags, -⟩ := holds_append.mp held
  obtain ⟨⟨-, saved, -⟩, general⟩ := holds_append.mp lower
  have bottom : after frame.base 2 = frame.reg .esp - 48 := by
    unfold after InterruptFrame.base
    bv_omega
  have eipPlace : after frame.base 9 + 4 + 4 = frame.reg .esp - 12 := by
    unfold after InterruptFrame.base
    bv_omega
  have flagsPlace : after frame.base 9 + 4 + 4 + 4 + 4 = frame.reg .esp - 4 := by
    unfold after InterruptFrame.base
    bv_omega
  exact ⟨saved, bottom ▸ general, eipPlace ▸ eip, flagsPlace ▸ flags⟩

/-- `*return_reg = value` replaces the word of `eax`. -/
theorem InterruptFrame.held_result {frame : InterruptFrame} {memory : Memory} (value : Word)
    (held : Holds memory frame.base frame.words) (room : 56 ≤ (frame.reg .esp).toNat) :
    Holds (store memory (load memory frame.base) value) frame.base
      { frame with result := value }.words := by
  have low : frame.base.toNat = (frame.reg .esp).toNat - 56 := toNat_sub (by change 56 ≤ _; omega)
  have bound := (frame.reg .esp).isLt
  have place : after frame.base 8 = frame.slot := by
    unfold after InterruptFrame.base InterruptFrame.slot
    bv_omega
  have isSlot : load memory frame.base = frame.slot := held.1
  have replaced := @Holds.store memory frame.base frame.result value
    [frame.slot, frame.reg .esp - 48, frame.reg .edi, frame.reg .esi, frame.reg .ebp,
      frame.reg .edx, frame.reg .ecx, frame.reg .ebx]
    [frame.number, frame.errorCode, frame.eip, kernelCs, frame.reg .eflags] held
    (by change frame.base.toNat + 56 ≤ _; omega)
  rw [isSlot, ← place]
  exact replaced

/-- **The way out** takes the frame up again. -/
theorem exit_frame {frame : InterruptFrame} {next : Machine}
    (isNext : machine.runHandler asmIntHandlerReturn = next) (esp : machine.reg .esp = frame.base)
    (held : Holds machine.memory frame.base frame.words) :
    next.reg = Function.update frame.reg .eax frame.result ∧ next.eip = frame.eip ∧
      next.memory = machine.memory := by
  obtain ⟨saved, general, eip, flags⟩ := InterruptFrame.held_parts held
  rw [asmIntHandlerReturn, Machine.runHandler_append, Machine.runHandler_append,
    Machine.runHandler_plain] at isNext
  generalize isStarted : machine.runHandler [.plain (.pop .eax), .plain (.pop .esp)] = started
    at isNext
  have top : started.reg .esp = frame.reg .esp - 48 := by
    rw [← saved, ← esp, ← isStarted]
    rfl
  have same : started.memory = machine.memory := by
    rw [← isStarted]
    rfl
  obtain ⟨target, -, moved, memory⟩ := started.run_pops [.edi, .esi, .ebp, .edx, .ecx, .ebx, .eax]
    (Function.update frame.reg .eax frame.result) (by decide) (by rw [top, same]; exact general)
  generalize started.run ([.edi, .esi, .ebp, .edx, .ecx, .ebx, .eax].map Instruction.pop) = popped
    at isNext target moved memory
  have low : popped.reg .esp + 8 = frame.reg .esp - 12 := by
    rw [moved, top, after]
    change frame.reg .esp - 48 + 28 + 8 = _
    bv_omega
  have flagsPlace : frame.reg .esp - 12 + 8 = frame.reg .esp - 4 := by bv_omega
  have espPlace : frame.reg .esp - 12 + 12 = frame.reg .esp := BitVec.sub_add_cancel _ _
  have whole : popped.memory = machine.memory := memory.trans same
  simp only [Machine.runHandler_cons, Machine.runHandler_nil, Machine.execHandler,
    Machine.setReg_self, Machine.setReg_memory, low, flagsPlace, espPlace, whole] at isNext
  subst isNext
  refine ⟨?_, eip, rfl⟩
  funext register
  by_cases top : register = .esp
  · rw [top, Machine.setReg_self, Function.update_of_ne (by decide)]
  · by_cases isFlags : register = .eflags
    · rw [isFlags, Machine.setReg_reg _ _ (by decide), Machine.setReg_self, flags,
        Function.update_of_ne (by decide)]
    · rw [Machine.setReg_reg _ _ top, Machine.setReg_reg _ _ isFlags, Machine.setReg_reg _ _ top,
        Machine.setReg_reg _ _ isFlags]
      refine target register ?_
      cases register with
      | esp => exact absurd rfl top
      | eflags => exact absurd rfl isFlags
      | eax | ecx | edx | ebx | esi | edi | ebp => decide

end

end CatchOS.Interrupt
