import CatchOS.Drivers.Pic
import CatchOS.Interrupt.Idt
import CatchOS.Lib.Transition

/-!
# Interrupts and their handlers

`interrupt.c`: the table of the handlers in C, and which lines of the controllers may interrupt.
Before the I/O APIC is initialized, `interrupt_register` takes the mask off a line of the hardware;
`init_io_apic` masks all lines for good, and later registrations redirect interrupts there instead.

A run starts with `interrupt_init`. Then handlers are registered, the I/O APIC is initialized, and
lines that are not masked interrupt, in any order. The run records the calls of handlers. In every
state the lines that may interrupt are those with a handler, and none of their interrupts stays in
service (`interrupt_lines`).
-/

set_option autoImplicit false

namespace CatchOS.Interrupt

open CatchOS CatchOS.Lib CatchOS.Drivers

/-! ## The functions -/

/-- `int_handler_table`, `idt_entries`, the driver of the controllers, the controllers themselves,
and what was written to the APICs. -/
structure Interrupts (Isr : Type) where
  intHandlerTable : ℕ → Option Isr
  idtEntries : ℕ → IdtEntry
  pic : Pic
  chips : Chips
  /-- `ioapic_is_initialized()`. -/
  ioapicIsInitialized : Bool
  /-- The calls of `ioapic_redirect_external_int`, the last one first. -/
  redirected : List (ℕ × ℕ)
  /-- How often `lapic_ack` was called. -/
  lapicAcks : ℕ

/-- `IRQ_REDIR_BASE`. -/
def irqRedirBase : ℕ := 32

def isHwIrq (irq : ℕ) : Bool := irq = 32 || irq = 33 || irq = 36

section Functions

variable {Isr : Type}

namespace Interrupts

/-- What a function of `pic.c` keeps and writes. -/
def writePic (interrupts : Interrupts Isr) (written : Pic × List PortWrite) : Interrupts Isr :=
  { interrupts with pic := written.1, chips := interrupts.chips.outbs written.2 }

end Interrupts

def interruptRegister (interrupts : Interrupts Isr) (irq : ℕ) (isr : Isr) : Interrupts Isr :=
  let interrupts := { interrupts with
    intHandlerTable := Function.update interrupts.intHandlerTable irq (some isr) }
  if isHwIrq irq then
    if interrupts.ioapicIsInitialized then
      { interrupts with redirected := (irq - irqRedirBase, 0) :: interrupts.redirected }
    else
      interrupts.writePic (picEnableIrq interrupts.pic (irq - irqRedirBase))
  else
    interrupts

/-- The handlers that `interrupt_init` registers. -/
structure InitialHandlers (Isr : Type) where
  isrCom1 : Isr
  isrGpf : Isr
  isrDeviceNotAvailable : Isr

def interruptInit (code : HandlerCode) (isrs : InitialHandlers Isr) (interrupts : Interrupts Isr) :
    Interrupts Isr :=
  let interrupts := interrupts.writePic picInit
  let interrupts := { interrupts with
    idtEntries := encodedHandlers.foldl
      (fun entries number => interruptEncodeIdtEntry entries number (code.asmIntHandler number))
      interrupts.idtEntries }
  let interrupts := interruptRegister interrupts 36 isrs.isrCom1
  let interrupts := interruptRegister interrupts 13 isrs.isrGpf
  interruptRegister interrupts 39 isrs.isrDeviceNotAvailable

/-- `interrupt_handler`: the interrupt is acknowledged, and the handler of its number, if there is
one, is called. -/
def interruptHandler (interrupts : Interrupts Isr) (interruptNum : ℕ) :
    Interrupts Isr × Option Isr :=
  if 256 ≤ interruptNum then
    (interrupts, none)
  else
    let acknowledged :=
      if interrupts.ioapicIsInitialized then
        { interrupts with lapicAcks := interrupts.lapicAcks + 1 }
      else
        interrupts.writePic (interrupts.pic, picAck interruptNum)
    (acknowledged, acknowledged.intHandlerTable interruptNum)

/-- `init_io_apic`, for the number of I/O APICs that the tables list. -/
def initIoApic (interrupts : Interrupts Isr) (ioApicCount : ℕ) : Interrupts Isr :=
  if ioApicCount = 0 then
    interrupts
  else
    { interrupts.writePic picUninit with ioapicIsInitialized := true }

end Functions

/-! ## Runs -/

structure InterruptRun (Isr : Type) where
  interrupts : Interrupts Isr
  /-- The interrupts of the lines, with the handler that was called; the last one first. -/
  calls : List (ℕ × Option Isr)

inductive InterruptAction (Isr : Type) where
  | register (irq : ℕ) (isr : Isr)
  | initIoApic (ioApicCount : ℕ)
  | line (line : ℕ)

section Runs

variable {Isr : Type}

def InterruptRun.step (run : InterruptRun Isr) : InterruptAction Isr → Option (InterruptRun Isr)
  | .register irq isr =>
      if irq < 256 then
        some { run with interrupts := interruptRegister run.interrupts irq isr }
      else none
  | .initIoApic ioApicCount =>
      some { run with interrupts := CatchOS.Interrupt.initIoApic run.interrupts ioApicCount }
  | .line line =>
      if run.interrupts.chips.Unmasked line then
        let vector := run.interrupts.chips.vector line
        let raised := { run.interrupts with chips := run.interrupts.chips.raise line }
        let handled := interruptHandler raised vector
        some ⟨handled.1, (vector, handled.2) :: run.calls⟩
      else none

/-- Runs start with `interrupt_init`, before which no handler of the hardware was registered. -/
def interruptSystem (code : HandlerCode) (isrs : InitialHandlers Isr) :
    System (InterruptRun Isr) (InterruptAction Isr) where
  initial run := ∃ before : Interrupts Isr, before.ioapicIsInitialized = false ∧
    before.idtEntries = zeroEntries ∧
    (∀ irq, isHwIrq irq = true → before.intHandlerTable irq = none) ∧
    run = ⟨interruptInit code isrs before, []⟩
  step := InterruptRun.step

/-! ## The invariant -/

/-- A line that may interrupt: it is one of the hardware, its handler was registered, and the I/O
APIC has not taken over. -/
def Enabled (interrupts : Interrupts Isr) (line : ℕ) : Prop :=
  interrupts.ioapicIsInitialized = false ∧ isHwIrq (irqRedirBase + line) = true ∧
    (interrupts.intHandlerTable (irqRedirBase + line)).isSome = true

/-- The controllers are ready, with the masks of the lines that may interrupt taken off. -/
structure Consistent (code : HandlerCode) (interrupts : Interrupts Isr) : Prop where
  ready : Ready interrupts.chips interrupts.pic
  slave : interrupts.pic.pic2 = 0xff
  lines : ∀ line < 8, interrupts.pic.pic1.getLsbD line = false ↔ Enabled interrupts line
  entries : interrupts.idtEntries = idtEntries code

end Runs

section Invariant

variable {Isr : Type} {code : HandlerCode} {isrs : InitialHandlers Isr}
  {interrupts : Interrupts Isr}

/-- With all lines masked none is enabled. -/
theorem getLsbD_masked {line : ℕ} (bound : line < 8) : (0xff : Byte).getLsbD line = true := by
  interval_cases line <;> rfl

/-- The lines of the hardware are the first ones. -/
theorem isHwIrq_cases {irq : ℕ} (isHw : isHwIrq irq = true) :
    irqRedirBase ≤ irq ∧ irq - irqRedirBase < 8 := by
  simp only [isHwIrq, Bool.or_eq_true, decide_eq_true_eq] at isHw
  unfold irqRedirBase
  omega

namespace Consistent

theorem register (consistent : Consistent code interrupts) (irq : ℕ) (isr : Isr) :
    Consistent code (interruptRegister interrupts irq isr) := by
  obtain ⟨ready, slave, lines, entries⟩ := consistent
  unfold interruptRegister
  by_cases isHw : isHwIrq irq = true
  · obtain ⟨above, below⟩ := isHwIrq_cases isHw
    simp only [isHw, if_true]
    by_cases ioapic : interrupts.ioapicIsInitialized = true
    · simp only [ioapic, if_true]
      refine ⟨ready, slave, fun line bound => ?_, entries⟩
      rw [lines line bound]
      simp only [Enabled, ioapic, Bool.true_eq_false, false_and]
    · simp only [ioapic, Bool.false_eq_true, if_false, Interrupts.writePic]
      refine ⟨picEnableIrq_ready ready _, ?_, fun line bound => ?_, entries⟩
      · simp only [picEnableIrq, below, if_true, slave]
      · have before := lines line bound
        simp only [Enabled, ioapic, true_and] at before ⊢
        simp only [picEnableIrq, below, if_true]
        rw [getLsbD_enable _ bound]
        by_cases here : line = irq - irqRedirBase
        · have same : irqRedirBase + line = irq := by omega
          rw [same, Function.update_self]
          simp [here, isHw]
        · have other : irqRedirBase + line ≠ irq := by omega
          simp only [here, ne_eq, not_false_eq_true, decide_true, Bool.and_true, before,
            Function.update_of_ne other]
  · simp only [isHw, Bool.false_eq_true, if_false]
    refine ⟨ready, slave, fun line bound => ?_, entries⟩
    rw [lines line bound]
    unfold Enabled
    by_cases here : irqRedirBase + line = irq
    · rw [here]
      simp only [isHw, Bool.false_eq_true, false_and]
    · simp only [Function.update_of_ne here]

/-- All lines are masked, and none is enabled. -/
theorem masked (ready : Ready interrupts.chips interrupts.pic)
    (masks : interrupts.pic = ⟨0xff, 0xff⟩)
    (entries : interrupts.idtEntries = idtEntries code)
    (nothing : ∀ line, ¬Enabled interrupts line) : Consistent code interrupts := by
  refine ⟨ready, by rw [masks], fun line bound => iff_of_false ?_ (nothing line), entries⟩
  rw [masks, getLsbD_masked bound]
  exact Bool.noConfusion

/-- `interrupt_init` leaves the line of COM1 enabled. -/
theorem init {before : Interrupts Isr} (isrs : InitialHandlers Isr)
    (unregistered : ∀ irq, isHwIrq irq = true → before.intHandlerTable irq = none)
    (entries : before.idtEntries = zeroEntries) :
    Consistent code (interruptInit code isrs before) := by
  have start : Consistent code { before.writePic picInit with
      idtEntries := encodedHandlers.foldl
        (fun entries number => interruptEncodeIdtEntry entries number (code.asmIntHandler number))
        (before.writePic picInit).idtEntries } := by
    refine masked (picInit_ready _) rfl ?_ ?_
    · rw [Interrupts.writePic, entries]
      rfl
    · rintro line ⟨-, isHw, registered⟩
      have nothing := unregistered _ isHw
      simp only [Interrupts.writePic, nothing, Option.isSome_none, Bool.false_eq_true] at registered
  exact ((start.register 36 isrs.isrCom1).register 13 isrs.isrGpf).register 39
    isrs.isrDeviceNotAvailable

theorem initIoApic (consistent : Consistent code interrupts) (ioApicCount : ℕ) :
    Consistent code (CatchOS.Interrupt.initIoApic interrupts ioApicCount) := by
  unfold CatchOS.Interrupt.initIoApic
  split
  · exact consistent
  · exact masked (picInit_ready _) rfl consistent.entries fun line enabled =>
      Bool.noConfusion enabled.1

/-- A line that is not masked is one of the first controller, and it is enabled. -/
theorem unmasked_iff (consistent : Consistent code interrupts) (line : ℕ) :
    interrupts.chips.Unmasked line ↔ Enabled interrupts line := by
  have ready := consistent.ready
  have masks : interrupts.chips.master.mask = interrupts.pic.pic1 ∧
      interrupts.chips.slave.mask = 0xff := by
    rw [ready]
    exact ⟨rfl, consistent.slave⟩
  unfold Chips.Unmasked
  rw [masks.1, masks.2]
  constructor
  · rintro (⟨bound, unmasked⟩ | ⟨-, bound, unmasked, -⟩)
    · exact (consistent.lines line bound).mp unmasked
    · rw [getLsbD_masked (by omega)] at unmasked
      cases unmasked
  · intro enabled
    have bound : line < 8 := by
      have below := (isHwIrq_cases enabled.2.1).2
      omega
    exact .inl ⟨bound, (consistent.lines line bound).mpr enabled⟩

/-- An interrupt of a line that is not masked calls its handler, and it does not stay in service. -/
theorem line {line : ℕ} (consistent : Consistent code interrupts)
    (unmasked : interrupts.chips.Unmasked line) :
    ∃ isr, interrupts.intHandlerTable (irqRedirBase + line) = some isr ∧
      interrupts.chips.vector line = irqRedirBase + line ∧
      (interruptHandler { interrupts with chips := interrupts.chips.raise line }
        (interrupts.chips.vector line)).2 = some isr ∧
      Consistent code (interruptHandler { interrupts with chips := interrupts.chips.raise line }
        (interrupts.chips.vector line)).1 := by
  have enabled := (consistent.unmasked_iff line).mp unmasked
  obtain ⟨noApic, isHw, registered⟩ := enabled
  obtain ⟨isr, isRegistered⟩ := Option.isSome_iff_exists.mp registered
  have bound : line < 8 := by
    have below := (isHwIrq_cases isHw).2
    omega
  have vector : interrupts.chips.vector line = irqRedirBase + line := by
    rw [consistent.ready, Chips.vector, if_pos bound]
    rfl
  have acknowledged := picAck_ready consistent.ready bound
  have known : ¬256 ≤ irqRedirBase + line := by
    unfold irqRedirBase
    omega
  rw [vector] at acknowledged ⊢
  simp only [interruptHandler, known, if_false, noApic, Bool.false_eq_true, Interrupts.writePic]
  refine ⟨isr, isRegistered, trivial, isRegistered, acknowledged, consistent.slave, ?_,
    consistent.entries⟩
  simpa only [Enabled, noApic] using consistent.lines

end Consistent

/-- The handlers were there when they were called. -/
def Called (run : InterruptRun Isr) : Prop := ∀ call ∈ run.calls, ∃ isr, call.2 = some isr

theorem consistent_reachable {run : InterruptRun Isr}
    (reachable : (interruptSystem code isrs).Reachable run) :
    Consistent code run.interrupts ∧ Called run := by
  refine reachable.invariant (fun run => Consistent code run.interrupts ∧ Called run) ?_ ?_
  · rintro run ⟨before, -, entries, unregistered, rfl⟩
    exact ⟨.init isrs unregistered entries, fun _ member => absurd member List.not_mem_nil⟩
  · rintro run action next ⟨consistent, called⟩ - stepped
    cases action with
    | register irq isr =>
        simp only [interruptSystem, InterruptRun.step, Option.ite_none_right_eq_some,
          Option.some.injEq] at stepped
        obtain ⟨-, rfl⟩ := stepped
        exact ⟨consistent.register irq isr, called⟩
    | initIoApic ioApicCount =>
        simp only [interruptSystem, InterruptRun.step, Option.some.injEq] at stepped
        subst stepped
        exact ⟨consistent.initIoApic ioApicCount, called⟩
    | line line =>
        simp only [interruptSystem, InterruptRun.step, Option.ite_none_right_eq_some,
          Option.some.injEq] at stepped
        obtain ⟨unmasked, rfl⟩ := stepped
        obtain ⟨isr, -, -, isCalled, next⟩ := consistent.line unmasked
        exact ⟨next, List.forall_mem_cons.mpr ⟨⟨isr, isCalled⟩, called⟩⟩

/-- **Which lines interrupt.** In every state of every run a line of the controllers may interrupt
if and only if it is that of the timer, the keyboard or COM1, its handler was registered, and the
I/O APIC was not initialized. Its interrupt has the number `32 + line`, for which there is a gate;
the handler that was registered last is called; and afterwards nothing is in service, so that the
controllers can interrupt again. No interrupt of a line was ever without a handler. -/
theorem interrupt_lines {run : InterruptRun Isr}
    (reachable : (interruptSystem code isrs).Reachable run) :
    (∀ line, run.interrupts.chips.Unmasked line ↔ Enabled run.interrupts line) ∧
      (∀ line, run.interrupts.chips.Unmasked line → ∃ isr next,
        run.interrupts.intHandlerTable (irqRedirBase + line) = some isr ∧
        run.interrupts.idtEntries (irqRedirBase + line) =
          encodedEntry (code.asmIntHandler (irqRedirBase + line)) ∧
        run.step (.line line) = some next ∧
        next.calls = (irqRedirBase + line, some isr) :: run.calls) ∧
      run.interrupts.chips.master.inService = 0 ∧ run.interrupts.chips.slave.inService = 0 ∧
      ∀ call ∈ run.calls, ∃ isr, call.2 = some isr := by
  obtain ⟨consistent, called⟩ := consistent_reachable reachable
  refine ⟨consistent.unmasked_iff, fun line unmasked => ?_, ?_, ?_, called⟩
  · obtain ⟨isr, registered, vector, isCalled, -⟩ := consistent.line unmasked
    obtain ⟨-, isHw, -⟩ := (consistent.unmasked_iff line).mp unmasked
    refine ⟨isr, _, registered, ?_, if_pos unmasked, ?_⟩
    · rw [consistent.entries, idtEntries_eq, if_pos]
      simp only [isHwIrq, Bool.or_eq_true, decide_eq_true_eq] at isHw
      rcases isHw with (timer | keyboard) | com1
      · rw [timer]
        decide
      · rw [keyboard]
        decide
      · rw [com1]
        decide
    · rw [vector] at isCalled
      simp only [vector, isCalled]
  · rw [consistent.ready]
  · rw [consistent.ready]

end Invariant

/-- After `interrupt_init` the line of COM1 interrupts. -/
theorem interrupt_lines_com1 : ∃ run next : InterruptRun ℕ,
    (interruptSystem exampleCode ⟨1, 2, 3⟩).Reachable run ∧ run.step (.line 4) = some next ∧
      next.calls = [(36, some 1)] := by
  let before : Interrupts ℕ :=
    { intHandlerTable := fun _ => none
      idtEntries := zeroEntries
      pic := ⟨0, 0⟩
      chips := ⟨⟨0, 0, 0, 0⟩, ⟨0, 0, 0, 0⟩⟩
      ioapicIsInitialized := false
      redirected := []
      lapicAcks := 0 }
  have reachable : (interruptSystem exampleCode ⟨1, 2, 3⟩).Reachable
      ⟨interruptInit exampleCode ⟨1, 2, 3⟩ before, []⟩ :=
    .start ⟨before, rfl, rfl, fun _ _ => rfl, rfl⟩
  obtain ⟨unmasked, lines, -⟩ := interrupt_lines reachable
  obtain ⟨isr, next, registered, -, stepped, calls⟩ := lines 4 ((unmasked 4).mpr ⟨rfl, rfl, rfl⟩)
  obtain rfl : 1 = isr := Option.some.inj registered
  exact ⟨_, next, reachable, stepped, calls⟩

end CatchOS.Interrupt
