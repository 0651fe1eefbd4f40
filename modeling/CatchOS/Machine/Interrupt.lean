import CatchOS.Machine.Instruction

/-!
# Interrupts of the machine

What the processor does when an interrupt goes through a gate, and the instructions of a handler
that `Instruction` does not have: constants that are pushed, `lea`, `add`, `call` and `iret`.

All of them change the memory by pushing words only. `pushWords` pushes some words one after
another; they lie on the stack with the last one lowest, and below the old top of the stack nothing
else is written (`pushWords_pushed`). The code segment is the same in all the kernel, so `iret`
takes it from the stack and leaves it.
-/

set_option autoImplicit false

namespace CatchOS

/-! ## Flags -/

/-- CF, PF, AF, ZF, SF and OF, which arithmetic instructions set. -/
def arithmeticFlags : Word := 0x8D5

/-- TF, IF, NT, RF and VM, which are off in a handler behind an interrupt gate. -/
def gateFlags : Word := 0x34300

/-- The flags after `add`. -/
def addFlags (flags left right : Word) : Word :=
  let sum := left + right
  let bit (set : Bool) (place : ℕ) : Word := if set then 1 <<< place else 0
  let ones := (List.range 8).countP fun i => sum.getLsbD i
  (flags &&& ~~~arithmeticFlags) ||| bit (decide (sum < left)) 0 |||
    bit (decide (ones % 2 = 0)) 2 |||
    bit (decide (16 ≤ left.toNat % 16 + right.toNat % 16)) 4 ||| bit (decide (sum = 0)) 6 |||
    bit sum.msb 7 ||| bit (left.msb == right.msb && sum.msb != left.msb) 11

/-! ## Words in memory -/

/-- One of some words. -/
theorem Holds.load {memory : Memory} {address word : Word} {words : List Word} {i : ℕ}
    (held : Holds memory address words) (isWord : words[i]? = some word) :
    CatchOS.load memory (after address i) = word := by
  induction words generalizing address i with
  | nil => cases isWord
  | cons first words ih =>
      cases i with
      | zero =>
          rw [after_zero]
          exact held.1.trans (Option.some.inj isWord)
      | succ i =>
          rw [after_succ]
          exact ih held.2 isWord

/-- One of some words is replaced. -/
theorem Holds.store {memory : Memory} {address word value : Word} {front back : List Word}
    (held : Holds memory address (front ++ word :: back))
    (fits : address.toNat + 4 * (front ++ word :: back).length ≤ 2 ^ 32) :
    Holds (CatchOS.store memory (after address front.length) value) address
      (front ++ value :: back) := by
  rw [holds_append, Holds] at held ⊢
  obtain ⟨before, -, behind⟩ := held
  simp only [List.length_append, List.length_cons] at fits
  have place : (after address front.length).toNat = address.toNat + 4 * front.length := by
    rw [after, BitVec.toNat_add, BitVec.toNat_ofNat]
    omega
  refine ⟨before.congr fun byte inside => store_outside fun here => ?_, load_store_self _ _ _,
    behind.congr fun byte inside => store_outside fun here => ?_⟩
  · rw [mem_span_iff (by omega)] at inside
    rw [mem_span_iff (by omega), place] at here
    omega
  · obtain ⟨i, bound, rfl⟩ := inside
    rw [mem_span_iff (by omega), place] at here
    rw [offset, BitVec.toNat_add, place] at here
    have four : (4 : Word).toNat = 4 := rfl
    omega

namespace Machine

/-! ## Words that are pushed -/

def pushWord (machine : Machine) (word : Word) : Machine :=
  let esp := machine.reg .esp - 4
  { machine.setReg .esp esp with memory := store machine.memory esp word }

/-- The words one after another. -/
def pushWords (machine : Machine) (words : List Word) : Machine := words.foldl pushWord machine

@[simp] theorem pushWords_nil (machine : Machine) : machine.pushWords [] = machine := rfl

@[simp] theorem pushWords_cons (machine : Machine) (word : Word) (words : List Word) :
    machine.pushWords (word :: words) = (machine.pushWord word).pushWords words := rfl

theorem pushWords_append (machine : Machine) (words more : List Word) :
    machine.pushWords (words ++ more) = (machine.pushWords words).pushWords more :=
  List.foldl_append

@[simp] theorem pushWord_esp (machine : Machine) (word : Word) :
    (machine.pushWord word).reg .esp = machine.reg .esp - 4 := by
  simp only [pushWord, setReg, Function.update_self]

theorem pushWord_reg (machine : Machine) (word : Word) {register : Register}
    (other : register ≠ .esp) : (machine.pushWord word).reg register = machine.reg register := by
  simp only [pushWord, setReg, Function.update_of_ne other]

@[simp] theorem pushWord_memory (machine : Machine) (word : Word) :
    (machine.pushWord word).memory = store machine.memory (machine.reg .esp - 4) word := rfl

@[simp] theorem setReg_self (machine : Machine) (target : Register) (value : Word) :
    (machine.setReg target value).reg target = value := by
  simp only [setReg, Function.update_self]

theorem setReg_reg (machine : Machine) {target register : Register} (value : Word)
    (other : register ≠ target) :
    (machine.setReg target value).reg register = machine.reg register := by
  simp only [setReg, Function.update_of_ne other]

@[simp] theorem setReg_memory (machine : Machine) (target : Register) (value : Word) :
    (machine.setReg target value).memory = machine.memory := rfl

/-- What is written depends on the memory and the top of the stack only. -/
theorem pushWords_memory_congr {machine other : Machine} (memory : other.memory = machine.memory)
    (esp : other.reg .esp = machine.reg .esp) (words : List Word) :
    (other.pushWords words).memory = (machine.pushWords words).memory := by
  induction words generalizing machine other with
  | nil => exact memory
  | cons word words ih =>
      refine ih ?_ ?_
      · rw [pushWord_memory, pushWord_memory, memory, esp]
      · rw [pushWord_esp, pushWord_esp, esp]

theorem exec_push (machine : Machine) (source : Register) :
    machine.exec (.push source) = machine.pushWord (machine.reg source) := rfl

theorem pushWords_reg (machine : Machine) (words : List Word) :
    (machine.pushWords words).reg = Function.update machine.reg .esp
      (machine.reg .esp - BitVec.ofNat 32 (4 * words.length)) := by
  induction words generalizing machine with
  | nil => simp
  | cons word words ih =>
      have lowered : (machine.pushWord word).reg = Function.update machine.reg .esp
          (machine.reg .esp - 4) := rfl
      rw [pushWords_cons, ih, lowered, Function.update_self, Function.update_idem, List.length_cons]
      congr 1
      bv_omega

/-- What pushing words does to the memory. -/
structure PushedWords (machine next : Machine) (words : List Word) : Prop where
  held : Holds next.memory (next.reg .esp) words.reverse
  frame : Set.EqOn next.memory machine.memory (span (next.reg .esp) (4 * words.length))ᶜ

/-- **Pushes of words.** The words lie on the stack, the last one lowest. -/
theorem pushWords_pushed (machine : Machine) (words : List Word)
    (small : 4 * words.length < 2 ^ 32) :
    PushedWords machine (machine.pushWords words) words := by
  induction words using List.reverseRecOn with
  | nil => exact ⟨trivial, fun _ _ => rfl⟩
  | append_singleton words word ih =>
      rw [List.length_append, List.length_singleton] at small
      obtain ⟨held, frame⟩ := ih (by omega)
      rw [pushWords_append, pushWords_cons, pushWords_nil]
      generalize machine.pushWords words = pushed at held frame
      have above : (pushed.pushWord word).reg .esp + 4 = pushed.reg .esp := by
        rw [pushWord_esp]
        exact BitVec.sub_add_cancel _ _
      have wrote : (pushed.pushWord word).memory =
          store pushed.memory ((pushed.pushWord word).reg .esp) word := by
        rw [pushWord_memory, pushWord_esp]
      generalize pushed.pushWord word = next at above wrote
      have apart : span (pushed.reg .esp) (4 * words.length) ⊆ (span (next.reg .esp) 4)ᶜ := by
        rintro byte ⟨i, bound, rfl⟩ ⟨j, below, same⟩
        rw [← above, offset, offset, BitVec.toNat_add] at same
        have four : (4 : Word).toNat = 4 := rfl
        omega
      constructor
      · rw [List.reverse_append, List.reverse_singleton, List.singleton_append]
        refine ⟨by rw [wrote, load_store_self], ?_⟩
        rw [above]
        refine held.congr ?_
        rw [List.length_reverse, wrote]
        exact fun byte inside => store_outside (apart inside)
      · intro byte outside
        rw [List.length_append, List.length_singleton] at outside
        rw [wrote, store_outside fun inside => outside ?_, frame fun inside => outside ?_]
        · obtain ⟨i, bound, rfl⟩ := inside
          refine ⟨i + 4, by omega, ?_⟩
          have four : (4 : Word).toNat = 4 := rfl
          rw [← above, offset, offset, BitVec.toNat_add]
          omega
        · obtain ⟨i, bound, rfl⟩ := inside
          exact ⟨i, by omega, rfl⟩

end Machine

/-! ## Instructions of a handler -/

inductive HandlerInstruction where
  | plain (instruction : Instruction)
  /-- `push dword value`. -/
  | pushValue (value : Word)
  /-- `lea target, [base + bytes]`. -/
  | lea (target base : Register) (bytes : Word)
  /-- `add target, value`. -/
  | add (target : Register) (value : Word)
  /-- `call target`, which returns to the given address. -/
  | call (target returnTo : Word)
  | iret

namespace Machine

def execHandler (machine : Machine) : HandlerInstruction → Machine
  | .plain instruction => machine.exec instruction
  | .pushValue value => machine.pushWord value
  | .lea target base bytes => machine.setReg target (machine.reg base + bytes)
  | .add target value =>
      let flags := addFlags (machine.reg .eflags) (machine.reg target) value
      (machine.setReg .eflags flags).setReg target (machine.reg target + value)
  | .call target returnTo => { machine.pushWord returnTo with eip := target }
  | .iret =>
      let esp := machine.reg .esp
      { (machine.setReg .eflags (load machine.memory (esp + 8))).setReg .esp (esp + 12) with
        eip := load machine.memory esp }

def runHandler (machine : Machine) (instructions : List HandlerInstruction) : Machine :=
  instructions.foldl execHandler machine

@[simp] theorem runHandler_nil (machine : Machine) : machine.runHandler [] = machine := rfl

@[simp] theorem runHandler_cons (machine : Machine) (instruction : HandlerInstruction)
    (instructions : List HandlerInstruction) :
    machine.runHandler (instruction :: instructions) =
      (machine.execHandler instruction).runHandler instructions := rfl

theorem runHandler_append (machine : Machine) (first second : List HandlerInstruction) :
    machine.runHandler (first ++ second) = (machine.runHandler first).runHandler second :=
  List.foldl_append

/-- The instructions of `Instruction` are executed as they are without an interrupt. -/
theorem runHandler_plain (machine : Machine) (instructions : List Instruction) :
    machine.runHandler (instructions.map .plain) = machine.run instructions :=
  List.foldl_map

/-! ## Delivery -/

/-- An interrupt goes through an interrupt gate of the same privilege to the handler. The flags,
the code segment and the address to continue at are pushed, and for some exceptions an error
code. -/
def deliver (machine : Machine) (cs : Word) (errorCode : Option Word) (handler : Word) : Machine :=
  let entered := machine.pushWords ([machine.reg .eflags, cs, machine.eip] ++ errorCode.toList)
  { entered.setReg .eflags (machine.reg .eflags &&& ~~~gateFlags) with eip := handler }

@[simp] theorem deliver_eip (machine : Machine) (cs : Word) (errorCode : Option Word)
    (handler : Word) : (machine.deliver cs errorCode handler).eip = handler := rfl

end Machine

end CatchOS
