import CatchOS.Machine.Memory
import Mathlib.Data.BitVec
import Mathlib.Data.Set.Function

/-!
# Instructions of the machine

The registers of one CPU with its memory, and the instructions that move words
between them: pushes and pops, moves between a register and a word in memory, and
`ret`. A routine without jumps is a list of instructions, and `Machine.run` executes
it.

`Holds` says that a list of words lies in memory from an address on. Pushing
registers leaves their values there, the last one lowest (`run_pushes`), and popping
registers takes such values up (`run_pops`). Outside the words they write,
instructions leave the memory as it is.
-/

set_option autoImplicit false

namespace CatchOS

abbrev Word := BitVec 32

/-! ## Words in memory -/

def load (memory : Memory) (address : Word) : Word :=
  BitVec.ofNat 32 (loadWord memory address.toNat)

def store (memory : Memory) (address value : Word) : Memory :=
  storeWord memory address.toNat value.toNat

/-- The bytes from an address on, which may wrap. -/
def span (address : Word) (size : ℕ) : Set ℕ := {byte | ∃ i < size, byte = offset address.toNat i}

theorem load_store_self (memory : Memory) (address value : Word) :
    load (store memory address value) address = value := by
  rw [load, store, loadWord_storeWord value.isLt, BitVec.ofNat_toNat, BitVec.setWidth_eq]

theorem store_outside {memory : Memory} {address value : Word} {byte : ℕ}
    (outside : byte ∉ span address 4) : store memory address value byte = memory byte :=
  storeWord_frame fun i bound same => outside ⟨i, bound, same⟩

/-- A word depends on its own bytes only. -/
theorem load_congr {memory memory' : Memory} {address : Word}
    (same : Set.EqOn memory' memory (span address 4)) :
    load memory' address = load memory address :=
  congrArg (BitVec.ofNat 32) (loadWord_congr fun i bound => same ⟨i, bound, rfl⟩)

/-- The bytes of a span that does not wrap. -/
theorem mem_span_iff {address : Word} {size byte : ℕ} (fits : address.toNat + size ≤ 2 ^ 32) :
    byte ∈ span address size ↔ address.toNat ≤ byte ∧ byte < address.toNat + size := by
  constructor
  · rintro ⟨i, bound, rfl⟩
    rw [offset_eq (by omega)]
    omega
  · rintro ⟨above, below⟩
    refine ⟨byte - address.toNat, by omega, ?_⟩
    rw [offset_eq (by omega)]
    omega

theorem load_store_of_apart {memory : Memory} {address other value : Word}
    (fits : address.toNat + 4 ≤ 2 ^ 32) (otherFits : other.toNat + 4 ≤ 2 ^ 32)
    (apart : other.toNat + 4 ≤ address.toNat ∨ address.toNat + 4 ≤ other.toNat) :
    load (store memory address value) other = load memory other :=
  congrArg (BitVec.ofNat 32) (loadWord_storeWord_of_apart fits otherFits apart)

theorem toNat_add {address bytes : Word} (fits : address.toNat + bytes.toNat < 2 ^ 32) :
    (address + bytes).toNat = address.toNat + bytes.toNat := by
  rw [BitVec.toNat_add, Nat.mod_eq_of_lt fits]

theorem toNat_sub {address bytes : Word} (room : bytes.toNat ≤ address.toNat) :
    (address - bytes).toNat = address.toNat - bytes.toNat := by
  rw [BitVec.toNat_sub_of_le (BitVec.le_def.mpr room)]

/-! ## Words one after another -/

/-- The words lie in memory from the address on. -/
def Holds (memory : Memory) : Word → List Word → Prop
  | _, [] => True
  | address, word :: words => load memory address = word ∧ Holds memory (address + 4) words

/-- The address after a number of words. -/
def after (address : Word) (count : ℕ) : Word := address + BitVec.ofNat 32 (4 * count)

@[simp] theorem after_zero (address : Word) : after address 0 = address := by
  simp [after]

theorem after_succ (address : Word) (count : ℕ) :
    after address (count + 1) = after (address + 4) count := by
  unfold after
  bv_omega

theorem holds_append {memory : Memory} {address : Word} {words more : List Word} :
    Holds memory address (words ++ more) ↔
      Holds memory address words ∧ Holds memory (after address words.length) more := by
  induction words generalizing address with
  | nil => simp [Holds]
  | cons word words ih =>
      rw [List.cons_append, Holds, Holds, ih, List.length_cons, after_succ, and_assoc]

theorem Holds.congr {memory memory' : Memory} {address : Word} {words : List Word}
    (same : Set.EqOn memory' memory (span address (4 * words.length)))
    (held : Holds memory address words) : Holds memory' address words := by
  induction words generalizing address with
  | nil => trivial
  | cons word words ih =>
      rw [List.length_cons] at same
      refine ⟨(load_congr (same.mono ?_)).trans held.1, ih (same.mono ?_) held.2⟩
      · rintro byte ⟨i, bound, rfl⟩
        exact ⟨i, by omega, rfl⟩
      · rintro byte ⟨i, bound, rfl⟩
        refine ⟨i + 4, by omega, ?_⟩
        have four : (4 : Word).toNat = 4 := rfl
        unfold offset
        rw [BitVec.toNat_add, four]
        omega

/-! ## The machine -/

/-- The general registers, and the flags. -/
inductive Register where
  | eax | ecx | edx | ebx | esi | edi | ebp | esp | eflags
  deriving DecidableEq

structure Machine where
  reg : Register → Word
  eip : Word
  memory : Memory

inductive Instruction where
  | push (source : Register)
  | pop (target : Register)
  /-- `mov target, [base + bytes]`. -/
  | load (target base : Register) (bytes : Word)
  /-- `mov [base + bytes], source`. -/
  | store (base : Register) (bytes : Word) (source : Register)
  | ret

/-- `pushf`. -/
abbrev Instruction.pushf : Instruction := .push .eflags

/-- `popf`, of flags that the kernel may change. -/
abbrev Instruction.popf : Instruction := .pop .eflags

namespace Machine

def setReg (machine : Machine) (target : Register) (value : Word) : Machine :=
  { machine with reg := Function.update machine.reg target value }

def exec (machine : Machine) : Instruction → Machine
  | .push source =>
      let esp := machine.reg .esp - 4
      { machine.setReg .esp esp with
        memory := CatchOS.store machine.memory esp (machine.reg source) }
  | .pop target =>
      let value := CatchOS.load machine.memory (machine.reg .esp)
      (machine.setReg .esp (machine.reg .esp + 4)).setReg target value
  | .load target base bytes =>
      machine.setReg target (CatchOS.load machine.memory (machine.reg base + bytes))
  | .store base bytes source =>
      { machine with
        memory := CatchOS.store machine.memory (machine.reg base + bytes) (machine.reg source) }
  | .ret =>
      { machine.setReg .esp (machine.reg .esp + 4) with
        eip := CatchOS.load machine.memory (machine.reg .esp) }

def run (machine : Machine) (instructions : List Instruction) : Machine :=
  instructions.foldl exec machine

@[simp] theorem run_nil (machine : Machine) : machine.run [] = machine := rfl

@[simp] theorem run_cons (machine : Machine) (instruction : Instruction)
    (instructions : List Instruction) :
    machine.run (instruction :: instructions) = (machine.exec instruction).run instructions := rfl

theorem run_append (machine : Machine) (first second : List Instruction) :
    machine.run (first ++ second) = (machine.run first).run second :=
  List.foldl_append

/-- The words that an instruction writes or pops. -/
def touches (machine : Machine) : Instruction → List Word
  | .push _ => [machine.reg .esp - 4]
  | .pop _ => [machine.reg .esp]
  | .load _ _ _ => []
  | .store base bytes _ => [machine.reg base + bytes]
  | .ret => [machine.reg .esp]

/-- The words that a list of instructions writes or pops. -/
def touched (machine : Machine) : List Instruction → List Word
  | [] => []
  | instruction :: instructions =>
      machine.touches instruction ++ (machine.exec instruction).touched instructions

theorem touched_append (machine : Machine) (first second : List Instruction) :
    machine.touched (first ++ second) =
      machine.touched first ++ (machine.run first).touched second := by
  induction first generalizing machine with
  | nil => rfl
  | cons instruction first ih =>
      rw [List.cons_append, touched, touched, ih, run_cons, List.append_assoc]

/-- What pushing registers does. -/
structure Pushed (machine next : Machine) (sources : List Register) : Prop where
  reg : next.reg = Function.update machine.reg .esp
    (machine.reg .esp - BitVec.ofNat 32 (4 * sources.length))
  held : Holds next.memory (next.reg .esp) (sources.reverse.map machine.reg)
  frame : Set.EqOn next.memory machine.memory (span (next.reg .esp) (4 * sources.length))ᶜ

/-- **Pushes.** The registers lie on the stack, the last one lowest. -/
theorem run_pushes (machine : Machine) (sources : List Register) (general : .esp ∉ sources)
    (small : 4 * sources.length < 2 ^ 32) :
    Pushed machine (machine.run (sources.map .push)) sources := by
  induction sources generalizing machine with
  | nil => exact ⟨by simp, trivial, fun _ _ => rfl⟩
  | cons source sources ih =>
      rw [List.length_cons] at small
      obtain ⟨-, notBelow⟩ := List.ne_and_not_mem_of_not_mem_cons general
      obtain ⟨reg, held, frame⟩ := ih (machine.exec (.push source)) notBelow (by omega)
      rw [List.map_cons, run_cons]
      generalize (machine.exec (.push source)).run (sources.map .push) = next at reg held frame
      have moved : (machine.exec (.push source)).reg =
          Function.update machine.reg .esp (machine.reg .esp - 4) := rfl
      have wrote : (machine.exec (.push source)).memory =
          CatchOS.store machine.memory (machine.reg .esp - 4) (machine.reg source) := rfl
      have esp : next.reg .esp = machine.reg .esp - BitVec.ofNat 32 (4 * (sources.length + 1)) := by
        rw [reg, moved, Function.update_self, Function.update_self]
        bv_omega
      -- The word that was pushed first lies above all that came later.
      have above : after (next.reg .esp) sources.length = machine.reg .esp - 4 := by
        rw [esp, after]
        bv_omega
      have apart : span (machine.reg .esp - 4) 4 ⊆
          (span (next.reg .esp) (4 * sources.length))ᶜ := by
        rintro byte ⟨i, bound, rfl⟩ ⟨j, below, same⟩
        rw [← above, after, offset, offset, BitVec.toNat_add, BitVec.toNat_ofNat] at same
        omega
      refine ⟨?_, ?_, fun byte outside => ?_⟩
      · funext register
        rw [List.length_cons, ← esp]
        by_cases top : register = .esp
        · rw [top, Function.update_self]
        · rw [reg, Function.update_of_ne top, moved, Function.update_of_ne top,
            Function.update_of_ne top]
      · have same : sources.reverse.map (machine.exec (.push source)).reg =
            sources.reverse.map machine.reg := by
          refine List.map_congr_left fun register member => ?_
          have other : register ≠ .esp := by
            rintro rfl
            exact notBelow (List.mem_reverse.mp member)
          rw [moved, Function.update_of_ne other]
        rw [same] at held
        rw [List.reverse_cons, List.map_append, holds_append, List.length_map, List.length_reverse,
          above]
        refine ⟨held, ?_, trivial⟩
        rw [load_congr (frame.mono apart), wrote, load_store_self]
      · rw [List.length_cons] at outside
        rw [frame fun inside => outside ?_, wrote, store_outside fun inside => outside ?_]
        · obtain ⟨i, bound, rfl⟩ := inside
          refine ⟨4 * sources.length + i, by omega, ?_⟩
          rw [← above, after, offset, offset, BitVec.toNat_add, BitVec.toNat_ofNat]
          omega
        · obtain ⟨i, bound, rfl⟩ := inside
          exact ⟨i, by omega, rfl⟩

/-- What popping registers does, when the given values lie on the stack. -/
structure Popped (machine next : Machine) (targets : List Register) (values : Register → Word) :
    Prop where
  target : ∀ register ∈ targets, next.reg register = values register
  other : ∀ register, register ∉ targets → register ≠ .esp →
    next.reg register = machine.reg register
  esp : next.reg .esp = after (machine.reg .esp) targets.length
  memory : next.memory = machine.memory

/-- **Pops.** The registers take up the values on the stack. -/
theorem run_pops (machine : Machine) (targets : List Register) (values : Register → Word)
    (general : .esp ∉ targets)
    (held : Holds machine.memory (machine.reg .esp) (targets.map values)) :
    Popped machine (machine.run (targets.map .pop)) targets values := by
  induction targets generalizing machine with
  | nil => exact ⟨nofun, fun _ _ _ => rfl, by simp, rfl⟩
  | cons target targets ih =>
      obtain ⟨notTop, notBelow⟩ := List.ne_and_not_mem_of_not_mem_cons general
      have esp : (machine.exec (.pop target)).reg .esp = machine.reg .esp + 4 := by
        simp only [exec, setReg, Function.update_of_ne notTop, Function.update_self]
      have popped : (machine.exec (.pop target)).reg target = values target := by
        simp only [exec, setReg, Function.update_self]
        exact held.1
      have others (register : Register) (different : register ≠ target) (low : register ≠ .esp) :
          (machine.exec (.pop target)).reg register = machine.reg register := by
        simp only [exec, setReg, Function.update_of_ne different, Function.update_of_ne low]
      obtain ⟨taken, kept, moved, memory⟩ := ih (machine.exec (.pop target)) notBelow
        (esp.symm ▸ held.2)
      rw [List.map_cons, run_cons]
      refine ⟨fun register member => ?_, fun register absent low => ?_, ?_, memory⟩
      · by_cases again : register ∈ targets
        · exact taken register again
        · obtain rfl : register = target := (List.mem_cons.mp member).resolve_right again
          rw [kept register again (Ne.symm notTop), popped]
      · obtain ⟨different, below⟩ := List.ne_and_not_mem_of_not_mem_cons absent
        rw [kept register below low, others register different low]
      · rw [moved, esp, List.length_cons, after_succ]

/-- Popping registers takes one word after another. -/
theorem touched_pops (machine : Machine) (targets : List Register) (general : .esp ∉ targets) :
    machine.touched (targets.map .pop) =
      (List.range targets.length).map (after (machine.reg .esp)) := by
  induction targets generalizing machine with
  | nil => rfl
  | cons target targets ih =>
      obtain ⟨notTop, notBelow⟩ := List.ne_and_not_mem_of_not_mem_cons general
      have esp : (machine.exec (.pop target)).reg .esp = machine.reg .esp + 4 := by
        simp only [exec, setReg, Function.update_of_ne notTop, Function.update_self]
      rw [List.map_cons, touched, ih _ notBelow, esp, List.length_cons, List.range_succ_eq_map,
        List.map_cons, List.map_map, after_zero]
      refine congrArg _ (List.map_congr_left fun count _ => ?_)
      exact (after_succ _ _).symm

end Machine

end CatchOS
