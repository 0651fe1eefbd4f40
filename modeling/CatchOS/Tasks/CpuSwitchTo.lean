import CatchOS.Lib.Transition
import CatchOS.Machine.Instruction

/-!
# The context switch

`cpu_switch_to` instruction by instruction, and the frame that `task_new` builds for
it. A task that is not running is kept in its stack and its `task_struct`: the
registers lie on the stack, `esp` and the address to continue at in the structure.

Tasks run on one CPU, each on its own stack. Between two switches the running task
computes what it likes with its registers and its stack. The system records what
every task that does not run should continue with (`Saved`): a task that was switched
away from continues after its call of `cpu_switch_to`, with the registers it had
there, and a task that never ran enters `task_startup`.
-/

set_option autoImplicit false

namespace CatchOS.Tasks

open CatchOS.Lib

/-! ## `cpu_switch_to` -/

/-- `STRUCT_TASK_ESP`. -/
def structTaskEsp : Word := 0

/-- `STRUCT_TASK_EIP`. -/
def structTaskEip : Word := 36

/-- `PUSHED_REGS_SZ`. -/
def pushedRegsSz : Word := 32

/-- The first part of `cpu_switch_to`, which saves the state of the previous task. -/
def saveState : List Instruction :=
  [.push .eax, .push .ecx, .push .edx, .push .ebx, .push .esi, .push .edi, .push .ebp, .pushf,
    .load .edi .esp (pushedRegsSz + 4),
    .load .eax .esp pushedRegsSz,
    .store .edi structTaskEip .eax,
    .store .edi structTaskEsp .esp]

/-- The second part, from `.load` on. -/
def loadState : List Instruction :=
  [.load .esi .esp (pushedRegsSz + 8),
    .load .esp .esi structTaskEsp,
    .load .eax .esi structTaskEip,
    .store .esp pushedRegsSz .eax,
    .popf, .pop .ebp, .pop .edi, .pop .esi, .pop .ebx, .pop .edx, .pop .ecx, .pop .eax,
    .ret]

def cpuSwitchTo : List Instruction := saveState ++ loadState

/-! ## `task_new` -/

/-- `sizeof(struct task_struct)`. -/
def taskStructSize : ℕ := 84

/-- `CPU_EFLAGS_IF`. -/
def cpuEflagsIf : Word := 1 <<< 9

/-- The addresses of the routines that a new task goes through. -/
structure Entries where
  taskStartup : Word
  onCurrentTaskReturnCb : Word

/-- The arguments of `task_new`, and what it has found when it builds the task: the
number of the slot, the blocks of memory, and the flags of the caller. -/
structure NewTask where
  fp : Word
  arg : Word
  stackSize : Word
  priority : Word
  pid : Word
  newtask : Word
  stackBottom : Word
  flags : Word

/-- The top of the stack of a new task. -/
def NewTask.top (new : NewTask) : Word := new.stackBottom + new.stackSize

/-- `*(size_t*)(newtask->cpu_state.esp) = value`. -/
def storeAtEsp (memory : Memory) (newtask value : Word) : Memory :=
  store memory (load memory newtask) value

/-- `newtask->cpu_state.esp -= bytes`. -/
def lowerEsp (memory : Memory) (newtask bytes : Word) : Memory :=
  store memory newtask (load memory newtask - bytes)

/-- The stores of `task_new` from `_memset` on, up to the section that puts the task
into the table. -/
def taskNew (entries : Entries) (memory : Memory) (new : NewTask) : Memory :=
  let memory := memset memory new.newtask.toNat 0 taskStructSize
  -- stack_bottom, state, join_state, cpu_state.esp
  let memory := store memory (new.newtask + 64) new.stackBottom
  let memory := store memory (new.newtask + 52) 0
  let memory := store memory (new.newtask + 76) 0
  let memory := store memory new.newtask (load memory (new.newtask + 64) + new.stackSize)
  -- Set up new task's stack.
  let memory := storeAtEsp memory new.newtask new.arg
  let memory := lowerEsp memory new.newtask 4
  let memory := storeAtEsp memory new.newtask new.fp
  let memory := lowerEsp memory new.newtask 4
  let memory := storeAtEsp memory new.newtask entries.onCurrentTaskReturnCb
  let memory := lowerEsp memory new.newtask (32 + 4)
  let memory := storeAtEsp memory new.newtask (new.flags ||| cpuEflagsIf)
  -- static_prio, pid, stack_state.eip, interruptible
  let memory := store memory (new.newtask + 56) new.priority
  let memory := store memory (new.newtask + 48) new.pid
  let memory := store memory (new.newtask + 36) entries.taskStartup
  store memory (new.newtask + 72) 1

/-! ## Tasks on one CPU -/

/-- Where the tasks keep their state: for every task the address of its `task_struct`
and the bounds of its stack. No two of these have a byte in common. -/
structure Layout (Task : Type) where
  tcb : Task → Word
  stackLow : Task → ℕ
  stackHigh : Task → ℕ
  tcbFits : ∀ t, (tcb t).toNat + taskStructSize ≤ 2 ^ 32
  stackFits : ∀ t, stackHigh t ≤ 2 ^ 32
  tcbsApart : ∀ t u, t ≠ u → (tcb t).toNat + taskStructSize ≤ (tcb u).toNat ∨
    (tcb u).toNat + taskStructSize ≤ (tcb t).toNat
  stacksApart : ∀ t u, t ≠ u → stackHigh t ≤ stackLow u ∨ stackHigh u ≤ stackLow t
  stackTcbApart : ∀ t u, stackHigh t ≤ (tcb u).toNat ∨
    (tcb u).toNat + taskStructSize ≤ stackLow t

/-- What a task that does not run continues with. -/
inductive Saved where
  /-- It was never run. -/
  | fresh (fp arg : Word)
  /-- It called `cpu_switch_to` with these registers, to return to `returnAddress`. -/
  | suspended (reg : Register → Word) (returnAddress : Word)

section System

variable {Task : Type}

namespace Layout

variable (layout : Layout Task)

/-- The bytes of the stack of a task. -/
def stack (t : Task) : Set ℕ := {byte | layout.stackLow t ≤ byte ∧ byte < layout.stackHigh t}

/-- The bytes of its `task_struct`. -/
def taskStruct (t : Task) : Set ℕ :=
  {byte | (layout.tcb t).toNat ≤ byte ∧ byte < (layout.tcb t).toNat + taskStructSize}

def own (t : Task) : Set ℕ := layout.stack t ∪ layout.taskStruct t

instance (t : Task) (byte : ℕ) : Decidable (byte ∈ layout.stack t) :=
  inferInstanceAs (Decidable (_ ∧ _))

/-- The machine is about to execute the first instruction of `cpu_switch_to(t, next)`,
called on the stack of `t`, where its frame has room. -/
def AtSwitch (machine : Machine) (t next : Task) : Prop :=
  layout.stackLow t + 32 ≤ (machine.reg .esp).toNat ∧
  (machine.reg .esp).toNat + 12 ≤ layout.stackHigh t ∧
  load machine.memory (machine.reg .esp + 4) = layout.tcb t ∧
  load machine.memory (machine.reg .esp + 8) = layout.tcb next

instance (machine : Machine) (t next : Task) : Decidable (layout.AtSwitch machine t next) :=
  inferInstanceAs (Decidable (_ ∧ _))

/-- The blocks of `task_new` are those of the task, and its stack has every word of the
initial frame. -/
structure Built (new : NewTask) (t : Task) : Prop where
  newtask : new.newtask = layout.tcb t
  low : layout.stackLow t + 44 ≤ new.top.toNat
  high : new.top.toNat + 4 ≤ layout.stackHigh t

/-- The memory holds what a task continues with: in its stack and its `task_struct` are
what `task_new`, or the first part of `cpu_switch_to`, has left there. -/
def Parked (entries : Entries) (memory : Memory) (t : Task) : Saved → Prop
  | .fresh fp arg => ∃ (before : Memory) (new : NewTask), layout.Built new t ∧
      new.fp = fp ∧ new.arg = arg ∧
      Set.EqOn memory (taskNew entries before new) (layout.own t)
  | .suspended reg returnAddress => ∃ (machine : Machine) (next : Task),
      layout.AtSwitch machine t next ∧ machine.reg = reg ∧
      load machine.memory (machine.reg .esp) = returnAddress ∧
      Set.EqOn memory (machine.run saveState).memory (layout.own t)

end Layout

/-- What the machine does when a task continues. A task that was switched away from
has its registers, and its stack is as after an ordinary return. A task that runs for
the first time enters `task_startup` as if the return callback had called it, with
interrupts enabled. -/
def Continues (entries : Entries) (machine : Machine) : Saved → Prop
  | .suspended reg returnAddress =>
      machine.eip = returnAddress ∧ machine.reg .esp = reg .esp + 4 ∧
      ∀ register, register ≠ .esp → machine.reg register = reg register
  | .fresh fp arg =>
      machine.eip = entries.taskStartup ∧
      load machine.memory (machine.reg .esp) = entries.onCurrentTaskReturnCb ∧
      load machine.memory (machine.reg .esp + 4) = fp ∧
      load machine.memory (machine.reg .esp + 8) = arg ∧
      machine.reg .eflags &&& cpuEflagsIf ≠ 0

structure SwitchRun (Task : Type) where
  machine : Machine
  running : Task
  saved : Task → Saved

inductive SwitchAction (Task : Type) where
  /-- The running task computes: it changes its registers, and bytes of its stack. -/
  | compute (reg : Register → Word) (writes : List (ℕ × Byte))
  /-- It calls `cpu_switch_to`. -/
  | switchTo (next : Task)

/-- What the running task would continue with. -/
def SwitchRun.here (run : SwitchRun Task) : Saved :=
  .suspended run.machine.reg (load run.machine.memory (run.machine.reg .esp))

variable [DecidableEq Task]

def SwitchRun.step (layout : Layout Task) (run : SwitchRun Task) :
    SwitchAction Task → Option (SwitchRun Task)
  | .compute reg writes =>
      if ∀ write ∈ writes, write.1 ∈ layout.stack run.running then
        some { run with
          machine := { run.machine with
            reg := reg
            memory := writes.foldl (fun memory write => Function.update memory write.1 write.2)
              run.machine.memory } }
      else none
  | .switchTo next =>
      if layout.AtSwitch run.machine run.running next then
        some {
          machine := run.machine.run cpuSwitchTo
          running := next
          saved := Function.update run.saved run.running run.here }
      else none

/-- Every task but the running one was built by `task_new` or switched away from. -/
def switchSystem (layout : Layout Task) (entries : Entries) :
    System (SwitchRun Task) (SwitchAction Task) where
  initial run := ∀ t, t ≠ run.running → layout.Parked entries run.machine.memory t (run.saved t)
  step := SwitchRun.step layout

end System

end CatchOS.Tasks
