import CatchOS.Tasks.CpuSwitchTo
import Mathlib.Data.Set.BooleanAlgebra
import Mathlib.Order.CompletePartialOrder

/-!
# The context switch is transparent

`SaveFrame` is the one description of a task that does not run: `esp` and the address
to continue at in its `task_struct`, and eight words on its stack. The first part of
`cpu_switch_to` leaves such a frame (`saveState_frame`), and so does `task_new`
(`taskNew_frame`); the second part continues from it (`loadState_continues`). The
frame lies in memory that only its task may write, so it is still there when the task
is switched to, however many switches later (`cpu_switch_to_transparent`).
-/

set_option autoImplicit false

namespace CatchOS.Tasks

open CatchOS.Lib

/-- The registers in the order in which `cpu_switch_to` saves them. -/
def savedRegisters : List Register := [.eax, .ecx, .edx, .ebx, .esi, .edi, .ebp, .eflags]

/-- What follows the pushes of `saveState`. -/
def saveTaskStruct : List Instruction :=
  [.load .edi .esp (pushedRegsSz + 4), .load .eax .esp pushedRegsSz,
    .store .edi structTaskEip .eax, .store .edi structTaskEsp .esp]

/-- What comes before the pops of `loadState`. -/
def loadTaskStruct : List Instruction :=
  [.load .esi .esp (pushedRegsSz + 8), .load .esp .esi structTaskEsp,
    .load .eax .esi structTaskEip, .store .esp pushedRegsSz .eax]

theorem saveState_eq : saveState = savedRegisters.map .push ++ saveTaskStruct := rfl

theorem loadState_eq :
    loadState = loadTaskStruct ++ savedRegisters.reverse.map .pop ++ [.ret] := rfl

/-- A task that does not run: what its `task_struct` says, and the registers on its
stack. -/
structure SaveFrame {Task : Type} (layout : Layout Task) (memory : Memory) (t : Task)
    (esp eip : Word) (values : Register → Word) : Prop where
  low : layout.stackLow t ≤ esp.toNat
  high : esp.toNat + 36 ≤ layout.stackHigh t
  tcbEsp : load memory (layout.tcb t + structTaskEsp) = esp
  tcbEip : load memory (layout.tcb t + structTaskEip) = eip
  held : Holds memory esp (savedRegisters.reverse.map values)

section

variable {Task : Type} {layout : Layout Task} {entries : Entries} {memory memory' : Memory}
  {machine : Machine} {t next : Task} {esp eip : Word} {values : Register → Word}

/-! ## Words of a task -/

namespace Layout

/-- The word at an offset into a `task_struct` lies inside it. -/
theorem tcb_field (layout : Layout Task) (t : Task) {bytes : Word}
    (inside : bytes.toNat + 4 ≤ taskStructSize) :
    (layout.tcb t + bytes).toNat = (layout.tcb t).toNat + bytes.toNat := by
  have fits := layout.tcbFits t
  exact toNat_add (by omega)

theorem span_tcb (layout : Layout Task) (t : Task) {bytes : Word}
    (inside : bytes.toNat + 4 ≤ taskStructSize) :
    span (layout.tcb t + bytes) 4 ⊆ layout.taskStruct t := by
  have fits := layout.tcbFits t
  intro byte member
  rw [mem_span_iff (by rw [layout.tcb_field t inside]; omega), layout.tcb_field t inside] at member
  exact ⟨by omega, by omega⟩

theorem span_stack (layout : Layout Task) {t : Task} {address : Word} {size : ℕ}
    (low : layout.stackLow t ≤ address.toNat) (high : address.toNat + size ≤ layout.stackHigh t) :
    span address size ⊆ layout.stack t := by
  have fits := layout.stackFits t
  intro byte member
  rw [mem_span_iff (by omega)] at member
  exact ⟨by omega, by omega⟩

theorem stack_disjoint_taskStruct (layout : Layout Task) (t u : Task) :
    Disjoint (layout.stack t) (layout.taskStruct u) := by
  rw [Set.disjoint_left]
  rintro byte ⟨low, high⟩ ⟨above, below⟩
  have apart := layout.stackTcbApart t u
  omega

/-- Two tasks have no byte in common. -/
theorem own_disjoint (layout : Layout Task) {t u : Task} (different : t ≠ u) :
    Disjoint (layout.own t) (layout.own u) := by
  have onStacks : Disjoint (layout.stack t) (layout.stack u) := by
    rw [Set.disjoint_left]
    rintro byte ⟨low, high⟩ ⟨above, below⟩
    have apart := layout.stacksApart t u different
    omega
  have inStructs : Disjoint (layout.taskStruct t) (layout.taskStruct u) := by
    rw [Set.disjoint_left]
    rintro byte ⟨low, high⟩ ⟨above, below⟩
    have apart := layout.tcbsApart t u different
    omega
  exact Disjoint.union_left
    (onStacks.union_right (layout.stack_disjoint_taskStruct t u))
    ((layout.stack_disjoint_taskStruct u t).symm.union_right inStructs)

end Layout

/-- What lies outside a set that holds all changes is as before. -/
theorem load_unchanged {changed : Set ℕ} {address : Word}
    (same : Set.EqOn memory' memory changedᶜ) (apart : Disjoint (span address 4) changed) :
    load memory' address = load memory address :=
  load_congr (same.mono apart.subset_compl_right)

theorem SaveFrame.congr (frame : SaveFrame layout memory t esp eip values)
    (same : Set.EqOn memory' memory (layout.own t)) :
    SaveFrame layout memory' t esp eip values := by
  have field {bytes : Word} (inside : bytes.toNat + 4 ≤ taskStructSize) :
      load memory' (layout.tcb t + bytes) = load memory (layout.tcb t + bytes) :=
    load_congr (same.mono ((layout.span_tcb t inside).trans Set.subset_union_right))
  refine ⟨frame.low, frame.high, ?_, ?_, ?_⟩
  · exact (field (by decide)).trans frame.tcbEsp
  · exact (field (by decide)).trans frame.tcbEip
  · have high : esp.toNat + 4 * (savedRegisters.reverse.map values).length ≤
        layout.stackHigh t := by
      have high := frame.high
      rw [List.length_map, List.length_reverse]
      exact (Nat.add_le_add_left (by decide) _).trans high
    exact frame.held.congr (same.mono ((layout.span_stack frame.low high).trans
      Set.subset_union_left))

/-! ## Saving -/

/-- **The first part of `cpu_switch_to`** leaves a frame for the task, with the
registers it had and the address it was called from, and changes nothing else. -/
theorem saveState_frame (calls : layout.AtSwitch machine t next) :
    SaveFrame layout (machine.run saveState).memory t (machine.reg .esp - 32)
      (load machine.memory (machine.reg .esp)) machine.reg ∧
    Set.EqOn (machine.run saveState).memory machine.memory (layout.own t)ᶜ ∧
    (machine.run saveState).reg .esp = machine.reg .esp - 32 ∧
    load (machine.run saveState).memory (machine.reg .esp - 32 + (pushedRegsSz + 8)) =
      layout.tcb next := by
  obtain ⟨low, high, prev, nextArg⟩ := calls
  have fits := layout.stackFits t
  obtain ⟨reg, held, frame⟩ := machine.run_pushes savedRegisters (by decide) (by decide)
  rw [saveState_eq, Machine.run_append]
  generalize machine.run (savedRegisters.map .push) = pushed at reg held frame
  have bottom : pushed.reg .esp = machine.reg .esp - 32 := by
    rw [reg, Function.update_self]
    rfl
  have bottomNat : (pushed.reg .esp).toNat = (machine.reg .esp).toNat - 32 := by
    rw [bottom, toNat_sub (by change 32 ≤ _; omega)]
    rfl
  -- The words above the frame are those of the call.
  have argument {bytes : Word} (bound : bytes.toNat ≤ 8) :
      load pushed.memory (pushed.reg .esp + (pushedRegsSz + bytes)) =
        load machine.memory (machine.reg .esp + bytes) := by
    have place : pushed.reg .esp + (pushedRegsSz + bytes) = machine.reg .esp + bytes := by
      rw [bottom, pushedRegsSz]
      bv_omega
    have placeNat : (machine.reg .esp + bytes).toNat = (machine.reg .esp).toNat + bytes.toNat :=
      toNat_add (by omega)
    rw [place]
    refine load_unchanged frame (Set.disjoint_left.mpr fun byte inside below => ?_)
    rw [mem_span_iff (by omega)] at inside
    rw [mem_span_iff (by change _ + 32 ≤ _; omega)] at below
    change _ ∧ byte < _ + 32 at below
    omega
  have previous := (@argument 4 (by decide)).trans prev
  have back : load pushed.memory (pushed.reg .esp + pushedRegsSz) =
      load machine.memory (machine.reg .esp) := by
    simpa using @argument 0 (by decide)
  have executed : (pushed.run saveTaskStruct).memory =
      store (store pushed.memory (layout.tcb t + structTaskEip)
        (load machine.memory (machine.reg .esp))) (layout.tcb t + structTaskEsp)
        (pushed.reg .esp) := by
    rw [← previous, ← back]
    rfl
  have stays : (pushed.run saveTaskStruct).reg .esp =
      pushed.reg .esp := rfl
  rw [executed, stays, ← bottom]
  generalize wrote : store (store pushed.memory (layout.tcb t + structTaskEip)
    (load machine.memory (machine.reg .esp))) (layout.tcb t + structTaskEsp)
    (pushed.reg .esp) = stored
  have outside (byte : ℕ) (other : byte ∉ layout.taskStruct t) :
      stored byte = pushed.memory byte := by
    rw [← wrote, store_outside fun inside => other (layout.span_tcb t (by decide) inside),
      store_outside fun inside => other (layout.span_tcb t (by decide) inside)]
  have onStack : Set.EqOn stored pushed.memory (layout.stack t) := fun byte inside =>
    outside byte (Set.disjoint_left.mp (layout.stack_disjoint_taskStruct t t) inside)
  have pushedInside : span (pushed.reg .esp) 32 ⊆ layout.stack t :=
    layout.span_stack (by omega) (by omega)
  have tcbFits := layout.tcbFits t
  have espNat : (layout.tcb t + structTaskEsp).toNat = (layout.tcb t).toNat :=
    layout.tcb_field t (by decide)
  have eipNat : (layout.tcb t + structTaskEip).toNat = (layout.tcb t).toNat + 36 :=
    layout.tcb_field t (by decide)
  unfold taskStructSize at tcbFits
  refine ⟨⟨by omega, by omega, ?_, ?_, ?_⟩, fun byte other => ?_, rfl, ?_⟩
  · rw [← wrote, load_store_self]
  · rw [← wrote, load_store_of_apart (by omega) (by omega) (by omega), load_store_self]
  · exact held.congr (onStack.mono pushedInside)
  · have notStruct : byte ∉ layout.taskStruct t := fun inside => other (.inr inside)
    have notPushed : byte ∉ span (pushed.reg .esp) 32 := fun inside =>
      other (.inl (pushedInside inside))
    rw [outside byte notStruct]
    exact frame notPushed
  · have place : (pushed.reg .esp + (pushedRegsSz + 8)).toNat = (pushed.reg .esp).toNat + 40 :=
      toNat_add (by change _ + 40 < _; omega)
    rw [load_congr (onStack.mono (layout.span_stack (by omega) (by omega)))]
    exact (@argument 8 (by decide)).trans nextArg

/-! ## The initial frame -/

/-- A store to a field of a `task_struct` keeps the words of the stack. -/
theorem load_stack_of_store_field {bytes address value : Word}
    (inside : bytes.toNat + 4 ≤ taskStructSize) (low : layout.stackLow t ≤ address.toNat)
    (high : address.toNat + 4 ≤ layout.stackHigh t) :
    load (store memory (layout.tcb t + bytes) value) address = load memory address := by
  refine load_congr fun byte member => store_outside fun field => ?_
  exact Set.disjoint_left.mp (layout.stack_disjoint_taskStruct t t)
    (layout.span_stack low high member) (layout.span_tcb t inside field)

/-- A store to a word of the stack keeps the fields of the `task_struct`. -/
theorem load_field_of_store_stack {bytes address value : Word}
    (inside : bytes.toNat + 4 ≤ taskStructSize) (low : layout.stackLow t ≤ address.toNat)
    (high : address.toNat + 4 ≤ layout.stackHigh t) :
    load (store memory address value) (layout.tcb t + bytes) =
      load memory (layout.tcb t + bytes) := by
  refine load_congr fun byte field => store_outside fun member => ?_
  exact Set.disjoint_left.mp (layout.stack_disjoint_taskStruct t t)
    (layout.span_stack low high member) (layout.span_tcb t inside field)

/-- A store to one field keeps another. -/
theorem load_field_of_store_field {bytes other value : Word}
    (inside : bytes.toNat + 4 ≤ taskStructSize) (otherInside : other.toNat + 4 ≤ taskStructSize)
    (apart : other.toNat + 4 ≤ bytes.toNat ∨ bytes.toNat + 4 ≤ other.toNat) :
    load (store memory (layout.tcb t + bytes) value) (layout.tcb t + other) =
      load memory (layout.tcb t + other) := by
  have fits := layout.tcbFits t
  have here := layout.tcb_field t inside
  have there := layout.tcb_field t otherInside
  exact load_store_of_apart (by omega) (by omega) (by omega)

/-- One step of building the initial frame: a word is stored and `esp` lowered. What
was stored before lies above. -/
theorem lowerEsp_storeAtEsp {bytes value : Word} (at_ : load memory (layout.tcb t) = esp)
    (low : layout.stackLow t ≤ esp.toNat) (high : esp.toNat + 4 ≤ layout.stackHigh t) :
    load (lowerEsp (storeAtEsp memory (layout.tcb t) value) (layout.tcb t) bytes) (layout.tcb t) =
        esp - bytes ∧
    load (lowerEsp (storeAtEsp memory (layout.tcb t) value) (layout.tcb t) bytes) esp = value ∧
    ∀ address : Word, esp.toNat + 4 ≤ address.toNat → address.toNat + 4 ≤ layout.stackHigh t →
      load (lowerEsp (storeAtEsp memory (layout.tcb t) value) (layout.tcb t) bytes) address =
        load memory address := by
  have fits := layout.stackFits t
  have first : layout.tcb t = layout.tcb t + 0 := by simp
  have kept : load (storeAtEsp memory (layout.tcb t) value) (layout.tcb t) = esp := by
    rw [storeAtEsp, at_]
    rw [first] at at_ ⊢
    exact (load_field_of_store_stack (by decide) low high).trans at_
  have stack (address : Word) (above : esp.toNat ≤ address.toNat)
      (below : address.toNat + 4 ≤ layout.stackHigh t) :
      load (lowerEsp (storeAtEsp memory (layout.tcb t) value) (layout.tcb t) bytes) address =
        load (store memory esp value) address := by
    rw [lowerEsp, kept, storeAtEsp, at_, first]
    exact load_stack_of_store_field (by decide) (low.trans above) below
  refine ⟨?_, ?_, fun address above below => ?_⟩
  · rw [lowerEsp, kept, load_store_self]
  · rw [stack esp le_rfl high, load_store_self]
  · rw [stack address (by omega) below, load_store_of_apart (by omega) (by omega) (by omega)]

/-- The three steps of `task_new` that lower `esp`, and the words that they store. -/
theorem lowerEsp_three {start withArg withFp withCb : Memory} {top arg fp cb : Word}
    (atTop : load start (layout.tcb t) = top) (low : layout.stackLow t + 44 ≤ top.toNat)
    (high : top.toNat + 4 ≤ layout.stackHigh t)
    (isArg : lowerEsp (storeAtEsp start (layout.tcb t) arg) (layout.tcb t) 4 = withArg)
    (isFp : lowerEsp (storeAtEsp withArg (layout.tcb t) fp) (layout.tcb t) 4 = withFp)
    (isCb : lowerEsp (storeAtEsp withFp (layout.tcb t) cb) (layout.tcb t) (32 + 4) = withCb) :
    (load withArg (layout.tcb t) = top - 4 ∧ load withFp (layout.tcb t) = top - 8 ∧
      load withCb (layout.tcb t) = top - 44) ∧
    load withCb (top - 8) = cb ∧ load withCb (top - 4) = fp ∧ load withCb top = arg := by
  have fpPlace : (top - 4).toNat = top.toNat - 4 := toNat_sub (by change 4 ≤ _; omega)
  have cbPlace : (top - 8).toNat = top.toNat - 8 := toNat_sub (by change 8 ≤ _; omega)
  obtain ⟨atFp, arg, -⟩ := @lowerEsp_storeAtEsp _ _ _ _ _ 4 arg atTop (by omega) (by omega)
  rw [isArg] at atFp arg
  obtain ⟨atCb, fp, keptFp⟩ := @lowerEsp_storeAtEsp _ _ _ _ _ 4 fp atFp (by omega) (by omega)
  have two : top - 4 - 4 = top - 8 := sub_sub _ _ _
  rw [isFp] at atCb fp keptFp
  rw [two] at atCb
  obtain ⟨atFlags, cb, keptCb⟩ :=
    @lowerEsp_storeAtEsp _ _ _ _ _ (32 + 4) cb atCb (by omega) (by omega)
  have all : top - 8 - (32 + 4) = top - 44 := sub_sub _ _ _
  rw [isCb] at atFlags cb keptCb
  rw [all] at atFlags
  refine ⟨⟨atFp, atCb, atFlags⟩, cb, ?_, ?_⟩
  · rw [keptCb _ (by omega) (by omega), fp]
  · rw [keptCb _ (by omega) (by omega), keptFp _ (by omega) (by omega), arg]

/-- Words at an address can be read as values of registers. -/
theorem exists_holds (memory : Memory) (address : Word) {registers : List Register}
    (distinct : registers.Nodup) : ∃ values, Holds memory address (registers.map values) := by
  induction registers generalizing address with
  | nil => exact ⟨fun _ => 0, trivial⟩
  | cons register registers ih =>
      obtain ⟨absent, distinct⟩ := List.nodup_cons.mp distinct
      obtain ⟨values, held⟩ := ih (address + 4) distinct
      refine ⟨Function.update values register (load memory address), ?_, ?_⟩
      · rw [Function.update_self]
      · have same : registers.map (Function.update values register (load memory address)) =
            registers.map values := by
          refine List.map_congr_left fun other member => Function.update_of_ne ?_ _ _
          rintro rfl
          exact absent member
        rwa [same]

/-- **`task_new`** leaves a frame that continues at `task_startup`, with interrupts
enabled, and above it the return callback, `fp` and `arg`. -/
theorem taskNew_frame {new : NewTask} (built : layout.Built new t) :
    ∃ values, SaveFrame layout (taskNew entries memory new) t (new.top - 44) entries.taskStartup
        values ∧
      values .eflags = new.flags ||| cpuEflagsIf ∧
      load (taskNew entries memory new) (new.top - 8) = entries.onCurrentTaskReturnCb ∧
      load (taskNew entries memory new) (new.top - 4) = new.fp ∧
      load (taskNew entries memory new) new.top = new.arg := by
  obtain ⟨newtask, low, high⟩ := built
  have fits := layout.stackFits t
  have lowered {bytes : Word} (bound : bytes.toNat ≤ 44) :
      (new.top - bytes).toNat = new.top.toNat - bytes.toNat := toNat_sub (by omega)
  have fpPlace : (new.top - 4).toNat = new.top.toNat - 4 := lowered (by decide)
  have cbPlace : (new.top - 8).toNat = new.top.toNat - 8 := lowered (by decide)
  have flagsPlace : (new.top - 44).toNat = new.top.toNat - 44 := lowered (by decide)
  have first : layout.tcb t + structTaskEsp = layout.tcb t := by simp [structTaskEsp]
  simp only [taskNew, newtask]
  generalize fields : store (store (store (memset memory (layout.tcb t).toNat 0 taskStructSize)
    (layout.tcb t + 64) new.stackBottom) (layout.tcb t + 52) 0) (layout.tcb t + 76) 0 = cleared
  have bottom : load cleared (layout.tcb t + 64) = new.stackBottom := by
    rw [← fields, load_field_of_store_field (by decide) (by decide) (by decide),
      load_field_of_store_field (by decide) (by decide) (by decide), load_store_self]
  rw [bottom]
  have atTop : load (store cleared (layout.tcb t) (new.stackBottom + new.stackSize))
      (layout.tcb t) = new.top := load_store_self _ _ _
  generalize store cleared (layout.tcb t) (new.stackBottom + new.stackSize) = atStart at atTop ⊢
  obtain ⟨⟨-, -, atFlags⟩, cb, fp, arg⟩ := @lowerEsp_three _ layout t atStart _ _ _ _ new.arg new.fp
    entries.onCurrentTaskReturnCb atTop low high rfl rfl rfl
  generalize lowerEsp (storeAtEsp (lowerEsp (storeAtEsp (lowerEsp (storeAtEsp atStart
    (layout.tcb t) new.arg) (layout.tcb t) 4) (layout.tcb t) new.fp) (layout.tcb t) 4)
    (layout.tcb t) entries.onCurrentTaskReturnCb) (layout.tcb t) (32 + 4) = withCb
    at atFlags cb fp arg ⊢
  rw [storeAtEsp, atFlags]
  generalize wrote : store withCb (new.top - 44) (new.flags ||| cpuEflagsIf) = withFlags
  have above (address : Word) (up : new.top.toNat - 8 ≤ address.toNat)
      (below : address.toNat + 4 ≤ layout.stackHigh t) :
      load withFlags address = load withCb address := by
    rw [← wrote, load_store_of_apart (by omega) (by omega) (by omega)]
  generalize ended : store (store (store (store withFlags (layout.tcb t + 56) new.priority)
    (layout.tcb t + 48) new.pid) (layout.tcb t + 36) entries.taskStartup) (layout.tcb t + 72) 1 =
    final
  have stack (address : Word) (up : layout.stackLow t ≤ address.toNat)
      (below : address.toNat + 4 ≤ layout.stackHigh t) :
      load final address = load withFlags address := by
    rw [← ended, load_stack_of_store_field (by decide) up below,
      load_stack_of_store_field (by decide) up below,
      load_stack_of_store_field (by decide) up below,
      load_stack_of_store_field (by decide) up below]
  obtain ⟨values, held⟩ := exists_holds final (new.top - 44)
    (show savedRegisters.reverse.Nodup by decide)
  refine ⟨values, ⟨by omega, by omega, ?_, ?_, held⟩, ?_, ?_, ?_, ?_⟩
  · rw [← ended, load_field_of_store_field (by decide) (by decide) (by decide),
      load_field_of_store_field (by decide) (by decide) (by decide),
      load_field_of_store_field (by decide) (by decide) (by decide),
      load_field_of_store_field (by decide) (by decide) (by decide), ← wrote,
      load_field_of_store_stack (by decide) (by omega) (by omega), first]
    exact atFlags
  · rw [← ended]
    exact (load_field_of_store_field (by decide) (by decide) (by decide)).trans
      (load_store_self _ _ _)
  · have lowest : load final (new.top - 44) = values .eflags := held.1
    rw [← lowest, stack _ (by omega) (by omega), ← wrote, load_store_self]
  · rw [stack _ (by omega) (by omega), above _ (by omega) (by omega), cb]
  · rw [stack _ (by omega) (by omega), above _ (by omega) (by omega), fp]
  · rw [stack _ (by omega) (by omega), above _ (by omega) (by omega), arg]

/-! ## Restoring -/

/-- **The second part of `cpu_switch_to`** continues from the frame of the next task. -/
theorem loadState_continues (frame : SaveFrame layout machine.memory next esp eip values)
    (argument : load machine.memory (machine.reg .esp + (pushedRegsSz + 8)) = layout.tcb next) :
    (machine.run loadState).eip = eip ∧ (machine.run loadState).reg .esp = esp + 36 ∧
    (∀ register, register ≠ .esp → (machine.run loadState).reg register = values register) ∧
    (machine.run loadState).memory = store machine.memory (esp + pushedRegsSz) eip := by
  rw [loadState_eq, Machine.run_append, Machine.run_append]
  generalize entered : machine.run loadTaskStruct = loaded
  have espLoaded : loaded.reg .esp = esp := by
    rw [← frame.tcbEsp, ← argument, ← entered]
    rfl
  have memoryLoaded : loaded.memory = store machine.memory (esp + pushedRegsSz) eip := by
    rw [← frame.tcbEip, ← frame.tcbEsp, ← argument, ← entered]
    rfl
  have fits := layout.stackFits next
  have high := frame.high
  have slot : (esp + pushedRegsSz).toNat = esp.toNat + 32 := toNat_add (by change _ + 32 < _; omega)
  -- The slot of the return address lies above the registers.
  have held : Holds loaded.memory (loaded.reg .esp) (savedRegisters.reverse.map values) := by
    rw [espLoaded, memoryLoaded]
    refine frame.held.congr fun byte inside => store_outside fun above => ?_
    rw [mem_span_iff (by omega), slot] at above
    rw [mem_span_iff (by change _ + 32 ≤ _; omega)] at inside
    change _ ∧ byte < _ + 32 at inside
    omega
  obtain ⟨target, -, moved, memory⟩ := loaded.run_pops savedRegisters.reverse values (by decide)
    held
  generalize loaded.run (savedRegisters.reverse.map .pop) = popped at target moved memory
  have top : popped.reg .esp = esp + pushedRegsSz := by
    rw [moved, espLoaded]
    rfl
  refine ⟨?_, ?_, fun register general => ?_, memory.trans memoryLoaded⟩
  · change load popped.memory (popped.reg .esp) = eip
    rw [top, memory, memoryLoaded, load_store_self]
  · change popped.reg .esp + 4 = esp + 36
    rw [top, pushedRegsSz]
    bv_omega
  · have member : register ∈ savedRegisters.reverse := by
      cases register with
      | esp => exact absurd rfl general
      | eax | ecx | edx | ebx | esi | edi | ebp | eflags => decide
    have other : (popped.run [.ret]).reg register = popped.reg register :=
      Function.update_of_ne general _ _
    rw [other, target register member]

/-! ## Runs -/

theorem Layout.Parked.congr {saved : Saved} (parked : layout.Parked entries memory t saved)
    (same : Set.EqOn memory' memory (layout.own t)) : layout.Parked entries memory' t saved := by
  cases saved with
  | fresh fp arg =>
      obtain ⟨before, new, built, fpIs, argIs, left⟩ := parked
      exact ⟨before, new, built, fpIs, argIs, same.trans left⟩
  | suspended reg returnAddress =>
      obtain ⟨caller, other, calls, regIs, addressIs, left⟩ := parked
      exact ⟨caller, other, calls, regIs, addressIs, same.trans left⟩

/-- **A task that is parked continues** when the second part of `cpu_switch_to` loads
it; outside its stack nothing changes. -/
theorem Layout.Parked.continues {saved : Saved}
    (parked : layout.Parked entries machine.memory next saved)
    (argument : load machine.memory (machine.reg .esp + (pushedRegsSz + 8)) = layout.tcb next) :
    Continues entries (machine.run loadState) saved ∧
    Set.EqOn (machine.run loadState).memory machine.memory (layout.stack next)ᶜ := by
  have fits := layout.stackFits next
  have quiet {esp eip : Word} {values : Register → Word}
      (frame : SaveFrame layout machine.memory next esp eip values) (slot : Word) :
      Set.EqOn (store machine.memory (esp + pushedRegsSz) slot) machine.memory
        (layout.stack next)ᶜ := by
    intro byte outside
    have low := frame.low
    have high := frame.high
    have place : (esp + pushedRegsSz).toNat = esp.toNat + 32 :=
      toNat_add (by change _ + 32 < _; omega)
    exact store_outside fun inside =>
      outside (layout.span_stack (by omega) (by omega) inside)
  cases saved with
  | suspended reg returnAddress =>
      obtain ⟨caller, other, calls, rfl, rfl, same⟩ := parked
      have frame := (saveState_frame calls).1.congr same
      obtain ⟨eip, esp, registers, memory⟩ := loadState_continues frame argument
      refine ⟨⟨eip, ?_, registers⟩, memory ▸ quiet frame _⟩
      rw [esp]
      bv_omega
  | fresh fp arg =>
      obtain ⟨before, new, built, rfl, rfl, same⟩ := parked
      obtain ⟨values, left, flags, cb, fp, arg⟩ := @taskNew_frame _ _ entries before _ _ built
      have frame := left.congr same
      have low := built.low
      have high := built.high
      obtain ⟨eip, esp, registers, memory⟩ := loadState_continues frame argument
      have atCb : new.top - 44 + 36 = new.top - 8 := sub_add _ _ _
      have atFp : new.top - 8 + 4 = new.top - 4 := sub_add _ _ _
      have atArg : new.top - 8 + 8 = new.top := sub_add_cancel _ _
      have cbPlace : (new.top - 8).toNat = new.top.toNat - 8 := toNat_sub (by change 8 ≤ _; omega)
      have fpPlace : (new.top - 4).toNat = new.top.toNat - 4 := toNat_sub (by change 4 ≤ _; omega)
      have slotIs : new.top - 44 + pushedRegsSz = new.top - 12 := sub_add _ _ _
      have slot : (new.top - 12).toNat = new.top.toNat - 12 := toNat_sub (by change 12 ≤ _; omega)
      -- The words above the slot of the return address are those `task_new` has stored.
      have above (address : Word) (up : new.top.toNat - 8 ≤ address.toNat)
          (below : address.toNat ≤ new.top.toNat) :
          load (machine.run loadState).memory address =
            load (taskNew entries before new) address := by
        rw [memory, slotIs, load_store_of_apart (by omega) (by omega) (by omega)]
        exact load_congr (same.mono ((layout.span_stack (by omega) (by omega)).trans
          Set.subset_union_left))
      refine ⟨⟨eip, ?_, ?_, ?_, ?_⟩, memory ▸ quiet frame _⟩
      · rw [esp, atCb, above _ (by omega) (by omega), cb]
      · rw [esp, atCb, atFp, above _ (by omega) (by omega), fp]
      · rw [esp, atCb, atArg, above _ (by omega) (by omega), arg]
      · rw [registers .eflags nofun, flags]
        have enabled : (new.flags ||| cpuEflagsIf) &&& cpuEflagsIf = cpuEflagsIf := by
          ext i bound
          simp only [BitVec.getElem_and, BitVec.getElem_or]
          cases new.flags[i] <;> cases cpuEflagsIf[i] <;> rfl
        rw [enabled]
        decide

variable [DecidableEq Task] {run after : SwitchRun Task}

/-- Every task but the running one is parked. -/
def AllParked (layout : Layout Task) (entries : Entries) (run : SwitchRun Task) : Prop :=
  ∀ t, t ≠ run.running → layout.Parked entries run.machine.memory t (run.saved t)

/-- After the first part of `cpu_switch_to` every task is parked, the caller too. -/
theorem parked_after_save (parked : AllParked layout entries run)
    (calls : layout.AtSwitch run.machine run.running next) (t : Task) :
    layout.Parked entries (run.machine.run saveState).memory t
      (Function.update run.saved run.running run.here t) := by
  by_cases caller : t = run.running
  · subst caller
    rw [Function.update_self]
    exact ⟨run.machine, next, calls, rfl, rfl, fun _ _ => rfl⟩
  · rw [Function.update_of_ne caller]
    refine (parked t caller).congr ((saveState_frame calls).2.1.mono ?_)
    exact (layout.own_disjoint caller).subset_compl_right

/-- A switch: the task that comes continues, and the others are parked. -/
theorem AllParked.switchTo (parked : AllParked layout entries run)
    (stepped : run.step layout (.switchTo next) = some after) :
    Continues entries after.machine (after.saved next) ∧ AllParked layout entries after := by
  simp only [SwitchRun.step, Option.ite_none_right_eq_some, Option.some.injEq] at stepped
  obtain ⟨calls, rfl⟩ := stepped
  have saved := parked_after_save parked calls
  obtain ⟨-, -, bottom, argument⟩ := saveState_frame calls
  rw [← bottom] at argument
  obtain ⟨continues, quiet⟩ := (saved next).continues argument
  have whole : run.machine.run cpuSwitchTo = (run.machine.run saveState).run loadState :=
    Machine.run_append _ _ _
  refine ⟨?_, fun t other => ?_⟩
  · rw [whole]
    exact continues
  · rw [whole]
    refine (saved t).congr (quiet.mono ?_)
    exact ((layout.own_disjoint other).mono_right Set.subset_union_left).subset_compl_right

/-- What the running task computes is on its stack. -/
theorem AllParked.compute {reg : Register → Word} {writes : List (ℕ × Byte)}
    (parked : AllParked layout entries run)
    (stepped : run.step layout (.compute reg writes) = some after) :
    AllParked layout entries after := by
  simp only [SwitchRun.step, Option.ite_none_right_eq_some, Option.some.injEq] at stepped
  obtain ⟨inside, rfl⟩ := stepped
  have outside (start : Memory) : Set.EqOn (writes.foldl (fun memory write =>
      Function.update memory write.1 write.2) start) start (layout.stack run.running)ᶜ := by
    induction writes generalizing start with
    | nil => exact fun _ _ => rfl
    | cons write writes ih =>
        intro byte other
        rw [List.foldl_cons, ih (fun write member => inside write (List.mem_cons_of_mem _ member))
          _ other]
        refine Function.update_of_ne ?_ _ _
        rintro rfl
        exact other (inside write List.mem_cons_self)
  intro t other
  refine (parked t other).congr ((outside _).mono ?_)
  exact ((layout.own_disjoint other).mono_right Set.subset_union_left).subset_compl_right

/-- **The context switch is transparent.** In every run, a task that is switched to
continues after its own call of `cpu_switch_to` as after an ordinary return, with the
registers it had at the call, or enters `task_startup` on its initial frame. -/
theorem cpu_switch_to_transparent (reachable : (switchSystem layout entries).Reachable run)
    (stepped : run.step layout (.switchTo next) = some after) :
    Continues entries after.machine (after.saved next) := by
  have parked : AllParked layout entries run := by
    refine reachable.invariant (AllParked layout entries) (fun _ initial => initial) ?_
    intro run action after parked _ stepped
    cases action with
    | compute reg writes => exact parked.compute stepped
    | switchTo next => exact (parked.switchTo stepped).2
  exact (parked.switchTo stepped).1

end

/-- Two tasks, the first one being `false`, with a `task_struct` and a page of stack
each. -/
def twoTaskLayout : Layout Bool where
  tcb t := if t then 0x2000 else 0x1000
  stackLow t := if t then 0x6000 else 0x4000
  stackHigh t := if t then 0x7000 else 0x5000
  tcbFits := by decide
  stackFits := by decide
  tcbsApart := by decide
  stacksApart := by decide
  stackTcbApart := by decide

def exampleEntries : Entries := ⟨0x101000, 0x102000⟩

/-- The first task calls `cpu_switch_to`, to return to `0x123`; the second was built by
`task_new`. -/
def firstTaskCalls : SwitchRun Bool where
  machine :=
    { reg := fun register => if register = .esp then 0x4F00 else if register = .ebx then 7 else 0
      eip := 0
      memory := taskNew exampleEntries
        (store (store (store (fun _ => 0) 0x4F00 0x123) 0x4F04 0x1000) 0x4F08 0x2000)
        { fp := 0x500, arg := 9, stackSize := 0xFFC, priority := 10, pid := 1, newtask := 0x2000,
          stackBottom := 0x6000, flags := 2 } }
  running := false
  saved _ := .fresh 0x500 9

/-- The second task runs and calls `cpu_switch_to`; what was recorded of the first one is
its call above. -/
def firstTaskWaits (run : SwitchRun Bool) : Bool :=
  decide (run.running = true) && decide (twoTaskLayout.AtSwitch run.machine run.running false) &&
  match run.saved false with
  | .suspended reg returnAddress =>
      decide (reg .esp = 0x4F00) && decide (reg .ebx = 7) && decide (returnAddress = 0x123)
  | .fresh _ _ => false

/-- The second task enters `task_startup`, computes, and switches back: the first task
continues where it left off, with its registers. -/
theorem cpu_switch_to_transparent_and_back : ∃ run after : SwitchRun Bool,
    (switchSystem twoTaskLayout exampleEntries).Reachable run ∧
    run.running = true ∧ run.step twoTaskLayout (.switchTo false) = some after ∧
    after.machine.eip = 0x123 ∧ after.machine.reg .esp = 0x4F04 ∧
    after.machine.reg .ebx = 7 := by
  have initial : (switchSystem twoTaskLayout exampleEntries).initial firstTaskCalls := by
    intro t other
    obtain rfl : t = true := Bool.eq_true_of_not_eq_false other
    exact ⟨_, _, ⟨rfl, by decide, by decide⟩, rfl, rfl, fun _ _ => rfl⟩
  -- The second task leaves its arguments and the return address on its stack.
  let computes : SwitchAction Bool :=
    .compute (fun register => if register = .esp then 0x6F00 else 1)
    [(0x6F00, 1), (0x6F04, 0), (0x6F05, 0x20), (0x6F06, 0), (0x6F07, 0),
      (0x6F08, 0), (0x6F09, 0x10), (0x6F0A, 0), (0x6F0B, 0)]
  obtain ⟨run, reachable, tested⟩ := System.exists_reachableUnder_of_replay
    (switchSystem twoTaskLayout exampleEntries) (fun _ _ => True) initial [.switchTo true, computes]
    firstTaskWaits (by decide +kernel)
  simp only [firstTaskWaits, Bool.and_eq_true, decide_eq_true_eq] at tested
  obtain ⟨⟨running, calls⟩, recorded⟩ := tested
  have stepped : run.step twoTaskLayout (.switchTo false) = some
      { machine := run.machine.run cpuSwitchTo
        running := false
        saved := Function.update run.saved run.running run.here } := if_pos calls
  have continues := cpu_switch_to_transparent reachable stepped
  have kept : Function.update run.saved run.running run.here false = run.saved false := by
    rw [running]
    exact Function.update_of_ne (by decide) _ _
  refine ⟨run, _, reachable, running, stepped, ?_⟩
  simp only [kept] at continues
  cases saved : run.saved false with
  | fresh fp arg => simp [saved] at recorded
  | suspended reg returnAddress =>
      simp only [saved, Bool.and_eq_true, decide_eq_true_eq] at recorded
      obtain ⟨⟨esp, ebx⟩, address⟩ := recorded
      rw [saved] at continues
      obtain ⟨eip, top, registers⟩ := continues
      refine ⟨eip.trans address, ?_, (registers .ebx (by decide)).trans ebx⟩
      rw [top, esp]
      rfl

end CatchOS.Tasks
