import CatchOS.Tasks.ContextSwitch

/-!
# The frame of a new task and its stack

`task_new` (`tasks.c`) stores four words through `cpu_state.esp`, and the first `cpu_switch_to`
into the task writes the address to continue at over one of the words between them and pops the
rest. The stack is the block of `stack_size` bytes at `stack_bottom`.

`esp` starts at the end of the block, and `arg` is stored there before it is lowered. So the first
word of the frame lies behind the stack, however large this is (`frame_never_fits`); it belongs to
the block that follows. The rest of the frame takes 44 bytes, and all of it is in the stack exactly
if the stack is as large as that (`frame_inside_iff`).
-/

set_option autoImplicit false

namespace CatchOS.Tasks

open CatchOS.Lib

/-! ## The words of the frame -/

/-- The memory, and the words that were stored through `cpu_state.esp`. -/
structure FrameLog where
  memory : Memory
  words : List Word

namespace FrameLog

def store (log : FrameLog) (address value : Word) : FrameLog :=
  ⟨CatchOS.store log.memory address value, log.words⟩

def storeAtEsp (log : FrameLog) (newtask value : Word) : FrameLog :=
  ⟨Tasks.storeAtEsp log.memory newtask value, log.words ++ [load log.memory newtask]⟩

def lowerEsp (log : FrameLog) (newtask bytes : Word) : FrameLog :=
  ⟨Tasks.lowerEsp log.memory newtask bytes, log.words⟩

end FrameLog

/-- The steps of `task_new` with the words that it stores through `cpu_state.esp`. -/
def taskNewFrame (entries : Entries) (memory : Memory) (new : NewTask) : FrameLog :=
  let log : FrameLog := ⟨memset memory new.newtask.toNat 0 taskStructSize, []⟩
  let log := log.store (new.newtask + 64) new.stackBottom
  let log := log.store (new.newtask + 52) 0
  let log := log.store (new.newtask + 76) 0
  let log := log.store new.newtask (load log.memory (new.newtask + 64) + new.stackSize)
  let log := log.storeAtEsp new.newtask new.arg
  let log := log.lowerEsp new.newtask 4
  let log := log.storeAtEsp new.newtask new.fp
  let log := log.lowerEsp new.newtask 4
  let log := log.storeAtEsp new.newtask entries.onCurrentTaskReturnCb
  let log := log.lowerEsp new.newtask (32 + 4)
  let log := log.storeAtEsp new.newtask (new.flags ||| cpuEflagsIf)
  let log := log.store (new.newtask + 56) new.priority
  let log := log.store (new.newtask + 48) new.pid
  let log := log.store (new.newtask + 36) entries.taskStartup
  log.store (new.newtask + 72) 1

/-- A word of the stack. -/
def NewTask.Inside (new : NewTask) (word : Word) : Prop :=
  new.stackBottom.toNat ≤ word.toNat ∧
    word.toNat + 4 ≤ new.stackBottom.toNat + new.stackSize.toNat

/-- The machine is about to switch to the task for the first time: it is the argument of
`cpu_switch_to`, and its `esp` is as `task_new` has left it. -/
structure FirstSwitch (entries : Entries) (memory : Memory) (new : NewTask)
    (machine : Machine) : Prop where
  next : load machine.memory (machine.reg .esp + (pushedRegsSz + 8)) = new.newtask
  esp : load machine.memory (new.newtask + structTaskEsp) =
    load (taskNew entries memory new) (new.newtask + structTaskEsp)

/-- Every word of the frame is in the stack. -/
structure FrameFits (entries : Entries) (memory : Memory) (new : NewTask) : Prop where
  stored : ∀ word ∈ (taskNewFrame entries memory new).words, new.Inside word
  switched : ∀ machine, FirstSwitch entries memory new machine →
    ∀ word ∈ machine.touched loadState, new.Inside word

section Frame

variable {entries : Entries} {memory : Memory} {new : NewTask}

/-- The memory is that of `task_new`. -/
theorem taskNewFrame_memory :
    (taskNewFrame entries memory new).memory = taskNew entries memory new := by
  simp only [taskNewFrame, taskNew, FrameLog.store, FrameLog.storeAtEsp, FrameLog.lowerEsp]

/-! ## The first word -/

/-- Two fields of a structure have no byte in common, wherever it is. -/
theorem load_store_field {address bytes other value : Word}
    (apart : other.toNat + 4 ≤ bytes.toNat ∨ bytes.toNat + 4 ≤ other.toNat)
    (inside : bytes.toNat + 4 ≤ 2 ^ 32) (otherInside : other.toNat + 4 ≤ 2 ^ 32) :
    load (store memory (address + bytes) value) (address + other) =
      load memory (address + other) := by
  apply load_congr
  rintro byte ⟨i, iBound, rfl⟩
  apply store_outside
  rintro ⟨j, jBound, same⟩
  unfold offset at same
  rw [BitVec.toNat_add, BitVec.toNat_add] at same
  omega

/-- `stack_bottom` is still in its field when `esp` is computed from it. -/
theorem load_stackBottom :
    load (store (store (store (memset memory new.newtask.toNat 0 taskStructSize)
      (new.newtask + 64) new.stackBottom) (new.newtask + 52) 0) (new.newtask + 76) 0)
      (new.newtask + 64) = new.stackBottom := by
  rw [load_store_field (by decide) (by decide) (by decide),
    load_store_field (by decide) (by decide) (by decide), load_store_self]

/-- `arg` is stored at the end of the stack. -/
theorem top_mem_words : new.top ∈ (taskNewFrame entries memory new).words := by
  refine List.mem_append_left _ (List.mem_append_left _ (List.mem_append_left _ ?_))
  refine List.mem_append_right _ (List.mem_singleton.mpr ?_)
  exact (load_store_self _ _ _).symm ▸ congrArg (· + new.stackSize) load_stackBottom.symm

/-- The end of the stack is not in it. -/
theorem top_not_inside (new : NewTask) : ¬new.Inside new.top := by
  rintro ⟨low, high⟩
  have bottom := new.stackBottom.isLt
  have size := new.stackSize.isLt
  rw [NewTask.top, BitVec.toNat_add] at low high
  omega

/-- **The frame never fits**: whatever the size of the stack is and wherever it lies, `arg` is
stored behind it. -/
theorem frame_never_fits (entries : Entries) (memory : Memory) (new : NewTask) :
    ¬FrameFits entries memory new :=
  fun fits => top_not_inside new (fits.stored new.top top_mem_words)

/-- The stack of a task with one page. -/
def onePage : NewTask where
  fp := 0x1000
  arg := 0
  stackSize := 4096
  priority := 1
  pid := 2
  newtask := 0x200000
  stackBottom := 0x300000
  flags := 0x202

theorem onePage_overruns : ¬FrameFits exampleEntries (fun _ => 0) onePage := by
  intro fits
  have stored := fits.stored 0x301000 top_mem_words
  exact absurd stored.2 (by decide)

/-! ## The rest of the frame -/

section Rest

variable {Task : Type} {layout : Layout Task} {t : Task}

/-- The words that `task_new` stores. -/
theorem words_eq (built : layout.Built new t) :
    (taskNewFrame entries memory new).words =
      [new.top, new.top - 4, new.top - 8, new.top - 44] := by
  obtain ⟨newtask, low, high⟩ := built
  simp only [taskNewFrame, FrameLog.store, FrameLog.storeAtEsp, FrameLog.lowerEsp,
    load_stackBottom]
  rw [newtask]
  generalize store (store (store (memset memory (layout.tcb t).toNat 0 taskStructSize)
    (layout.tcb t + 64) new.stackBottom) (layout.tcb t + 52) 0) (layout.tcb t + 76) 0 = cleared
  have atTop : load (store cleared (layout.tcb t) (new.stackBottom + new.stackSize))
      (layout.tcb t) = new.top := load_store_self _ _ _
  obtain ⟨⟨atFp, atCb, atFlags⟩, -⟩ := @lowerEsp_three _ layout t _ _ _ _ _ new.arg new.fp
    entries.onCurrentTaskReturnCb atTop low high rfl rfl rfl
  rw [atTop, atFp, atCb, atFlags]
  rfl

/-- The words that the second part of `cpu_switch_to` writes and pops: the return address, and all
of the frame of the next task. -/
theorem touched_loadState {machine : Machine} {next esp : Word}
    (argument : load machine.memory (machine.reg .esp + (pushedRegsSz + 8)) = next)
    (saved : load machine.memory (next + structTaskEsp) = esp) :
    machine.touched loadState = (esp + pushedRegsSz) :: (List.range 9).map (after esp) := by
  have written : machine.touched loadTaskStruct = [esp + pushedRegsSz] := by
    rw [← saved, ← argument]
    rfl
  have loaded : (machine.run loadTaskStruct).reg .esp = esp := by
    rw [← saved, ← argument]
    rfl
  obtain ⟨values, held⟩ := exists_holds (machine.run loadTaskStruct).memory
    ((machine.run loadTaskStruct).reg .esp) (show savedRegisters.reverse.Nodup by decide)
  have popped := ((machine.run loadTaskStruct).run_pops _ values (by decide) held).esp
  rw [loadState_eq, Machine.touched_append, Machine.touched_append, written,
    Machine.touched_pops _ _ (by decide), loaded, Machine.run_append]
  change _ ++ [((machine.run loadTaskStruct).run (savedRegisters.reverse.map .pop)).reg .esp] = _
  rw [popped, loaded]
  rfl

/-- **The rest of the frame** is in the stack exactly if that has room for eleven words. -/
theorem frame_inside_iff (built : layout.Built new t)
    (fits : new.stackBottom.toNat + new.stackSize.toNat < 2 ^ 32) {machine : Machine}
    (first : FirstSwitch entries memory new machine) :
    (∀ word ∈ (taskNewFrame entries memory new).words ++ machine.touched loadState,
      word ≠ new.top → new.Inside word) ↔ 44 ≤ new.stackSize.toNat := by
  have low := built.low
  have top : new.top.toNat = new.stackBottom.toNat + new.stackSize.toNat := toNat_add fits
  have lowest : (new.top - 44).toNat = new.top.toNat - 44 :=
    toNat_sub (by change 44 ≤ _; omega)
  obtain ⟨values, frame, -⟩ := @taskNew_frame _ layout entries memory t new built
  have esp := first.esp
  rw [built.newtask, frame.tcbEsp, ← built.newtask] at esp
  rw [words_eq built, touched_loadState first.next esp]
  constructor
  · intro inside
    have flags := inside (new.top - 44) (by simp) ?_
    · have bottom := flags.1
      rw [lowest] at bottom
      omega
    · intro same
      rw [same] at lowest
      omega
  · intro room word member other
    have near (below : ℕ) (notTop : 4 ≤ below) (inFrame : below ≤ 44)
        (isWord : word.toNat = new.top.toNat - below) : new.Inside word := by
      constructor <;> omega
    rcases List.mem_append.mp member with stored | switched
    · simp only [List.mem_cons, List.not_mem_nil, or_false] at stored
      rcases stored with rfl | rfl | rfl | rfl
      · exact absurd rfl other
      · exact near 4 (by decide) (by decide) (toNat_sub (by change 4 ≤ _; omega))
      · exact near 8 (by decide) (by decide) (toNat_sub (by change 8 ≤ _; omega))
      · exact near 44 (by decide) (by decide) lowest
    · rcases List.mem_cons.mp switched with rfl | popped
      · refine near 12 (by decide) (by decide) ?_
        rw [toNat_add (by rw [lowest]; change _ + 32 < _; omega), lowest]
        change _ + 32 = _
        omega
      · obtain ⟨count, bound, rfl⟩ := List.mem_map.mp popped
        rw [List.mem_range] at bound
        refine near (44 - 4 * count) (by omega) (Nat.sub_le _ _) ?_
        rw [after, BitVec.toNat_add, BitVec.toNat_ofNat, lowest]
        omega

end Rest

end Frame

end CatchOS.Tasks
