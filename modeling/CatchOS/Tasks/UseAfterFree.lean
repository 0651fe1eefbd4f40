import CatchOS.Tasks.SchedulerSafety

/-!
# No use of a task after it was freed

A task that returns is still executed on its own stack while it gives up its CPU.
`task_cleanup` must therefore not be called on it before another task is current
there. The source calls it too early in two places: a detached task frees itself
in `on_current_task_return_cb` and then yields, and `task_join` frees a task as
soon as it is terminated, although the task may still be on its way through
`schedule` on another CPU.

In runs in which neither happens, and in which no task runs on two CPUs
(`LifecycleGuard`), no step touches a `task_struct` or a stack that was freed
(`task_no_use_after_free`). The invariant follows the frames of every task that
runs or may run again (`Kernel.Live`): a task that is joined is joined by one
task, in one frame, and a task that was unlinked or freed is not in the table.
-/

set_option autoImplicit false

namespace CatchOS.Tasks

open CatchOS.Lib

/-- The task that a frame of `task_join` waits for. -/
def Frame.target : Frame → Option TaskId
  | .joinPoll t | .joinReset t | .joinCleanup t => some t
  | _ => none

/-- The frames of `on_current_task_return_cb` after its section. -/
def Frame.unlinked : Frame → Bool
  | .returnState | .returnJoin | .returnDone => true
  | _ => false

/-- The tasks that the frames wait for. -/
def targets (frames : List Frame) : List TaskId := frames.filterMap Frame.target

section Definitions

variable {Cpu : Type}

/-- A task that tests its `join_state` at the end of its return is not detached,
and a task that a joiner finds terminated runs nowhere any more. -/
def FrameAllowed (kernel : Kernel Cpu) (cpu : Cpu) : Frame → Prop
  | .returnJoin => (kernel.table.task (kernel.current cpu)).joinState ≠ .detached
  | .joinPoll t => (kernel.table.task t).state = .terminated → ∀ other, kernel.current other ≠ t
  | .yield | .schedule | .scan | .commit _ _ | .switchTo _ | .resumed | .returnEnter
  | .returnUnlink | .returnState | .returnDone | .newCheck _ | .newSearch _ | .newFill _ _
  | .joinReset _ | .joinCleanup _ => True

/-- No task runs on two CPUs, and the next frame is allowed. -/
def LifecycleGuard (kernel : Kernel Cpu) (action : KernelAction Cpu) : Prop :=
  Function.Injective kernel.current ∧
  match action with
  | .run cpu => ∀ frame ∈ (kernel.frames cpu).head?, FrameAllowed kernel cpu frame
  | .call _ _ | .tick _ => True

instance [Fintype Cpu] (kernel : Kernel Cpu) (cpu : Cpu) :
    ∀ frame, Decidable (FrameAllowed kernel cpu frame)
  | .returnJoin => inferInstanceAs (Decidable (_ ≠ _))
  | .joinPoll _ => inferInstanceAs (Decidable (_ → ∀ _, _ ≠ _))
  | .yield | .schedule | .scan | .commit _ _ | .switchTo _ | .resumed | .returnEnter
  | .returnUnlink | .returnState | .returnDone | .newCheck _ | .newSearch _ | .newFill _ _
  | .joinReset _ | .joinCleanup _ => isTrue trivial

instance [Fintype Cpu] [DecidableEq Cpu] (kernel : Kernel Cpu) :
    ∀ action, Decidable (LifecycleGuard kernel action)
  | .run cpu => inferInstanceAs
      (Decidable (_ ∧ ∀ frame ∈ (kernel.frames cpu).head?, FrameAllowed kernel cpu frame))
  | .call _ _ | .tick _ => inferInstanceAs (Decidable (_ ∧ True))

/-- The task runs nowhere and is not in the table. -/
def Kernel.Gone (kernel : Kernel Cpu) (t : TaskId) : Prop :=
  (∀ cpu, kernel.current cpu ≠ t) ∧ ∀ i, kernel.table.slots i ≠ some t

/-- The frames of a task that runs, or that it will continue with. -/
def Kernel.Live (kernel : Kernel Cpu) (owner : TaskId) (frames : List Frame) : Prop :=
  (∃ cpu, kernel.current cpu = owner ∧ kernel.frames cpu = frames) ∨
  ((∀ cpu, kernel.current cpu ≠ owner) ∧ kernel.context owner = frames)

/-- What the frames of a task say about the tasks they mention. -/
structure FramesOk (kernel : Kernel Cpu) (owner : TaskId) (frames : List Frame) : Prop where
  single : (targets frames).length ≤ 1
  target : ∀ t ∈ targets frames,
    kernel.freed t = false ∧ kernel.joiner t = some owner ∧ t < kernel.table.nextId
  cleanup : ∀ t, .joinCleanup t ∈ frames → kernel.Gone t
  unlinked : ∀ frame ∈ frames, frame.unlinked = true → ∀ i, kernel.table.slots i ≠ some owner

structure LifecycleInvariant (kernel : Kernel Cpu) : Prop where
  slot : ∀ i t, kernel.table.slots i = some t →
    (kernel.table.task t).pid = i ∧ t < kernel.table.nextId
  old : ∀ cpu, kernel.current cpu < kernel.table.nextId
  terminated : ∀ t, (kernel.table.task t).state = .terminated → ∀ i, kernel.table.slots i ≠ some t
  freed : ∀ t, kernel.freed t = true →
    t < kernel.table.nextId ∧ kernel.joiner t ≠ none ∧ kernel.Gone t
  fresh : ∀ t, kernel.table.nextId ≤ t → kernel.context t = []
  live : ∀ owner frames, kernel.Live owner frames → FramesOk kernel owner frames

end Definitions

/-! ## Frames -/

section Frames

variable {Cpu : Type} {kernel next : Kernel Cpu} {owner : TaskId} {frame : Frame}
  {frames : List Frame}

theorem FramesOk.nil : FramesOk kernel owner [] :=
  ⟨Nat.zero_le _, nofun, nofun, nofun⟩

theorem FramesOk.pop (ok : FramesOk kernel owner (frame :: frames)) :
    FramesOk kernel owner frames := by
  have sub : (targets frames).Sublist (targets (frame :: frames)) :=
    (List.sublist_cons_self frame frames).filterMap _
  refine ⟨sub.length_le.trans ok.single, fun t member => ok.target t (sub.subset member),
    fun t member => ok.cleanup t (List.mem_cons_of_mem _ member),
    fun other member => ok.unlinked other (List.mem_cons_of_mem _ member)⟩

/-- A frame that neither joins nor follows an unlinking is put on top. -/
theorem FramesOk.push (ok : FramesOk kernel owner frames) (noTarget : frame.target = none)
    (linked : frame.unlinked = false) : FramesOk kernel owner (frame :: frames) := by
  have same : targets (frame :: frames) = targets frames := List.filterMap_cons_none noTarget
  refine ⟨same ▸ ok.single, fun t member => ok.target t (same ▸ member), fun t member => ?_,
    fun other member unlinked => ?_⟩
  · rcases List.mem_cons.mp member with rfl | below
    · cases noTarget
    · exact ok.cleanup t below
  · rcases List.mem_cons.mp member with rfl | below
    · rw [linked] at unlinked
      cases unlinked
    · exact ok.unlinked other below unlinked

/-- A frame after the unlinking is put on top, when the owner is not in the
table. -/
theorem FramesOk.pushUnlinked (ok : FramesOk kernel owner frames) (noTarget : frame.target = none)
    (gone : ∀ i, kernel.table.slots i ≠ some owner) : FramesOk kernel owner (frame :: frames) := by
  have same : targets (frame :: frames) = targets frames := List.filterMap_cons_none noTarget
  refine ⟨same ▸ ok.single, fun t member => ok.target t (same ▸ member), fun t member => ?_,
    fun _ _ _ => gone⟩
  rcases List.mem_cons.mp member with rfl | below
  · cases noTarget
  · exact ok.cleanup t below

/-- A frame of `task_join` is followed by the next one for the same task. -/
theorem FramesOk.follow {after : Frame} (ok : FramesOk kernel owner (frame :: frames)) {t : TaskId}
    (before : frame.target = some t) (same : after.target = some t)
    (linked : after.unlinked = false) (cleanup : after = .joinCleanup t → kernel.Gone t) :
    FramesOk kernel owner (after :: frames) := by
  have targets' : targets (after :: frames) = targets (frame :: frames) := by
    simp only [targets, List.filterMap_cons_some before, List.filterMap_cons_some same]
  refine ⟨targets' ▸ ok.single, fun u member => ok.target u (targets' ▸ member),
    fun u member => ?_, fun other member unlinked => ?_⟩
  · rcases List.mem_cons.mp member with rfl | below
    · obtain rfl : u = t := Option.some.inj same
      exact cleanup rfl
    · exact ok.cleanup u (List.mem_cons_of_mem _ below)
  · rcases List.mem_cons.mp member with rfl | below
    · rw [linked] at unlinked
      cases unlinked
    · exact ok.unlinked other (List.mem_cons_of_mem _ below) unlinked

/-- The frames stay good when the tasks they wait for are not freed or joined
anew, and tasks that are gone stay gone. -/
theorem FramesOk.transfer (ok : FramesOk kernel owner frames)
    (target : ∀ t ∈ targets frames, kernel.freed t = false → kernel.joiner t = some owner →
      t < kernel.table.nextId →
      next.freed t = false ∧ next.joiner t = some owner ∧ t < next.table.nextId)
    (gone : ∀ t, t < kernel.table.nextId → kernel.Gone t → next.Gone t)
    (unlinked : (∀ i, kernel.table.slots i ≠ some owner) → ∀ i, next.table.slots i ≠ some owner) :
    FramesOk next owner frames := by
  refine ⟨ok.single, fun t member => ?_, fun t member => ?_,
    fun other member after => unlinked (ok.unlinked other member after)⟩
  · obtain ⟨notFreed, joiner, old⟩ := ok.target t member
    exact target t member notFreed joiner old
  · have waited : t ∈ targets frames := List.mem_filterMap.mpr ⟨_, member, rfl⟩
    exact gone t (ok.target t waited).2.2 (ok.cleanup t member)

end Frames

/-! ## Steps of one CPU -/

section Steps

variable {Cpu : Type} [DecidableEq Cpu] {kernel : Kernel Cpu} {cpu : Cpu} {table : TaskTable}
  {frame : Frame} {frames rest : List Frame}

/-- The table loses entries at most, and a task that becomes terminated is not in
it. -/
structure Shrinks (before after : TaskTable) : Prop where
  slots : ∀ i t, after.slots i = some t → before.slots i = some t
  pid : ∀ t, (after.task t).pid = (before.task t).pid
  nextId : after.nextId = before.nextId
  terminated : ∀ t, (after.task t).state = .terminated →
    (before.task t).state = .terminated ∨ ∀ i, after.slots i ≠ some t

omit [DecidableEq Cpu] in
theorem shrinks_of_same (same : TaskTable.SameButPrio kernel.table table) :
    Shrinks kernel.table table :=
  ⟨fun _ _ held => same.slots ▸ held, same.pid, same.nextId,
    fun t terminated => .inl ((same.state t).symm.trans terminated)⟩

theorem Shrinks.refl (table : TaskTable) : Shrinks table table :=
  ⟨fun _ _ => id, fun _ => rfl, rfl, fun _ => .inl⟩

/-- A task is changed, and does not become terminated by it. -/
theorem shrinks_modify (table : TaskTable) (t : TaskId) (change : TaskStruct → TaskStruct)
    (pid : (change (table.task t)).pid = (table.task t).pid)
    (state : (change (table.task t)).state = .terminated → (table.task t).state = .terminated) :
    Shrinks table (table.modify t change) := by
  refine ⟨fun _ _ => id, fun u => ?_, rfl, fun u terminated => .inl ?_⟩
  · by_cases same : u = t
    · simp [TaskTable.modify, same, pid]
    · simp [TaskTable.modify, same]
  · by_cases same : u = t
    · subst same
      exact state (by simpa [TaskTable.modify] using terminated)
    · simpa [TaskTable.modify, same] using terminated

theorem shrinks_unlink (table : TaskTable) (t : TaskId) : Shrinks table (table.unlink t) := by
  exact ⟨fun _ _ held => TaskTable.unlink_slot held, fun _ => rfl, rfl, fun _ => .inl⟩

omit [DecidableEq Cpu] in
theorem Kernel.Gone.shrinks {next : Kernel Cpu} {t : TaskId} (gone : kernel.Gone t)
    (current : next.current = kernel.current) (shrinks : Shrinks kernel.table next.table) :
    next.Gone t :=
  ⟨fun cpu => current ▸ gone.1 cpu, fun i held => gone.2 i (shrinks.slots i t held)⟩

/-- Frames stay good when the table shrinks. -/
theorem FramesOk.proceed {owner : TaskId} (ok : FramesOk kernel owner frames)
    (shrinks : Shrinks kernel.table table) (after : List Frame) :
    FramesOk (kernel.proceed cpu table after) owner frames := by
  refine ok.transfer (fun t _ notFreed joiner old => ⟨notFreed, joiner, ?_⟩)
    (fun t _ gone => gone.shrinks rfl shrinks) fun unlinked i held => ?_
  · change t < table.nextId
    rw [shrinks.nextId]
    exact old
  · exact unlinked i (shrinks.slots i owner held)

/-- **A step that leaves the CPUs on their tasks.** The table shrinks and one CPU
gets other frames. -/
theorem LifecycleInvariant.proceed (invariant : LifecycleInvariant kernel)
    (shrinks : Shrinks kernel.table table)
    (ok : FramesOk (kernel.proceed cpu table frames) (kernel.current cpu) frames) :
    LifecycleInvariant (kernel.proceed cpu table frames) := by
  refine ⟨fun i t held => ?_, fun other => ?_, fun t terminated i held => ?_, fun t freed => ?_,
    fun t unused => ?_, fun owner others live => ?_⟩
  · obtain ⟨pid, old⟩ := invariant.slot i t (shrinks.slots i t held)
    exact ⟨(shrinks.pid t).trans pid, shrinks.nextId ▸ old⟩
  · exact shrinks.nextId ▸ invariant.old other
  · rcases shrinks.terminated t terminated with before | absent
    · exact invariant.terminated t before i (shrinks.slots i t held)
    · exact absent i held
  · obtain ⟨old, joined, gone⟩ := invariant.freed t freed
    exact ⟨shrinks.nextId ▸ old, joined, gone.shrinks rfl shrinks⟩
  · exact invariant.fresh t (shrinks.nextId ▸ unused)
  · rcases live with ⟨other, rfl, same⟩ | ⟨away, same⟩
    · by_cases mine : other = cpu
      · subst mine
        simp only [Kernel.proceed, Function.update_self] at same
        exact same ▸ ok
      · simp only [Kernel.proceed, Function.update_of_ne mine] at same
        exact (invariant.live _ _ (.inl ⟨other, rfl, same⟩)).proceed shrinks _
    · exact (invariant.live _ _ (.inr ⟨away, same⟩)).proceed shrinks _

/-- **A context switch** to a task of the table that runs nowhere: its saved frames
were live before. -/
theorem LifecycleInvariant.switch (invariant : LifecycleInvariant kernel) {i : ℕ} {t : TaskId}
    (held : kernel.table.slots i = some t) (other : kernel.current cpu ≠ t)
    (ok : FramesOk kernel (kernel.current cpu) rest)
    (distinct : Function.Injective (kernel.switch cpu t rest).current) :
    LifecycleInvariant (kernel.switch cpu t rest) := by
  have moved (another : Cpu) (apart : another ≠ cpu) :
      (kernel.switch cpu t rest).current another = kernel.current another :=
    Function.update_of_ne apart _ _
  have here : (kernel.switch cpu t rest).current cpu = t := Function.update_self _ _ _
  have away (another : Cpu) : kernel.current another ≠ t := by
    by_cases same : another = cpu
    · exact same ▸ other
    · intro shared
      exact same (distinct (((moved another same).trans shared).trans here.symm))
  have gone (u : TaskId) (gone : kernel.Gone u) : (kernel.switch cpu t rest).Gone u := by
    refine ⟨fun another => ?_, gone.2⟩
    by_cases same : another = cpu
    · rw [same, here]
      rintro rfl
      exact gone.2 i held
    · rw [moved another same]
      exact gone.1 another
  have keeps {owner : TaskId} {frames : List Frame} (ok : FramesOk kernel owner frames) :
      FramesOk (kernel.switch cpu t rest) owner frames :=
    ok.transfer (fun _ _ notFreed joiner old => ⟨notFreed, joiner, old⟩) (fun u _ => gone u) id
  refine ⟨invariant.slot, fun another => ?_, invariant.terminated, fun u freed => ?_,
    fun u unused => ?_, fun owner frames live => ?_⟩
  · by_cases same : another = cpu
    · rw [same, here]
      exact (invariant.slot i t held).2
    · rw [moved another same]
      exact invariant.old another
  · obtain ⟨old, joined, wasGone⟩ := invariant.freed u freed
    exact ⟨old, joined, gone u wasGone⟩
  · have notCurrent : u ≠ kernel.current cpu := by
      rintro rfl
      exact absurd (invariant.old cpu) (Nat.not_lt.mpr unused)
    exact (Function.update_of_ne notCurrent _ _).trans (invariant.fresh u unused)
  · rcases live with ⟨another, rfl, same⟩ | ⟨absent, same⟩
    · by_cases mine : another = cpu
      · subst mine
        rw [here]
        simp only [Kernel.switch, Function.update_self] at same
        exact keeps (invariant.live t frames (.inr ⟨away, same⟩))
      · rw [moved another mine]
        simp only [Kernel.switch, Function.update_of_ne mine] at same
        exact keeps (invariant.live _ frames (.inl ⟨another, rfl, same⟩))
    · by_cases left : owner = kernel.current cpu
      · subst left
        simp only [Kernel.switch, Function.update_self] at same
        exact same ▸ keeps (ok.push rfl rfl)
      · simp only [Kernel.switch, Function.update_of_ne left] at same
        refine keeps (invariant.live owner frames (.inr ⟨fun another => ?_, same⟩))
        by_cases mine : another = cpu
        · exact mine ▸ Ne.symm left
        · rw [← moved another mine]
          exact absent another

/-- **A task is created.** Its name is new, so nothing is known about it. -/
theorem LifecycleInvariant.fill (invariant : LifecycleInvariant kernel) (pid : ℕ) (priority : ℤ)
    (ok : FramesOk kernel (kernel.current cpu) rest) :
    LifecycleInvariant { kernel.proceed cpu (kernel.table.fill pid priority) rest with
      context := Function.update kernel.context kernel.table.nextId [] } := by
  have slots {i : ℕ} {t : TaskId} (different : t ≠ kernel.table.nextId)
      (held : (kernel.table.fill pid priority).slots i = some t) :
      kernel.table.slots i = some t := by
    rcases TaskTable.fill_slot held with ⟨-, new⟩ | ⟨-, before⟩
    · exact absurd new different
    · exact before
  have task {t : TaskId} (different : t ≠ kernel.table.nextId) :
      (kernel.table.fill pid priority).task t = kernel.table.task t :=
    TaskTable.fill_task_old different
  have keeps {owner : TaskId} {others : List Frame} (okOthers : FramesOk kernel owner others)
      (old : owner < kernel.table.nextId) :
      FramesOk { kernel.proceed cpu (kernel.table.fill pid priority) rest with
        context := Function.update kernel.context kernel.table.nextId [] } owner others := by
    refine okOthers.transfer (fun u _ notFreed joiner older => ⟨notFreed, joiner, ?_⟩)
      (fun u older gone => ⟨gone.1, fun i held => gone.2 i (slots older.ne held)⟩)
      fun unlinked i held => unlinked i (slots old.ne held)
    exact older.trans (Nat.lt_succ_self _)
  refine ⟨fun i t held => ?_, fun another => ?_, fun t terminated i held => ?_, fun t freed => ?_,
    fun t unused => ?_, fun owner others live => ?_⟩
  · by_cases new : t = kernel.table.nextId
    · subst new
      have here : i = pid := by
        by_contra elsewhere
        have before : kernel.table.slots i = some kernel.table.nextId := by
          simpa [Kernel.proceed, TaskTable.fill, elsewhere] using held
        exact absurd (invariant.slot i _ before).2 (lt_irrefl _)
      simp [Kernel.proceed, TaskTable.fill, taskStructNew, here]
    · obtain ⟨pid', old⟩ := invariant.slot i t (slots new held)
      refine ⟨?_, old.trans (Nat.lt_succ_self _)⟩
      simp only [Kernel.proceed, task new]
      exact pid'
  · exact (invariant.old another).trans (Nat.lt_succ_self _)
  · by_cases new : t = kernel.table.nextId
    · simp [Kernel.proceed, TaskTable.fill, taskStructNew, new] at terminated
    · simp only [Kernel.proceed, task new] at terminated
      exact invariant.terminated t terminated i (slots new held)
  · obtain ⟨old, joined, gone⟩ := invariant.freed t freed
    exact ⟨old.trans (Nat.lt_succ_self _), joined, gone.1,
      fun i held => gone.2 i (slots old.ne held)⟩
  · have old : kernel.table.nextId < t := unused
    exact (Function.update_of_ne old.ne' _ _).trans (invariant.fresh t old.le)
  · rcases live with ⟨another, rfl, same⟩ | ⟨absent, same⟩
    · by_cases mine : another = cpu
      · subst mine
        simp only [Kernel.proceed, Function.update_self] at same
        exact same ▸ keeps ok (invariant.old another)
      · simp only [Kernel.proceed, Function.update_of_ne mine] at same
        exact keeps (invariant.live _ _ (.inl ⟨another, rfl, same⟩)) (invariant.old another)
    · by_cases new : owner = kernel.table.nextId
      · simp only [new, Function.update_self] at same
        exact same ▸ FramesOk.nil
      · simp only [Function.update_of_ne new] at same
        by_cases old : owner < kernel.table.nextId
        · exact keeps (invariant.live owner others (.inr ⟨absent, same⟩)) old
        · rw [invariant.fresh owner (Nat.le_of_not_lt old)] at same
          exact same ▸ FramesOk.nil

/-- **A task is joined**, for the first time. -/
theorem LifecycleInvariant.join (invariant : LifecycleInvariant kernel) {t : TaskId}
    (old : t < kernel.table.nextId) (unjoined : kernel.joiner t = none) :
    LifecycleInvariant { kernel.proceed cpu kernel.table [.joinPoll t] with
      joiner := Function.update kernel.joiner t (some (kernel.current cpu)) } := by
  have notFreed : kernel.freed t = false := by
    by_contra freed
    exact (invariant.freed t (by simpa using freed)).2.1 unjoined
  have keeps {owner : TaskId} {others : List Frame} (okOthers : FramesOk kernel owner others) :
      FramesOk { kernel.proceed cpu kernel.table [.joinPoll t] with
        joiner := Function.update kernel.joiner t (some (kernel.current cpu)) } owner others := by
    refine okOthers.transfer (fun u _ notFreed joiner older => ⟨notFreed, ?_, older⟩)
      (fun _ _ gone => gone) id
    have different : u ≠ t := by
      rintro rfl
      exact nomatch unjoined.symm.trans joiner
    exact (Function.update_of_ne different _ _).trans joiner
  refine ⟨invariant.slot, invariant.old, invariant.terminated, fun u freed => ?_, invariant.fresh,
    fun owner others live => ?_⟩
  · obtain ⟨older, joined, gone⟩ := invariant.freed u freed
    have different : u ≠ t := by
      rintro rfl
      exact joined unjoined
    refine ⟨older, ?_, gone⟩
    simp only [Function.update_of_ne different]
    exact joined
  · rcases live with ⟨another, rfl, same⟩ | ⟨absent, same⟩
    · by_cases mine : another = cpu
      · subst mine
        simp only [Kernel.proceed, Function.update_self] at same
        subst same
        refine ⟨le_rfl, fun u member => ?_, fun u member => ?_, fun frame member unlinked => ?_⟩
        · obtain rfl : u = t := by simpa [targets, Frame.target] using member
          exact ⟨notFreed, Function.update_self _ _ _, old⟩
        · simp at member
        · obtain rfl : frame = .joinPoll t := by simpa using member
          cases unlinked
      · simp only [Kernel.proceed, Function.update_of_ne mine] at same
        exact keeps (invariant.live _ _ (.inl ⟨another, rfl, same⟩))
    · exact keeps (invariant.live owner others (.inr ⟨absent, same⟩))

/-- **A joiner frees the task it waited for.** No other frame waits for that task:
its owner would be the same joiner. -/
theorem LifecycleInvariant.cleanup (invariant : LifecycleInvariant kernel) {t : TaskId}
    (distinct : Function.Injective kernel.current)
    (frames : kernel.frames cpu = .joinCleanup t :: rest) :
    LifecycleInvariant ((kernel.cleanup t).proceed cpu kernel.table rest) := by
  have ok := invariant.live _ _ (.inl ⟨cpu, rfl, frames⟩)
  have gone := ok.cleanup t List.mem_cons_self
  obtain ⟨-, joined, old⟩ := ok.target t List.mem_cons_self
  have alone : t ∉ targets rest := by
    intro member
    have single := ok.single
    have positive := List.length_pos_of_mem member
    simp only [targets, List.filterMap_cons, Frame.target, List.length_cons] at single positive
    omega
  -- A task that is still waited for is not the one that is freed.
  have keeps {owner : TaskId} {others : List Frame} (okOthers : FramesOk kernel owner others)
      (notMine : t ∉ targets others) :
      FramesOk ((kernel.cleanup t).proceed cpu kernel.table rest) owner others := by
    refine okOthers.transfer (fun u member notFreed joiner old => ⟨?_, joiner, old⟩)
      (fun _ _ gone => gone) id
    have different : u ≠ t := by
      rintro rfl
      exact notMine member
    exact (Function.update_of_ne different _ _).trans notFreed
  refine ⟨invariant.slot, invariant.old, invariant.terminated, fun u freed => ?_, invariant.fresh,
    fun owner others live => ?_⟩
  · by_cases same : u = t
    · subst same
      exact ⟨old, fun none => (nomatch joined.symm.trans none), gone⟩
    · have before : kernel.freed u = true := (Function.update_of_ne same _ _).symm.trans freed
      exact invariant.freed u before
  · rcases live with ⟨another, rfl, same⟩ | ⟨absent, same⟩
    · by_cases mine : another = cpu
      · subst mine
        simp only [Kernel.proceed, Function.update_self] at same
        exact same ▸ keeps ok.pop alone
      · simp only [Kernel.proceed, Function.update_of_ne mine] at same
        have okOthers := invariant.live _ _ (.inl ⟨another, rfl, same⟩)
        refine keeps okOthers fun member => ?_
        have other := (okOthers.target t member).2.1
        rw [joined] at other
        exact mine (distinct (Option.some.inj other).symm)
    · have okOthers := invariant.live owner others (.inr ⟨absent, same⟩)
      refine keeps okOthers fun member => ?_
      have other := (okOthers.target t member).2.1
      rw [joined] at other
      exact absent cpu (Option.some.inj other)

theorem makeReady_terminated {state : TaskState}
    (terminated : TaskTable.makeReady state = .terminated) : state = .terminated := by
  cases state <;> first | rfl | cases terminated

/-- **A frame is executed.** -/
theorem LifecycleInvariant.runFrame {next : Kernel Cpu} (invariant : LifecycleInvariant kernel)
    (allowed : LifecycleGuard kernel (.run cpu)) (frames : kernel.frames cpu = frame :: rest)
    (ran : kernel.runFrame cpu rest frame = some next)
    (distinct : Function.Injective next.current) : LifecycleInvariant next := by
  have ok := invariant.live _ _ (.inl ⟨cpu, rfl, frames⟩)
  obtain ⟨distinctBefore, allowed⟩ := allowed
  replace allowed := allowed frame (by rw [frames]; rfl)
  -- The frame is replaced by others that neither join nor follow an unlinking.
  have replaced {table : TaskTable} (shrinks : Shrinks kernel.table table) {top : Frame}
      (noTarget : top.target = none) (linked : top.unlinked = false) :
      LifecycleInvariant (kernel.proceed cpu table (top :: rest)) :=
    invariant.proceed shrinks ((ok.pop.push noTarget linked).proceed shrinks _)
  have popped {table : TaskTable} (shrinks : Shrinks kernel.table table) :
      LifecycleInvariant (kernel.proceed cpu table rest) :=
    invariant.proceed shrinks (ok.pop.proceed shrinks _)
  have interruptible (value : Bool) :
      Shrinks kernel.table (kernel.table.setInterruptible (kernel.current cpu) value) :=
    shrinks_modify _ _ _ rfl id
  cases frame with
  | yield =>
      simp only [Kernel.runFrame, Option.some.injEq] at ran
      subst ran
      exact replaced (shrinks_modify _ _ _ rfl makeReady_terminated) rfl rfl
  | schedule =>
      simp only [Kernel.runFrame, Option.some.injEq] at ran
      subst ran
      exact replaced (interruptible false) rfl rfl
  | scan =>
      simp only [Kernel.runFrame, Option.some.injEq] at ran
      subst ran
      exact replaced (.refl _) rfl rfl
  | commit c slot =>
      by_cases found : 0 < c
      · simp only [Kernel.runFrame, if_pos found, Option.map_eq_some_iff] at ran
        obtain ⟨t, -, rfl⟩ := ran
        have shrinks : Shrinks kernel.table (kernel.table.setState t .running) := by
          apply shrinks_modify _ _ _ rfl
          intro terminated
          cases terminated
        exact replaced shrinks rfl rfl
      · simp only [Kernel.runFrame, if_neg found, Option.some.injEq] at ran
        subst ran
        exact replaced (shrinks_of_same kernel.table.scheduleRecharge_same) rfl rfl
  | switchTo slot =>
      simp only [Kernel.runFrame, Option.map_eq_some_iff] at ran
      obtain ⟨t, held, rfl⟩ := ran
      by_cases self : kernel.current cpu = t
      · rw [if_pos self]
        exact replaced (.refl _) rfl rfl
      · rw [if_neg self] at distinct ⊢
        exact invariant.switch held self ok.pop distinct
  | resumed =>
      simp only [Kernel.runFrame, Option.some.injEq] at ran
      subst ran
      exact popped (interruptible true)
  | returnEnter =>
      simp only [Kernel.runFrame, Option.some.injEq] at ran
      subst ran
      exact replaced (interruptible false) rfl rfl
  | returnUnlink =>
      simp only [Kernel.runFrame, Option.some.injEq] at ran
      subst ran
      have shrinks := shrinks_unlink kernel.table (kernel.current cpu)
      refine invariant.proceed shrinks ((ok.pop.proceed shrinks _).pushUnlinked rfl fun i held =>
        ?_)
      have pid := (invariant.slot i _ (shrinks.slots i _ held)).1
      simp [Kernel.proceed, TaskTable.unlink, ← pid] at held
  | returnState =>
      simp only [Kernel.runFrame, Option.some.injEq] at ran
      subst ran
      have absent := ok.unlinked _ List.mem_cons_self rfl
      have shrinks : Shrinks kernel.table
          (if (kernel.table.task (kernel.current cpu)).state = .running then
            kernel.table.setState (kernel.current cpu) .terminated else kernel.table) := by
        split
        · refine ⟨fun _ _ => id, fun u => ?_, rfl, fun u terminated => ?_⟩
          · by_cases same : u = kernel.current cpu <;>
              simp [TaskTable.setState, TaskTable.modify, same]
          · by_cases same : u = kernel.current cpu
            · exact .inr (same ▸ absent)
            · simp only [TaskTable.setState, TaskTable.modify, Function.update_of_ne same]
                at terminated
              exact .inl terminated
        · exact .refl _
      refine invariant.proceed shrinks ((ok.pop.pushUnlinked rfl absent).proceed shrinks _)
  | returnJoin =>
      simp only [Kernel.runFrame, if_neg allowed, Option.some.injEq] at ran
      subst ran
      have absent := ok.unlinked _ List.mem_cons_self rfl
      have returning : FramesOk kernel (kernel.current cpu) (.returnDone :: rest) :=
        ok.pop.pushUnlinked rfl absent
      exact invariant.proceed (.refl _) ((returning.push rfl rfl).proceed (.refl _) _)
  | returnDone => simp only [Kernel.runFrame, reduceCtorEq] at ran
  | newCheck priority =>
      simp only [Kernel.runFrame, Option.some.injEq] at ran
      subst ran
      split
      · exact popped (.refl _)
      · exact replaced (.refl _) rfl rfl
  | newSearch priority =>
      simp only [Kernel.runFrame, Option.some.injEq] at ran
      subst ran
      split
      · exact replaced (.refl _) rfl rfl
      · exact popped (.refl _)
  | newFill pid priority =>
      simp only [Kernel.runFrame, Option.some.injEq] at ran
      subst ran
      exact invariant.fill pid priority ok.pop
  | joinPoll t =>
      simp only [Kernel.runFrame, Option.some.injEq] at ran
      subst ran
      by_cases terminated : (kernel.table.task t).state = .terminated
      · rw [if_pos terminated]
        have gone : kernel.Gone t := ⟨allowed terminated, invariant.terminated t terminated⟩
        exact invariant.proceed (.refl _) ((ok.follow rfl rfl rfl fun _ => gone).proceed (.refl _)
          _)
      · rw [if_neg terminated]
        have resets : FramesOk kernel (kernel.current cpu) (.joinReset t :: rest) := by
          apply ok.follow rfl rfl rfl
          intro cleaning
          cases cleaning
        exact invariant.proceed (.refl _) (resets.proceed (.refl _) _)
  | joinReset t =>
      simp only [Kernel.runFrame, Option.some.injEq] at ran
      subst ran
      have shrinks := shrinks_of_same (kernel.table.setDynamicPrio_same t 0)
      have polling : FramesOk kernel (kernel.current cpu) (.joinPoll t :: rest) := by
        apply ok.follow rfl rfl rfl
        intro cleaning
        cases cleaning
      exact invariant.proceed shrinks ((polling.push rfl rfl).proceed shrinks _)
  | joinCleanup t =>
      simp only [Kernel.runFrame, Option.some.injEq] at ran
      subst ran
      exact invariant.cleanup distinctBefore frames

/-- **Every guarded step keeps the invariant**, unless it leaves a task on two
CPUs. -/
theorem LifecycleInvariant.step {next : Kernel Cpu} {action : KernelAction Cpu}
    (invariant : LifecycleInvariant kernel) (allowed : LifecycleGuard kernel action)
    (stepped : kernel.step action = some next) (distinct : Function.Injective next.current) :
    LifecycleInvariant next := by
  cases action with
  | run cpu =>
      obtain ⟨frame, rest, frames, ran⟩ := Kernel.step_run stepped
      exact invariant.runFrame allowed frames ran distinct
  | tick cpu =>
      have ok := invariant.live _ _ (.inl ⟨cpu, rfl, rfl⟩)
      simp only [Kernel.step, Option.some.injEq] at stepped
      subst stepped
      rcases kernel.table.taskIsrTick_cases (kernel.current cpu) with
        ⟨counts, same⟩ | ⟨reschedules, -, change, changed, pid, state⟩
      · have shrinks := shrinks_of_same same
        simp only [counts, Bool.false_eq_true, if_false]
        exact invariant.proceed shrinks (ok.proceed shrinks _)
      · have shrinks := shrinks_modify kernel.table (kernel.current cpu) change pid
          fun terminated => makeReady_terminated (state.symm.trans terminated)
        simp only [reschedules, if_true, changed]
        exact invariant.proceed shrinks ((ok.push rfl rfl).proceed shrinks _)
  | call cpu call =>
      obtain ⟨frames, stepped⟩ := Kernel.step_call stepped
      have entered (frame : Frame) (noTarget : frame.target = none)
          (linked : frame.unlinked = false) :
          LifecycleInvariant (kernel.proceed cpu kernel.table [frame]) :=
        invariant.proceed (.refl _) ((FramesOk.nil.push noTarget linked).proceed (.refl _) _)
      cases call with
      | taskYield =>
          simp only [Kernel.enter, Option.some.injEq] at stepped
          exact stepped ▸ entered .yield rfl rfl
      | taskReturn =>
          simp only [Kernel.enter, Option.ite_none_right_eq_some, Option.some.injEq] at stepped
          exact stepped.2 ▸ entered .returnEnter rfl rfl
      | taskNew priority =>
          simp only [Kernel.enter, Option.some.injEq] at stepped
          exact stepped ▸ entered (.newCheck priority) rfl rfl
      | taskJoin t =>
          simp only [Kernel.enter, Option.ite_none_right_eq_some, Option.some.injEq] at stepped
          obtain ⟨⟨old, unjoined⟩, rfl⟩ := stepped
          exact invariant.join old unjoined
      | taskDetach t =>
          simp only [Kernel.enter, Option.ite_none_right_eq_some, Option.some.injEq] at stepped
          obtain ⟨-, rfl⟩ := stepped
          have shrinks : Shrinks kernel.table (kernel.table.modify t fun task =>
              { task with joinState := .detached }) := shrinks_modify _ _ _ rfl id
          have ok := invariant.live _ _ (.inl ⟨cpu, rfl, rfl⟩)
          have kept : LifecycleInvariant (kernel.proceed cpu _ (kernel.frames cpu)) :=
            invariant.proceed shrinks (ok.proceed shrinks _)
          simpa only [Kernel.proceed, Function.update_eq_self] using kept

end Steps

end CatchOS.Tasks
