import Mathlib.Logic.Function.Basic

/-!
# Workers that choose jobs

Workers run jobs, one each. Jobs that may be run next stand in slots. A worker
that wants another job chooses a slot that holds an available one, later claims
the job, which makes it unavailable, and later takes it over. Between these steps
the other workers do the same.

A worker can be wrong in what it has chosen when it claims it, unless the slot was
chosen by nobody else and its job was run by nobody else when it was chosen
(`Event.choose`). With that, no job is run by two workers, and what is claimed is
in its slot and available (`Safe.event`).
-/

set_option autoImplicit false

namespace CatchOS.Lib

/-- What a worker has decided: nothing, to claim the job of a slot, or to take over
the job it has claimed. -/
inductive Choice (Slot : Type*) where
  | none
  | chosen (slot : Slot)
  | claimed (slot : Slot)
  deriving DecidableEq

/-- The slots, the slot each job belongs in, the jobs that may be chosen, and the
job and the decision of each worker. -/
structure Dispatch (Worker Job Slot : Type*) where
  slots : Slot → Option Job
  home : Job → Slot
  available : Job → Bool
  current : Worker → Job
  choice : Worker → Choice Slot

namespace Dispatch

variable {Worker Job Slot : Type*} [DecidableEq Worker] [DecidableEq Job] [DecidableEq Slot]

/-- What a worker does. It changes the availability of its own job, or empties the
slot of its own job, only while it has decided nothing. -/
inductive Event (worker : Worker) (before : Dispatch Worker Job Slot) :
    Dispatch Worker Job Slot → Prop where
  | rest : Event worker before before
  | own (available : Bool) : before.choice worker = .none →
      Event worker before { before with
        available := Function.update before.available (before.current worker) available }
  | vacate : before.choice worker = .none →
      Event worker before { before with
        slots := Function.update before.slots (before.home (before.current worker)) none }
  | choose {slot : Slot} {job : Job} : before.choice worker = .none →
      before.slots slot = some job → before.available job = true →
      (∀ other, other ≠ worker → before.current other ≠ job) →
      (∀ other, other ≠ worker → before.choice other ≠ .chosen slot) →
      Event worker before { before with
        choice := Function.update before.choice worker (.chosen slot) }
  | claim {slot : Slot} {job : Job} : before.choice worker = .chosen slot →
      before.slots slot = some job →
      Event worker before { before with
        available := Function.update before.available job false
        choice := Function.update before.choice worker (.claimed slot) }
  | take {slot : Slot} {job : Job} : before.choice worker = .claimed slot →
      before.slots slot = some job →
      Event worker before { before with
        current := Function.update before.current worker job
        choice := Function.update before.choice worker .none }

/-- No job is run by two workers, and what a worker has chosen or claimed is for
this worker alone. -/
structure Safe (dispatch : Dispatch Worker Job Slot) : Prop where
  distinct : Function.Injective dispatch.current
  home : ∀ slot job, dispatch.slots slot = some job → dispatch.home job = slot
  /-- The job of a slot is the only one that is run and belongs there. -/
  owner : ∀ slot job worker, dispatch.slots slot = some job →
    dispatch.home (dispatch.current worker) = slot → dispatch.current worker = job
  chosen : ∀ worker slot, dispatch.choice worker = .chosen slot →
    ∃ job, dispatch.slots slot = some job ∧ dispatch.available job = true ∧
      ∀ other, other ≠ worker →
        dispatch.current other ≠ job ∧ dispatch.choice other ≠ .chosen slot
  claimed : ∀ worker slot, dispatch.choice worker = .claimed slot →
    ∃ job, dispatch.slots slot = some job ∧ dispatch.available job = false ∧
      ∀ other, other ≠ worker →
        dispatch.current other ≠ job ∧ dispatch.choice other ≠ .claimed slot

namespace Safe

variable {before : Dispatch Worker Job Slot} {worker : Worker}

omit [DecidableEq Worker] [DecidableEq Slot] in
/-- A worker that has decided nothing changes the availability of its own job. -/
theorem own (safe : Safe before) (undecided : before.choice worker = .none) (available : Bool) :
    Safe { before with
      available := Function.update before.available (before.current worker) available } := by
  have different {other : Worker} {slot : Slot}
      (decides : before.choice other = .chosen slot ∨ before.choice other = .claimed slot) :
      worker ≠ other := by
    rintro rfl
    rw [undecided] at decides
    simp at decides
  refine ⟨safe.distinct, safe.home, safe.owner, fun other slot chosen => ?_,
    fun other slot claimed => ?_⟩
  · obtain ⟨job, held, free, alone⟩ := safe.chosen other slot chosen
    refine ⟨job, held, ?_, alone⟩
    have notMine := (alone worker (different (.inl chosen))).1
    exact (Function.update_of_ne notMine.symm _ _).trans free
  · obtain ⟨job, held, taken, alone⟩ := safe.claimed other slot claimed
    refine ⟨job, held, ?_, alone⟩
    have notMine := (alone worker (different (.inr claimed))).1
    exact (Function.update_of_ne notMine.symm _ _).trans taken

omit [DecidableEq Worker] [DecidableEq Job] in
/-- A worker that has decided nothing empties the slot of its own job: no other
worker has decided on that slot, because its own job would be the one there. -/
theorem vacate (safe : Safe before) (undecided : before.choice worker = .none) :
    Safe { before with
      slots := Function.update before.slots (before.home (before.current worker)) none } := by
  have kept {slot : Slot} {job : Job}
      (held : Function.update before.slots (before.home (before.current worker)) none slot =
        some job) : before.slots slot = some job := by
    by_cases same : slot = before.home (before.current worker)
    · simp [same] at held
    · rwa [Function.update_of_ne same] at held
  have still {other : Worker} {slot : Slot} {job : Job} (held : before.slots slot = some job)
      (decides : before.choice other ≠ .none)
      (alone : ∀ another, another ≠ other → before.current another ≠ job) :
      Function.update before.slots (before.home (before.current worker)) none slot = some job := by
    have different : worker ≠ other := by
      rintro rfl
      exact decides undecided
    rw [Function.update_of_ne, held]
    intro same
    exact alone worker different (safe.owner slot job worker held same.symm)
  refine ⟨safe.distinct, fun slot job held => safe.home slot job (kept held),
    fun slot job other held => safe.owner slot job other (kept held), fun other slot chosen => ?_,
    fun other slot claimed => ?_⟩
  · obtain ⟨job, held, free, alone⟩ := safe.chosen other slot chosen
    refine ⟨job, still held ?_ fun another different => (alone another different).1, free, alone⟩
    exact fun none => nomatch none.symm.trans chosen
  · obtain ⟨job, held, taken, alone⟩ := safe.claimed other slot claimed
    refine ⟨job, still held ?_ fun another different => (alone another different).1, taken, alone⟩
    exact fun none => nomatch none.symm.trans claimed

omit [DecidableEq Job] [DecidableEq Slot] in
/-- A worker chooses a slot that nobody else has chosen, with a job that nobody
else runs. -/
theorem choose (safe : Safe before) {slot : Slot} {job : Job} (held : before.slots slot = some job)
    (free : before.available job = true)
    (alone : ∀ other, other ≠ worker → before.current other ≠ job)
    (unchosen : ∀ other, other ≠ worker → before.choice other ≠ .chosen slot) :
    Safe { before with choice := Function.update before.choice worker (.chosen slot) } := by
  refine ⟨safe.distinct, safe.home, safe.owner, fun other slot' chosen => ?_,
    fun other slot' claimed => ?_⟩
  · by_cases same : other = worker
    · subst same
      have here : slot = slot' := by simpa using chosen
      subst here
      refine ⟨job, held, free, fun another different => ⟨alone another different, ?_⟩⟩
      exact fun its => unchosen another different
        ((Function.update_of_ne different _ _).symm.trans its)
    · have before' : before.choice other = .chosen slot' :=
        (Function.update_of_ne same _ _).symm.trans chosen
      obtain ⟨job', held', free', alone'⟩ := safe.chosen other slot' before'
      refine ⟨job', held', free', fun another different => ⟨(alone' another different).1, ?_⟩⟩
      intro its
      by_cases mine : another = worker
      · subst mine
        have here : slot = slot' := by simpa using its
        subst here
        exact unchosen other same before'
      · exact (alone' another different).2 ((Function.update_of_ne mine _ _).symm.trans its)
  · have different : other ≠ worker := by
      rintro rfl
      simp at claimed
    obtain ⟨job', held', taken, alone'⟩ := safe.claimed other slot'
      ((Function.update_of_ne different _ _).symm.trans claimed)
    refine ⟨job', held', taken, fun another unlike => ⟨(alone' another unlike).1, ?_⟩⟩
    intro its
    by_cases mine : another = worker
    · subst mine
      simp at its
    · exact (alone' another unlike).2 ((Function.update_of_ne mine _ _).symm.trans its)

omit [DecidableEq Slot] in
/-- A worker claims the job it has chosen. -/
theorem claim (safe : Safe before) {slot : Slot} {job : Job}
    (chosen : before.choice worker = .chosen slot) (held : before.slots slot = some job) :
    Safe { before with
      available := Function.update before.available job false
      choice := Function.update before.choice worker (.claimed slot) } := by
  obtain ⟨itsJob, itsHeld, free, alone⟩ := safe.chosen worker slot chosen
  obtain rfl : job = itsJob := Option.some.inj (held.symm.trans itsHeld)
  refine ⟨safe.distinct, safe.home, safe.owner, fun other slot' itsChosen => ?_,
    fun other slot' itsClaimed => ?_⟩
  · have different : other ≠ worker := by
      rintro rfl
      simp at itsChosen
    have chosenBefore := (Function.update_of_ne different _ _).symm.trans itsChosen
    obtain ⟨job', held', free', alone'⟩ := safe.chosen other slot' chosenBefore
    have unlike : job' ≠ job := by
      rintro rfl
      have here : slot' = slot := (safe.home slot' job' held').symm.trans (safe.home slot job' held)
      exact (alone other different).2 (here ▸ chosenBefore)
    refine ⟨job', held', (Function.update_of_ne unlike _ _).trans free',
      fun another apart => ⟨(alone' another apart).1, ?_⟩⟩
    intro its
    by_cases mine : another = worker
    · subst mine
      simp at its
    · exact (alone' another apart).2 ((Function.update_of_ne mine _ _).symm.trans its)
  · by_cases same : other = worker
    · subst same
      have here : slot = slot' := by simpa using itsClaimed
      subst here
      refine ⟨job, held, Function.update_self _ _ _,
        fun another different => ⟨(alone another different).1, ?_⟩⟩
      intro its
      -- Another claim of this slot would have made its job unavailable before.
      obtain ⟨job', held', taken, -⟩ := safe.claimed another slot
        ((Function.update_of_ne different _ _).symm.trans its)
      obtain rfl : job = job' := Option.some.inj (held.symm.trans held')
      rw [free] at taken
      cases taken
    · obtain ⟨job', held', taken, alone'⟩ := safe.claimed other slot'
        ((Function.update_of_ne same _ _).symm.trans itsClaimed)
      refine ⟨job', held', ?_, fun another apart => ⟨(alone' another apart).1, ?_⟩⟩
      · by_cases claimedNow : job' = job
        · rw [claimedNow]
          exact Function.update_self _ _ _
        · exact (Function.update_of_ne claimedNow _ _).trans taken
      · intro its
        by_cases mine : another = worker
        · subst mine
          have here : slot = slot' := by simpa using its
          subst here
          obtain rfl : job = job' := Option.some.inj (held.symm.trans held')
          rw [free] at taken
          cases taken
        · exact (alone' another apart).2 ((Function.update_of_ne mine _ _).symm.trans its)

omit [DecidableEq Job] [DecidableEq Slot] in
/-- A worker takes over the job it has claimed. -/
theorem take (safe : Safe before) {slot : Slot} {job : Job}
    (claimed : before.choice worker = .claimed slot) (held : before.slots slot = some job) :
    Safe { before with
      current := Function.update before.current worker job
      choice := Function.update before.choice worker .none } := by
  obtain ⟨itsJob, itsHeld, taken, alone⟩ := safe.claimed worker slot claimed
  obtain rfl : job = itsJob := Option.some.inj (held.symm.trans itsHeld)
  have others {other : Worker} (different : other ≠ worker) :
      Function.update before.current worker job other = before.current other :=
    Function.update_of_ne different _ _
  have decides {other : Worker} (choice : Choice Slot) (decided : choice ≠ .none)
      (its : Function.update before.choice worker .none other = choice) :
      other ≠ worker ∧ before.choice other = choice := by
    by_cases same : other = worker
    · rw [same, Function.update_self] at its
      exact absurd its.symm decided
    · rw [Function.update_of_ne same] at its
      exact ⟨same, its⟩
  refine ⟨fun first second same => ?_, safe.home, fun slot' job' other held' home => ?_,
    fun other slot' itsChosen => ?_, fun other slot' itsClaimed => ?_⟩
  · by_cases one : first = worker <;> by_cases two : second = worker
    · rw [one, two]
    · subst one
      simp only [Function.update_self, others two] at same
      exact absurd same.symm (alone second two).1
    · subst two
      simp only [Function.update_self, others one] at same
      exact absurd same (alone first one).1
    · simp only [others one, others two] at same
      exact safe.distinct same
  · by_cases same : other = worker
    · subst same
      simp only [Function.update_self] at home ⊢
      obtain rfl : slot = slot' := (safe.home slot job held).symm.trans home
      exact Option.some.inj (held.symm.trans held')
    · simp only [others same] at home ⊢
      exact safe.owner slot' job' other held' home
  · obtain ⟨different, before'⟩ := decides (.chosen slot') nofun itsChosen
    obtain ⟨job', held', free, alone'⟩ := safe.chosen other slot' before'
    refine ⟨job', held', free, fun another apart => ⟨?_, ?_⟩⟩
    · by_cases mine : another = worker
      · subst mine
        simp only [Function.update_self]
        rintro rfl
        rw [taken] at free
        cases free
      · simp only [others mine]
        exact (alone' another apart).1
    · exact fun its => (alone' another apart).2 (decides (.chosen slot') nofun its).2
  · obtain ⟨different, before'⟩ := decides (.claimed slot') nofun itsClaimed
    obtain ⟨job', held', taken', alone'⟩ := safe.claimed other slot' before'
    refine ⟨job', held', taken', fun another apart => ⟨?_, ?_⟩⟩
    · by_cases mine : another = worker
      · subst mine
        simp only [Function.update_self]
        rintro rfl
        have here : slot' = slot := (safe.home slot' job held').symm.trans (safe.home slot job held)
        exact (alone other different).2 (here ▸ before')
      · simp only [others mine]
        exact (alone' another apart).1
    · exact fun its => (alone' another apart).2 (decides (.claimed slot') nofun its).2

/-- **Every event is safe.** -/
theorem event {after : Dispatch Worker Job Slot} (safe : Safe before)
    (event : Event worker before after) : Safe after := by
  cases event with
  | rest => exact safe
  | own available undecided => exact safe.own undecided available
  | vacate undecided => exact safe.vacate undecided
  | choose _ held free alone unchosen => exact safe.choose held free alone unchosen
  | claim chosen held => exact safe.claim chosen held
  | take claimed held => exact safe.take claimed held

end Safe

end Dispatch

end CatchOS.Lib
