import Mathlib.Algebra.GroupWithZero.Nat
import Mathlib.Data.List.Basic

/-!
# Weighted rounds

A system that shows one job at each tick and goes through the jobs of a list again and
again, each for as many ticks in a row as its weight. The state of the system is hidden
behind a relation that says where it is: which job it shows, for how many more ticks,
and which jobs are left in the round (`Rotates`). From what one tick does to the
relation follows what is shown over any number of rounds (`Rotates.rounds`), and how
often each job (`count_rounds`).
-/

set_option autoImplicit false

namespace CatchOS.Lib

universe u v

variable {State : Type u} {Job : Type v}

/-- The jobs that are shown in `n` ticks, and the state after them. -/
def observe (tick : State → Option State) (shown : State → Job) :
    ℕ → State → Option (List Job × State)
  | 0, state => some ([], state)
  | n + 1, state =>
      (tick state).bind fun next =>
        (observe tick shown n next).map fun seen => (shown state :: seen.1, seen.2)

/-- The jobs of a round, tick by tick. -/
def roundOf (weight : Job → ℕ) (order : List Job) : List Job :=
  order.flatMap fun job => List.replicate (weight job) job

/-- What a tick does: it takes one from the ticks that are left of a job, or the next
job of the round follows, or the round begins again with the first job. -/
structure Rotates (tick : State → Option State) (shown : State → Job) (weight : Job → ℕ)
    (first : Job) (others : List Job) (At : State → Job → ℕ → List Job → Prop) : Prop where
  shows : ∀ {state job left rest}, At state job left rest → shown state = job
  count : ∀ {state job left rest}, At state job (left + 2) rest →
    ∃ next, tick state = some next ∧ At next job (left + 1) rest
  turn : ∀ {state job next rest}, At state job 1 (next :: rest) →
    ∃ after, tick state = some after ∧ At after next (weight next) rest
  wrap : ∀ {state job}, At state job 1 [] →
    ∃ after, tick state = some after ∧ At after first (weight first) others
  positive : ∀ job ∈ first :: others, 1 ≤ weight job

variable {tick : State → Option State} {shown : State → Job} {weight : Job → ℕ}

theorem observe_add {m n : ℕ} {state middle last : State} {before after : List Job}
    (first : observe tick shown m state = some (before, middle))
    (second : observe tick shown n middle = some (after, last)) :
    observe tick shown (m + n) state = some (before ++ after, last) := by
  induction m generalizing state before with
  | zero =>
      rw [observe, Option.some_inj, Prod.mk.injEq] at first
      obtain ⟨rfl, rfl⟩ := first
      rwa [Nat.zero_add, List.nil_append]
  | succ m ih =>
      rw [observe, Option.bind_eq_some_iff] at first
      obtain ⟨next, ticked, seen⟩ := first
      obtain ⟨⟨jobs, end_⟩, observed, same⟩ := Option.map_eq_some_iff.mp seen
      rw [Prod.mk.injEq] at same
      obtain ⟨rfl, rfl⟩ := same
      rw [Nat.add_right_comm, observe, ticked, Option.bind_some, ih observed, Option.map_some]
      rfl

namespace Rotates

variable {first : Job} {others : List Job} {At : State → Job → ℕ → List Job → Prop}

/-- The ticks that are left of a job, with the one that ends them. -/
theorem slice (rotates : Rotates tick shown weight first others At) {job : Job}
    {rest : List Job} {Next : State → Prop}
    (ends : ∀ {last}, At last job 1 rest → ∃ after, tick last = some after ∧ Next after)
    {state : State} {left : ℕ} (isAt : At state job (left + 1) rest) :
    ∃ after, observe tick shown (left + 1) state = some (List.replicate (left + 1) job, after)
      ∧ Next after := by
  induction left generalizing state with
  | zero =>
      obtain ⟨after, ticked, isNext⟩ := ends isAt
      refine ⟨after, ?_, isNext⟩
      rw [observe, ticked, Option.bind_some, rotates.shows isAt]
      rfl
  | succ left ih =>
      obtain ⟨next, ticked, stillAt⟩ := rotates.count isAt
      obtain ⟨after, observed, isNext⟩ := ih stillAt
      refine ⟨after, ?_, isNext⟩
      rw [observe, ticked, Option.bind_some, observed, Option.map_some, rotates.shows isAt]
      rfl

/-- The whole slice of a job. -/
theorem whole_slice (rotates : Rotates tick shown weight first others At) {job : Job}
    {rest : List Job} {Next : State → Prop} (positive : 1 ≤ weight job)
    (ends : ∀ {last}, At last job 1 rest → ∃ after, tick last = some after ∧ Next after)
    {state : State} (isAt : At state job (weight job) rest) :
    ∃ after, observe tick shown (weight job) state
        = some (List.replicate (weight job) job, after) ∧ Next after := by
  obtain ⟨left, isLeft⟩ := Nat.exists_eq_add_of_le' positive
  rw [isLeft] at isAt ⊢
  exact rotates.slice ends isAt

/-- The rest of a round, from the first tick of a job on. The induction is over the jobs
that are left. -/
theorem round_rest (rotates : Rotates tick shown weight first others At) {job : Job}
    {rest : List Job} (positive : ∀ other ∈ job :: rest, 1 ≤ weight other) {state : State}
    (isAt : At state job (weight job) rest) :
    ∃ last, observe tick shown ((job :: rest).map weight).sum state
        = some (roundOf weight (job :: rest), last)
      ∧ At last first (weight first) others := by
  induction rest generalizing state job with
  | nil =>
      obtain ⟨last, observed, again⟩ :=
        rotates.whole_slice (positive job List.mem_cons_self) rotates.wrap isAt
      refine ⟨last, ?_, again⟩
      rw [List.map_singleton, List.sum_singleton, observed, roundOf, List.flatMap_singleton]
  | cons next rest ih =>
      obtain ⟨middle, observed, isNext⟩ :=
        rotates.whole_slice (positive job List.mem_cons_self) rotates.turn isAt
      obtain ⟨last, remaining, again⟩ :=
        ih (fun other isOther => positive other (List.mem_cons_of_mem _ isOther)) isNext
      refine ⟨last, ?_, again⟩
      rw [List.map_cons, List.sum_cons, observe_add observed remaining]
      rfl

/-- **Any number of rounds** from the beginning of one. -/
theorem rounds (rotates : Rotates tick shown weight first others At) {state : State}
    (isAt : At state first (weight first) others) (k : ℕ) :
    ∃ last, observe tick shown (k * ((first :: others).map weight).sum) state
        = some ((List.replicate k (roundOf weight (first :: others))).flatten, last)
      ∧ At last first (weight first) others := by
  induction k generalizing state with
  | zero =>
      refine ⟨state, ?_, isAt⟩
      rw [Nat.zero_mul]
      rfl
  | succ k ih =>
      obtain ⟨middle, observed, again⟩ := rotates.round_rest rotates.positive isAt
      obtain ⟨last, remaining, isLast⟩ := ih again
      refine ⟨last, ?_, isLast⟩
      rw [Nat.succ_mul, Nat.add_comm, observe_add observed remaining]
      rfl

end Rotates

/-! ## Counting -/

section Counting

variable [DecidableEq Job]

omit [DecidableEq Job] in
theorem mem_of_mem_roundOf {order : List Job} {job : Job} (shown : job ∈ roundOf weight order) :
    job ∈ order := by
  obtain ⟨other, isOther, again⟩ := List.mem_flatMap.mp shown
  rwa [List.eq_of_mem_replicate again]

theorem count_roundOf {order : List Job} (nodup : order.Nodup) {job : Job}
    (isJob : job ∈ order) : (roundOf weight order).count job = weight job := by
  induction order with
  | nil => cases isJob
  | cons head order ih =>
      obtain ⟨notAgain, distinct⟩ := List.nodup_cons.mp nodup
      change (List.replicate (weight head) head ++ roundOf weight order).count job = _
      rw [List.count_append]
      by_cases same : job = head
      · have absent : (roundOf weight order).count job = 0 := by
          refine List.count_eq_zero.mpr fun shown => notAgain ?_
          exact same ▸ mem_of_mem_roundOf shown
        rw [absent, same, List.count_replicate_self, Nat.add_zero]
      · have absent : (List.replicate (weight head) head).count job = 0 :=
          List.count_eq_zero.mpr fun shown => same (List.eq_of_mem_replicate shown)
        rw [absent, ih distinct ((List.mem_cons.mp isJob).resolve_left same), Nat.zero_add]

/-- Each job is shown as often as its weight says. -/
theorem count_rounds {order : List Job} (nodup : order.Nodup) {job : Job}
    (isJob : job ∈ order) (k : ℕ) :
    (List.replicate k (roundOf weight order)).flatten.count job = k * weight job := by
  rw [List.count_flatten, List.map_replicate, List.sum_replicate_nat, count_roundOf nodup isJob]

end Counting

end CatchOS.Lib
