import CatchOS.Utils.RwlockExclusion

/-!
# A readers/writer lock does not deadlock

A thread waits by spinning: on the compare-exchange of a spinlock that is held, or
on the load of `sem_count` while it is zero. A first reader spins on the semaphore
while it holds `mtx`, and every thread that spins on the semaphore holds `sem_mtx`.

Suppose all threads that are not outside spin. Then none of them has taken the
semaphore, so when no reader is counted `sem_count` is one. The census of
`RwlockExclusion` leaves two cases:

* `sem_count` is not zero. No thread spins on its load, so nobody holds `sem_mtx`, so
  nobody spins on `sem_mtx`; so no first reader waits, nobody holds `mtx`, and nobody
  spins on `mtx` either.
* `sem_count` is zero. A reader is counted, and no first reader waits, since a first
  reader that waits leaves the semaphore as it is. So nobody holds `mtx`, and a
  reader that is counted and spins would have to spin on it.

Either way some thread does not spin (`rwlock_no_deadlock`).
-/

set_option autoImplicit false

namespace CatchOS.Utils

open CatchOS.Lib

/-! ## Spinning -/

/-- The compare-exchange fails. -/
def LockPoint.Spins (p : Spinlock) : LockPoint → Prop
  | .compareExchange => p.locked ≠ 0
  | .saveFlags | .cli => False

/-- The compare-exchange on `sem_mtx` fails, or the load of `sem_count` gives zero. -/
def PsemWaitPoint.Spins (lock : Rwlock) : PsemWaitPoint → Prop
  | .lock point => point.Spins lock.semMtx
  | .load => lock.semCount = 0
  | .fetchSub | .unlock _ => False

/-- The next statement of the call is a failed spin. -/
def Place.Spins (lock : Rwlock) : Place → Prop
  | .readAcquire (.lock point) | .readRelease (.lock point) => point.Spins lock.mtx
  | .readAcquire (.wait point) | .writeAcquire (.wait point) => point.Spins lock
  | _ => False

theorem spinlockLock_stays {p : Spinlock} {eflags : Bool} {point : LockPoint} :
    (spinlockLock point p eflags).next = some point ↔ point.Spins p := by
  cases point with
  | saveFlags | cli => simp [spinlockLock, LockPoint.Spins]
  | compareExchange =>
      rw [spinlockLock_compareExchange]
      by_cases free : p.locked = 0
      · simp [LockPoint.Spins, free]
      · simp [LockPoint.Spins, free]

theorem psemWait_stays {lock : Rwlock} {eflags : Bool} {point : PsemWaitPoint} :
    (psemWait point lock eflags).next = some point ↔ point.Spins lock := by
  cases point with
  | lock point =>
      rw [PsemWaitPoint.Spins, ← @spinlockLock_stays _ eflags]
      simp only [psemWait]
      cases (spinlockLock point lock.semMtx eflags).next <;> simp
  | load => by_cases zero : lock.semCount = 0 <;> simp [psemWait, PsemWaitPoint.Spins, zero]
  | fetchSub => simp [psemWait, PsemWaitPoint.Spins]
  | unlock point => cases point <;> simp [psemWait, spinlockUnlock, PsemWaitPoint.Spins]

section Stays

variable {lock : Rwlock} {eflags : Bool}

theorem readAcquire_stays {point : ReadAcquirePoint} :
    (rwlockReadAcquire point lock eflags).next = some point ↔
      (Place.readAcquire point).Spins lock := by
  cases point with
  | saveFlags | cli | increment => simp [rwlockReadAcquire, Place.Spins]
  | test => by_cases first : lock.readerCount = 1 <;> simp [rwlockReadAcquire, Place.Spins, first]
  | lock point =>
      rw [Place.Spins, ← @spinlockLock_stays _ eflags]
      simp only [rwlockReadAcquire]
      cases (spinlockLock point lock.mtx eflags).next <;> simp
  | wait point =>
      rw [Place.Spins, ← @psemWait_stays _ eflags]
      simp only [rwlockReadAcquire]
      cases (psemWait point lock eflags).next <;> simp
  | unlock point => cases point <;> simp [rwlockReadAcquire, spinlockUnlock, Place.Spins]

theorem readRelease_stays {point : ReadReleasePoint} :
    (rwlockReadRelease point lock eflags).next = some point ↔
      (Place.readRelease point).Spins lock := by
  cases point with
  | decrement | signal | sti => simp [rwlockReadRelease, Place.Spins]
  | test => by_cases last : lock.readerCount = 0 <;> simp [rwlockReadRelease, Place.Spins, last]
  | lock point =>
      rw [Place.Spins, ← @spinlockLock_stays _ eflags]
      simp only [rwlockReadRelease]
      cases (spinlockLock point lock.mtx eflags).next <;> simp
  | unlock point => cases point <;> simp [rwlockReadRelease, spinlockUnlock, Place.Spins]

theorem writeAcquire_stays {point : WriteAcquirePoint} :
    (rwlockWriteAcquire point lock eflags).next = some point ↔
      (Place.writeAcquire point).Spins lock := by
  cases point with
  | saveFlags | cli => simp [rwlockWriteAcquire, Place.Spins]
  | wait point =>
      rw [Place.Spins, ← @psemWait_stays _ eflags]
      simp only [rwlockWriteAcquire]
      cases (psemWait point lock eflags).next <;> simp

theorem writeRelease_stays {point : WriteReleasePoint} :
    (rwlockWriteRelease point lock eflags).next = some point ↔
      (Place.writeRelease point).Spins lock := by
  cases point <;> simp [rwlockWriteRelease, Place.Spins]

end Stays

/-- A call continues at the same point, and not where it returns to. -/
theorem getD_map_eq_iff {Point : Type} {inject : Point → Place} {final : Place} {point : Point}
    {next : Option Point} (injective : Function.Injective inject) (outside : final ≠ inject point) :
    (next.map inject).getD final = inject point ↔ next = some point := by
  cases next with
  | none => exact ⟨fun same => absurd same outside, nofun⟩
  | some other =>
      rw [Option.map_some, Option.getD_some, injective.eq_iff, Option.some.injEq]

/-- A statement leaves its thread where it is exactly when it is a failed spin. -/
theorem Place.run_stays {lock after : Rwlock} {eflags eflagsAfter : Bool} {place target : Place}
    (ran : place.run lock eflags = some (after, eflagsAfter, target)) :
    target = place ↔ place.Spins lock := by
  cases place with
  | outside | reading | writing => cases ran
  | readAcquire point =>
      simp only [Place.run, Option.some.injEq, Prod.mk.injEq] at ran
      obtain ⟨-, -, rfl⟩ := ran
      rw [← readAcquire_stays]
      exact getD_map_eq_iff (fun _ _ => Place.readAcquire.inj) Place.noConfusion
  | readRelease point =>
      simp only [Place.run, Option.some.injEq, Prod.mk.injEq] at ran
      obtain ⟨-, -, rfl⟩ := ran
      rw [← readRelease_stays]
      exact getD_map_eq_iff (fun _ _ => Place.readRelease.inj) Place.noConfusion
  | writeAcquire point =>
      simp only [Place.run, Option.some.injEq, Prod.mk.injEq] at ran
      obtain ⟨-, -, rfl⟩ := ran
      rw [← writeAcquire_stays]
      exact getD_map_eq_iff (fun _ _ => Place.writeAcquire.inj) Place.noConfusion
  | writeRelease point =>
      simp only [Place.run, Option.some.injEq, Prod.mk.injEq] at ran
      obtain ⟨-, -, rfl⟩ := ran
      rw [← writeRelease_stays]
      exact getD_map_eq_iff (fun _ _ => Place.writeRelease.inj) Place.noConfusion

/-! ## When every thread spins -/

/-- The thread is outside, or the next statement of its call is a failed spin. -/
def Place.Idle (lock : Rwlock) (place : Place) : Prop := place = .outside ∨ place.Spins lock

/-- What a thread that spins contributes to the census: it may hold `sem_mtx` at a
load of zero, and it may be a first reader that waits. -/
structure Place.IdleRow (lock : Rwlock) (place : Place) : Prop where
  plainMtx : place.row.plainMtx = 0
  writers : place.row.writers = 0
  testers : place.row.testers = 0
  firstOwners : place.row.firstOwners = 0
  releaseTesters : place.row.releaseTesters = 0
  signallers : place.row.signallers = 0
  semMtx : lock.semCount ≠ 0 → place.row.semMtx = 0
  firstWaiters : lock.semCount ≠ 0 → lock.semMtx.locked = 0 → place.row.firstWaiters = 0
  readers : lock.mtx.locked = 0 → place.row.readers = place.row.firstWaiters

theorem Place.Idle.row {lock : Rwlock} {place : Place} (idle : place.Idle lock) :
    place.IdleRow lock := by
  rcases idle with rfl | spins
  · constructor <;> intros <;> rfl
  · cases place with
    | outside | reading | writing | writeRelease => cases spins
    | readAcquire point =>
        rcases point with _ | _ | (_ | _ | _) | _ | _ | ((_ | _ | _) | _ | _ | _) | _ <;>
          simp only [Place.Spins, LockPoint.Spins, PsemWaitPoint.Spins] at spins
        all_goals constructor <;> simp_all [Place.row, PsemWaitPoint.row, PsemWaitPoint.taken,
          Census.nobody]
    | readRelease point =>
        rcases point with (_ | _ | _) | _ | _ | _ | _ | _ <;>
          simp only [Place.Spins, LockPoint.Spins] at spins
        all_goals constructor <;> simp_all [Place.row, Census.nobody]
    | writeAcquire point =>
        rcases point with _ | _ | ((_ | _ | _) | _ | _ | _) <;>
          simp only [Place.Spins, LockPoint.Spins, PsemWaitPoint.Spins] at spins
        all_goals constructor <;> simp_all [Place.row, PsemWaitPoint.row, PsemWaitPoint.taken,
          Census.nobody]

/-- Nothing to spin on: both spinlocks are free and the semaphore is not zero. -/
theorem Place.not_spins {lock : Rwlock} (mtx : lock.mtx.locked = 0)
    (semMtx : lock.semMtx.locked = 0) (sem : lock.semCount ≠ 0) (place : Place) :
    ¬place.Spins lock := by
  have lockPoint (p : Spinlock) (free : p.locked = 0) (point : LockPoint) : ¬point.Spins p := by
    cases point <;> simp [LockPoint.Spins, free]
  have waitPoint (point : PsemWaitPoint) : ¬point.Spins lock := by
    cases point with
    | lock point => exact lockPoint _ semMtx point
    | load => exact sem
    | fetchSub | unlock => exact id
  unfold Place.Spins
  split
  · exact lockPoint _ mtx _
  · exact lockPoint _ mtx _
  · exact waitPoint _
  · exact waitPoint _
  · exact id

section Steps

variable {Thread : Type*}

/-- The step is a failed compare-exchange on a held spinlock, or a load of
`sem_count` that gives zero. -/
def SharedLock.FailedSpin (state : SharedLock Thread) : LockAction Thread → Prop
  | .enter _ _ => False
  | .run thread => (state.place thread).Spins state.lock

/-- The thread that takes a step. -/
def LockAction.thread : LockAction Thread → Thread
  | .enter thread _ => thread
  | .run thread => thread

/-- A thread that is not outside and does not spin has a step that moves it: the next
statement of its call, or the release from its critical section. -/
theorem SharedLock.exists_step [DecidableEq Thread] {state : SharedLock Thread} {thread : Thread}
    (inside : state.place thread ≠ .outside) (moves : ¬(state.place thread).Spins state.lock) :
    ∃ action next, action.thread = thread ∧ state.step action = some next ∧
      ¬state.FailedSpin action ∧ next.place thread ≠ state.place thread := by
  cases entered : state.place thread with
  | outside => exact absurd entered inside
  | reading =>
      have released : state.step (.enter thread .readRelease) =
          some { state with
            place := Function.update state.place thread (.readRelease (.lock .saveFlags)) } := by
        simp only [SharedLock.step, entered, Place.enter, Option.map_some]
      exact ⟨_, _, rfl, released, id, by simp⟩
  | writing =>
      have released : state.step (.enter thread .writeRelease) =
          some { state with
            place := Function.update state.place thread (.writeRelease .signal) } := by
        simp only [SharedLock.step, entered, Place.enter, Option.map_some]
      exact ⟨_, _, rfl, released, id, by simp⟩
  | readAcquire | readRelease | writeAcquire | writeRelease =>
      cases ran : (state.place thread).run state.lock (state.interruptFlag thread) with
      | none =>
          rw [entered] at ran
          cases ran
      | some result =>
          obtain ⟨lock, eflags, target⟩ := result
          have stepped : state.step (.run thread) =
              some { lock := lock
                     place := Function.update state.place thread target
                     interruptFlag := Function.update state.interruptFlag thread eflags } := by
            simp only [SharedLock.step, ran, Option.map_some]
          refine ⟨_, _, rfl, stepped, moves, ?_⟩
          simp only [Function.update_self]
          rw [← entered]
          exact mt (Place.run_stays ran).mp moves

end Steps

section Progress

variable {Thread : Type*} [Fintype Thread]

/-- When every thread is outside or spins, all of them are outside. -/
theorem LockInvariant.outside_of_idle {state : SharedLock Thread}
    (invariant : LockInvariant state.lock (census state.place))
    (idle : ∀ thread, (state.place thread).Idle state.lock) :
    ∀ thread, state.place thread = .outside := by
  have row (thread : Thread) := (idle thread).row
  have plainMtx : (census state.place).plainMtx = 0 := total_eq_zero fun t => (row t).plainMtx
  have writers : (census state.place).writers = 0 := total_eq_zero fun t => (row t).writers
  have testers : (census state.place).testers = 0 := total_eq_zero fun t => (row t).testers
  have owners : (census state.place).firstOwners = 0 := total_eq_zero fun t => (row t).firstOwners
  have releasers : (census state.place).releaseTesters = 0 :=
    total_eq_zero fun t => (row t).releaseTesters
  have signallers : (census state.place).signallers = 0 :=
    total_eq_zero fun t => (row t).signallers
  -- Of the threads that may hold `mtx`, only first readers that wait are left.
  have mtx : state.lock.mtx.locked = (census state.place).firstWaiters := by
    rw [invariant.mtx, Census.mtx]
    omega
  by_cases sem : state.lock.semCount = 0
  · exfalso
    have noReader := invariant.semNoReader
    have waiters : (census state.place).firstWaiters = 0 := by
      have oneReader := invariant.semOneReader
      have firstReader := invariant.firstReader
      have nonneg := (census_realised state.place).firstWaiters
      omega
    have readers : (census state.place).readers = (census state.place).firstWaiters :=
      Finset.sum_congr rfl fun t _ => (row t).readers (mtx.trans waiters)
    omega
  · have semMtx : state.lock.semMtx.locked = 0 := by
      rw [invariant.semMtx]
      exact total_eq_zero fun t => (row t).semMtx sem
    have waiters : (census state.place).firstWaiters = 0 :=
      total_eq_zero fun t => (row t).firstWaiters sem semMtx
    intro thread
    exact (idle thread).resolve_right (Place.not_spins (mtx.trans waiters) semMtx sem _)

/-- **A readers/writer lock does not deadlock.** In every state of every interleaving
in which some thread is inside an acquire, a release or a critical section, such a
thread has a step that is not a failed spin, and the step moves it on. -/
theorem rwlock_no_deadlock [DecidableEq Thread] {state : SharedLock Thread}
    (reachable : (sharedLockSystem Thread).Reachable state)
    (busy : ∃ thread, state.place thread ≠ .outside) :
    ∃ thread, state.place thread ≠ .outside ∧
      ∃ action next, action.thread = thread ∧ state.step action = some next ∧
        ¬state.FailedSpin action ∧ next.place thread ≠ state.place thread := by
  have invariant := LockInvariant.of_reachable reachable
  by_contra stuck
  have idle : ∀ thread, (state.place thread).Idle state.lock := by
    intro thread
    by_contra active
    obtain ⟨inside, moves⟩ := not_or.mp active
    exact stuck ⟨thread, inside, SharedLock.exists_step inside moves⟩
  obtain ⟨thread, inside⟩ := busy
  exact inside (invariant.outside_of_idle idle thread)

end Progress

/-- While a writer is in its critical section, a first reader that holds `mtx` spins on
the semaphore; the writer is the thread that can move. -/
theorem rwlock_no_deadlock_first_reader : ∃ state : SharedLock (Fin 2),
    (sharedLockSystem (Fin 2)).Reachable state ∧
    state.place 0 = .writing ∧ (state.place 1).Spins state.lock ∧
    ∃ thread, state.place thread ≠ .outside ∧
      ∃ action next, action.thread = thread ∧ state.step action = some next ∧
        ¬state.FailedSpin action ∧ next.place thread ≠ state.place thread := by
  let start : SharedLock (Fin 2) := ⟨rwlockInit, fun _ => .outside, fun _ => true⟩
  let writer := .enter 0 .writeAcquire :: List.replicate 9 (LockAction.run (0 : Fin 2))
  let reader := .enter 1 .readAcquire :: List.replicate 10 (LockAction.run (1 : Fin 2))
  have initial : (sharedLockSystem (Fin 2)).initial start := ⟨rfl, fun _ => rfl⟩
  obtain ⟨state, reachable, tested⟩ := System.exists_reachableUnder_of_replay
    (sharedLockSystem (Fin 2)) (fun _ _ => True) initial (writer ++ reader)
    (fun state => state.place 0 = .writing ∧ state.place 1 = .readAcquire (.wait .load) ∧
      state.lock.semCount = 0) (by decide)
  obtain ⟨writing, waiting, zero⟩ := of_decide_eq_true tested
  refine ⟨state, reachable, writing, ?_, rwlock_no_deadlock reachable ⟨0, ?_⟩⟩
  · rw [waiting]
    exact zero
  · rw [writing]
    exact nofun

end CatchOS.Utils
