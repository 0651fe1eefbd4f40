import CatchOS.Lib.Counting
import CatchOS.Lib.Transition
import CatchOS.Utils.Rwlock

/-!
# Exclusion by a readers/writer lock

Any number of threads share one lock that `rwlock_init` has set up. A thread
that is outside may call an acquire, and a thread that has acquired may call the
matching release; every other step is the next statement of the call a thread
is in. The steps of the threads come in any order.

A thread that acquires a second time before it releases takes only steps that
two threads can take between them, so threads that hold the lock once cover
that case.

The lock is described by a census of the places the threads are in:

* `mtx` and `sem_mtx` are held by exactly the threads that are between their
  compare-exchange and their store;
* `reader_count` is the number of threads between the increment and the
  decrement;
* `sem_count` is one less the writers and less one for the readers as a group.
  The group owns the semaphore from the first reader's `_psem_wait` to the last
  reader's `_psem_signal` (`Census.group`).

The census only changes at the place of the thread that moves, so each
statement is checked once (`LockInvariant.run`).
-/

set_option autoImplicit false

namespace CatchOS.Utils

open CatchOS.Lib

/-! ## Threads on one lock -/

/-- Where a thread is: outside, in one of the four functions, or in its critical
section. -/
inductive Place where
  | outside
  | readAcquire (point : ReadAcquirePoint)
  | reading
  | readRelease (point : ReadReleasePoint)
  | writeAcquire (point : WriteAcquirePoint)
  | writing
  | writeRelease (point : WriteReleasePoint)
  deriving DecidableEq

/-- The four operations of the lock. -/
inductive RwlockCall where
  | readAcquire
  | readRelease
  | writeAcquire
  | writeRelease
  deriving DecidableEq

/-- Where a call starts. A thread releases only what it acquired. -/
def Place.enter : Place → RwlockCall → Option Place
  | .outside, .readAcquire => some (.readAcquire .saveFlags)
  | .outside, .writeAcquire => some (.writeAcquire .saveFlags)
  | .reading, .readRelease => some (.readRelease (.lock .saveFlags))
  | .writing, .writeRelease => some (.writeRelease .signal)
  | _, _ => none

/-- The next statement of the call a thread is in: the lock, the interrupt flag
and the place afterwards. -/
def Place.run (lock : Rwlock) (eflags : Bool) : Place → Option (Rwlock × Bool × Place)
  | .readAcquire point =>
      let call := rwlockReadAcquire point lock eflags
      some (call.lock, call.interruptFlag, (call.next.map .readAcquire).getD .reading)
  | .readRelease point =>
      let call := rwlockReadRelease point lock eflags
      some (call.lock, call.interruptFlag, (call.next.map .readRelease).getD .outside)
  | .writeAcquire point =>
      let call := rwlockWriteAcquire point lock eflags
      some (call.lock, call.interruptFlag, (call.next.map .writeAcquire).getD .writing)
  | .writeRelease point =>
      let call := rwlockWriteRelease point lock eflags
      some (call.lock, call.interruptFlag, (call.next.map .writeRelease).getD .outside)
  | .outside | .reading | .writing => none

/-- One lock, and for each thread its place and the interrupt flag of the CPU it
runs on. -/
structure SharedLock (Thread : Type*) where
  lock : Rwlock
  place : Thread → Place
  interruptFlag : Thread → Bool

/-- A thread calls an operation, or executes the next statement of its call. -/
inductive LockAction (Thread : Type*) where
  | enter (thread : Thread) (call : RwlockCall)
  | run (thread : Thread)

section Threads

variable {Thread : Type*} [DecidableEq Thread]

def SharedLock.step (state : SharedLock Thread) : LockAction Thread → Option (SharedLock Thread)
  | .enter thread call =>
      ((state.place thread).enter call).map fun place =>
        { state with place := Function.update state.place thread place }
  | .run thread =>
      ((state.place thread).run state.lock (state.interruptFlag thread)).map fun
        | (lock, eflags, place) =>
            { lock := lock
              place := Function.update state.place thread place
              interruptFlag := Function.update state.interruptFlag thread eflags }

/-- All threads are outside a lock that was just initialised. -/
def sharedLockSystem (Thread : Type*) [DecidableEq Thread] :
    System (SharedLock Thread) (LockAction Thread) where
  initial state := state.lock = rwlockInit ∧ ∀ thread, state.place thread = .outside
  step := SharedLock.step

end Threads

/-! ## The census -/

/-- How many threads are at each kind of place. -/
structure Census where
  /-- Threads that hold `mtx` and are not counted by one of the fields below. -/
  plainMtx : ℤ
  /-- Threads that hold `sem_mtx`. -/
  semMtx : ℤ
  /-- Threads that are counted in `reader_count`. -/
  readers : ℤ
  /-- Threads that have taken the semaphore as a writer. -/
  writers : ℤ
  /-- Threads that have counted themselves and not yet tested whether they are
  the first reader. -/
  testers : ℤ
  /-- First readers that wait for the semaphore. -/
  firstWaiters : ℤ
  /-- First readers that have taken the semaphore and not yet left `_psem_wait`. -/
  firstOwners : ℤ
  /-- Threads that have taken themselves off the count and not yet tested
  whether they were the last reader. -/
  releaseTesters : ℤ
  /-- Last readers that are about to give the semaphore back. -/
  signallers : ℤ
  /-- Threads that have seen a positive `sem_count` and are about to decrement
  it. -/
  takers : ℤ

namespace Census

def nobody : Census := ⟨0, 0, 0, 0, 0, 0, 0, 0, 0, 0⟩

/-- How many threads hold `mtx`. -/
def mtx (census : Census) : ℤ :=
  census.plainMtx + census.testers + census.firstWaiters + census.firstOwners +
    census.releaseTesters + census.signallers

/-- The census of two groups of threads together. -/
def add (first second : Census) : Census where
  plainMtx := first.plainMtx + second.plainMtx
  semMtx := first.semMtx + second.semMtx
  readers := first.readers + second.readers
  writers := first.writers + second.writers
  testers := first.testers + second.testers
  firstWaiters := first.firstWaiters + second.firstWaiters
  firstOwners := first.firstOwners + second.firstOwners
  releaseTesters := first.releaseTesters + second.releaseTesters
  signallers := first.signallers + second.signallers
  takers := first.takers + second.takers

/-- What holds of the census of any group of threads. -/
structure Realised (census : Census) : Prop where
  plainMtx : 0 ≤ census.plainMtx
  semMtx : 0 ≤ census.semMtx
  readers : 0 ≤ census.readers
  writers : 0 ≤ census.writers
  testers : 0 ≤ census.testers
  firstWaiters : 0 ≤ census.firstWaiters
  firstOwners : 0 ≤ census.firstOwners
  releaseTesters : 0 ≤ census.releaseTesters
  signallers : 0 ≤ census.signallers
  takers : 0 ≤ census.takers
  takersHold : census.takers ≤ census.semMtx
  counted : census.testers + census.firstWaiters + census.firstOwners ≤ census.readers

/-- The threads of the first field are among those that hold `mtx`. -/
theorem Realised.plainMtx_le {census : Census} (realised : census.Realised) :
    census.plainMtx ≤ census.mtx := by
  have ⟨_, _, _, _, _, _, _, _, _, _, _, _⟩ := realised
  unfold mtx
  omega

theorem mtx_add (first second : Census) : (first.add second).mtx = first.mtx + second.mtx := by
  simp only [mtx, add]
  omega

end Census

open Census (nobody)

/-- What a thread in `_psem_wait` contributes, whoever called it. -/
def PsemWaitPoint.row : PsemWaitPoint → Census
  | .load | .unlock .store => { nobody with semMtx := 1 }
  | .fetchSub => { nobody with semMtx := 1, takers := 1 }
  | .lock _ | .unlock .sti => nobody

/-- Whether the semaphore has been taken in `_psem_wait`. -/
def PsemWaitPoint.taken : PsemWaitPoint → ℤ
  | .unlock _ => 1
  | _ => 0

/-- What one thread contributes to the census. -/
def Place.row : Place → Census
  | .readAcquire .increment => { nobody with plainMtx := 1 }
  | .readAcquire .test => { nobody with readers := 1, testers := 1 }
  | .readAcquire (.wait point) =>
      { point.row with readers := 1, firstWaiters := 1 - point.taken, firstOwners := point.taken }
  | .readAcquire (.unlock .store) => { nobody with plainMtx := 1, readers := 1 }
  | .readAcquire (.unlock .sti) | .reading | .readRelease (.lock _) => { nobody with readers := 1 }
  | .readRelease .decrement => { nobody with plainMtx := 1, readers := 1 }
  | .readRelease .test => { nobody with releaseTesters := 1 }
  | .readRelease .signal => { nobody with signallers := 1 }
  | .readRelease (.unlock .store) => { nobody with plainMtx := 1 }
  | .writeAcquire (.wait point) => { point.row with writers := point.taken }
  | .writing | .writeRelease .signal => { nobody with writers := 1 }
  | .outside | .readAcquire _ | .readRelease _ | .writeAcquire _ | .writeRelease _ => nobody

theorem Place.row_realised (place : Place) : place.row.Realised := by
  cases place with
  | outside | reading | writing => constructor <;> decide
  | readAcquire point =>
      rcases point with _ | _ | (_ | _ | _) | _ | _ | ((_ | _ | _) | _ | _ | (_ | _)) | (_ | _) <;>
        constructor <;> decide
  | readRelease point =>
      rcases point with (_ | _ | _) | _ | _ | _ | (_ | _) | _ <;> constructor <;> decide
  | writeAcquire point =>
      rcases point with _ | _ | ((_ | _ | _) | _ | _ | (_ | _)) <;> constructor <;> decide
  | writeRelease point => cases point <;> constructor <;> decide

/-! ## The invariant of the lock -/

/-- **What the lock holds, in terms of the census.** The semaphore is free, or
a writer has it, or the readers have it as a group: from the first reader's
`_psem_wait` on, until the last reader's `_psem_signal`. -/
structure LockInvariant (lock : Rwlock) (census : Census) : Prop where
  mtx : lock.mtx.locked = census.mtx
  mtxOnce : census.mtx ≤ 1
  semMtx : lock.semMtx.locked = census.semMtx
  semMtxOnce : census.semMtx ≤ 1
  readers : lock.readerCount = census.readers
  semNonneg : 0 ≤ lock.semCount
  semNoReader : census.readers = 0 →
    lock.semCount = 1 - census.writers - census.releaseTesters - census.signallers
  semOneReader : census.readers = 1 →
    lock.semCount = census.firstWaiters + census.testers - census.writers
  semManyReaders : 2 ≤ census.readers → lock.semCount = - census.writers
  firstReader : 0 < census.firstWaiters + census.firstOwners → census.readers = 1
  lastReader : 0 < census.signallers → census.readers = 0
  takers : 0 < census.takers → 1 ≤ lock.semCount

namespace LockInvariant

variable {lock : Rwlock} {rest census : Census}

/-- A statement that changes neither the counters of the lock nor the row of the
thread keeps the invariant. -/
theorem of_same {after : Rwlock} (invariant : LockInvariant lock census)
    (mtx : after.mtx.locked = lock.mtx.locked) (semMtx : after.semMtx.locked = lock.semMtx.locked)
    (readers : after.readerCount = lock.readerCount) (sem : after.semCount = lock.semCount) :
    LockInvariant after census where
  mtx := mtx.trans invariant.mtx
  mtxOnce := invariant.mtxOnce
  semMtx := semMtx.trans invariant.semMtx
  semMtxOnce := invariant.semMtxOnce
  readers := readers.trans invariant.readers
  semNonneg := sem ▸ invariant.semNonneg
  semNoReader := fun none => sem.trans (invariant.semNoReader none)
  semOneReader := fun one => sem.trans (invariant.semOneReader one)
  semManyReaders := fun many => sem.trans (invariant.semManyReaders many)
  firstReader := invariant.firstReader
  lastReader := invariant.lastReader
  takers := fun some => sem ▸ invariant.takers some

/-- Taking `mtx` when it is free counts one holder more, and nothing else. -/
theorem takeMtx {row : Census} (invariant : LockInvariant lock (rest.add row))
    (free : lock.mtx.locked = 0) :
    LockInvariant { lock with mtx := { lock.mtx with locked := 1 } }
      (rest.add { row with plainMtx := row.plainMtx + 1 }) := by
  have none := invariant.mtx
  have holders : (rest.add { row with plainMtx := row.plainMtx + 1 }).mtx = 1 := by
    rw [Census.mtx_add] at none ⊢
    unfold Census.mtx at none ⊢
    dsimp only
    omega
  exact { invariant with mtx := holders.symm, mtxOnce := holders.le }

/-- Leaving `mtx`, which nobody else can hold. -/
theorem leaveMtx {row : Census} (invariant : LockInvariant lock (rest.add row))
    (realised : rest.Realised) (own : row.Realised) (holds : row.plainMtx = 1) :
    LockInvariant { lock with mtx := { lock.mtx with locked := 0 } }
      (rest.add { row with plainMtx := 0 }) := by
  have once := invariant.mtxOnce
  have others := realised.plainMtx.trans realised.plainMtx_le
  have one := own.plainMtx_le
  have holders : (rest.add { row with plainMtx := 0 }).mtx = 0 := by
    have less : ({ row with plainMtx := 0 } : Census).mtx = row.mtx - row.plainMtx := by
      unfold Census.mtx
      dsimp only
      omega
    rw [Census.mtx_add] at once
    rw [Census.mtx_add, less]
    omega
  exact { invariant with mtx := holders.symm, mtxOnce := by rw [holders]; decide }

theorem takeSemMtx {row : Census} (invariant : LockInvariant lock (rest.add row))
    (free : lock.semMtx.locked = 0) :
    LockInvariant { lock with semMtx := { lock.semMtx with locked := 1 } }
      (rest.add { row with semMtx := row.semMtx + 1 }) := by
  have none := invariant.semMtx
  have holders : (rest.add { row with semMtx := row.semMtx + 1 }).semMtx = 1 := by
    simp only [Census.add] at none ⊢
    omega
  exact { invariant with semMtx := holders.symm, semMtxOnce := holders.le }

theorem leaveSemMtx {row : Census} (invariant : LockInvariant lock (rest.add row))
    (realised : rest.Realised) (holds : row.semMtx = 1) :
    LockInvariant { lock with semMtx := { lock.semMtx with locked := 0 } }
      (rest.add { row with semMtx := 0 }) := by
  have once := invariant.semMtxOnce
  have others := realised.semMtx
  have holders : (rest.add { row with semMtx := 0 }).semMtx = 0 := by
    simp only [Census.add] at once ⊢
    omega
  exact { invariant with semMtx := holders.symm, semMtxOnce := by rw [holders]; decide }

/-- A caller in `_psem_wait`: the first reader, or a writer. -/
def waiting : Bool → PsemWaitPoint → Place
  | true, point => .readAcquire (.wait point)
  | false, point => .writeAcquire (.wait point)

/-- Where a caller of `_psem_wait` continues. -/
def waited : Bool → Place
  | true => .readAcquire (.unlock .store)
  | false => .writing

/-- The statements of `_psem_wait` keep the invariant, whoever calls it. -/
theorem psemWait (reader eflags : Bool) (realised : rest.Realised) {point : PsemWaitPoint}
    (invariant : LockInvariant lock (rest.add (waiting reader point).row)) :
    LockInvariant (psemWait point lock eflags).lock (rest.add
      (((psemWait point lock eflags).next.map (waiting reader)).getD (waited reader)).row) := by
  have ⟨_, _, _, _, _, _, _, _, _, _, _, _⟩ := realised
  have ⟨_, _, _, _, _, _, _, _, _, _, _, _⟩ := invariant
  rcases point with (_ | _ | _) | _ | _ | (_ | _)
  case lock.saveFlags | lock.cli => cases reader <;> exact invariant.of_same rfl rfl rfl rfl
  case lock.compareExchange =>
    by_cases free : lock.semMtx.locked = 0
    · simp only [Utils.psemWait, spinlockLock_compareExchange, if_pos free]
      cases reader <;> exact invariant.takeSemMtx free
    · simp only [Utils.psemWait, spinlockLock_compareExchange, if_neg free]
      exact invariant.of_same rfl rfl rfl rfl
  case load =>
    by_cases zero : lock.semCount = 0
    · simp only [Utils.psemWait, if_pos zero]
      exact invariant.of_same rfl rfl rfl rfl
    · cases reader <;>
        simp only [Utils.psemWait, if_neg zero, waiting, Census.add, Census.mtx, Place.row,
          PsemWaitPoint.row, PsemWaitPoint.taken, nobody, Option.map, Option.getD] at * <;>
        constructor <;> simp -failIfUnchanged only [Census.mtx] <;> omega
  case fetchSub =>
    cases reader <;>
      simp only [Utils.psemWait, atomicFetchSub, waiting, Census.add, Census.mtx, Place.row,
        PsemWaitPoint.row, PsemWaitPoint.taken, nobody, Option.map, Option.getD] at * <;>
      constructor <;> simp -failIfUnchanged only [Census.mtx] <;> omega
  case unlock.store => cases reader <;> exact invariant.leaveSemMtx realised rfl
  case unlock.sti =>
    cases reader <;>
      simp only [Utils.psemWait, spinlockUnlock, waiting, waited, Census.add, Census.mtx, Place.row,
        PsemWaitPoint.row, PsemWaitPoint.taken, nobody, Option.map, Option.getD] at * <;>
      constructor <;> simp -failIfUnchanged only [Census.mtx] <;> omega

/-- **The statements of `rwlock_read_acquire` keep the invariant.** -/
theorem readAcquire (eflags : Bool) (realised : rest.Realised) {point : ReadAcquirePoint}
    (invariant : LockInvariant lock (rest.add (Place.readAcquire point).row)) :
    LockInvariant (rwlockReadAcquire point lock eflags).lock (rest.add
      (((rwlockReadAcquire point lock eflags).next.map .readAcquire).getD Place.reading).row) := by
  have ⟨_, _, _, _, _, _, _, _, _, _, _, _⟩ := realised
  have ⟨_, _, _, _, _, _, _, _, _, _, _, _⟩ := invariant
  cases point with
  | saveFlags | cli => exact invariant.of_same rfl rfl rfl rfl
  | lock point =>
      cases point with
      | saveFlags | cli => exact invariant.of_same rfl rfl rfl rfl
      | compareExchange =>
          by_cases free : lock.mtx.locked = 0
          · simp only [rwlockReadAcquire, spinlockLock_compareExchange, if_pos free]
            exact invariant.takeMtx free
          · simp only [rwlockReadAcquire, spinlockLock_compareExchange, if_neg free]
            exact invariant.of_same rfl rfl rfl rfl
  | increment =>
      simp only [rwlockReadAcquire, Census.add, Census.mtx, Place.row, nobody, Option.map,
        Option.getD] at *
      constructor <;> simp -failIfUnchanged only [Census.mtx] <;> omega
  | test =>
      by_cases first : lock.readerCount = 1
      · simp only [rwlockReadAcquire, if_pos first, Census.add, Census.mtx, Place.row,
          PsemWaitPoint.row, PsemWaitPoint.taken, nobody, Option.map, Option.getD] at *
        constructor <;> simp -failIfUnchanged only [Census.mtx] <;> omega
      · simp only [rwlockReadAcquire, if_neg first, Census.add, Census.mtx, Place.row, nobody,
          Option.map, Option.getD] at *
        constructor <;> simp -failIfUnchanged only [Census.mtx] <;> omega
  | wait point =>
      have kept := psemWait true eflags realised invariant
      simp only [rwlockReadAcquire]
      cases continues : (Utils.psemWait point lock eflags).next with
      | none => simpa only [continues, Option.map, Option.getD, waited] using kept
      | some next => simpa only [continues, Option.map, Option.getD, waiting] using kept
  | unlock point =>
      cases point with
      | store => exact invariant.leaveMtx realised (Place.row_realised _) rfl
      | sti => exact invariant.of_same rfl rfl rfl rfl

/-- **The statements of `rwlock_read_release` keep the invariant.** -/
theorem readRelease (eflags : Bool) (realised : rest.Realised) {point : ReadReleasePoint}
    (invariant : LockInvariant lock (rest.add (Place.readRelease point).row)) :
    LockInvariant (rwlockReadRelease point lock eflags).lock (rest.add
      (((rwlockReadRelease point lock eflags).next.map .readRelease).getD Place.outside).row) := by
  have ⟨_, _, _, _, _, _, _, _, _, _, _, _⟩ := realised
  have ⟨_, _, _, _, _, _, _, _, _, _, _, _⟩ := invariant
  cases point with
  | lock point =>
      cases point with
      | saveFlags | cli => exact invariant.of_same rfl rfl rfl rfl
      | compareExchange =>
          by_cases free : lock.mtx.locked = 0
          · simp only [rwlockReadRelease, spinlockLock_compareExchange, if_pos free]
            exact invariant.takeMtx free
          · simp only [rwlockReadRelease, spinlockLock_compareExchange, if_neg free]
            exact invariant.of_same rfl rfl rfl rfl
  | decrement =>
      simp only [rwlockReadRelease, Census.add, Census.mtx, Place.row, nobody, Option.map,
        Option.getD] at *
      constructor <;> simp -failIfUnchanged only [Census.mtx] <;> omega
  | test =>
      by_cases last : lock.readerCount = 0
      · simp only [rwlockReadRelease, if_pos last, Census.add, Census.mtx, Place.row, nobody,
          Option.map, Option.getD] at *
        constructor <;> simp -failIfUnchanged only [Census.mtx] <;> omega
      · simp only [rwlockReadRelease, if_neg last, Census.add, Census.mtx, Place.row, nobody,
          Option.map, Option.getD] at *
        constructor <;> simp -failIfUnchanged only [Census.mtx] <;> omega
  | signal =>
      simp only [rwlockReadRelease, psemSignal, atomicFetchAdd, Census.add, Census.mtx, Place.row,
        nobody, Option.map, Option.getD] at *
      constructor <;> simp -failIfUnchanged only [Census.mtx] <;> omega
  | unlock point =>
      cases point with
      | store => exact invariant.leaveMtx realised (Place.row_realised _) rfl
      | sti => exact invariant.of_same rfl rfl rfl rfl
  | sti => exact invariant.of_same rfl rfl rfl rfl

/-- **The statements of `rwlock_write_acquire` keep the invariant.** -/
theorem writeAcquire (eflags : Bool) (realised : rest.Realised) {point : WriteAcquirePoint}
    (invariant : LockInvariant lock (rest.add (Place.writeAcquire point).row)) :
    LockInvariant (rwlockWriteAcquire point lock eflags).lock (rest.add
      (((rwlockWriteAcquire point lock eflags).next.map .writeAcquire).getD
        Place.writing).row) := by
  cases point with
  | saveFlags | cli => exact invariant.of_same rfl rfl rfl rfl
  | wait point =>
      have kept := psemWait false eflags realised invariant
      simp only [rwlockWriteAcquire]
      cases continues : (Utils.psemWait point lock eflags).next with
      | none => simpa only [continues, Option.map, Option.getD, waited] using kept
      | some next => simpa only [continues, Option.map, Option.getD, waiting] using kept

/-- **The statements of `rwlock_write_release` keep the invariant.** -/
theorem writeRelease (eflags : Bool) (realised : rest.Realised) {point : WriteReleasePoint}
    (invariant : LockInvariant lock (rest.add (Place.writeRelease point).row)) :
    LockInvariant (rwlockWriteRelease point lock eflags).lock (rest.add
      (((rwlockWriteRelease point lock eflags).next.map .writeRelease).getD
        Place.outside).row) := by
  have ⟨_, _, _, _, _, _, _, _, _, _, _, _⟩ := realised
  have ⟨_, _, _, _, _, _, _, _, _, _, _, _⟩ := invariant
  cases point with
  | signal =>
      simp only [rwlockWriteRelease, psemSignal, atomicFetchAdd, Census.add, Census.mtx, Place.row,
        nobody, Option.map, Option.getD] at *
      constructor <;> simp -failIfUnchanged only [Census.mtx] <;> omega
  | sti => exact invariant.of_same rfl rfl rfl rfl

end LockInvariant

/-! ## Every run keeps the invariant -/

section Runs

variable {Thread : Type*} [Fintype Thread]

/-- The census of all threads. -/
def census (place : Thread → Place) : Census where
  plainMtx := total (fun place => place.row.plainMtx) place
  semMtx := total (fun place => place.row.semMtx) place
  readers := total (fun place => place.row.readers) place
  writers := total (fun place => place.row.writers) place
  testers := total (fun place => place.row.testers) place
  firstWaiters := total (fun place => place.row.firstWaiters) place
  firstOwners := total (fun place => place.row.firstOwners) place
  releaseTesters := total (fun place => place.row.releaseTesters) place
  signallers := total (fun place => place.row.signallers) place
  takers := total (fun place => place.row.takers) place

/-- The threads other than one: what is left of the census without its row. -/
def census.others (place : Thread → Place) (thread : Thread) : Census where
  plainMtx := (census place).plainMtx - (place thread).row.plainMtx
  semMtx := (census place).semMtx - (place thread).row.semMtx
  readers := (census place).readers - (place thread).row.readers
  writers := (census place).writers - (place thread).row.writers
  testers := (census place).testers - (place thread).row.testers
  firstWaiters := (census place).firstWaiters - (place thread).row.firstWaiters
  firstOwners := (census place).firstOwners - (place thread).row.firstOwners
  releaseTesters := (census place).releaseTesters - (place thread).row.releaseTesters
  signallers := (census place).signallers - (place thread).row.signallers
  takers := (census place).takers - (place thread).row.takers

theorem census_realised (place : Thread → Place) : (census place).Realised where
  plainMtx := total_nonneg (fun place : Place => place.row_realised.plainMtx) place
  semMtx := total_nonneg (fun place : Place => place.row_realised.semMtx) place
  readers := total_nonneg (fun place : Place => place.row_realised.readers) place
  writers := total_nonneg (fun place : Place => place.row_realised.writers) place
  testers := total_nonneg (fun place : Place => place.row_realised.testers) place
  firstWaiters := total_nonneg (fun place : Place => place.row_realised.firstWaiters) place
  firstOwners := total_nonneg (fun place : Place => place.row_realised.firstOwners) place
  releaseTesters := total_nonneg (fun place : Place => place.row_realised.releaseTesters) place
  signallers := total_nonneg (fun place : Place => place.row_realised.signallers) place
  takers := total_nonneg (fun place : Place => place.row_realised.takers) place
  takersHold := total_le_total (fun place : Place => place.row_realised.takersHold) place
  counted := by
    simp only [census, ← total_add]
    exact total_le_total (fun place : Place => place.row_realised.counted) place

theorem census.others_realised (place : Thread → Place) (thread : Thread) :
    (census.others place thread).Realised where
  plainMtx :=
    sub_nonneg.mpr (le_total (fun place : Place => place.row_realised.plainMtx) place thread)
  semMtx := sub_nonneg.mpr (le_total (fun place : Place => place.row_realised.semMtx) place thread)
  readers :=
    sub_nonneg.mpr (le_total (fun place : Place => place.row_realised.readers) place thread)
  writers :=
    sub_nonneg.mpr (le_total (fun place : Place => place.row_realised.writers) place thread)
  testers :=
    sub_nonneg.mpr (le_total (fun place : Place => place.row_realised.testers) place thread)
  firstWaiters :=
    sub_nonneg.mpr (le_total (fun place : Place => place.row_realised.firstWaiters) place thread)
  firstOwners :=
    sub_nonneg.mpr (le_total (fun place : Place => place.row_realised.firstOwners) place thread)
  releaseTesters :=
    sub_nonneg.mpr (le_total (fun place : Place => place.row_realised.releaseTesters) place thread)
  signallers :=
    sub_nonneg.mpr (le_total (fun place : Place => place.row_realised.signallers) place thread)
  takers := sub_nonneg.mpr (le_total (fun place : Place => place.row_realised.takers) place thread)
  takersHold := by
    have gap : (place thread).row.semMtx - (place thread).row.takers ≤
        total (fun place : Place => place.row.semMtx - place.row.takers) place :=
      le_total (fun place : Place => sub_nonneg.mpr place.row_realised.takersHold) place thread
    simp only [total_sub] at gap
    simp only [census.others, census]
    omega
  counted := by
    have gap : (place thread).row.readers - (place thread).row.testers -
          (place thread).row.firstWaiters - (place thread).row.firstOwners ≤
        total (fun place : Place => place.row.readers - place.row.testers -
          place.row.firstWaiters - place.row.firstOwners) place :=
      le_total (fun place : Place => by have := place.row_realised.counted; omega) place thread
    simp only [total_sub] at gap
    simp only [census.others, census]
    omega

/-- The census is the others and the thread's own row. -/
theorem census_eq (place : Thread → Place) (thread : Thread) :
    census place = (census.others place thread).add (place thread).row := by
  simp only [census.others, Census.add, sub_add_cancel]

theorem census_eq_nobody {place : Thread → Place} (empty : ∀ thread, (place thread).row = nobody) :
    census place = nobody := by
  simp only [census, total, empty, nobody, Finset.sum_const_zero]

/-! ### One thread moves -/

section Moves

variable [DecidableEq Thread]

/-- When a thread moves, only its own row is exchanged. -/
theorem census_update (place : Thread → Place) (thread : Thread) (target : Place) :
    census (Function.update place thread target) =
      (census.others place thread).add target.row := by
  simp only [census, census.others, Census.add, total_update]

theorem LockInvariant.run {lock after : Rwlock} {rest : Census} {eflags eflagsAfter : Bool}
    {place target : Place} (realised : rest.Realised)
    (invariant : LockInvariant lock (rest.add place.row))
    (ran : place.run lock eflags = some (after, eflagsAfter, target)) :
    LockInvariant after (rest.add target.row) := by
  cases place with
  | outside | reading | writing => simp only [Place.run, reduceCtorEq] at ran
  | readAcquire point =>
      simp only [Place.run, Option.some.injEq, Prod.mk.injEq] at ran
      obtain ⟨rfl, -, rfl⟩ := ran
      exact invariant.readAcquire eflags realised
  | readRelease point =>
      simp only [Place.run, Option.some.injEq, Prod.mk.injEq] at ran
      obtain ⟨rfl, -, rfl⟩ := ran
      exact invariant.readRelease eflags realised
  | writeAcquire point =>
      simp only [Place.run, Option.some.injEq, Prod.mk.injEq] at ran
      obtain ⟨rfl, -, rfl⟩ := ran
      exact invariant.writeAcquire eflags realised
  | writeRelease point =>
      simp only [Place.run, Option.some.injEq, Prod.mk.injEq] at ran
      obtain ⟨rfl, -, rfl⟩ := ran
      exact invariant.writeRelease eflags realised

/-- A call starts at a place with the row of the place it is made from. -/
theorem Place.enter_row {place target : Place} {call : RwlockCall}
    (entered : place.enter call = some target) : target.row = place.row := by
  cases place <;> cases call <;> simp only [Place.enter, Option.some.injEq, reduceCtorEq] at entered
  all_goals subst entered; rfl

theorem LockInvariant.step {state next : SharedLock Thread} {action : LockAction Thread}
    (invariant : LockInvariant state.lock (census state.place))
    (stepped : state.step action = some next) :
    LockInvariant next.lock (census next.place) := by
  cases action with
  | enter thread call =>
      simp only [SharedLock.step, Option.map_eq_some_iff] at stepped
      obtain ⟨target, entered, rfl⟩ := stepped
      rw [census_update, Place.enter_row entered, ← census_eq]
      exact invariant
  | run thread =>
      simp only [SharedLock.step, Option.map_eq_some_iff] at stepped
      obtain ⟨⟨lock, eflags, target⟩, ran, rfl⟩ := stepped
      rw [census_eq _ thread] at invariant
      simp only [census_update]
      exact invariant.run (census.others_realised _ _) ran

/-- The invariant holds in every state of every run. -/
theorem LockInvariant.of_reachable {state : SharedLock Thread}
    (reachable : (sharedLockSystem Thread).Reachable state) :
    LockInvariant state.lock (census state.place) := by
  refine reachable.invariant (fun state => LockInvariant state.lock (census state.place))
    ?_ fun invariant _ stepped => invariant.step stepped
  rintro state ⟨initialised, outside⟩
  rw [initialised, census_eq_nobody fun thread => by rw [outside thread]; rfl]
  constructor <;> decide

end Moves

/-! ### What the invariant says about critical sections -/

/-- The semaphore is never above one, and never taken twice. -/
theorem LockInvariant.sem_bounds {state : SharedLock Thread}
    (invariant : LockInvariant state.lock (census state.place)) :
    state.lock.semCount ≤ 1 ∧ (census state.place).writers ≤ 1 := by
  have ⟨_, _, _, _, _, _, _, _, _, _, _, _⟩ := census_realised state.place
  have ⟨_, _, _, _, _, _, _, _, _, _, _, _⟩ := invariant
  simp only [Census.mtx] at *
  omega

/-- A reader in its critical section keeps every writer out: the readers own
the semaphore. -/
theorem LockInvariant.no_writer {state : SharedLock Thread}
    (invariant : LockInvariant state.lock (census state.place)) {reader : Thread}
    (reading : state.place reader = .reading) : (census state.place).writers = 0 := by
  have ⟨_, _, _, _, _, _, _, _, _, _, _, _⟩ := census.others_realised state.place reader
  have ⟨_, _, _, _, _, _, _, _, _, _, _, _⟩ := invariant
  rw [census_eq _ reader, reading] at *
  simp only [Census.add, Place.row, nobody, Census.mtx] at *
  -- A first reader that still waits would be the only one counted.
  omega

/-- The threads that are counted are at most all threads, so the 32-bit counter
does not overflow while there are fewer than `2 ^ 31` threads. -/
theorem LockInvariant.readerCount_le {state : SharedLock Thread}
    (invariant : LockInvariant state.lock (census state.place)) :
    state.lock.readerCount ≤ Fintype.card Thread := by
  rw [invariant.readers]
  have row (place : Place) : place.row.readers ≤ 1 := by
    unfold Place.row
    split <;> simp [nobody, PsemWaitPoint.row]
    split <;> decide
  exact total_le_card row state.place

/-- **Readers/writer exclusion.** In every state of every interleaving, at most
one writer is in its critical section and then no reader is; the semaphore is
zero or one and the reader count is not negative; and when all threads are
outside, the lock is as `rwlock_init` left it. -/
theorem rwlock_exclusion [DecidableEq Thread] {state : SharedLock Thread}
    (reachable : (sharedLockSystem Thread).Reachable state) :
    (∀ first second, state.place first = .writing → state.place second = .writing →
      first = second) ∧
    (∀ reader writer, state.place reader = .reading → state.place writer ≠ .writing) ∧
    (state.lock.semCount = 0 ∨ state.lock.semCount = 1) ∧
    0 ≤ state.lock.readerCount ∧
    ((∀ thread, state.place thread = .outside) →
      state.lock.semCount = 1 ∧ state.lock.readerCount = 0) := by
  have invariant := LockInvariant.of_reachable reachable
  have writerRow (thread : Thread) (writing : state.place thread = .writing) :
      (state.place thread).row.writers = 1 := by rw [writing]; rfl
  refine ⟨?_, ?_, ?_, ?_, ?_⟩
  · intro first second atFirst atSecond
    exact eq_of_total_le_one (fun place : Place => place.row_realised.writers)
      invariant.sem_bounds.2
      (writerRow first atFirst) (writerRow second atSecond)
  · intro reader writer reading writing
    have counted := le_total (fun place : Place => place.row_realised.writers) state.place writer
    rw [writerRow writer writing] at counted
    have none := invariant.no_writer reading
    simp only [census] at none
    omega
  · have nonneg := invariant.semNonneg
    have bound := invariant.sem_bounds.1
    omega
  · rw [invariant.readers]
    exact total_nonneg (fun place : Place => place.row_realised.readers) state.place
  · intro outside
    rw [census_eq_nobody fun thread => by rw [outside thread]; rfl] at invariant
    exact ⟨invariant.semNoReader rfl, invariant.readers⟩

/-- A reader is in its critical section while a writer spins on the semaphore,
and the writer is not in its own. -/
theorem rwlock_exclusion_spinning_writer : ∃ state : SharedLock (Fin 2),
    (sharedLockSystem (Fin 2)).Reachable state ∧
    state.place 1 = .writeAcquire (.wait .load) ∧
    state.place 0 = .reading ∧ (∀ writer, state.place writer ≠ .writing) := by
  let start : SharedLock (Fin 2) := ⟨rwlockInit, fun _ => .outside, fun _ => true⟩
  let reader := .enter 0 .readAcquire :: List.replicate 16 (LockAction.run (0 : Fin 2))
  let writer := .enter 1 .writeAcquire :: List.replicate 6 (LockAction.run (1 : Fin 2))
  have initial : (sharedLockSystem (Fin 2)).initial start := ⟨rfl, fun _ => rfl⟩
  obtain ⟨state, reachable, tested⟩ := System.exists_reachableUnder_of_replay
    (sharedLockSystem (Fin 2)) (fun _ _ => True) initial (reader ++ writer)
    (fun state => state.place 1 = .writeAcquire (.wait .load) ∧ state.place 0 = .reading)
    (by decide)
  obtain ⟨spinning, reading⟩ := of_decide_eq_true tested
  exact ⟨state, reachable, spinning, reading,
    fun writer => (rwlock_exclusion reachable).2.1 0 writer reading⟩

end Runs

end CatchOS.Utils
