import CatchOS.Utils.Spinlock

/-!
# Readers/writer locks

The functions of `rwlock.c`, statement by statement. A readers/writer lock holds
a primitive semaphore `sem_count` and a count of readers, each with a spinlock of
its own. The functions nest: `rwlock_read_acquire` calls `spinlock_lock` on `mtx`
and `_psem_wait`, which calls `spinlock_lock` on `sem_mtx`. A program point of the
outer function carries the program point of the call it is in.

A statement that is tried again because its lock is held, or because `sem_count`
is zero, leaves everything as it was and continues at the same program point.
-/

set_option autoImplicit false

namespace CatchOS.Utils

/-- `struct rwlock`. The two counters are `int32_t`; a thread needs a stack of
its own in a 32-bit address space, so neither can leave that range. -/
structure Rwlock where
  semCount : ℤ
  readerCount : ℤ
  mtx : Spinlock
  semMtx : Spinlock
  isIrqEnabledWhenLocked : Bool
  deriving DecidableEq

def rwlockInit : Rwlock := ⟨1, 0, spinlockInit, spinlockInit, false⟩

/-! ## The primitive semaphore -/

/-- The statements of `_psem_wait`. -/
inductive PsemWaitPoint where
  | lock (point : LockPoint)
  | load
  | fetchSub
  | unlock (point : UnlockPoint)
  deriving DecidableEq

def psemWait : PsemWaitPoint → Rwlock → Bool → Outcome Rwlock PsemWaitPoint
  | .lock point, lock, eflags =>
      let call := spinlockLock point lock.semMtx eflags
      ⟨{ lock with semMtx := call.lock }, call.interruptFlag,
        some (match call.next with
          | some point => .lock point
          | none => .load)⟩
  | .load, lock, eflags =>
      ⟨lock, eflags, some (if lock.semCount = 0 then .load else .fetchSub)⟩
  | .fetchSub, lock, eflags =>
      ⟨{ lock with semCount := atomicFetchSub lock.semCount 1 }, eflags, some (.unlock .store)⟩
  | .unlock point, lock, eflags =>
      let call := spinlockUnlock point lock.semMtx eflags
      ⟨{ lock with semMtx := call.lock }, call.interruptFlag, call.next.map .unlock⟩

/-- `_psem_signal` is one atomic operation. -/
def psemSignal (lock : Rwlock) : Rwlock :=
  { lock with semCount := atomicFetchAdd lock.semCount 1 }

/-! ## The four operations -/

/-- The statements of `rwlock_read_acquire`. -/
inductive ReadAcquirePoint where
  | saveFlags
  | cli
  | lock (point : LockPoint)
  | increment
  | test
  | wait (point : PsemWaitPoint)
  | unlock (point : UnlockPoint)
  deriving DecidableEq

def rwlockReadAcquire : ReadAcquirePoint → Rwlock → Bool → Outcome Rwlock ReadAcquirePoint
  | .saveFlags, lock, eflags => ⟨{ lock with isIrqEnabledWhenLocked := eflags }, eflags, some .cli⟩
  | .cli, lock, eflags =>
      ⟨lock, if lock.isIrqEnabledWhenLocked then false else eflags, some (.lock .saveFlags)⟩
  | .lock point, lock, eflags =>
      let call := spinlockLock point lock.mtx eflags
      ⟨{ lock with mtx := call.lock }, call.interruptFlag,
        some (match call.next with
          | some point => .lock point
          | none => .increment)⟩
  | .increment, lock, eflags =>
      ⟨{ lock with readerCount := lock.readerCount + 1 }, eflags, some .test⟩
  | .test, lock, eflags =>
      ⟨lock, eflags,
        some (if lock.readerCount = 1 then .wait (.lock .saveFlags) else .unlock .store)⟩
  | .wait point, lock, eflags =>
      let call := psemWait point lock eflags
      ⟨call.lock, call.interruptFlag,
        some (match call.next with
          | some point => .wait point
          | none => .unlock .store)⟩
  | .unlock point, lock, eflags =>
      let call := spinlockUnlock point lock.mtx eflags
      ⟨{ lock with mtx := call.lock }, call.interruptFlag, call.next.map .unlock⟩

/-- The statements of `rwlock_read_release`. -/
inductive ReadReleasePoint where
  | lock (point : LockPoint)
  | decrement
  | test
  | signal
  | unlock (point : UnlockPoint)
  | sti
  deriving DecidableEq

def rwlockReadRelease : ReadReleasePoint → Rwlock → Bool → Outcome Rwlock ReadReleasePoint
  | .lock point, lock, eflags =>
      let call := spinlockLock point lock.mtx eflags
      ⟨{ lock with mtx := call.lock }, call.interruptFlag,
        some (match call.next with
          | some point => .lock point
          | none => .decrement)⟩
  | .decrement, lock, eflags =>
      ⟨{ lock with readerCount := lock.readerCount - 1 }, eflags, some .test⟩
  | .test, lock, eflags =>
      ⟨lock, eflags, some (if lock.readerCount = 0 then .signal else .unlock .store)⟩
  | .signal, lock, eflags => ⟨psemSignal lock, eflags, some (.unlock .store)⟩
  | .unlock point, lock, eflags =>
      let call := spinlockUnlock point lock.mtx eflags
      ⟨{ lock with mtx := call.lock }, call.interruptFlag,
        some (match call.next with
          | some point => .unlock point
          | none => .sti)⟩
  | .sti, lock, eflags => ⟨lock, if lock.isIrqEnabledWhenLocked then true else eflags, none⟩

/-- The statements of `rwlock_write_acquire`. -/
inductive WriteAcquirePoint where
  | saveFlags
  | cli
  | wait (point : PsemWaitPoint)
  deriving DecidableEq

def rwlockWriteAcquire : WriteAcquirePoint → Rwlock → Bool → Outcome Rwlock WriteAcquirePoint
  | .saveFlags, lock, eflags => ⟨{ lock with isIrqEnabledWhenLocked := eflags }, eflags, some .cli⟩
  | .cli, lock, eflags =>
      ⟨lock, if lock.isIrqEnabledWhenLocked then false else eflags,
        some (.wait (.lock .saveFlags))⟩
  | .wait point, lock, eflags =>
      let call := psemWait point lock eflags
      ⟨call.lock, call.interruptFlag, call.next.map .wait⟩

/-- The statements of `rwlock_write_release`. -/
inductive WriteReleasePoint where
  | signal
  | sti
  deriving DecidableEq

def rwlockWriteRelease : WriteReleasePoint → Rwlock → Bool → Outcome Rwlock WriteReleasePoint
  | .signal, lock, eflags => ⟨psemSignal lock, eflags, some .sti⟩
  | .sti, lock, eflags => ⟨lock, if lock.isIrqEnabledWhenLocked then true else eflags, none⟩

end CatchOS.Utils
