import CatchOS.Lib.SaveRestore
import CatchOS.Lib.Transition
import CatchOS.Utils.Rwlock
import Mathlib.Data.Fintype.Basic
import Mathlib.Data.List.Basic

/-!
# The interrupt flag across lock operations

Any number of CPUs call the operations of any number of spinlocks and
readers/writer locks. A CPU that is in no call may acquire a lock, or release one
it holds; every other step is the next statement of the call a CPU is in.

Each lock operation saves the interrupt flag in the lock before it owns the
lock, and a release restores the flag from the lock after it has let go of it.
The field is therefore shared by all CPUs that use the lock, and the flag is
restored only in runs in which no CPU overwrites a flag that is still needed
(`FlagGuard`). A CPU also must not release the lock it acquired first while it
holds others, unless its interrupts were off from the beginning.

* `LockMachine.run_effect`: each statement saves, switches off, restores or does
  nothing, in the terms of `CatchOS.Lib.SaveRestore`.
* `interruptFlag_restored`: in the runs that meet the guard the flag is restored
  and is off while a lock is held.
* `interruptFlag_lost`: a run of two CPUs on one spinlock in which it is not.
-/

set_option autoImplicit false

namespace CatchOS.Utils

open CatchOS.Lib
open CatchOS.Lib.SaveRestore (View Effect)

/-! ## CPUs and locks -/

/-- A lock that a CPU holds, and how it holds it. -/
inductive HeldLock (Spin Rw : Type) where
  | spin (s : Spin)
  | read (r : Rw)
  | write (r : Rw)
  deriving DecidableEq

/-- The call a CPU is in. -/
inductive LockPhase (Spin Rw : Type) where
  | idle
  | spinlockLock (s : Spin) (point : LockPoint)
  | spinlockUnlock (s : Spin) (point : UnlockPoint)
  | readAcquire (r : Rw) (point : ReadAcquirePoint)
  | readRelease (r : Rw) (point : ReadReleasePoint)
  | writeAcquire (r : Rw) (point : WriteAcquirePoint)
  | writeRelease (r : Rw) (point : WriteReleasePoint)
  deriving DecidableEq

/-- The locks, and for each CPU the call it is in, the locks it holds (the last
acquired first), its interrupt flag, and the flag it had before its first
acquire. -/
structure LockMachine (Cpu Spin Rw : Type) where
  spinlock : Spin → Spinlock
  rwlock : Rw → Rwlock
  phase : Cpu → LockPhase Spin Rw
  held : Cpu → List (HeldLock Spin Rw)
  interruptFlag : Cpu → Bool
  flagBefore : Cpu → Bool

/-- A CPU acquires a lock, releases a lock, or executes the next statement of
its call. -/
inductive LockMachineAction (Cpu Spin Rw : Type) where
  | acquire (cpu : Cpu) (lock : HeldLock Spin Rw)
  | release (cpu : Cpu) (lock : HeldLock Spin Rw)
  | run (cpu : Cpu)

variable {Cpu Spin Rw : Type}

/-- The first statement of an acquire. -/
def HeldLock.acquirePhase : HeldLock Spin Rw → LockPhase Spin Rw
  | .spin s => .spinlockLock s .saveFlags
  | .read r => .readAcquire r .saveFlags
  | .write r => .writeAcquire r .saveFlags

/-- The first statement of a release. -/
def HeldLock.releasePhase : HeldLock Spin Rw → LockPhase Spin Rw
  | .spin s => .spinlockUnlock s .store
  | .read r => .readRelease r (.lock .saveFlags)
  | .write r => .writeRelease r .signal

namespace LockMachine

variable [DecidableEq Cpu] [DecidableEq Spin] [DecidableEq Rw]

def storeSpinlock (state : LockMachine Cpu Spin Rw) (s : Spin) (lock : Spinlock) :
    LockMachine Cpu Spin Rw :=
  { state with spinlock := Function.update state.spinlock s lock }

def storeRwlock (state : LockMachine Cpu Spin Rw) (r : Rw) (lock : Rwlock) :
    LockMachine Cpu Spin Rw :=
  { state with rwlock := Function.update state.rwlock r lock }

/-- A statement of a call leaves the CPU with this flag, in this phase, and
holding these locks. -/
def proceed (state : LockMachine Cpu Spin Rw) (cpu : Cpu) (eflags : Bool)
    (phase : LockPhase Spin Rw) (held : List (HeldLock Spin Rw)) : LockMachine Cpu Spin Rw :=
  { state with
    phase := Function.update state.phase cpu phase
    held := Function.update state.held cpu held
    interruptFlag := Function.update state.interruptFlag cpu eflags }

/-- The phase and the locks after a statement: the call goes on, or it returns
with the locks `returned`. -/
def continueAt {Point : Type} (phase : Point → LockPhase Spin Rw)
    (held returned : List (HeldLock Spin Rw)) :
    Option Point → LockPhase Spin Rw × List (HeldLock Spin Rw)
  | some point => (phase point, held)
  | none => (.idle, returned)

/-- The next statement of the call a CPU is in. A lock is held from the return
of its acquire to the return of its release. -/
def run (state : LockMachine Cpu Spin Rw) (cpu : Cpu) : Option (LockMachine Cpu Spin Rw) :=
  let eflags := state.interruptFlag cpu
  let held := state.held cpu
  match state.phase cpu with
  | .idle => none
  | .spinlockLock s point =>
      let call := spinlockLock point (state.spinlock s) eflags
      let continued := continueAt (.spinlockLock s) held (.spin s :: held) call.next
      some ((state.storeSpinlock s call.lock).proceed cpu call.interruptFlag continued.1
        continued.2)
  | .spinlockUnlock s point =>
      let call := spinlockUnlock point (state.spinlock s) eflags
      let continued := continueAt (.spinlockUnlock s) held (held.erase (.spin s)) call.next
      some ((state.storeSpinlock s call.lock).proceed cpu call.interruptFlag continued.1
        continued.2)
  | .readAcquire r point =>
      let call := rwlockReadAcquire point (state.rwlock r) eflags
      let continued := continueAt (.readAcquire r) held (.read r :: held) call.next
      some ((state.storeRwlock r call.lock).proceed cpu call.interruptFlag continued.1 continued.2)
  | .readRelease r point =>
      let call := rwlockReadRelease point (state.rwlock r) eflags
      let continued := continueAt (.readRelease r) held (held.erase (.read r)) call.next
      some ((state.storeRwlock r call.lock).proceed cpu call.interruptFlag continued.1 continued.2)
  | .writeAcquire r point =>
      let call := rwlockWriteAcquire point (state.rwlock r) eflags
      let continued := continueAt (.writeAcquire r) held (.write r :: held) call.next
      some ((state.storeRwlock r call.lock).proceed cpu call.interruptFlag continued.1 continued.2)
  | .writeRelease r point =>
      let call := rwlockWriteRelease point (state.rwlock r) eflags
      let continued := continueAt (.writeRelease r) held (held.erase (.write r)) call.next
      some ((state.storeRwlock r call.lock).proceed cpu call.interruptFlag continued.1 continued.2)

def step (state : LockMachine Cpu Spin Rw) :
    LockMachineAction Cpu Spin Rw → Option (LockMachine Cpu Spin Rw)
  | .acquire cpu lock =>
      if state.phase cpu = .idle then
        some { state with phase := Function.update state.phase cpu lock.acquirePhase }
      else none
  | .release cpu lock =>
      if state.phase cpu = .idle ∧ lock ∈ state.held cpu then
        some { state with phase := Function.update state.phase cpu lock.releasePhase }
      else none
  | .run cpu => state.run cpu

end LockMachine

/-- All locks are initialised and no CPU holds one; the interrupt flags are
arbitrary. -/
def lockMachineSystem (Cpu Spin Rw : Type) [DecidableEq Cpu] [DecidableEq Spin] [DecidableEq Rw] :
    System (LockMachine Cpu Spin Rw) (LockMachineAction Cpu Spin Rw) where
  initial state :=
    (∀ s, state.spinlock s = spinlockInit) ∧ (∀ r, state.rwlock r = rwlockInit) ∧
    (∀ cpu, state.phase cpu = .idle ∧ state.held cpu = [] ∧
      state.flagBefore cpu = state.interruptFlag cpu)
  step := LockMachine.step

/-! ## Where the flags are saved -/

/-- A field `is_irq_enabled_when_locked`: of a spinlock, of a readers/writer
lock, or of one of the two spinlocks inside it. -/
inductive FlagField (Spin Rw : Type) where
  | spin (s : Spin)
  | rw (r : Rw)
  | mtx (r : Rw)
  | semMtx (r : Rw)
  deriving DecidableEq

def LockMachine.savedFlag (state : LockMachine Cpu Spin Rw) : FlagField Spin Rw → Bool
  | .spin s => (state.spinlock s).isIrqEnabledWhenLocked
  | .rw r => (state.rwlock r).isIrqEnabledWhenLocked
  | .mtx r => (state.rwlock r).mtx.isIrqEnabledWhenLocked
  | .semMtx r => (state.rwlock r).semMtx.isIrqEnabledWhenLocked

def HeldLock.flagField : HeldLock Spin Rw → FlagField Spin Rw
  | .spin s => .spin s
  | .read r => .rw r
  | .write r => .rw r

/-! For each program point: the fields the call has saved the flag in and not yet
restored it from, the last first (`saved`), whether the call has saved the
flag and is about to test whether to execute `cli` (`fresh`), and the field the
next statement stores the flag in (`savesInto`). -/

def LockPoint.saved (field : FlagField Spin Rw) : LockPoint → List (FlagField Spin Rw)
  | .saveFlags => []
  | .cli | .compareExchange => [field]

def LockPoint.fresh : LockPoint → Bool
  | .cli => true
  | .saveFlags | .compareExchange => false

def LockPoint.savesInto (field : FlagField Spin Rw) : LockPoint → Option (FlagField Spin Rw)
  | .saveFlags => some field
  | .cli | .compareExchange => none

def PsemWaitPoint.saved (r : Rw) : PsemWaitPoint → List (FlagField Spin Rw)
  | .lock point => point.saved (.semMtx r)
  | .load | .fetchSub | .unlock _ => [.semMtx r]

def PsemWaitPoint.fresh : PsemWaitPoint → Bool
  | .lock point => point.fresh
  | .load | .fetchSub | .unlock _ => false

def PsemWaitPoint.savesInto (r : Rw) : PsemWaitPoint → Option (FlagField Spin Rw)
  | .lock point => point.savesInto (.semMtx r)
  | .load | .fetchSub | .unlock _ => none

def ReadAcquirePoint.saved (r : Rw) : ReadAcquirePoint → List (FlagField Spin Rw)
  | .saveFlags => []
  | .cli => [.rw r]
  | .lock point => point.saved (.mtx r) ++ [.rw r]
  | .increment | .test | .unlock _ => [.mtx r, .rw r]
  | .wait point => point.saved r ++ [.mtx r, .rw r]

def ReadAcquirePoint.fresh : ReadAcquirePoint → Bool
  | .cli => true
  | .lock point => point.fresh
  | .wait point => point.fresh
  | .saveFlags | .increment | .test | .unlock _ => false

def ReadAcquirePoint.savesInto (r : Rw) : ReadAcquirePoint → Option (FlagField Spin Rw)
  | .saveFlags => some (.rw r)
  | .lock point => point.savesInto (.mtx r)
  | .wait point => point.savesInto r
  | .cli | .increment | .test | .unlock _ => none

def ReadReleasePoint.saved (r : Rw) : ReadReleasePoint → List (FlagField Spin Rw)
  | .lock point => point.saved (.mtx r)
  | .decrement | .test | .signal | .unlock _ => [.mtx r]
  | .sti => []

def ReadReleasePoint.fresh : ReadReleasePoint → Bool
  | .lock point => point.fresh
  | .decrement | .test | .signal | .unlock _ | .sti => false

def ReadReleasePoint.savesInto (r : Rw) : ReadReleasePoint → Option (FlagField Spin Rw)
  | .lock point => point.savesInto (.mtx r)
  | .decrement | .test | .signal | .unlock _ | .sti => none

def WriteAcquirePoint.saved (r : Rw) : WriteAcquirePoint → List (FlagField Spin Rw)
  | .saveFlags => []
  | .cli => [.rw r]
  | .wait point => point.saved r ++ [.rw r]

def WriteAcquirePoint.fresh : WriteAcquirePoint → Bool
  | .cli => true
  | .wait point => point.fresh
  | .saveFlags => false

def WriteAcquirePoint.savesInto (r : Rw) : WriteAcquirePoint → Option (FlagField Spin Rw)
  | .saveFlags => some (.rw r)
  | .wait point => point.savesInto r
  | .cli => none

def LockPhase.saved : LockPhase Spin Rw → List (FlagField Spin Rw)
  | .spinlockLock s point => point.saved (.spin s)
  | .readAcquire r point => point.saved r
  | .readRelease r point => point.saved r
  | .writeAcquire r point => point.saved r
  | .idle | .spinlockUnlock _ _ | .writeRelease _ _ => []

def LockPhase.fresh : LockPhase Spin Rw → Bool
  | .spinlockLock _ point => point.fresh
  | .readAcquire _ point => point.fresh
  | .readRelease _ point => point.fresh
  | .writeAcquire _ point => point.fresh
  | .idle | .spinlockUnlock _ _ | .writeRelease _ _ => false

def LockPhase.savesInto : LockPhase Spin Rw → Option (FlagField Spin Rw)
  | .spinlockLock s point => point.savesInto (.spin s)
  | .readAcquire r point => point.savesInto r
  | .readRelease r point => point.savesInto r
  | .writeAcquire r point => point.savesInto r
  | .idle | .spinlockUnlock _ _ | .writeRelease _ _ => none

/-- The fields a CPU will restore its flag from: those of its call, and those of
the locks it holds. -/
def LockMachine.saved (state : LockMachine Cpu Spin Rw) (cpu : Cpu) : List (FlagField Spin Rw) :=
  (state.phase cpu).saved ++ (state.held cpu).map HeldLock.flagField

/-- A CPU releases the lock it acquired first only when it holds no other one,
or when its interrupts were off from the beginning. -/
def ReleaseAllowed [DecidableEq Spin] [DecidableEq Rw] (flagBefore : Bool)
    (held : List (HeldLock Spin Rw)) (lock : HeldLock Spin Rw) : Prop :=
  held = [lock] ∨ held.getLast? ≠ some lock ∨ flagBefore = false

/-- A CPU that stores its flag in a lock leaves every CPU that has yet to restore
its flag from there with the value it finds, and a CPU releases the lock it
acquired first after all others. -/
def FlagGuard [DecidableEq Spin] [DecidableEq Rw] (state : LockMachine Cpu Spin Rw) :
    LockMachineAction Cpu Spin Rw → Prop
  | .acquire _ _ => True
  | .release cpu lock => ReleaseAllowed (state.flagBefore cpu) (state.held cpu) lock
  | .run cpu => ∀ field ∈ (state.phase cpu).savesInto, ∀ other, field ∈ state.saved other →
      state.savedFlag field = state.interruptFlag cpu

instance [Fintype Cpu] [DecidableEq Spin] [DecidableEq Rw] (state : LockMachine Cpu Spin Rw) :
    ∀ action, Decidable (FlagGuard state action)
  | .acquire _ _ => isTrue trivial
  | .release _ _ => inferInstanceAs (Decidable (_ ∨ _ ∨ _))
  | .run cpu => inferInstanceAs (Decidable (∀ field ∈ (state.phase cpu).savesInto, ∀ _, _))

/-! ## Each statement saves, switches off, restores or does nothing -/

attribute [simp] PsemWaitPoint.saved PsemWaitPoint.fresh PsemWaitPoint.savesInto
  ReadAcquirePoint.saved ReadAcquirePoint.fresh ReadAcquirePoint.savesInto
  ReadReleasePoint.saved ReadReleasePoint.fresh ReadReleasePoint.savesInto
  WriteAcquirePoint.saved WriteAcquirePoint.fresh WriteAcquirePoint.savesInto

/-- The statements of `spinlock_lock`, on a lock whose field is `field`. -/
theorem spinlockLock_effect [DecidableEq Spin] [DecidableEq Rw] (before eflags : Bool)
    {value : FlagField Spin Rw → Bool} {field : FlagField Spin Rw} {p : Spinlock}
    (holds : value field = p.isIrqEnabledWhenLocked) (point : LockPoint)
    (outer : List (FlagField Spin Rw)) :
    Effect before value (point.savesInto field) ⟨eflags, point.saved field ++ outer, point.fresh⟩
      (Function.update value field (spinlockLock point p eflags).lock.isIrqEnabledWhenLocked)
      ⟨(spinlockLock point p eflags).interruptFlag,
        ((spinlockLock point p eflags).next.map (LockPoint.saved field)).getD [field] ++ outer,
        ((spinlockLock point p eflags).next.map LockPoint.fresh).getD false⟩ := by
  cases point with
  | saveFlags => exact .save field eflags outer
  | cli =>
      simp only [spinlockLock, ← holds, Function.update_eq_self]
      exact .switchOff field eflags outer
  | compareExchange =>
      rw [spinlockLock_compareExchange]
      by_cases free : p.locked = 0
      · simp only [if_pos free, ← holds, Function.update_eq_self]
        exact .skip _
      · simp only [if_neg free, ← holds, Function.update_eq_self]
        exact .skip _

/-- The statements of `spinlock_unlock`, called inside another operation. -/
theorem spinlockUnlock_effect [DecidableEq Spin] [DecidableEq Rw] (before eflags : Bool)
    {value : FlagField Spin Rw → Bool} {field : FlagField Spin Rw} {p : Spinlock}
    (holds : value field = p.isIrqEnabledWhenLocked) (point : UnlockPoint)
    (outer : List (FlagField Spin Rw)) :
    Effect before value none ⟨eflags, field :: outer, false⟩
      (Function.update value field (spinlockUnlock point p eflags).lock.isIrqEnabledWhenLocked)
      ⟨(spinlockUnlock point p eflags).interruptFlag,
        ((spinlockUnlock point p eflags).next.map fun _ => [field]).getD [] ++ outer, false⟩ := by
  cases point with
  | store =>
      simp only [spinlockUnlock, ← holds, Function.update_eq_self]
      exact .skip _
  | sti =>
      simp only [spinlockUnlock, ← holds, Function.update_eq_self]
      exact .restore field eflags [] outer (.inl rfl)

namespace LockMachine

variable [DecidableEq Spin] [DecidableEq Rw] (state : LockMachine Cpu Spin Rw)

theorem savedFlag_storeSpinlock (s : Spin) (p : Spinlock) :
    (state.storeSpinlock s p).savedFlag =
      Function.update state.savedFlag (.spin s) p.isIrqEnabledWhenLocked := by
  funext field
  cases field with
  | spin other =>
      by_cases same : other = s
      · subst same
        simp [savedFlag, storeSpinlock]
      · simp [savedFlag, storeSpinlock, same]
  | rw | mtx | semMtx => rfl

omit [DecidableEq Spin] in
/-- A store to a readers/writer lock changes its three fields only. -/
theorem savedFlag_storeRwlock {r : Rw} {lock : Rwlock} {value : FlagField Spin Rw → Bool}
    (flag : value (.rw r) = lock.isIrqEnabledWhenLocked)
    (mtx : value (.mtx r) = lock.mtx.isIrqEnabledWhenLocked)
    (semMtx : value (.semMtx r) = lock.semMtx.isIrqEnabledWhenLocked)
    (others : ∀ field, field ≠ .rw r → field ≠ .mtx r → field ≠ .semMtx r →
      value field = state.savedFlag field) :
    (state.storeRwlock r lock).savedFlag = value := by
  funext field
  cases field with
  | spin s => exact (others (.spin s) (by simp) (by simp) (by simp)).symm
  | rw other | mtx other | semMtx other =>
      by_cases same : other = r
      · subst same
        simp [savedFlag, storeRwlock, flag, mtx, semMtx]
      · rw [others _ (by simp [same]) (by simp [same]) (by simp [same])]
        simp [savedFlag, storeRwlock, same]

omit [DecidableEq Spin] in
/-- A store that leaves the three fields as they are. -/
theorem savedFlag_storeRwlock_same {r : Rw} {lock : Rwlock}
    (flag : lock.isIrqEnabledWhenLocked = state.savedFlag (.rw r))
    (mtx : lock.mtx.isIrqEnabledWhenLocked = state.savedFlag (.mtx r))
    (semMtx : lock.semMtx.isIrqEnabledWhenLocked = state.savedFlag (.semMtx r)) :
    (state.storeRwlock r lock).savedFlag = state.savedFlag :=
  state.savedFlag_storeRwlock flag.symm mtx.symm semMtx.symm fun _ _ _ _ => rfl

theorem savedFlag_storeRwlock_flag (r : Rw) (eflags : Bool) :
    (state.storeRwlock r { state.rwlock r with isIrqEnabledWhenLocked := eflags }).savedFlag =
      Function.update state.savedFlag (.rw r) eflags := by
  apply state.savedFlag_storeRwlock (Function.update_self _ _ _) rfl rfl
  intro field notFlag _ _
  exact Function.update_of_ne notFlag _ _

theorem savedFlag_storeRwlock_mtx (r : Rw) (p : Spinlock) :
    (state.storeRwlock r { state.rwlock r with mtx := p }).savedFlag =
      Function.update state.savedFlag (.mtx r) p.isIrqEnabledWhenLocked := by
  apply state.savedFlag_storeRwlock rfl (Function.update_self _ _ _) rfl
  intro field _ notMtx _
  exact Function.update_of_ne notMtx _ _

theorem savedFlag_storeRwlock_semMtx (r : Rw) (p : Spinlock) :
    (state.storeRwlock r { state.rwlock r with semMtx := p }).savedFlag =
      Function.update state.savedFlag (.semMtx r) p.isIrqEnabledWhenLocked := by
  apply state.savedFlag_storeRwlock rfl rfl (Function.update_self _ _ _)
  intro field _ _ notSemMtx
  exact Function.update_of_ne notSemMtx _ _

/-- The statements of `_psem_wait`. -/
theorem psemWait_effect (before eflags : Bool) (r : Rw) (point : PsemWaitPoint)
    (outer : List (FlagField Spin Rw)) :
    Effect before state.savedFlag (point.savesInto r) ⟨eflags, point.saved r ++ outer, point.fresh⟩
      (state.storeRwlock r (psemWait point (state.rwlock r) eflags).lock).savedFlag
      ⟨(psemWait point (state.rwlock r) eflags).interruptFlag,
        ((psemWait point (state.rwlock r) eflags).next.map (PsemWaitPoint.saved r)).getD [] ++
          outer,
        ((psemWait point (state.rwlock r) eflags).next.map PsemWaitPoint.fresh).getD false⟩ := by
  cases point with
  | lock point =>
      have inner := spinlockLock_effect before eflags
        (rfl : state.savedFlag (.semMtx r) = _) point outer
      simp only [psemWait, savedFlag_storeRwlock_semMtx]
      cases next : (spinlockLock point (state.rwlock r).semMtx eflags).next with
      | none => simpa [next] using inner
      | some point => simpa [next] using inner
  | load =>
      have same : (state.storeRwlock r (state.rwlock r)).savedFlag = state.savedFlag :=
        savedFlag_storeRwlock_same state rfl rfl rfl
      simp only [psemWait, same]
      by_cases zero : (state.rwlock r).semCount = 0
      · simp only [if_pos zero]
        exact .skip _
      · simp only [if_neg zero]
        exact .skip _
  | fetchSub =>
      rw [savedFlag_storeRwlock_same state (by rfl) (by rfl) (by rfl)]
      exact .skip _
  | unlock point =>
      have inner := spinlockUnlock_effect before eflags
        (rfl : state.savedFlag (.semMtx r) = _) point outer
      simp only [psemWait, savedFlag_storeRwlock_semMtx]
      cases next : (spinlockUnlock point (state.rwlock r).semMtx eflags).next with
      | none => simpa [next] using inner
      | some point => simpa [next] using inner

/-- The statements of `rwlock_read_acquire`. When it returns, the flag is still
saved in the lock. -/
theorem readAcquire_effect (before eflags : Bool) (r : Rw) (point : ReadAcquirePoint)
    (outer : List (FlagField Spin Rw)) :
    Effect before state.savedFlag (point.savesInto r) ⟨eflags, point.saved r ++ outer, point.fresh⟩
      (state.storeRwlock r (rwlockReadAcquire point (state.rwlock r) eflags).lock).savedFlag
      ⟨(rwlockReadAcquire point (state.rwlock r) eflags).interruptFlag,
        ((rwlockReadAcquire point (state.rwlock r) eflags).next.map
          (ReadAcquirePoint.saved r)).getD [.rw r] ++ outer,
        ((rwlockReadAcquire point (state.rwlock r) eflags).next.map
          ReadAcquirePoint.fresh).getD false⟩ := by
  cases point with
  | saveFlags =>
      simp only [rwlockReadAcquire, savedFlag_storeRwlock_flag]
      exact .save _ _ _
  | cli =>
      rw [savedFlag_storeRwlock_same state (by rfl) (by rfl) (by rfl)]
      exact .switchOff _ _ _
  | lock point =>
      have inner := spinlockLock_effect before eflags
        (rfl : state.savedFlag (.mtx r) = _) point (.rw r :: outer)
      simp only [rwlockReadAcquire, savedFlag_storeRwlock_mtx]
      cases next : (spinlockLock point (state.rwlock r).mtx eflags).next with
      | none => simpa [next] using inner
      | some point => simpa [next] using inner
  | increment =>
      rw [savedFlag_storeRwlock_same state (by rfl) (by rfl) (by rfl)]
      exact .skip _
  | test =>
      have same : (state.storeRwlock r (state.rwlock r)).savedFlag = state.savedFlag :=
        savedFlag_storeRwlock_same state rfl rfl rfl
      simp only [rwlockReadAcquire, same]
      by_cases first : (state.rwlock r).readerCount = 1
      · simp only [if_pos first]
        exact .skip _
      · simp only [if_neg first]
        exact .skip _
  | wait point =>
      have inner := psemWait_effect state before eflags r point (.mtx r :: .rw r :: outer)
      simp only [rwlockReadAcquire]
      cases next : (psemWait point (state.rwlock r) eflags).next with
      | none => simpa [next] using inner
      | some point => simpa [next] using inner
  | unlock point =>
      have inner := spinlockUnlock_effect before eflags
        (rfl : state.savedFlag (.mtx r) = _) point (.rw r :: outer)
      simp only [rwlockReadAcquire, savedFlag_storeRwlock_mtx]
      cases next : (spinlockUnlock point (state.rwlock r).mtx eflags).next with
      | none => simpa [next] using inner
      | some point => simpa [next] using inner

/-- The statements of `rwlock_write_acquire`. -/
theorem writeAcquire_effect (before eflags : Bool) (r : Rw) (point : WriteAcquirePoint)
    (outer : List (FlagField Spin Rw)) :
    Effect before state.savedFlag (point.savesInto r) ⟨eflags, point.saved r ++ outer, point.fresh⟩
      (state.storeRwlock r (rwlockWriteAcquire point (state.rwlock r) eflags).lock).savedFlag
      ⟨(rwlockWriteAcquire point (state.rwlock r) eflags).interruptFlag,
        ((rwlockWriteAcquire point (state.rwlock r) eflags).next.map
          (WriteAcquirePoint.saved r)).getD [.rw r] ++ outer,
        ((rwlockWriteAcquire point (state.rwlock r) eflags).next.map
          WriteAcquirePoint.fresh).getD false⟩ := by
  cases point with
  | saveFlags =>
      simp only [rwlockWriteAcquire, savedFlag_storeRwlock_flag]
      exact .save _ _ _
  | cli =>
      rw [savedFlag_storeRwlock_same state (by rfl) (by rfl) (by rfl)]
      exact .switchOff _ _ _
  | wait point =>
      have inner := psemWait_effect state before eflags r point (.rw r :: outer)
      simp only [rwlockWriteAcquire]
      cases next : (psemWait point (state.rwlock r) eflags).next with
      | none => simpa [next] using inner
      | some point => simpa [next] using inner

/-- The statements of `rwlock_read_release` before the last one. -/
theorem readRelease_effect (before eflags : Bool) (r : Rw) (point : ReadReleasePoint)
    (outer : List (FlagField Spin Rw)) (unfinished : point ≠ .sti) :
    ∃ next, (rwlockReadRelease point (state.rwlock r) eflags).next = some next ∧
    Effect before state.savedFlag (point.savesInto r) ⟨eflags, point.saved r ++ outer, point.fresh⟩
      (state.storeRwlock r (rwlockReadRelease point (state.rwlock r) eflags).lock).savedFlag
      ⟨(rwlockReadRelease point (state.rwlock r) eflags).interruptFlag,
        next.saved r ++ outer, next.fresh⟩ := by
  cases point with
  | lock point =>
      have inner := spinlockLock_effect before eflags
        (rfl : state.savedFlag (.mtx r) = _) point outer
      refine ⟨_, rfl, ?_⟩
      simp only [rwlockReadRelease, savedFlag_storeRwlock_mtx]
      cases next : (spinlockLock point (state.rwlock r).mtx eflags).next with
      | none => simpa [next] using inner
      | some point => simpa [next] using inner
  | decrement =>
      refine ⟨_, rfl, ?_⟩
      rw [savedFlag_storeRwlock_same state (by rfl) (by rfl) (by rfl)]
      exact .skip _
  | test =>
      refine ⟨_, rfl, ?_⟩
      rw [savedFlag_storeRwlock_same state (by rfl) (by rfl) (by rfl)]
      by_cases last : (state.rwlock r).readerCount = 0
      · simp only [if_pos last]
        exact .skip _
      · simp only [if_neg last]
        exact .skip _
  | signal =>
      refine ⟨_, rfl, ?_⟩
      rw [savedFlag_storeRwlock_same state (by rfl) (by rfl) (by rfl)]
      exact .skip _
  | unlock point =>
      have inner := spinlockUnlock_effect before eflags
        (rfl : state.savedFlag (.mtx r) = _) point outer
      refine ⟨_, rfl, ?_⟩
      simp only [rwlockReadRelease, savedFlag_storeRwlock_mtx]
      cases next : (spinlockUnlock point (state.rwlock r).mtx eflags).next with
      | none => simpa [next] using inner
      | some point => simpa [next] using inner
  | sti => exact absurd rfl unfinished

omit [DecidableEq Spin] [DecidableEq Rw] in
/-- The last statement of a release restores the flag from the lock. -/
theorem release_effect [DecidableEq Spin] [DecidableEq Rw] {before : Bool} (eflags : Bool)
    (value : FlagField Spin Rw → Bool) {held : List (HeldLock Spin Rw)} {lock : HeldLock Spin Rw}
    (member : lock ∈ held) (allowed : ReleaseAllowed before held lock) :
    Effect before value none ⟨eflags, held.map HeldLock.flagField, false⟩
      value ⟨if value lock.flagField then true else eflags,
        (held.erase lock).map HeldLock.flagField, false⟩ := by
  obtain ⟨inner, outer, -, shape, erased⟩ := List.exists_erase_eq member
  rw [erased, List.map_append, shape, List.map_append, List.map_cons]
  refine .restore lock.flagField eflags _ _ ?_
  rcases allowed with only | notFirst | off
  · left
    rw [shape] at only
    simp_all
  · right; left
    rintro none
    rw [List.map_eq_nil_iff] at none
    rw [shape, none] at notFirst
    simp at notFirst
  · exact .inr (.inr off)

/-! ## Runs -/

def view (cpu : Cpu) : View (FlagField Spin Rw) :=
  ⟨state.interruptFlag cpu, state.saved cpu, (state.phase cpu).fresh⟩

end LockMachine

/-- The lock that a CPU's call releases. -/
def LockPhase.releases : LockPhase Spin Rw → Option (HeldLock Spin Rw)
  | .spinlockUnlock s _ => some (.spin s)
  | .readRelease r _ => some (.read r)
  | .writeRelease r _ => some (.write r)
  | .idle | .spinlockLock _ _ | .readAcquire _ _ | .writeAcquire _ _ => none

namespace LockMachine

variable [DecidableEq Cpu] [DecidableEq Spin] [DecidableEq Rw]
  {state next : LockMachine Cpu Spin Rw} {cpu : Cpu}

omit [DecidableEq Spin] [DecidableEq Rw] in
theorem savedFlag_proceed (state : LockMachine Cpu Spin Rw) (cpu : Cpu) (eflags : Bool)
    (phase : LockPhase Spin Rw) (held : List (HeldLock Spin Rw)) :
    (state.proceed cpu eflags phase held).savedFlag = state.savedFlag := by
  funext field
  cases field <;> rfl

omit [DecidableEq Spin] [DecidableEq Rw] in
theorem view_proceed (state : LockMachine Cpu Spin Rw) (cpu : Cpu) (eflags : Bool)
    (phase : LockPhase Spin Rw) (held : List (HeldLock Spin Rw)) :
    (state.proceed cpu eflags phase held).view cpu =
      ⟨eflags, phase.saved ++ held.map HeldLock.flagField, phase.fresh⟩ := by
  simp only [view, saved, proceed, Function.update_self]

/-- A CPU only releases what it holds, and its first lock last. -/
def ReleasesInOrder (state : LockMachine Cpu Spin Rw) (cpu : Cpu) : Prop :=
  ∀ lock ∈ (state.phase cpu).releases,
    lock ∈ state.held cpu ∧ ReleaseAllowed (state.flagBefore cpu) (state.held cpu) lock

/-- **Every statement of every operation** saves the flag, switches interrupts
off, restores the flag, or does none of these. -/
theorem run_effect (ran : state.run cpu = some next) (ordered : state.ReleasesInOrder cpu) :
    Effect (state.flagBefore cpu) state.savedFlag (state.phase cpu).savesInto (state.view cpu)
      next.savedFlag (next.view cpu) := by
  have start : state.view cpu = ⟨state.interruptFlag cpu,
      (state.phase cpu).saved ++ (state.held cpu).map HeldLock.flagField,
      (state.phase cpu).fresh⟩ := rfl
  unfold ReleasesInOrder at ordered
  unfold run at ran
  rw [start]
  cases phase : state.phase cpu with
  | idle => simp only [phase, reduceCtorEq] at ran
  | spinlockLock s point =>
      have inner := spinlockLock_effect (state.flagBefore cpu) (state.interruptFlag cpu)
        (rfl : state.savedFlag (.spin s) = _) point ((state.held cpu).map HeldLock.flagField)
      simp only [phase, Option.some.injEq] at ran
      subst ran
      rw [savedFlag_proceed, savedFlag_storeSpinlock, view_proceed]
      cases continued : (spinlockLock point (state.spinlock s) (state.interruptFlag cpu)).next with
      | none => rw [continued] at inner; exact inner
      | some point => rw [continued] at inner; exact inner
  | readAcquire r point =>
      have inner := readAcquire_effect state (state.flagBefore cpu) (state.interruptFlag cpu) r
        point
        ((state.held cpu).map HeldLock.flagField)
      simp only [phase, Option.some.injEq] at ran
      subst ran
      rw [savedFlag_proceed, view_proceed]
      cases continued :
          (rwlockReadAcquire point (state.rwlock r) (state.interruptFlag cpu)).next with
      | none => rw [continued] at inner; exact inner
      | some point => rw [continued] at inner; exact inner
  | writeAcquire r point =>
      have inner := writeAcquire_effect state (state.flagBefore cpu) (state.interruptFlag cpu) r
        point
        ((state.held cpu).map HeldLock.flagField)
      simp only [phase, Option.some.injEq] at ran
      subst ran
      rw [savedFlag_proceed, view_proceed]
      cases continued :
          (rwlockWriteAcquire point (state.rwlock r) (state.interruptFlag cpu)).next with
      | none => rw [continued] at inner; exact inner
      | some point => rw [continued] at inner; exact inner
  | spinlockUnlock s point =>
      obtain ⟨member, allowed⟩ := ordered (.spin s) (by rw [phase]; rfl)
      simp only [phase, Option.some.injEq] at ran
      subst ran
      rw [savedFlag_proceed, savedFlag_storeSpinlock, view_proceed]
      have same : (spinlockUnlock point (state.spinlock s)
          (state.interruptFlag cpu)).lock.isIrqEnabledWhenLocked = state.savedFlag (.spin s) := by
        cases point <;> rfl
      rw [same, Function.update_eq_self]
      cases point with
      | store => exact .skip _
      | sti => exact release_effect _ _ member allowed
  | readRelease r point =>
      obtain ⟨member, allowed⟩ := ordered (.read r) (by rw [phase]; rfl)
      simp only [phase, Option.some.injEq] at ran
      subst ran
      rw [savedFlag_proceed, view_proceed]
      by_cases last : point = .sti
      · subst last
        rw [savedFlag_storeRwlock_same state (by rfl) (by rfl) (by rfl)]
        exact release_effect _ _ member allowed
      · obtain ⟨next, continued, inner⟩ := readRelease_effect state (state.flagBefore cpu)
          (state.interruptFlag cpu) r point ((state.held cpu).map HeldLock.flagField) last
        rw [continued]
        exact inner
  | writeRelease r point =>
      obtain ⟨member, allowed⟩ := ordered (.write r) (by rw [phase]; rfl)
      simp only [phase, Option.some.injEq] at ran
      subst ran
      rw [savedFlag_proceed, view_proceed]
      cases point with
      | signal =>
          rw [savedFlag_storeRwlock_same state (by rfl) (by rfl) (by rfl)]
          exact .skip _
      | sti =>
          rw [savedFlag_storeRwlock_same state (by rfl) (by rfl) (by rfl)]
          exact release_effect _ _ member allowed

omit [DecidableEq Spin] [DecidableEq Rw] in
/-- A call that goes on releases what it released before. -/
theorem continueAt_releases {Point : Type} (phase : Point → LockPhase Spin Rw) (point : Point)
    (constant : ∀ next, (phase next).releases = (phase point).releases)
    (held returned : List (HeldLock Spin Rw)) (continued : Option Point) :
    ∀ lock ∈ (continueAt phase held returned continued).1.releases,
      lock ∈ (phase point).releases ∧ (continueAt phase held returned continued).2 = held := by
  intro lock member
  cases continued with
  | none => cases member
  | some next => exact ⟨constant next ▸ member, rfl⟩

/-- A statement of one CPU changes the locks, and of the CPUs only this one. -/
theorem run_eq_proceed (ran : state.run cpu = some next) :
    ∃ stored eflags phase held, next = proceed stored cpu eflags phase held ∧
      stored.phase = state.phase ∧ stored.held = state.held ∧
      stored.interruptFlag = state.interruptFlag ∧ stored.flagBefore = state.flagBefore ∧
      ∀ lock ∈ phase.releases, lock ∈ (state.phase cpu).releases ∧ held = state.held cpu := by
  unfold run at ran
  cases phase : state.phase cpu with
  | idle => simp only [phase, reduceCtorEq] at ran
  | spinlockLock | spinlockUnlock | readAcquire | readRelease | writeAcquire | writeRelease =>
      simp only [phase, Option.some.injEq] at ran
      refine ⟨_, _, _, _, ran.symm, rfl, rfl, rfl, rfl, ?_⟩
      exact continueAt_releases _ _ (fun _ => rfl) _ _ _

/-! ## The invariant -/

/-- Every CPU can restore its flag, and releases its first lock last. -/
structure FlagInvariant (state : LockMachine Cpu Spin Rw) : Prop where
  restorable : ∀ cpu, (state.view cpu).Restorable state.savedFlag (state.flagBefore cpu)
  ordered : ∀ cpu, state.ReleasesInOrder cpu

namespace FlagInvariant

/-- A statement keeps the invariant when the field it stores the flag in, if
any, is one no CPU will restore another value from. -/
theorem run (invariant : state.FlagInvariant) (ran : state.run cpu = some next)
    (allowed : FlagGuard state (.run cpu)) : next.FlagInvariant := by
  have effect := run_effect ran (invariant.ordered cpu)
  obtain ⟨stored, eflags, phase, held, rfl, phases, helds, flags, before, releases⟩ :=
    run_eq_proceed ran
  have agree (other : Cpu) := effect.agree fun field target => allowed field target other
  refine ⟨fun other => ?_, fun other => ?_⟩
  · have began : (stored.proceed cpu eflags phase held).flagBefore other = state.flagBefore other :=
      congrFun before other
    rw [began]
    by_cases same : other = cpu
    · subst same
      exact (invariant.restorable other).effect effect (agree other)
    · have unmoved : (stored.proceed cpu eflags phase held).view other = state.view other := by
        simp only [view, saved, proceed, Function.update_of_ne same, phases, helds, flags]
      rw [unmoved]
      exact (invariant.restorable other).of_agree (agree other)
  · intro lock member
    have ordered := invariant.ordered other lock
    by_cases same : other = cpu
    · subst same
      simp only [proceed, Function.update_self, before] at member ⊢
      obtain ⟨released, rfl⟩ := releases lock member
      exact ordered released
    · simp only [proceed, Function.update_of_ne same, phases, helds, before] at member ⊢
      exact ordered member

/-- A call starts in a phase that has saved nothing, so the view of the CPU that
makes it stays as it is. -/
theorem call (invariant : state.FlagInvariant) {phase : LockPhase Spin Rw}
    (idle : state.phase cpu = .idle) (unsaved : phase.saved = []) (settled : phase.fresh = false)
    (ordered : ∀ lock ∈ phase.releases, lock ∈ state.held cpu ∧
      ReleaseAllowed (state.flagBefore cpu) (state.held cpu) lock) :
    ({ state with phase := Function.update state.phase cpu phase } :
      LockMachine Cpu Spin Rw).FlagInvariant := by
  refine ⟨fun other => ?_, fun other => ?_⟩
  · have unmoved : ({ state with phase := Function.update state.phase cpu phase } :
        LockMachine Cpu Spin Rw).view other = state.view other := by
      by_cases same : other = cpu
      · subst same
        simp only [view, saved, Function.update_self, unsaved, settled, idle]
        rfl
      · simp only [view, saved, Function.update_of_ne same]
    rw [unmoved]
    exact (invariant.restorable other).of_agree fun field _ => by cases field <;> rfl
  · by_cases same : other = cpu
    · subst same
      simpa only [ReleasesInOrder, Function.update_self] using ordered
    · simpa only [ReleasesInOrder, Function.update_of_ne same] using invariant.ordered other

theorem step {action : LockMachineAction Cpu Spin Rw} (invariant : state.FlagInvariant)
    (allowed : FlagGuard state action) (stepped : state.step action = some next) :
    next.FlagInvariant := by
  cases action with
  | acquire cpu lock =>
      simp only [LockMachine.step, Option.ite_none_right_eq_some, Option.some.injEq] at stepped
      obtain ⟨idle, rfl⟩ := stepped
      cases lock <;> exact invariant.call idle rfl rfl nofun
  | release cpu lock =>
      simp only [LockMachine.step, Option.ite_none_right_eq_some, Option.some.injEq] at stepped
      obtain ⟨⟨idle, member⟩, rfl⟩ := stepped
      refine invariant.call idle (by cases lock <;> rfl) (by cases lock <;> rfl) ?_
      intro released same
      have : released = lock := by cases lock <;> exact (Option.some.inj same).symm
      subst this
      exact ⟨member, allowed⟩
  | run cpu => exact invariant.run stepped allowed

theorem of_reachable (reachable : (lockMachineSystem Cpu Spin Rw).ReachableUnder FlagGuard state) :
    state.FlagInvariant := by
  refine reachable.invariant FlagInvariant ?_ fun invariant allowed stepped =>
    invariant.step allowed stepped
  rintro state ⟨-, -, outside⟩
  refine ⟨fun cpu => ?_, fun cpu lock member => ?_⟩
  · obtain ⟨idle, none, before⟩ := outside cpu
    refine ⟨?_, ?_⟩
    · simp only [view, saved, idle, none]
      trivial
    · simp only [view, saved, idle, none, before]
      rfl
  · rw [(outside cpu).1] at member
    cases member

end FlagInvariant

end LockMachine

/-! ## What the locks promise -/

/-- The CPU is inside an operation and owns the lock it works on or one of the
spinlocks inside it. -/
def LockPhase.ownsLock : LockPhase Spin Rw → Bool
  | .readAcquire _ (.saveFlags) | .readAcquire _ (.cli) | .readAcquire _ (.lock _) => false
  | .readAcquire _ _ => true
  | .readRelease _ (.lock _) | .readRelease _ (.sti) => false
  | .readRelease _ _ => true
  | .writeAcquire _ (.saveFlags) | .writeAcquire _ (.cli) | .writeAcquire _ (.wait (.lock _)) =>
      false
  | .writeAcquire _ _ => true
  | .idle | .spinlockLock _ _ | .spinlockUnlock _ _ | .writeRelease _ _ => false

theorem LockPhase.saved_of_fresh {phase : LockPhase Spin Rw} (fresh : phase.fresh = true) :
    phase.saved ≠ [] := by
  have lock {point : LockPoint} (fresh : point.fresh = true) (field : FlagField Spin Rw) :
      point.saved field ≠ [] := by
    cases point <;> simp_all [LockPoint.fresh, LockPoint.saved]
  cases phase with
  | idle | spinlockUnlock | writeRelease => cases fresh
  | spinlockLock s point => exact lock fresh _
  | readAcquire r point => cases point <;> simp_all [LockPhase.fresh, ReadAcquirePoint.fresh,
      LockPhase.saved, ReadAcquirePoint.saved]
  | readRelease r point =>
      cases point with
      | lock point => exact lock fresh _
      | decrement | test | signal | unlock | sti => cases fresh
  | writeAcquire r point => cases point <;> simp_all [LockPhase.fresh, WriteAcquirePoint.fresh,
      LockPhase.saved, WriteAcquirePoint.saved]

/-- A CPU that owns a lock inside an operation has saved its flag before the save
it may be in the middle of. -/
theorem LockPhase.saved_of_ownsLock {phase : LockPhase Spin Rw} (owns : phase.ownsLock = true) :
    (if phase.fresh then phase.saved.tail else phase.saved) ≠ [] := by
  cases phase with
  | idle | spinlockLock | spinlockUnlock | writeRelease => cases owns
  | readAcquire r point =>
      cases point with
      | saveFlags | cli | lock => cases owns
      | increment | test | unlock => simp [LockPhase.fresh, ReadAcquirePoint.fresh,
          LockPhase.saved, ReadAcquirePoint.saved]
      | wait point =>
          simp only [LockPhase.fresh, ReadAcquirePoint.fresh, LockPhase.saved,
            ReadAcquirePoint.saved]
          cases point with
          | lock point => cases point <;> simp [PsemWaitPoint.fresh, PsemWaitPoint.saved,
              LockPoint.fresh, LockPoint.saved]
          | load | fetchSub | unlock => simp [PsemWaitPoint.fresh, PsemWaitPoint.saved]
  | readRelease r point =>
      cases point with
      | lock | sti => cases owns
      | decrement | test | signal | unlock => simp [LockPhase.fresh, ReadReleasePoint.fresh,
          LockPhase.saved, ReadReleasePoint.saved]
  | writeAcquire r point =>
      cases point with
      | saveFlags | cli => cases owns
      | wait point =>
          cases point with
          | lock => cases owns
          | load | fetchSub | unlock => simp [LockPhase.fresh, WriteAcquirePoint.fresh,
              PsemWaitPoint.fresh, LockPhase.saved, WriteAcquirePoint.saved, PsemWaitPoint.saved]

namespace LockMachine

/-- A CPU that has released every lock it acquired has the interrupt flag it had
before its first acquire, and a CPU that holds a lock has interrupts off. -/
def InterruptFlagKept (state : LockMachine Cpu Spin Rw) : Prop :=
  ∀ cpu, (state.phase cpu = .idle ∧ state.held cpu = [] →
      state.interruptFlag cpu = state.flagBefore cpu) ∧
    (state.held cpu ≠ [] ∨ (state.phase cpu).ownsLock = true → state.interruptFlag cpu = false)

/-- A CPU that holds a lock is inside a section in which it has switched its
interrupts off. -/
theorem inside_of_holds (state : LockMachine Cpu Spin Rw) {cpu : Cpu}
    (holds : state.held cpu ≠ [] ∨ (state.phase cpu).ownsLock = true) :
    (if (state.view cpu).fresh then (state.view cpu).saved.tail
      else (state.view cpu).saved) ≠ [] := by
  change (if (state.phase cpu).fresh then (state.saved cpu).tail else state.saved cpu) ≠ []
  unfold saved
  by_cases fresh : (state.phase cpu).fresh = true
  · obtain ⟨field, rest, shape⟩ := List.exists_cons_of_ne_nil (LockPhase.saved_of_fresh fresh)
    rw [if_pos fresh, shape, List.cons_append, List.tail_cons]
    rcases holds with held | owns
    · simp [held]
    · have inner := LockPhase.saved_of_ownsLock owns
      rw [if_pos fresh, shape, List.tail_cons] at inner
      simp [inner]
  · rw [if_neg fresh]
    rcases holds with held | owns
    · simp [held]
    · have inner := LockPhase.saved_of_ownsLock owns
      rw [if_neg fresh] at inner
      simp [inner]

/-- **The interrupt flag is restored**, and is off while a lock is held, in every
run in which no CPU overwrites a saved flag that is still needed and every CPU
releases its first lock last. -/
theorem interruptFlag_restored [DecidableEq Cpu] [DecidableEq Spin] [DecidableEq Rw]
    {state : LockMachine Cpu Spin Rw}
    (reachable : (lockMachineSystem Cpu Spin Rw).ReachableUnder FlagGuard state) :
    state.InterruptFlagKept := by
  intro cpu
  have restorable := (FlagInvariant.of_reachable reachable).restorable cpu
  refine ⟨?_, ?_⟩
  · rintro ⟨idle, none⟩
    refine restorable.flag_outside ?_
    simp only [view, saved, idle, none]
    rfl
  · intro holds
    exact restorable.flag_inside (state.inside_of_holds holds)

/-- Two CPUs on one spinlock and one readers/writer lock. The interrupts of the
first are on, those of the second are off. -/
def twoCpus : LockMachine (Fin 2) (Fin 1) (Fin 1) where
  spinlock _ := spinlockInit
  rwlock _ := rwlockInit
  phase _ := .idle
  held _ := []
  interruptFlag cpu := cpu = 0
  flagBefore cpu := cpu = 0

theorem twoCpus_initial : (lockMachineSystem (Fin 2) (Fin 1) (Fin 1)).initial twoCpus :=
  ⟨fun _ => rfl, fun _ => rfl, fun _ => ⟨rfl, rfl, rfl⟩⟩

/-- The first CPU holds the readers/writer lock and the spinlock inside it while
the second, whose interrupts were off, spins on the spinlock. -/
theorem interruptFlag_restored_nested : ∃ state : LockMachine (Fin 2) (Fin 1) (Fin 1),
    (lockMachineSystem (Fin 2) (Fin 1) (Fin 1)).ReachableUnder FlagGuard state ∧
    state.flagBefore 0 = true ∧ state.held 0 = [.spin 0, .read 0] ∧
    state.phase 1 = .spinlockLock 0 .compareExchange ∧ state.InterruptFlagKept := by
  let first : List (LockMachineAction (Fin 2) (Fin 1) (Fin 1)) :=
    .acquire 0 (.read 0) :: List.replicate 16 (.run 0) ++
    .acquire 0 (.spin 0) :: List.replicate 3 (.run 0)
  let second : List (LockMachineAction (Fin 2) (Fin 1) (Fin 1)) :=
    .acquire 1 (.spin 0) :: List.replicate 3 (.run 1)
  obtain ⟨state, reachable, tested⟩ := System.exists_reachableUnder_of_replay
    (lockMachineSystem (Fin 2) (Fin 1) (Fin 1)) FlagGuard twoCpus_initial (first ++ second)
    (fun state => state.flagBefore 0 = true ∧ state.held 0 = [.spin 0, .read 0] ∧
      state.phase 1 = .spinlockLock 0 .compareExchange) (by decide)
  obtain ⟨before, held, spinning⟩ := of_decide_eq_true tested
  exact ⟨state, reachable, before, held, spinning, interruptFlag_restored reachable⟩

/-- **A flag is lost.** The first CPU takes the spinlock with interrupts on; the
second stores its own flag, which is off, in the lock and spins; the first
releases the lock and restores the flag of the second. -/
theorem interruptFlag_lost : ¬ ∀ state : LockMachine (Fin 2) (Fin 1) (Fin 1),
    (lockMachineSystem (Fin 2) (Fin 1) (Fin 1)).Reachable state → state.InterruptFlagKept := by
  intro kept
  let actions : List (LockMachineAction (Fin 2) (Fin 1) (Fin 1)) :=
    .acquire 0 (.spin 0) :: List.replicate 3 (.run 0) ++
    [.acquire 1 (.spin 0), .run 1, .release 0 (.spin 0), .run 0, .run 0]
  obtain ⟨state, reachable, tested⟩ := System.exists_reachableUnder_of_replay
    (lockMachineSystem (Fin 2) (Fin 1) (Fin 1)) (fun _ _ => True) twoCpus_initial actions
    (fun state => state.phase 0 = .idle ∧ state.held 0 = [] ∧
      state.interruptFlag 0 ≠ state.flagBefore 0) (by decide)
  obtain ⟨idle, released, lost⟩ := of_decide_eq_true tested
  exact lost ((kept state reachable 0).1 ⟨idle, released⟩)

end LockMachine

end CatchOS.Utils
