import Mathlib.Data.Int.Notation
import Mathlib.Tactic.Common

/-!
# Atomic operations and spinlocks

The functions of `atomic.c` and `spinlock.c`. A lock operation is shared by
several CPUs, so its body is not one step: a program point names the statement
that comes next, and the function gives the effect of that statement on the
lock, on the interrupt flag of the CPU that runs it, and where it continues.

The statements are the store to `is_irq_enabled_when_locked`, the test of that
field with the `cli` or `sti` under it, and the atomic operation on `locked`.
The field is shared: the test reads what the lock holds at that moment, not
what the CPU has stored.
-/

set_option autoImplicit false

namespace CatchOS.Utils

/-! ## Atomic operations -/

/-- The new value of the cell, and whether it held the expected one. -/
def atomicCompareExchange (value expected desired : ℤ) : ℤ × Bool :=
  if value = expected then (desired, true) else (value, false)

/-- The new value of the cell. The source stores `0` whatever value it is given;
its only callers store `0`. -/
def atomicStore (_value : ℤ) : ℤ := 0

def atomicFetchAdd (value n : ℤ) : ℤ := value + n

def atomicFetchSub (value n : ℤ) : ℤ := value - n

/-! ## Spinlocks -/

/-- What one statement of a lock operation does: the lock afterwards, the
interrupt flag of the CPU afterwards, and the program point that comes next, or
`none` when the call has returned. -/
structure Outcome (Lock Point : Type) where
  lock : Lock
  interruptFlag : Bool
  next : Option Point

/-- `struct spinlock`. The field `isIrqEnabledWhenLocked` is `eflags` masked
with the interrupt flag's bit, of which the source only tests whether it is
zero. -/
structure Spinlock where
  locked : ℤ
  isIrqEnabledWhenLocked : Bool
  deriving DecidableEq

def spinlockInit : Spinlock := ⟨0, false⟩

/-- The statements of `spinlock_lock`. -/
inductive LockPoint where
  | saveFlags
  | cli
  | compareExchange
  deriving DecidableEq

def spinlockLock : LockPoint → Spinlock → Bool → Outcome Spinlock LockPoint
  | .saveFlags, p, eflags => ⟨{ p with isIrqEnabledWhenLocked := eflags }, eflags, some .cli⟩
  | .cli, p, eflags =>
      ⟨p, if p.isIrqEnabledWhenLocked then false else eflags, some .compareExchange⟩
  | .compareExchange, p, eflags =>
      match atomicCompareExchange p.locked 0 1 with
      | (locked, true) => ⟨{ p with locked := locked }, eflags, none⟩
      | (locked, false) => ⟨{ p with locked := locked }, eflags, some .compareExchange⟩

/-- The statements of `spinlock_unlock`. -/
inductive UnlockPoint where
  | store
  | sti
  deriving DecidableEq

def spinlockUnlock : UnlockPoint → Spinlock → Bool → Outcome Spinlock UnlockPoint
  | .store, p, eflags => ⟨{ p with locked := atomicStore 0 }, eflags, some .sti⟩
  | .sti, p, eflags => ⟨p, if p.isIrqEnabledWhenLocked then true else eflags, none⟩

/-- The compare-exchange takes a free lock and returns; on a held one it changes
nothing and is tried again. -/
theorem spinlockLock_compareExchange (p : Spinlock) (eflags : Bool) :
    spinlockLock .compareExchange p eflags =
      if p.locked = 0 then ⟨{ p with locked := 1 }, eflags, none⟩
      else ⟨p, eflags, some .compareExchange⟩ := by
  by_cases free : p.locked = 0
  · simp [spinlockLock, atomicCompareExchange, free]
  · simp [spinlockLock, atomicCompareExchange, free]

end CatchOS.Utils
