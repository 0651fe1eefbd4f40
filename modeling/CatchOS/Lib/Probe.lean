import Mathlib.Control.Basic

/-!
# Programs that read a memory

A program that reads one cell after another, where the next cell may depend on what was
read before, is a tree: it is done with a result, or it reads a cell and goes on with the
value found there. On a memory such a program has a result (`run`), and a list of the cells
that it reads (`reads`). The list is that of the program text, in its order, so that a
statement about all reads is one about the program.

Programs are put together by `bind`; the lemmas say what this does to the result and to
the reads.
-/

set_option autoImplicit false

namespace CatchOS.Lib

universe u v

/-- A program that reads cells and has a result. -/
inductive Probe (Address Value : Type u) (Result : Type v) where
  | done (result : Result)
  | read (address : Address) (next : Value → Probe Address Value Result)

namespace Probe

variable {Address Value : Type u} {Result Other : Type v}

/-- Go on with the result of another program. -/
def bind (program : Probe Address Value Result) (next : Result → Probe Address Value Other) :
    Probe Address Value Other :=
  match program with
  | .done result => next result
  | .read address rest => .read address fun value => bind (rest value) next

instance : Monad (Probe Address Value) where
  pure := .done
  bind := bind

/-- Read one cell. -/
def ask (address : Address) : Probe Address Value Value := .read address .done

/-- Read cells and forget what is in them. -/
def touch : List Address → Probe Address Value PUnit.{v + 1}
  | [] => .done .unit
  | address :: rest => .read address fun _ => touch rest

/-- Programs one after another, with their results put together. -/
def collect {Index : Type*} (program : Index → Probe Address Value (List Result)) :
    List Index → Probe Address Value (List Result)
  | [] => .done []
  | index :: rest => bind (program index) fun first =>
      bind (collect program rest) fun others => .done (first ++ others)

/-- The result on a memory. -/
def run (memory : Address → Value) : Probe Address Value Result → Result
  | .done result => result
  | .read address next => run memory (next (memory address))

/-- The cells that are read on a memory. -/
def reads (memory : Address → Value) : Probe Address Value Result → List Address
  | .done _ => []
  | .read address next => address :: reads memory (next (memory address))

variable (memory : Address → Value)

@[simp] theorem run_done (result : Result) :
    run memory (.done result : Probe Address Value Result) = result := rfl

@[simp] theorem run_pure (result : Result) :
    run memory (pure result : Probe Address Value Result) = result := rfl

@[simp] theorem reads_done (result : Result) :
    reads memory (.done result : Probe Address Value Result) = [] := rfl

@[simp] theorem reads_pure (result : Result) :
    reads memory (pure result : Probe Address Value Result) = [] := rfl

@[simp] theorem run_read (address : Address) (next : Value → Probe Address Value Result) :
    run memory (.read address next) = run memory (next (memory address)) := rfl

@[simp] theorem reads_read (address : Address) (next : Value → Probe Address Value Result) :
    reads memory (.read address next) = address :: reads memory (next (memory address)) := rfl

@[simp] theorem run_ask (address : Address) :
    run memory (ask address : Probe Address Value Value) = memory address := rfl

@[simp] theorem reads_ask (address : Address) :
    reads memory (ask address : Probe Address Value Value) = [address] := rfl

@[simp] theorem reads_touch (addresses : List Address) :
    reads memory (touch addresses : Probe Address Value PUnit.{v + 1}) = addresses := by
  induction addresses with
  | nil => rfl
  | cons address rest ih => exact congrArg (address :: ·) ih

@[simp] theorem run_bind (program : Probe Address Value Result)
    (next : Result → Probe Address Value Other) :
    run memory (program >>= next) = run memory (next (run memory program)) := by
  induction program with
  | done result => rfl
  | read address rest ih => exact ih (memory address)

@[simp] theorem reads_bind (program : Probe Address Value Result)
    (next : Result → Probe Address Value Other) :
    reads memory (program >>= next) =
      reads memory program ++ reads memory (next (run memory program)) := by
  induction program with
  | done result => rfl
  | read address rest ih => exact congrArg (address :: ·) (ih (memory address))

/-- A cell that is read first, and what is read with its value. -/
theorem reads_ask_bind {Last : Type u} (address : Address)
    (next : Value → Probe Address Value Last) :
    reads memory (ask address >>= next) = address :: reads memory (next (memory address)) := rfl

theorem run_ask_bind {Last : Type u} (address : Address)
    (next : Value → Probe Address Value Last) :
    run memory (ask address >>= next) = run memory (next (memory address)) := rfl

section Choice

variable (c : Prop) [Decidable c] (first second : Probe Address Value Result)

theorem run_ite :
    run memory (if c then first else second) =
      if c then run memory first else run memory second :=
  apply_ite (run memory) c first second

theorem reads_ite :
    reads memory (if c then first else second) =
      if c then reads memory first else reads memory second :=
  apply_ite (reads memory) c first second

end Choice

section Collect

variable {Index : Type*} (programs : Index → Probe Address Value (List Result))

@[simp] theorem run_collect (indices : List Index) :
    run memory (collect programs indices) =
      indices.flatMap fun index => run memory (programs index) := by
  induction indices with
  | nil => rfl
  | cons index rest ih =>
      have first := run_bind memory (programs index) fun first =>
        bind (collect programs rest) fun others => .done (first ++ others)
      have others := run_bind memory (collect programs rest) fun others =>
        (.done (run memory (programs index) ++ others) : Probe Address Value (List Result))
      exact first.trans (others.trans (congrArg (run memory (programs index) ++ ·) ih))

@[simp] theorem reads_collect (indices : List Index) :
    reads memory (collect programs indices) =
      indices.flatMap fun index => reads memory (programs index) := by
  induction indices with
  | nil => rfl
  | cons index rest ih =>
      have first := reads_bind memory (programs index) fun first =>
        bind (collect programs rest) fun others => .done (first ++ others)
      have others := reads_bind memory (collect programs rest) fun others =>
        (.done (run memory (programs index) ++ others) : Probe Address Value (List Result))
      refine first.trans (congrArg (reads memory (programs index) ++ ·) ?_)
      exact others.trans ((List.append_nil _).trans ih)

end Collect

end Probe

end CatchOS.Lib
