/-!
# Tasks

A task changes a state and gives a result, an error of its own kind, or a fault. A fault is a
broken promise of the caller: no error value describes it, and nothing recovers from it. The state
reached before an error remains.
-/

namespace StackScript

/-- A broken promise, with the text of the check that noticed it if there was one. -/
structure Fault where
  text : Option String
deriving DecidableEq, Repr

namespace Fault

/-- Noticed by a check of its own. -/
def because (text : String) : Fault := ⟨some text⟩

/-- An index outside its collection or a number outside its range. -/
def outOfRange : Fault := ⟨none⟩

end Fault

/-- Why a task has no result. -/
inductive Stop (ε : Type)
  | error (e : ε)
  | fault (f : Fault)
deriving DecidableEq, Repr

/-- A computation on a state of type `σ` with errors of type `ε`. -/
abbrev Task (ε σ : Type) := ExceptT (Stop ε) (StateM σ)

namespace Task

variable {ε ε' σ τ α : Type}

/-- Ends with an error. -/
def fail (e : ε) : Task ε σ α := throw (.error e)

/-- Ends with a fault. -/
def fault (f : Fault) : Task ε σ α := throw (.fault f)

def ofExcept : Except ε α → Task ε σ α
  | .ok a => pure a
  | .error e => fail e

def ofChecked : Except Fault α → Task ε σ α
  | .ok a => pure a
  | .error f => fault f

/-- The result, or a fault when an index finds nothing. -/
def expect : Option α → Task ε σ α
  | some a => pure a
  | none => fault .outOfRange

/-- Runs a task on a state. -/
def exec (t : Task ε σ α) (s : σ) : Except (Stop ε) α × σ := t.run.run s

/-- Reads errors as errors of another kind. -/
def mapError (f : ε → ε') (t : Task ε σ α) : Task ε' σ α :=
  ExceptT.mk do
    match ← t.run with
    | .ok a => pure (.ok a)
    | .error (.error e) => pure (.error (.error (f e)))
    | .error (.fault x) => pure (.error (.fault x))

/-- Runs a task on a part of the state. -/
def zoom (get : τ → σ) (put : σ → τ → τ) (t : Task ε σ α) : Task ε τ α :=
  ExceptT.mk fun whole =>
    let (r, part) := t.exec (get whole)
    (r, put part whole)

end Task

end StackScript
