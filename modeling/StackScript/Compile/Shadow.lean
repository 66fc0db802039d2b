import StackScript.Constant.Basic
import StackScript.Task

/-!
# The shadow stack

While code is emitted, the compiler keeps for every value that the code leaves on the stack an entry
that says what is known of it. An untyped constant holds a reserved slot until its kind is decided.
-/

namespace StackScript

/-- Whether the word that pushes a constant is there already. -/
inductive ConstSlot
  | pending
  | reserved (offset : Nat)
  | emitted
deriving DecidableEq, Repr

/-- A function named by an expression. -/
inductive FuncRef
  | script (id : Nat) (literal : Bool)
  | native (addr : Nat) (variadic method : Bool)
deriving DecidableEq, Repr

/-- What is known of an expression. -/
inductive Inferred
  | const (c : Constant) (slot : ConstSlot)
  | value (t : Ty)
  | results (ts : List Ty)
  | func (f : FuncRef) (sig : Signature)
  | package (path name : String)

namespace Inferred

def operandKind? : Inferred → Option OperandKind
  | const c _ => some c.operandKind
  | value t => some (.bound t.kind)
  | func .. => some (.bound .func)
  | results _ | package .. => none

/-- Values that the entry stands for. -/
def width : Inferred → Nat
  | results ts => ts.length
  | _ => 1

def describe (s : Store) : Inferred → String
  | const c _ => "constant " ++ (c.text? s).getD ""
  | value t => "value of type " ++ t.text
  | results ts => s!"{ts.length} values"
  | func _ sig => "function " ++ sig.text
  | package _ name => "package " ++ name

end Inferred

/-- The entries, the topmost first. -/
abbrev Shadow := List Inferred

namespace Shadow

def pop? : Shadow → Except Fault (Inferred × Shadow)
  | e :: s => .ok (e, s)
  | [] => .error (.because "inference stack underflow")

/-- The entry at an index from the bottom, or from the top if the index is negative. -/
def get? (s : Shadow) (index : Int) : Except Fault Inferred :=
  let place := if index < 0 then s.length + index else index
  match if place < 0 then none else s.reverse[place.toNat]? with
  | some e => .ok e
  | none =>
    let len := s.length
    .error (.because s!"inference stack index {index} out of range (len {len})")

def top? (s : Shadow) : Except Fault Inferred :=
  match s with
  | e :: _ => .ok e
  | [] => get? s (-1)

def replaceTop? (e : Inferred) : Shadow → Except Fault Shadow
  | _ :: s => .ok (e :: s)
  | [] => .error (.because "inference stack is empty")

/-- Replaces the top entries by others, of which the last comes to the top. -/
def replace? (s : Shadow) (consumed : Nat) (produced : List Inferred) : Except Fault Shadow :=
  let len := s.length
  if consumed ≤ len then .ok (produced.reverse ++ s.drop consumed)
  else .error (.because s!"inference stack underflow: ret({consumed}) with {len} entries")

/-- Drops entries from the top until `n` are left. -/
def cutTo? (s : Shadow) (n : Nat) : Except Fault Shadow :=
  if n ≤ s.length then .ok (s.drop (s.length - n))
  else .error (.because s!"set_len({n}) grows the inference stack")

end Shadow

end StackScript
