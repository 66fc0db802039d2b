import StackScript.Machine.Error

/-!
# Value stacks

The stack that instructions work on, its bottom first.
-/

namespace StackScript

abbrev Stack := Array Value

namespace Stack

/-- The top value and the rest. -/
def pop? (s : Stack) : Except Cause (Value × Stack) :=
  match s.back? with
  | some v => .ok (v, s.pop)
  | none => .error (.underflow .pop)

/-- The top `n` values, the topmost last, and the rest. -/
def popMany? (s : Stack) (n : Nat) : Except Cause (List Value × Stack) :=
  if s.size < n then .error (.underflow (.popMany n))
  else .ok ((s.extract (s.size - n) s.size).toList, s.extract 0 (s.size - n))

def read? (s : Stack) (index : Nat) : Except Cause Value :=
  match s[index]? with
  | some v => .ok v
  | none => .error (.underflow (.read index))

def write? (s : Stack) (index : Nat) (v : Value) : Except Cause Stack :=
  if index < s.size then .ok (s.setIfInBounds index v) else .error (.underflow (.write index))

/-- Drops what lies between height `height` and the top `n` values. -/
def keepTop? (s : Stack) (height n : Nat) : Except Cause Stack :=
  if s.size < n ∨ s.size - n < height then .error (.underflow .ret)
  else .ok (s.extract 0 height ++ s.extract (s.size - n) s.size)

/-- Drops what lies above height `height`. -/
def cut (s : Stack) (height : Nat) : Stack := s.extract 0 height

end Stack

end StackScript
