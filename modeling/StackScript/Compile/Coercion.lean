import StackScript.Compile.State

/-!
# Bringing the top value to a type

An untyped constant is pushed as an empty slot of the code. When its place in the program decides
its kind, the constant is bound and the slot is filled; any other value is converted by an
instruction, or must have a fitting type already.
-/

namespace StackScript

namespace Compile

/-- Pushes a constant: a typed one at once, an untyped one as a slot. -/
def pushConstant (c : Constant) : Compile Unit := do
  match c with
  | .bound v => do
    discard (asm (Assembly.pushValue v))
    push (.const c .emitted)
  | _ => do
    let offset ← asm Assembly.reserve
    push (.const c (.reserved offset))

/-- Fills the slot of a constant. -/
def fillSlot (offset : Nat) (v : Value) : Compile Unit := do
  let w ← asm (Assembly.valueWord v)
  asm (Assembly.patch offset w)

/-- Brings the top value to a kind. -/
def coerceTop (k : Kind) : Compile Unit := do
  match ← pop with
  | .const c (.reserved offset) => do
    let v ← ofConstant (c.bind k)
    fillSlot offset v
    push (.const (.bound v) .emitted)
  | .const (.bound v) slot =>
    if v.kind = k then push (.const (.bound v) slot)
    else do
      if slot ≠ .emitted then fail (.internal "coercing an unemitted constant")
      asm (Assembly.convert k)
      push (.value (.basic k))
  | .value t =>
    if t.kind = k then push (.value t)
    else do
      asm (Assembly.convert k)
      push (.value (.basic k))
  | e => push e

/-- Gives an untyped constant on top its default kind. -/
def bindDefaultTop : Compile Unit := do
  match ← top with
  | .const c (.reserved _) => coerceTop c.operandKind.default
  | _ => pure ()

/-- The kind that a constant takes on in a place of the given type. -/
def constantKind (c : Constant) (target : Ty) (context : String) : Compile Kind :=
  match target with
  | .any => pure c.operandKind.default
  | t =>
    if t.kind.isBasic then pure t.kind
    else fail (.typeMismatch t.text c.operandKind.text context)

/-- That a constant goes into a place of the given type, its slot filled. -/
def fitConstant (c : Constant) (slot : ConstSlot) (target : Ty) (context : String) :
    Compile Unit := do
  let k ← constantKind c target context
  match c, slot with
  | c, .reserved offset => do
    let v ← ofConstant (c.bind k)
    fillSlot offset v
  | .bound v, _ =>
    if v.kind = k then pure () else fail (.typeMismatch target.text v.kind.text context)
  | _, _ => pure ()

/-- That values of a type go into places of another. -/
def checkAssignable (t target : Ty) (context : String) : Compile Unit :=
  if t.assignable target then pure () else fail (.typeMismatch target.text t.text context)

/-- That the top value goes into a place of the given type, which it then has. -/
def fitTop (target : Ty) (context : String) : Compile Unit := do
  match ← pop with
  | .const c slot => fitConstant c slot target context
  | .value t => checkAssignable t target context
  | .results [] => fail (.notAValue s!"empty result in {context}")
  | .results _ => fail (.multiValue context)
  | e => fail (.notAValue (e.describe .empty))
  push (.value target)

/-- Drops the top value, which is of its default kind if it is a constant. -/
def discardTop : Compile Unit := do
  bindDefaultTop
  discard pop
  asm (Assembly.pop 1)

end Compile

end StackScript
