import StackScript.Scalar
import StackScript.Ty

/-!
# Values

Slices and structs never change after they are made; pointers name a place in a store. Composite
values, pointers and closures carry the number under which they were made, by which two of them are
known to be one and the same. A composite numbered zero is known by its content alone.
-/

namespace StackScript

/-- Where a pointer points to. -/
inductive Place
  | cell (index : Nat)
  | slot (frame index : Nat)
deriving DecidableEq, Repr

/-- A script function together with the frame that it was made in. -/
structure Closure where
  id : Nat
  func : Nat
  parent : Nat
  sig : Signature

/-- What a function value runs. -/
inductive Callee
  | host (index : Nat)
  | script (c : Closure)

/-- A function that can be handed to the host. -/
structure FuncValue where
  sig : Signature
  callee : Callee

/-- A value of the language. -/
inductive Value
  | scalar (s : Scalar)
  | slice (id : Nat) (elem : Ty) (items : List Value)
  | struct (id : Nat) (ty : Ty) (fields : List Value)
  | ptr (id : Nat) (elem : Ty) (place : Place)
  | closure (c : Closure)
  | func (f : FuncValue)

/-- A script function as a value for the host. -/
def FuncValue.ofClosure (c : Closure) : FuncValue := ⟨c.sig, .script c⟩

/-- A closure as tools show it, given the name of its function. -/
def Closure.describe (c : Closure) (name : String) : String :=
  s!"Closure({name} " ++ c.sig.text ++ ")"

/-- A function value as tools show it. -/
def FuncValue.describe (f : FuncValue) : String :=
  let callee := match f.callee with
    | .script _ => "script "
    | .host _ => "host "
  "NativeFunc(" ++ callee ++ f.sig.text ++ ")"

/-- Whether two function values run the same function. -/
def FuncValue.same (f g : FuncValue) : Bool :=
  match f.callee, g.callee with
  | .host i, .host j => i == j
  | .script c, .script d => c.id == d.id
  | _, _ => false

namespace Value

@[match_pattern] abbrev nil : Value := scalar .nil

instance : Inhabited Value := ⟨nil⟩

def bool (b : Bool) : Value := scalar (.bool b)

def string (s : String) : Value := scalar (.string s)

/-- An integer reduced into the range of its kind. -/
def ofInt (k : IntKind) (n : Int) : Value := scalar (.ofInt k n)

/-- A value of kind `int`. -/
def int (n : Int) : Value := ofInt .int n

def kind : Value → Kind
  | scalar s => s.kind
  | slice .. => .slice
  | struct .. => .struct
  | ptr .. => .ptr
  | closure _ | func _ => .func

/-- The type that a value has at run time. -/
def type : Value → Ty
  | nil => .any
  | scalar s => .basic s.kind
  | slice _ elem _ => .slice elem
  | struct _ ty _ => ty
  | ptr _ elem _ => .ptr elem
  | closure c => .func c.sig
  | func f => .func f.sig

def scalar? : Value → Option Scalar
  | scalar s => some s
  | _ => none

/-- A value read at another kind, where there is such a conversion. -/
def convert (v : Value) (k : Kind) : Option Value :=
  if v.kind = k then some v else (v.scalar?.bind (·.convert k)).map scalar

/-- An integer given as sixty-four bits, read at a kind; `other` is what a kind that is no integer
kind counts as. -/
def ofWord (other : IntKind) (k : Kind) (n : Int) : Value :=
  match k with
  | .int k => ofInt k n
  | _ => ofInt other n

/-! ## Zero values -/

mutual

/-- The zero of a type that stands behind the names of the type `whole`. -/
def zeroAs (whole : Ty) : Ty → Value
  | .basic k => scalar (.zero k)
  | .struct fs => struct 0 whole (zeroFields fs)
  | .named _ _ t => zeroAs whole t
  | .any | .slice _ | .ptr _ | .func _ => nil
termination_by structural t => t

def zeroField : Field → Value
  | ⟨_, t⟩ => zeroAs t t
termination_by structural f => f

def zeroFields : List Field → List Value
  | [] => []
  | f :: fs => zeroField f :: zeroFields fs
termination_by structural fs => fs

end

/-- The value of a variable that nothing was assigned to. -/
def zero (t : Ty) : Value := zeroAs t t

/-! ## Fitting -/

/-- Whether a value may stand where type `t` is declared: what a call checks of each argument. -/
def fits (v : Value) (t : Ty) : Bool :=
  match t.underlying with
  | .any => true
  | .basic k => v.kind == k
  | .func _ =>
    match v with
    | nil | closure _ | func _ => true
    | _ => false
  | .slice _ | .ptr _ =>
    match v with
    | nil => true
    | _ => v.type.underlying.same t.underlying
  | .struct _ =>
    match v with
    | struct _ ty _ => ty.same t || ty.underlying.same t.underlying
    | _ => false
  | .named .. => false

/-! ## Equality -/

/-- Whether two numbers name one composite. -/
def sameObject (i j : Nat) : Bool := i != 0 && i == j

mutual

/-- Equality of the language. Composites are equal if they are one or have equal parts; pointers
and functions only if they are one. -/
def equal : Value → Value → Bool
  | scalar s, scalar t => s.equal t
  | slice i _ vs, slice j _ ws => sameObject i j || equalAll vs ws
  | struct i t vs, struct j u ws => sameObject i j || (t.same u && equalAll vs ws)
  | ptr i _ _, ptr j _ _ => i == j
  | closure c, closure d => c.id == d.id
  | func f, func g => f.same g
  | _, _ => false
termination_by structural v => v

def equalAll : List Value → List Value → Bool
  | [], [] => true
  | v :: vs, w :: ws => v.equal w && equalAll vs ws
  | _, _ => false
termination_by structural vs => vs

end

/-! ## Text -/

mutual

/-- Text of a value, given the text of what is stored in a place. -/
def textWith (follow : Place → Option String) : Value → Option String
  | scalar s => some s.text
  | slice _ _ vs => do some ("[" ++ " ".intercalate (← textsWith follow vs) ++ "]")
  | struct _ _ vs => do some ("\x7b" ++ " ".intercalate (← textsWith follow vs) ++ "\x7d")
  | ptr _ _ p => do some ("&" ++ (← follow p))
  | closure _ | func _ => some "<func>"
termination_by structural v => v

def textsWith (follow : Place → Option String) : List Value → Option (List String)
  | [] => some []
  | v :: vs => do some ((← v.textWith follow) :: (← textsWith follow vs))
termination_by structural vs => vs

end

end Value

end StackScript
