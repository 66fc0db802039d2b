import StackScript.Kind

/-!
# Types

Types of variables, parameters and values. A named type is identified by package and name alone;
all others by their structure.
-/

namespace StackScript

mutual

/-- A type of the language. -/
inductive Ty
  | basic (k : Kind)
  | any
  | slice (elem : Ty)
  | ptr (elem : Ty)
  | func (sig : Signature)
  | struct (fields : List Field)
  | named (path name : String) (underlying : Ty)

/-- Parameter and result types of a function. The last parameter of a variadic one is the slice
that receives the trailing arguments. -/
structure Signature where
  params : List Ty
  results : List Ty
  variadic : Bool

/-- A field of a struct type. -/
structure Field where
  name : String
  ty : Ty

end

namespace Ty

instance : Inhabited Ty := ⟨any⟩

/-- The type behind all names. -/
def underlying : Ty → Ty
  | named _ _ t => t.underlying
  | t => t

def kind : Ty → Kind
  | basic k => k
  | any => .interface
  | slice _ => .slice
  | ptr _ => .ptr
  | func _ => .func
  | struct _ => .struct
  | named _ _ t => t.kind

/-- What a slice holds or a pointer points to. -/
def elem? (t : Ty) : Option Ty :=
  match t.underlying with
  | slice e | ptr e => some e
  | _ => none

def signature? (t : Ty) : Option Signature :=
  match t.underlying with
  | func sig => some sig
  | _ => none

/-- Strips the outer pointers and counts them; a named type is not looked into. -/
def stripPtrs : Ty → Nat × Ty
  | ptr e => let (n, t) := e.stripPtrs; (n + 1, t)
  | t => (0, t)

/-- Position and type of a field. -/
def field? (t : Ty) (name : String) : Option (Nat × Ty) :=
  match t.underlying with
  | struct fields => (fields.zipIdx.find? (·.1.name == name)).map fun (f, i) => (i, f.ty)
  | _ => none

end Ty

namespace Signature

instance : Inhabited Signature := ⟨⟨[], [], false⟩⟩

/-- The type of one trailing argument of a variadic function. -/
def variadicElem? (sig : Signature) : Option Ty :=
  if sig.variadic then sig.params.getLast?.bind Ty.elem? else none

end Signature

/-! ## Identity -/

mutual

/-- Identity of types. -/
def Ty.same : Ty → Ty → Bool
  | .basic k, .basic l => k == l
  | .any, .any => true
  | .slice t, .slice u => t.same u
  | .ptr t, .ptr u => t.same u
  | .func s, .func r => s.same r
  | .struct fs, .struct gs => sameFields fs gs
  | .named p n _, .named q m _ => p == q && n == m
  | _, _ => false
termination_by structural t => t

def Signature.same : Signature → Signature → Bool
  | ⟨ps, rs, v⟩, ⟨qs, ts, w⟩ => sameTypes ps qs && sameTypes rs ts && v == w
termination_by structural s => s

def sameTypes : List Ty → List Ty → Bool
  | [], [] => true
  | t :: ts, u :: us => t.same u && sameTypes ts us
  | _, _ => false
termination_by structural ts => ts

def Field.same : Field → Field → Bool
  | ⟨n, t⟩, ⟨m, u⟩ => n == m && t.same u
termination_by structural f => f

def sameFields : List Field → List Field → Bool
  | [], [] => true
  | f :: fs, g :: gs => f.same g && sameFields fs gs
  | _, _ => false
termination_by structural fs => fs

end

/-- Whether a value of type `t` may be stored where `target` is declared. -/
def Ty.assignable (t target : Ty) : Bool :=
  match target with
  | .any => true
  | _ => t.same target

/-! ## Text -/

mutual

/-- A type in source form; a type of the universe package has no package in front. -/
def Ty.text : Ty → String
  | .basic k => k.text
  | .any => "any"
  | .slice e => "[]" ++ e.text
  | .ptr e => "*" ++ e.text
  | .func s => s.text
  | .struct fs => "struct \x7b " ++ fieldsText fs ++ "\x7d"
  | .named p n _ => if p.isEmpty then n else p ++ "." ++ n
termination_by structural t => t

def Signature.text : Signature → String
  | ⟨ps, rs, v⟩ => "func(" ++ paramsText v ps ++ ")" ++ resultsText rs
termination_by structural s => s

/-- Parameters between commas; the last of a variadic function shows its element type. -/
def paramsText (variadic : Bool) : List Ty → String
  | [] => ""
  | [t] => match variadic, elemText? t with
    | true, some e => "..." ++ e
    | _, _ => t.text
  | t :: ts => t.text ++ ", " ++ paramsText variadic ts
termination_by structural ts => ts

/-- Text of the element type behind names. -/
def elemText? : Ty → Option String
  | .slice e => some e.text
  | .ptr e => some e.text
  | .named _ _ t => elemText? t
  | _ => none
termination_by structural t => t

/-- Results behind the parameters: nothing, one type, or a list in parentheses. -/
def resultsText : List Ty → String
  | [] => ""
  | [t] => " " ++ t.text
  | t :: ts => " (" ++ t.text ++ restText ts ++ ")"
termination_by structural ts => ts

def restText : List Ty → String
  | [] => ""
  | t :: ts => ", " ++ t.text ++ restText ts
termination_by structural ts => ts

def Field.text : Field → String
  | ⟨n, t⟩ => n ++ " " ++ t.text ++ "; "
termination_by structural f => f

def fieldsText : List Field → String
  | [] => ""
  | f :: fs => f.text ++ fieldsText fs
termination_by structural fs => fs

end

end StackScript
