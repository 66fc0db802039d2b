import StackScript.Program
import StackScript.Host.Registry
import StackScript.Text.Quoted

/-!
# Listings

A program as text: the main body and every function under a heading, one instruction to a line.
-/

namespace StackScript

namespace Listing

/-- A name with its package in front, if that has a name. -/
def qualified (path name : String) : String := if path.isEmpty then name else path ++ "." ++ name

def scopeText : Scope → String
  | .global => "global"
  | .up n => s!"up {n}"

def arityFieldText : ArityField → String
  | .spread => "..."
  | .overflow => toString Word.overflowArity ++ "+"
  | .count n => toString n

def arityText : Arity → String
  | .spread => "..."
  | .count n => toString n

def funcText : Option FuncInfo → String
  | some f => f.name
  | none => "<unresolved>"

/-- The name of a host function, or its address if there is none. -/
def nativeText (f : Option NativeFunc) (addr : Nat) : String :=
  match f with
  | some f => qualified f.path f.name
  | none => s!"@{addr}"

/-- A kind and an operator, if the operand holds both. -/
def operatorText (k : Option Kind) (op : Option String) : String :=
  match k, op with
  | some k, some op => k.text ++ " " ++ op
  | _, _ => "<bad operand>"

/-- A constant in a listing: its kind and its quoted text. -/
def constText (s : Store) (index : Nat) (v : Option Value) : Except Fault String :=
  match v with
  | none => .ok s!"#{index} <missing>"
  | some v =>
    match s.text? v with
    | some t =>
      let kind := v.kind.text
      let shown := quoted t
      .ok s!"#{index} ({kind} {shown})"
    | none => .error .outOfRange

/-- What follows the name of an instruction. -/
def detail (n : Natives) (s : Store) (p : Program) (i : Instr) : Except Fault String :=
  match i with
  | .nop | .deref => .ok ""
  | .pushInt k v =>
    let kind := (k.map Kind.text).getD "?"
    .ok s!"{kind} {v}"
  | .pushConst index => constText s index p.consts[index]?
  | .pop k => .ok (toString k)
  | .loadVar scope index | .storeVar scope index | .addrVar scope index =>
    let frame := scopeText scope
    .ok s!"{frame} [{index}]"
  | .loadArg below | .storeArg below => .ok s!"arg -{below}"
  | .loadNativeVar addr =>
    match n.vars[addr]? with
    | some v => .ok (v.path ++ "." ++ v.name)
    | none => .ok s!"@{addr}"
  | .addrOp k op => .ok (operatorText k (op.map AddressOperator.text))
  | .builtinOp k op => .ok (operatorText k (op.map Operator.text))
  | .convert k => .ok ((k.map Kind.text).getD "<bad kind>")
  | .callFunc index => do return funcText (← p.tableFunc false index)
  | .callFuncv arity index => do
    let f := funcText (← p.tableFunc true index)
    return f ++ " argc=" ++ arityFieldText arity
  | .callNative addr | .pushNative addr => .ok (nativeText n.funcs[addr]? addr)
  | .callNativev arity addr =>
    .ok (nativeText n.funcvs[addr]? addr ++ " argc=" ++ arityFieldText arity)
  | .pushNativev addr => .ok (nativeText n.funcvs[addr]? addr)
  | .closure variadic index | .hostClosure variadic index => do
    return funcText (← p.tableFunc variadic index)
  | .callClosure arity | .callValue arity => .ok ("argc=" ++ arityText arity)
  | .field index => .ok s!".{index}"
  | .ret k => .ok (toString k)
  | .retVars => .ok "vars"

/-- A text padded on one side to a least width. -/
def padRight (width : Nat) (s : String) : String :=
  s ++ String.ofList (List.replicate (width - s.length) ' ')

def padLeft (width : Nat) (fill : Char) (s : String) : String :=
  String.ofList (List.replicate (width - s.length) fill) ++ s

/-- A word as a line of a listing. -/
def render (n : Natives) (s : Store) (p : Program) (w : Word) : Except Fault String :=
  match w.opcode? with
  | none => .ok w.badText
  | some op => do
    let more ← detail n s p (.ofOpcode w op)
    return if more.isEmpty then op.text else padRight 14 op.text ++ " " ++ more

def rule : String := String.ofList (List.replicate 40 '═') ++ "\n"

/-- Lines of the words from `offset` up to `stop`. -/
def lines (n : Natives) (s : Store) (p : Program) (stop offset : Nat) :
    Except Fault (List String) :=
  if offset < stop then
    match p.code[offset]? with
    | none => .error .outOfRange
    | some w => do
      let line ← render n s p w
      let rest ← lines n s p stop (offset + 1)
      return (padLeft 4 '0' (toString offset) ++ "   " ++ line ++ "\n") :: rest
  else .ok []
termination_by stop - offset

/-- A heading and the words under it. -/
def part (n : Natives) (s : Store) (p : Program) (name : String) (start stop : Nat) :
    Except Fault String :=
  if stop < start then .error .outOfRange
  else do
    let body ← lines n s p stop start
    let count := stop - start
    let heading := s!" {name}\n {count} instructions\n"
    return rule ++ heading ++ rule ++ String.join body ++ "\n"

def funcSection (n : Natives) (s : Store) (p : Program) (f : FuncInfo) : Except Fault String :=
  match f.entry, f.stop with
  | some entry, some stop =>
    let counts := s!"(depth {f.depth}, {f.numIn} in, {f.numOut} out)"
    part n s p (f.name ++ " " ++ counts) entry stop
  | _, _ => .ok ""

/-- The listing of a program. -/
def text (n : Natives) (s : Store) (p : Program) : Except Fault String := do
  let main ← part n s p "main" 0 p.mainEnd
  let funcs ← p.funcs.toList.mapM (funcSection n s p)
  return "=== BYTECODE PROGRAM ===\n\n" ++ main ++ String.join funcs

end Listing

end StackScript
