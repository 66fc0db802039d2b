import Mathlib.Data.List.Forall2
import StackScript.Proofs.Encoding
import StackScript.Proofs.Translation.Scopes

/-!
# What the compiler makes of a program tree

`Code S e p is` says that the instructions `is`, at the site `S` of a finished program, are the code
of the expression `e`, and `p` is what they leave on the stack; `StmtCode` and `StmtsCode` say the
same of statements. Nothing here mentions the state of the compiler: slots are filled, and calls
point to their functions. What holds of all compiled code is proved from these rules.
-/

namespace StackScript

/-! ## Sites -/

/-- A finished program, with what it was compiled from. -/
structure Output where
  registry : Registry
  folds : Bool
  program : Program
  /-- The function of the literal with a label. -/
  literal : Nat → Option Nat
  /-- A function and those around it, the innermost first. -/
  nest : Nat → List Nat
  /-- The statements of a function. -/
  stmts : Nat → List Stmt

/-- The functions around a place in the body of a function, the innermost first; none in the main
body. -/
def Output.chain (o : Output) : Option Nat → List Nat
  | some id => o.nest id
  | none => []

/-- A place in the source of a program: the body it belongs to, the names in scope, and the number
that the next variable gets. -/
structure Site where
  out : Output
  body : Body
  scopes : Scopes
  next : Nat

/-- The value that an instruction pushes, given the pool of constants. -/
def Instr.pushed? (consts : Array Value) : Instr → Option Value
  | .pushInt (some k) n => some (.ofWord .int k n)
  | .pushConst index => consts[index]?
  | _ => none

/-- The return of a number of values. -/
def Instr.ofReturn (n : Nat) : Instr := if n = Word.returnVars then .retVars else .ret n

/-- Instructions that drop some values. -/
def Instr.popping (n : Nat) : List Instr := if 0 < n then [.pop (Assembly.narrow n)] else []

namespace Program

/-- The instruction at an offset. -/
def instr? (p : Program) (offset : Nat) : Option Instr := p.code[offset]?.bind Word.decode?

/-- The instructions lie in the code one after another, from an offset on. -/
def Reads (p : Program) : Nat → List Instr → Prop
  | _, [] => True
  | n, i :: is => p.instr? n = some i ∧ p.Reads (n + 1) is

/-- A function is at a place of the table that it belongs to. -/
structure At (p : Program) (id : Nat) (variadic : Bool) (place : Nat) : Prop where
  info : ∃ f, p.funcs[id]? = some f ∧ f.isVariadic = variadic
  entry : (p.table variadic)[place]? = some id

/-- The declared signature of a function. -/
def sig? (p : Program) (id : Nat) : Option Signature := p.funcs[id]?.bind (·.sig)

/-- The name of a function. -/
def name? (p : Program) (id : Nat) : Option String := p.funcs[id]?.map (·.name)

end Program

namespace Site

def program (S : Site) : Program := S.out.program

def registry (S : Site) : Registry := S.out.registry

/-- The functions around the site, the innermost first. -/
def chain (S : Site) : List Nat := S.out.chain S.body.func

/-- The variable with an address as seen from the site. -/
def varAt (S : Site) : Scope → Nat → Option Nat
  | .global, index => S.program.mainVars[index]?
  | .up n, index => (S.chain[n]?.bind (S.program.funcs[·]?)).bind (·.vars[index]?)

/-- The site where a block begins. -/
def enter (S : Site) : Site := { S with scopes := [] :: S.scopes }

/-- The site behind a block that ends at another one. -/
def leave (S S' : Site) : Site := { S with next := S'.next }

/-- The site behind a new variable. -/
def declare (S : Site) (name : String) : Site :=
  { S with scopes := S.scopes.declare name (.var S.next), next := S.next + 1 }

end Site

/-! ## Constants -/

namespace Value

/-- What the pool of constants does not tell apart. -/
def Alike (v w : Value) : Prop := w.kind = v.kind ∧ (w = v ∨ w.equal v = true)

end Value

namespace Constant

/-- The constant, brought to the kind of a value, is pushed as that value. -/
def Yields (c : Constant) (v : Value) : Prop := ∃ w, c.bind v.kind = .ok w ∧ w.Alike v

end Constant

/-- What the look-ahead takes an expression for, if that is a constant. -/
inductive Means (S : Site) : Expr → Constant → Prop
  | lit {l : Literal} {c : Constant} (h : l.constant = .ok c) : Means S (.lit l) c
  | truth {b : Bool} (h : S.scopes.find? (toString b) = none) :
    Means S (.ident (toString b)) (.bound (.bool b))
  | folded {op : Operator} {x y : Expr} {a b c : Constant} (hfolds : S.out.folds = true)
    (hx : Means S x a) (hy : Means S y b) (h : Constant.fold op a b = .ok c) :
    Means S (.binary op x y) c

/-! ## What lies on the stack -/

/-- What the code of an expression leaves on the stack. -/
inductive Pushed
  /-- A constant, as the value given. -/
  | const (c : Constant) (v : Value)
  | value (t : Ty)
  | results (ts : List Ty)
  /-- A package, which is no value. -/
  | package (path name : String)

namespace Pushed

def operandKind? : Pushed → Option OperandKind
  | const c _ => some c.operandKind
  | value t => some (.bound t.kind)
  | results _ | package .. => none

/-- The types of the values, the topmost first. -/
def types : Pushed → List Ty
  | const _ v => [.basic v.kind]
  | value t => [t]
  | results ts => ts.reverse
  | package .. => []

def isConst : Pushed → Bool
  | const .. => true
  | _ => false

/-- One value. -/
def isSingle : Pushed → Bool
  | const .. | value _ => true
  | _ => false

theorem length_types_of_operandKind? {p : Pushed} {k : OperandKind} (h : p.operandKind? = some k) :
    p.types.length = 1 := by
  cases p with
  | const | value => rfl
  | results | package => cases h

theorem length_types_of_isSingle {p : Pushed} (h : p.isSingle = true) : p.types.length = 1 := by
  cases p with
  | const | value => rfl
  | results | package => cases h

/-- The type of a variable declared with the value. -/
def declared? : Pushed → Option Ty
  | const _ v => some (.basic v.kind)
  | value t => some t
  | _ => none

/-- A constant has its default kind. -/
def Default : Pushed → Prop
  | const c v => v.kind = c.operandKind.default
  | _ => True

/-- The value may go where a type is declared. -/
def Fits (target : Ty) : Pushed → Prop
  | const c v =>
    match target with
    | .any => v.kind = c.operandKind.default
    | t => t.kind.isBasic ∧ v.kind = t.kind
  | value t => t.assignable target = true
  | _ => False

/-- Instructions that bring the value to a kind. -/
inductive Coerced (k : Kind) : Pushed → List Instr → Prop
  | const {c : Constant} {v : Value} (h : v.kind = k) : Coerced k (.const c v) []
  | convertConst {v w : Value} (h : v.kind ≠ k) :
    Coerced k (.const (.bound w) v) [.convert k.nameable]
  | value {t : Ty} (h : t.kind = k) : Coerced k (.value t) []
  | convert {t : Ty} (h : t.kind ≠ k) : Coerced k (.value t) [.convert k.nameable]

/-- Instructions that bring the value to what an operator takes as its second operand. -/
def CoercedSecond (second : Option Kind) (p : Pushed) (is : List Instr) : Prop :=
  match second with
  | some k => p.Coerced k is
  | none => is = [] ∧ p.Default

/-- What a call leaves. -/
def ofResults (sig : Signature) : Pushed :=
  match sig.results with
  | [t] => value t
  | ts => results ts

end Pushed

/-- The kinds an operator chooses for operands of which both may be open. -/
def Operator.settle (op : Operator) (x y : OperandKind) : Except OperandError Resolution :=
  if x.isBound || y.isBound || op.isShift then op.resolve x y
  else op.resolve (.bound x.default) (.bound y.default)

/-! ## Calls -/

/-- A call with `n` arguments behind the first `skip` parameters is one that the signature takes. -/
def Signature.Takes (sig : Signature) (skip n : Nat) : Prop :=
  if sig.variadic then Compile.fixedCount sig skip ≤ n else n = Compile.fixedCount sig skip

/-- Values of some types may go where others are declared. -/
def Assignable (types targets : List Ty) : Prop :=
  List.Forall₂ (fun t target => t.assignable target = true) types targets

/-- Instructions that leave an argument count too large for the field of a variadic call. -/
inductive ArityCode (p : Program) : Arity → List Instr → ArityField → Prop
  | spread : ArityCode p .spread [] .spread
  | count {n : Nat} (h : Assembly.narrow n < Word.overflowArity) :
    ArityCode p (.count n) [] (.count (Assembly.narrow n))
  | overflow {n : Nat} {i : Instr} {v : Value} (h : Word.overflowArity ≤ Assembly.narrow n)
    (hpush : i.pushed? p.consts = some v)
    (hv : (Value.int (Assembly.narrow n - Word.overflowArity)).Alike v) :
    ArityCode p (.count n) [i] .overflow

/-- Instructions that call a function. -/
inductive CallCode (p : Program) : FuncRef → Arity → List Instr → Prop
  | literal {id place : Nat} {variadic : Bool} {arity : Arity} (hat : p.At id variadic place) :
    CallCode p (.script id true) arity
      [.closure variadic place, .callClosure (.ofOperand (Assembly.dynamicOperand arity))]
  | fixed {id place : Nat} {arity : Arity} (hat : p.At id false place) :
    CallCode p (.script id false) arity [.callFunc place]
  | variadic {id place : Nat} {arity : Arity} {is : List Instr} {field : ArityField}
    (hat : p.At id true place) (harity : ArityCode p arity is field) :
    CallCode p (.script id false) arity (is ++ [.callFuncv field place])
  | nativeFixed {addr : Nat} {method : Bool} {arity : Arity} :
    CallCode p (.native addr false method) arity [.callNative addr]
  | nativeVariadic {addr : Nat} {method : Bool} {arity : Arity} {is : List Instr}
    {field : ArityField} (harity : ArityCode p arity is field) :
    CallCode p (.native addr true method) arity (is ++ [.callNativev field addr])

/-- A host symbol is a function of the given signature. -/
inductive NativeSymbol.Calls (r : Registry) : NativeSymbol → Bool → Signature → Prop
  | fixed {addr : Nat} {f : NativeFunc} (h : r.natives.funcs[addr]? = some f) :
    Calls r ⟨addr, .func⟩ false f.func.sig
  | variadic {addr : Nat} {f : NativeFunc} (h : r.natives.funcvs[addr]? = some f) :
    Calls r ⟨addr, .funcv⟩ true f.func.sig

/-- An instruction that pushes what a host symbol stands for. -/
inductive NativeSymbol.Code (r : Registry) : NativeSymbol → Ty → Instr → Prop
  | var {addr : Nat} {v : NativeVar} (h : r.natives.vars[addr]? = some v) :
    Code r ⟨addr, .var⟩ v.ty (.loadNativeVar addr)
  | func {addr : Nat} {f : NativeFunc} (h : r.natives.funcs[addr]? = some f) :
    Code r ⟨addr, .func⟩ (.func f.func.sig) (.pushNative addr)
  | funcv {addr : Nat} {f : NativeFunc} (h : r.natives.funcvs[addr]? = some f) :
    Code r ⟨addr, .funcv⟩ (.func f.func.sig) (.pushNativev addr)

/-- The host symbol that a name stands for. -/
inductive HostAt (S : Site) : Expr → NativeSymbol → Prop
  | universe {name : String} {s : NativeSymbol} (hfind : S.scopes.find? name = none)
    (htrue : name ≠ "true") (hfalse : name ≠ "false")
    (h : S.registry.find? Universe.path name = some s) : HostAt S (.ident name) s
  | member {package path name : String} {s : NativeSymbol}
    (hfind : S.scopes.find? package = some (.package path))
    (h : S.registry.find? path name = some s) : HostAt S (.select (.ident package) name) s

/-- A declared function that a name stands for. -/
structure FuncAt (S : Site) (name : String) (id : Nat) (sig : Signature) : Prop where
  find : S.scopes.find? name = some (.func id)
  sig : S.program.sig? id = some sig
  nest : S.out.nest id = [id]
  name : S.program.name? id = some name
  declared : ∀ label, S.out.literal label ≠ some id

/-- The function of a literal at a site. -/
structure LiteralAt (S : Site) (label : Nat) (body : List Stmt) (id : Nat) (sig : Signature) :
    Prop where
  literal : S.out.literal label = some id
  sig : S.program.sig? id = some sig
  nest : S.out.nest id = id :: S.chain
  stmts : S.out.stmts id = body

/-- A function that the callee of a call names. -/
inductive CalleeAt (S : Site) : Expr → FuncRef → Signature → Prop
  | func {name : String} {id : Nat} {sig : Signature} (h : FuncAt S name id sig) :
    CalleeAt S (.ident name) (.script id false) sig
  | native {f : Expr} {s : NativeSymbol} {variadic : Bool} {sig : Signature} (h : HostAt S f s)
    (hcalls : s.Calls S.registry variadic sig) : CalleeAt S f (.native s.addr variadic false) sig
  | literal {label id : Nat} {ty : FuncTypeExpr} {body : List Stmt} {sig : Signature}
    (h : LiteralAt S label body id sig) : CalleeAt S (.funcLit label ty body) (.script id true) sig

/-- The method of a type. -/
inductive Method (r : Registry) : Ty → String → Nat → Bool → Signature → Prop
  | mk {t u : Ty} {ptrs : Nat} {path type name : String} {s : NativeSymbol} {variadic : Bool}
    {sig : Signature} (hstrip : t.stripPtrs = (ptrs, .named path type u))
    (hfind : r.find? path (Compile.methodKey ptrs type name) = some s)
    (hcalls : s.Calls r variadic sig) : Method r t name s.addr variadic sig

/-! ## Expressions -/

/-- A variable that a name stands for, with its address. -/
structure VarAt (S : Site) (name : String) (id : Nat) (v : Var) (scope : Scope) (index : Nat) :
    Prop where
  find : S.scopes.find? name = some (.var id)
  var : S.program.vars[id]? = some v
  slot : S.varAt scope index = some id

/-- A parameter that a name stands for, with its distance below the frame. -/
inductive ParamAt (S : Site) (name : String) : Nat → Ty → Prop
  | mk {func index : Nat} {ty : Ty} {sig : Signature}
    (hfind : S.scopes.find? name = some (.param func index ty)) (hfunc : S.body.func = some func)
    (hsig : S.program.sig? func = some sig) (hty : sig.params[index]? = some ty) :
    ParamAt S name (S.body.numParams - index) ty

/-- What a pointer type points to. -/
structure PointsTo (t elem : Ty) : Prop where
  kind : t.kind = .ptr
  elem : t.elem? = some elem

mutual

/-- The code of an expression, with what it leaves on the stack. -/
inductive Code (S : Site) : Expr → Pushed → List Instr → Prop
  | var {name : String} {id index : Nat} {v : Var} {scope : Scope}
    (h : VarAt S name id v scope index) :
    Code S (.ident name) (.value v.ty) [.loadVar scope index]
  | param {name : String} {below : Nat} {ty : Ty} (h : ParamAt S name below ty) :
    Code S (.ident name) (.value ty) [.loadArg below]
  | package {name path : String} (hfind : S.scopes.find? name = some (.package path)) :
    Code S (.ident name) (.package path name) []
  | func {name : String} {id place : Nat} {variadic : Bool} {sig : Signature}
    (h : FuncAt S name id sig) (hat : S.program.At id variadic place) :
    Code S (.ident name) (.value (.func sig)) [.hostClosure variadic place]
  | native {f : Expr} {s : NativeSymbol} {t : Ty} {i : Instr} (h : HostAt S f s)
    (hcode : s.Code S.registry t i) : Code S f (.value t) [i]
  | const {e : Expr} {c : Constant} {v : Value} {i : Instr} (h : Means S e c) (hc : c.Yields v)
    (hpush : i.pushed? S.program.consts = some v) : Code S e (.const c v) [i]
  | binary {op : Operator} {x y : Expr} {p q : Pushed} {kx ky : OperandKind} {r : Resolution}
    {is₁ is₂ is₃ is₄ : List Instr} (hx : Code S x p is₁) (hy : Code S y q is₃)
    (hfold : ¬(S.out.folds = true ∧ p.isConst = true ∧ q.isConst = true))
    (hkx : p.operandKind? = some kx) (hky : q.operandKind? = some ky)
    (hr : op.settle kx ky = .ok r) (hp : p.Coerced r.first is₂) (hq : q.CoercedSecond r.second is₄) :
    Code S (.binary op x y) (.value (.basic r.result))
      (is₁ ++ is₂ ++ (is₃ ++ is₄) ++ [.builtinOp r.operand.nameable (some op)])
  | call {f : Expr} {args : List Expr} {spread : Bool} {ref : FuncRef} {sig : Signature}
    {arity : Arity} {is₁ is₂ : List Instr} (hf : CalleeAt S f ref sig)
    (hargs : Passed S sig 0 args spread arity is₁) (hcall : CallCode S.program ref arity is₂) :
    Code S (.call f args spread) (.ofResults sig) (is₁ ++ is₂)
  | callMethod {x : Expr} {name : String} {args : List Expr} {spread : Bool} {t recv : Ty}
    {addr : Nat} {variadic : Bool} {params : List Ty} {sig : Signature} {arity : Arity}
    {is₁ is₂ is₃ : List Instr} (hx : Code S x (.value t) is₁)
    (hmethod : Method S.registry t name addr variadic sig) (hparams : sig.params = recv :: params)
    (hrecv : t.assignable recv = true) (hargs : Passed S sig 1 args spread arity is₂)
    (hcall : CallCode S.program (.native addr variadic true) (Compile.withReceiver 1 arity) is₃) :
    Code S (.call (.select x name) args spread) (.ofResults sig) (is₁ ++ is₂ ++ is₃)
  | callValue {f : Expr} {args : List Expr} {spread : Bool} {t : Ty} {sig : Signature}
    {arity : Arity} {is₁ is₂ : List Instr} (hargs : Passed S sig 0 args spread arity is₁)
    (hf : Code S f (.value t) is₂) (hsig : t.signature? = some sig) :
    Code S (.call f args spread) (.ofResults sig)
      (is₁ ++ is₂ ++ [.callValue (.ofOperand (Assembly.dynamicOperand arity))])
  | field {x : Expr} {name : String} {t base ty : Ty} {ptrs index : Nat} {is : List Instr}
    (hx : Code S x (.value t) is) (hstrip : t.stripPtrs = (ptrs, base))
    (hfield : base.field? name = some (index, ty)) :
    Code S (.select x name) (.value ty)
      (is ++ List.replicate ptrs .deref ++ [.field (Assembly.narrow index)])
  | funcLit {label id place : Nat} {ty : FuncTypeExpr} {body : List Stmt} {variadic : Bool}
    {sig : Signature} (h : LiteralAt S label body id sig) (hat : S.program.At id variadic place) :
    Code S (.funcLit label ty body) (.value (.func sig)) [.hostClosure variadic place]
  | addrOf {name : String} {id index : Nat} {v : Var} {scope : Scope}
    (h : VarAt S name id v scope index) :
    Code S (.addrOf (.ident name)) (.value (.ptr v.ty)) [.addrVar scope index]
  | deref {x : Expr} {t elem : Ty} {is : List Instr} (hx : Code S x (.value t) is)
    (hptr : PointsTo t elem) :
    Code S (.deref x) (.value elem) (is ++ [.addrOp elem.kind.nameable (some .load)])

/-- The code of the arguments of a call, behind the first `skip` parameters. -/
inductive Passed (S : Site) : Signature → Nat → List Expr → Bool → Arity → List Instr → Prop
  | spread {sig : Signature} {skip : Nat} {args : List Expr} {is : List Instr}
    (hvariadic : sig.variadic = true) (h : Each S args (sig.params.drop skip) is) :
    Passed S sig skip args true .spread is
  | sole {sig : Signature} {skip : Nat} {e : Expr} {types : List Ty} {is : List Instr}
    (h : Code S e (.results types) is) (htypes : 2 ≤ types.length)
    (htakes : sig.Takes skip types.length)
    (hfit : Assignable types (Compile.argTypes sig skip types.length)) :
    Passed S sig skip [e] false (.count types.length) is
  | each {sig : Signature} {skip : Nat} {args : List Expr} {is : List Instr}
    (htakes : sig.Takes skip args.length) (h : Each S args (Compile.argTypes sig skip args.length) is) :
    Passed S sig skip args false (.count args.length) is

/-- The code of several expressions, each brought to a type. -/
inductive Each (S : Site) : List Expr → List Ty → List Instr → Prop
  | nil : Each S [] [] []
  | cons {e : Expr} {es : List Expr} {t : Ty} {ts : List Ty} {p : Pushed} {is₁ is₂ : List Instr}
    (h : Code S e p is₁) (hfit : p.Fits t) (hes : Each S es ts is₂) :
    Each S (e :: es) (t :: ts) (is₁ ++ is₂)

end

end StackScript
