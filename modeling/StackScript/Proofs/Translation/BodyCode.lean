import StackScript.Proofs.Translation.Code

/-!
# What the compiler makes of statements and functions

`StmtCode S s is S'` says that `is` is the code of the statement `s` at the site `S`, and that `S'`
is the site behind it. `FuncCode` and `FileCode` say where the code of bodies
lies in a finished program.
-/

namespace StackScript

/-! ## Targets -/

/-- The address of a target that an update goes to. -/
inductive Addressed (S : Site) : Expr → Ty → List Instr → Prop
  | var {name : String} {id index : Nat} {v : Var} {scope : Scope}
    (h : VarAt S name id v scope index) : Addressed S (.ident name) v.ty [.addrVar scope index]
  | through {x : Expr} {t elem : Ty} {is : List Instr} (hx : Code S x (.value t) is)
    (hptr : PointsTo t elem) : Addressed S (.deref x) elem is

/-- Instructions that give the value on top to a target, and the site behind it. -/
inductive Given (S : Site) : Bool → Expr → Pushed → List Instr → Site → Prop
  | blank {defines : Bool} {p : Pushed} (hp : p.isSingle = true) (hdefault : p.Default) :
    Given S defines (.ident "_") p [.pop 1] S
  | var {name : String} {id index : Nat} {v : Var} {scope : Scope} {p : Pushed}
    (hname : name ≠ "_") (h : VarAt S name id v scope index) (hfit : p.Fits v.ty) :
    Given S false (.ident name) p [.storeVar scope index] S
  | param {name : String} {below : Nat} {ty : Ty} {p : Pushed} (hname : name ≠ "_")
    (h : ParamAt S name below ty) (hfit : p.Fits ty) :
    Given S false (.ident name) p [.storeArg below] S
  | through {x : Expr} {t elem : Ty} {p : Pushed} {is : List Instr} (hx : Code S x (.value t) is)
    (hptr : PointsTo t elem) (hfit : p.Fits elem) :
    Given S false (.deref x) p (is ++ [.addrOp elem.kind.nameable (some .store)]) S
  | define {name : String} {index : Nat} {v : Var} {scope : Scope} {p : Pushed}
    (hname : name ≠ "_") (hfresh : S.scopes.declares name = false)
    (h : VarAt (S.declare name) name S.next v scope index)
    (hty : p.declared? = some v.ty) (hdefault : p.Default) :
    Given S true (.ident name) p [.storeVar scope index] (S.declare name)

/-- Values go to targets, the topmost to the first. -/
inductive GivenAll : Site → Bool → List Expr → List Pushed → List Instr → Site → Prop
  | nil {S : Site} {defines : Bool} : GivenAll S defines [] [] [] S
  | cons {S S' S'' : Site} {defines : Bool} {x : Expr} {xs : List Expr} {p : Pushed}
    {ps : List Pushed} {is₁ is₂ : List Instr} (h : Given S defines x p is₁ S')
    (hs : GivenAll S' defines xs ps is₂ S'') :
    GivenAll S defines (x :: xs) (p :: ps) (is₁ ++ is₂) S''

/-! ## Values -/

/-- The code of several expressions of one value each, the topmost value first. -/
inductive Singles (S : Site) : List Expr → List Pushed → List Instr → Prop
  | nil : Singles S [] [] []
  | cons {e : Expr} {es : List Expr} {p : Pushed} {ps : List Pushed} {is₁ is₂ : List Instr}
    (h : Code S e p is₁) (hp : p.isSingle = true) (hs : Singles S es ps is₂) :
    Singles S (e :: es) (ps ++ [p]) (is₁ ++ is₂)

/-- The code of the values of an assignment to `n` targets. -/
inductive Values (S : Site) (n : Nat) : List Expr → List Pushed → List Instr → Prop
  | sole {e : Expr} {types : List Ty} {is : List Instr} (h : Code S e (.results types) is)
    (hn : types.length = n) : Values S n [e] (types.reverse.map .value) is
  | each {es : List Expr} {ps : List Pushed} {is : List Instr} (hn : es.length = n)
    (h : Singles S es ps is) : Values S n es ps is

/-! ## Updates -/

/-- The code of an update by an operator. -/
inductive Updated (S : Site) (op : Operator) : Expr → Expr → List Instr → Prop
  | addr {x value : Expr} {t : Ty} {p : Pushed} {k : OperandKind} {r : Resolution}
    {is₁ is₂ is₃ : List Instr} (hv : Code S value p is₁) (hx : Addressed S x t is₃)
    (hk : p.operandKind? = some k) (hr : op.resolve (.bound t.kind) k = .ok r)
    (hfirst : r.first = t.kind) (hsecond : p.CoercedSecond r.second is₂) :
    Updated S op x value
      (is₁ ++ is₂ ++ is₃ ++ [.addrOp t.kind.nameable (AddressOperator.update op).nameable])
  | param {name : String} {value : Expr} {below : Nat} {t : Ty} {p : Pushed} {k : OperandKind}
    {r : Resolution} {is₁ is₂ : List Instr} (hx : ParamAt S name below t) (hv : Code S value p is₁)
    (hk : p.operandKind? = some k) (hr : op.resolve (.bound t.kind) k = .ok r)
    (hfirst : r.first = t.kind) (hsecond : p.CoercedSecond r.second is₂) :
    Updated S op (.ident name) value
      ([.loadArg below] ++ is₁ ++ is₂ ++
        [.builtinOp r.operand.nameable (some op), .storeArg below])

/-- The operator of a step up or down. -/
def stepOperator (up : Bool) : Operator := if up then .add else .sub

def stepAddress (up : Bool) : AddressOperator := if up then .increment else .decrement

/-- The code of a step up or down. -/
inductive Stepped (S : Site) (up : Bool) : Expr → List Instr → Prop
  | addr {x : Expr} {t : Ty} {is : List Instr} (hx : Addressed S x t is)
    (hnum : t.kind.isNumeric = true) :
    Stepped S up x (is ++ [.addrOp t.kind.nameable (stepAddress up).nameable])
  | param {name : String} {below : Nat} {t : Ty} {one v : Value} {i : Instr}
    (hx : ParamAt S name below t) (hnum : t.kind.isNumeric = true)
    (hone : (Value.int 1).convert t.kind = some one) (hpush : i.pushed? S.program.consts = some v)
    (hv : one.Alike v) :
    Stepped S up (.ident name)
      [.loadArg below, i, .builtinOp t.kind.nameable (some (stepOperator up)), .storeArg below]

/-! ## Returns -/

/-- The code of a return. -/
inductive Returned (S : Site) : List Expr → List Instr → Prop
  | bare : Returned S [] [.retVars]
  | sole {e : Expr} {types : List Ty} {is : List Instr} (h : Code S e (.results types) is)
    (hfit : Assignable types S.body.results) :
    Returned S [e] (is ++ [.ofReturn (Assembly.narrow S.body.results.length)])
  | each {es : List Expr} {is : List Instr} (h : Each S es S.body.results is) :
    Returned S es (is ++ [.ofReturn (Assembly.narrow S.body.results.length)])

/-! ## Statements -/

/-- The code of an expression whose value is dropped. -/
inductive Dropped (S : Site) (e : Expr) : List Instr → Prop
  | results {types : List Ty} {is : List Instr} (h : Code S e (.results types) is) :
    Dropped S e (is ++ Instr.popping types.length)
  | single {p : Pushed} {is : List Instr} (h : Code S e p is) (hp : p.isSingle = true)
    (hdefault : p.Default) : Dropped S e (is ++ [.pop 1])

/-- How an assignment without an operator treats its targets. -/
def AssignMode.ofDefines (defines : Bool) : AssignMode := if defines then .define else .assign

mutual

/-- The code of a statement, and the site behind it. -/
inductive StmtCode : Site → Stmt → List Instr → Site → Prop
  | expr {S : Site} {e : Expr} {is : List Instr} (h : Dropped S e is) : StmtCode S (.expr e) is S
  | assign {S S' : Site} {mode : AssignMode} {defines : Bool} {targets values : List Expr}
    {ps : List Pushed} {is₁ is₂ : List Instr} (hmode : mode = .ofDefines defines)
    (hvalues : Values S targets.length values ps is₁)
    (htargets : GivenAll S defines targets.reverse ps is₂ S') :
    StmtCode S (.assign mode targets values) (is₁ ++ is₂) S'
  | update {S : Site} {op : Operator} {x value : Expr} {is : List Instr}
    (hform : op.hasUpdateForm = true) (h : Updated S op x value is) :
    StmtCode S (.assign (.update op) [x] [value]) is S
  | ret {S : Site} {values : List Expr} {is : List Instr} (hfunc : S.body.func.isSome)
    (h : Returned S values is) : StmtCode S (.ret values) is S
  | block {S S' : Site} {body : List Stmt} {is : List Instr} (h : StmtsCode S.enter body is S') :
    StmtCode S (.block body) is (S.leave S')
  | increment {S : Site} {x : Expr} {is : List Instr} (h : Stepped S true x is) :
    StmtCode S (.increment x) is S
  | decrement {S : Site} {x : Expr} {is : List Instr} (h : Stepped S false x is) :
    StmtCode S (.decrement x) is S

/-- The code of statements one after another. -/
inductive StmtsCode : Site → List Stmt → List Instr → Site → Prop
  | nil {S : Site} : StmtsCode S [] [] S
  | cons {S S' S'' : Site} {s : Stmt} {ss : List Stmt} {is₁ is₂ : List Instr}
    (h : StmtCode S s is₁ S') (hs : StmtsCode S' ss is₂ S'') :
    StmtsCode S (s :: ss) (is₁ ++ is₂) S''

end

/-! ## Sites of one body -/

/-- The second site lies behind the first one in the same body, and the variables declared between
them have descriptors. -/
structure Site.Leads (S S' : Site) : Prop where
  out : S'.out = S.out
  body : S'.body = S.body
  next : S.next ≤ S'.next
  vars : ∀ id, S.next ≤ id → id < S'.next → (S.program.vars[id]?).isSome

namespace Site.Leads

variable {S S' S'' : Site}

theorem refl (S : Site) : S.Leads S :=
  ⟨rfl, rfl, Nat.le_refl _, fun _ h h' => absurd h' (Nat.not_lt.2 h)⟩

theorem trans (h : S.Leads S') (h' : S'.Leads S'') : S.Leads S'' where
  out := h'.out.trans h.out
  body := h'.body.trans h.body
  next := Nat.le_trans h.next h'.next
  vars id hid hlt := by
    have hprogram : S'.program = S.program := congrArg Output.program h.out
    rcases Nat.lt_or_ge id S'.next with hid' | hid'
    · exact h.vars id hid hid'
    · exact hprogram ▸ h'.vars id hid' hlt

end Site.Leads

theorem Given.leads {S S' : Site} {defines : Bool} {x : Expr} {p : Pushed} {is : List Instr}
    (h : Given S defines x p is S') : S.Leads S' := by
  cases h with
  | define _ _ h =>
    refine ⟨rfl, rfl, Nat.le_succ _, fun id hid hlt => ?_⟩
    obtain rfl : id = S.next := Nat.le_antisymm (Nat.le_of_lt_succ hlt) hid
    exact Option.isSome_iff_exists.2 ⟨_, h.var⟩
  | _ => exact .refl S

theorem GivenAll.leads {S S' : Site} {defines : Bool} {xs : List Expr} {ps : List Pushed}
    {is : List Instr} (h : GivenAll S defines xs ps is S') : S.Leads S' := by
  induction h with
  | nil => exact .refl _
  | cons h _ ih => exact h.leads.trans ih

mutual

theorem StmtCode.leads {S S' : Site} {s : Stmt} {is : List Instr} :
    StmtCode S s is S' → S.Leads S'
  | .expr _ | .update _ _ | .ret _ _ | .increment _ | .decrement _ => .refl S
  | .assign _ _ htargets => htargets.leads
  | .block h => ⟨rfl, rfl, h.leads.next, h.leads.vars⟩

theorem StmtsCode.leads {S S' : Site} {ss : List Stmt} {is : List Instr} :
    StmtsCode S ss is S' → S.Leads S'
  | .nil => .refl _
  | .cons h hs => h.leads.trans hs.leads

end

/-! ## Functions -/

/-- The signature is what a type expression denotes. -/
def Signature.Resolved (r : Registry) (sig : Signature) : Prop :=
  ∃ (find : String → Option Symbol) (ty : FuncTypeExpr), ty.resolve r find = .ok sig

/-- The descriptor has a signature, and its variadicity is that of the signature. -/
structure FuncInfo.Signed (f : FuncInfo) (sig : Signature) : Prop where
  declares : f.sig = some sig
  variadicity : f.variadicity = if sig.variadic then .variadic else .fixed
  last : sig.variadic = true → ∃ t, sig.params.getLast? = some (.slice t)

theorem FuncInfo.Signed.sig? {p : Program} {id : Nat} {f : FuncInfo} {sig : Signature}
    (h : f.Signed sig) (hf : p.funcs[id]? = some f) : p.sig? id = some sig := by
  rw [Program.sig?, hf, Option.bind_some, h.declares]

/-- The first variables of a frame are of the given types. -/
def Program.FirstVars (p : Program) (vars : Array Nat) (types : List Ty) : Prop :=
  ∀ (i : Nat) (t : Ty), types[i]? = some t →
    ∃ id v, vars[i]? = some id ∧ p.vars[id]? = some v ∧ v.ty = t

/-- A body is that of a function of a signature. -/
structure Body.Of (b : Body) (id : Nat) (sig : Signature) : Prop where
  func : b.func = some id
  numParams : b.numParams = sig.params.length
  results : b.results = sig.results

/-- The function has its words, and they are the code of its statements. Its frame begins with the
results and has the variables of the body in the order in which they are declared. The body sees
none that is declared later, and each under one name. -/
inductive FuncCode (o : Output) (id : Nat) (f : FuncInfo) : Prop
  | mk {sig : Signature} {body : Body} {scopes : Scopes} {S' : Site} {is : List Instr}
    {entry first : Nat}
    (hparams : f.params = sig.params) (hsig : f.Signed sig) (hnumOut : f.numOut = sig.results.length)
    (hresults : o.program.FirstVars f.vars sig.results)
    (hvars : f.vars.toList = List.range' first f.vars.size) (hnext : S'.next = first + f.vars.size)
    (hbody : body.Of id sig)
    (hdepth : f.depth = (o.nest id).length) (hnest : ∃ rest, o.nest id = id :: rest)
    (hentry : f.entry = some entry) (hstop : f.stop = some (entry + is.length))
    (hreads : o.program.Reads entry is)
    (hcode : StmtsCode ⟨o, body, scopes, first + sig.results.length⟩ (o.stmts id) is S')
    (hscopes : ∀ name id, scopes.find? name = some (.var id) → id < first + sig.results.length)
    (hapart : scopes.Apart)

/-! ## Files -/

/-- The imports of a file, the last one first. -/
def File.importNames (f : File) : List (String × Symbol) :=
  (f.imports.map fun i => (i.localName, .package i.path)).reverse

/-- The functions that a file declares, the last one first. -/
def File.funcNames (f : File) : List (String × Symbol) :=
  (f.funcs.mapIdx fun i d => (d.name, .func i)).reverse

/-- A finished program is that of a labelled file. -/
structure FileCode (o : Output) (f : File) : Prop where
  /-- The main body sees the imports and the declared functions at first. Its frame has its
  variables in the order in which they are declared. -/
  main : ∃ (S' : Site) (is : List Instr), o.program.mainEnd = is.length ∧ o.program.Reads 0 is ∧
    StmtsCode ⟨o, .main, [f.funcNames ++ f.importNames], 0⟩ f.stmts is S' ∧
    o.program.mainVars.toList = List.range S'.next
  decls : ∀ (id : Nat) (d : FuncDecl) (stmts : List Stmt), f.funcs[id]? = some d →
    d.body = some stmts → o.stmts id = stmts
  funcs : ∀ (id : Nat) (g : FuncInfo), o.program.funcs[id]? = some g → g.stop.isSome →
    FuncCode o id g
  resolved : ∀ (id : Nat) (sig : Signature), o.program.sig? id = some sig → sig.Resolved o.registry
  idle : ∀ (id : Nat) (g : FuncInfo), o.program.funcs[id]? = some g → g.stop = none →
    g.vars = #[]
  tables : ∀ (variadic : Bool) (place id : Nat), (o.program.table variadic)[place]? = some id →
    ∃ g : FuncInfo, o.program.funcs[id]? = some g ∧ g.isVariadic = variadic ∧ g.stop.isSome

end StackScript
