import StackScript.Program

/-!
# Assembling programs

An assembly is a program under construction: words are appended, slots reserved and patched later,
and functions called before their place in a table is known. `resolve` closes it.
-/

namespace StackScript

structure Assembly where
  code : Array Word
  consts : Array Value
  funcs : Array FuncInfo
  vars : Array Var
  mainVars : Array Nat
  /-- Functions between their first and last word, the innermost first. -/
  opened : List Nat
  /-- Offsets of reserved slots that were not patched. -/
  reserved : List Nat
  /-- Offsets of words that refer to a function, with that function, the latest first. -/
  refs : List (Nat × Nat)

/-- A step of assembling. -/
abbrev Asm := Task BuildError Assembly

namespace Assembly

def empty : Assembly := ⟨#[], #[], #[], #[], #[], [], [], []⟩

instance : Inhabited Assembly := ⟨empty⟩

/-- Counts are kept in thirty-two bits. -/
def narrow (n : Nat) : Nat := n % (1 <<< 32)

/-! ## Functions and variables -/

def newFunc (name : String) (depth : Nat) : Asm Nat := do
  let a ← get
  set { a with funcs := a.funcs.push (.new name depth) }
  return a.funcs.size

/-- The descriptor of a function; a number that names none is a fault. -/
def func (id : Nat) : Asm FuncInfo := do
  Task.expect (← get).funcs[id]?

def setFunc (id : Nat) (f : FuncInfo) : Asm Unit :=
  modify fun a => { a with funcs := a.funcs.setIfInBounds id f }

/-- Changes a descriptor, unless that fails. -/
def updateFunc (id : Nat) (change : FuncInfo → Except BuildError FuncInfo) : Asm Unit := do
  let f ← func id
  setFunc id (← Task.ofExcept (change f))

def setVariadic (id : Nat) (variadic : Bool) : Asm Unit := updateFunc id (·.setVariadic variadic)

def setSignature (id : Nat) (sig : Signature) : Asm Unit :=
  updateFunc id fun f => .ok { f with sig := some sig }

def setParams (id : Nat) (params : List Ty) : Asm Unit := updateFunc id (·.setParams params)

def setVariadicParams (id : Nat) (params : List Ty) : Asm Unit :=
  updateFunc id (·.setVariadicParams params)

/-- Adds a variable at the end of the frame of a function, or of the main body. -/
def defineVar (owner : Option Nat) (v : Var) : Asm Nat := do
  let id := (← get).vars.size
  let (depth, index) ← match owner with
    | some f => do
      let info ← func f
      setFunc f { info with vars := info.vars.push id }
      pure (info.depth, info.vars.size)
    | none => do
      let index := (← get).mainVars.size
      modify fun a => { a with mainVars := a.mainVars.push id }
      pure (0, index)
  let v ← Task.ofChecked (v.setAddr depth (narrow index))
  modify fun a => { a with vars := a.vars.push v }
  return id

/-- The descriptor of a variable; a number that names none is a fault. -/
def var (id : Nat) : Asm Var := do
  Task.expect (← get).vars[id]?

/-- Declares the result variables, which come first in the frame of a function. -/
def results (id : Nat) (vars : List Var) : Asm (List Nat) := do
  let f ← func id
  if !f.vars.isEmpty then Task.fail (.resultsAfterVars f.name)
  let ids ← vars.mapM (defineVar (some id))
  updateFunc id fun f => .ok { f with numOut := ids.length }
  return ids

/-- Begins the words of a function. -/
def defineFunc (id : Nat) : Asm Unit := do
  let f ← func id
  if f.entry.isSome then Task.fail (.redefined f.name)
  let start := (← get).code.size
  setFunc id { f with entry := some start }
  modify fun a => { a with opened := id :: a.opened }

/-- Ends the words of the function begun last. A function named out of turn still closes that
one. -/
def endFunc (id : Nat) : Asm Unit := do
  match (← get).opened with
  | [] => do
    let f ← func id
    Task.fail (.unpairedEnd "<none>" f.name)
  | top :: rest => do
    modify fun a => { a with opened := rest }
    if top = id then
      let stop := (← get).code.size
      updateFunc id fun f => .ok { f with stop := some stop }
    else do
      let expected ← func top
      let got ← func id
      Task.fail (.unpairedEnd expected.name got.name)

/-! ## Words -/

/-- Appends a word and gives its offset. -/
def emit (w : Word) : Asm Nat := do
  let a ← get
  set { a with code := a.code.push w }
  return a.code.size

/-- Appends a word that may be malformed. -/
def emitChecked (w : Except Fault Word) : Asm Unit := do
  discard (emit (← Task.ofChecked w))

/-- Appends a word that refers to a function. -/
def emitRef (w : Except Fault Word) (id : Nat) : Asm Unit := do
  let offset ← emit (← Task.ofChecked w)
  discard (func id)
  modify fun a => { a with refs := (offset, id) :: a.refs }

/-- Appends an empty slot for a word to come. -/
def reserve : Asm Nat := do
  let offset ← emit (← Task.ofChecked (Word.make .nop 0))
  modify fun a => { a with reserved := offset :: a.reserved }
  return offset

/-- Fills a reserved slot; it is filled once. -/
def patch (offset : Nat) (w : Word) : Asm Unit := do
  if (← get).reserved.contains offset then
    modify fun a =>
      { a with reserved := a.reserved.erase offset, code := a.code.setIfInBounds offset w }
  else Task.fail (.patchedTwice offset)

/-- The place of a constant in the pool, which gains it if no equal one of its kind is there. -/
def poolIndex (v : Value) : Asm Nat := do
  let a ← get
  match a.consts.findIdx? fun c => c.equal v && c.kind == v.kind with
  | some i => return i
  | none =>
    set { a with consts := a.consts.push v }
    return a.consts.size

/-- The word that pushes a value: a small integer is part of it, other values are pooled. -/
def valueWord (v : Value) : Asm Word := do
  match v with
  | .scalar (.int k n) =>
    if Word.fitsInline (k.toInt n) then Task.ofChecked (Word.makeInt (.int k) (k.toInt n))
    else Task.ofChecked (Word.make .pushConst (← poolIndex v))
  | _ => Task.ofChecked (Word.make .pushConst (← poolIndex v))

def pushValue (v : Value) : Asm Nat := do
  emit (← valueWord v)

def pop (n : Nat) : Asm Unit :=
  if 0 < n then emitChecked (Word.make .pop (narrow n)) else pure ()

def loadVar (scope index : Nat) : Asm Unit := emitChecked (Word.makeVar .loadVar scope index)

def storeVar (scope index : Nat) : Asm Unit := emitChecked (Word.makeVar .storeVar scope index)

def addrVar (scope index : Nat) : Asm Unit := emitChecked (Word.makeVar .addrVar scope index)

def addrOp (k : Kind) (op : AddressOperator) : Asm Unit :=
  emitChecked (Word.makeAddressOperator k op)

def loadArg (below : Nat) : Asm Unit := emitChecked (Word.make .loadArg below)

def storeArg (below : Nat) : Asm Unit := emitChecked (Word.make .storeArg below)

def loadNativeVar (addr : Nat) : Asm Unit := emitChecked (Word.make .loadNativeVar addr)

def builtinOp (k : Kind) (op : Operator) : Asm Unit := emitChecked (Word.makeOperator k op)

def convert (k : Kind) : Asm Unit := emitChecked (Word.make .convert k.code)

def callFunc (id : Nat) : Asm Unit := emitRef (Word.make .callFunc 0) id

/-- The argument count field of a variadic call; a count too large for it is pushed in part. -/
def arityField : Arity → Asm Nat
  | .spread => pure Word.spreadArity
  | .count n => do
    if Word.overflowArity ≤ narrow n then
      discard (pushValue (.int (narrow n - Word.overflowArity)))
      return Word.overflowArity
    else return narrow n

def callFuncv (id : Nat) (arity : Arity) : Asm Unit := do
  let field ← arityField arity
  emitRef (Word.makeVariadicCall .callFuncv field 0) id

def callNative (addr : Nat) : Asm Unit := emitChecked (Word.make .callNative addr)

def callNativev (addr : Nat) (arity : Arity) : Asm Unit := do
  let field ← arityField arity
  emitChecked (Word.makeVariadicCall .callNativev field addr)

def pushNative (addr : Nat) : Asm Unit := emitChecked (Word.make .pushNative addr)

def pushNativev (addr : Nat) : Asm Unit := emitChecked (Word.make .pushNativev addr)

def closure (id : Nat) : Asm Unit := emitRef (Word.make .closure 0) id

def hostClosure (id : Nat) : Asm Unit := emitRef (Word.make .hostClosure 0) id

/-- The operand of a call whose callee is known at run time only. -/
def dynamicOperand : Arity → Nat
  | .spread => Word.spreadCall
  | .count n => narrow n

def callClosure (arity : Arity) : Asm Unit :=
  emitChecked (Word.make .callClosure (dynamicOperand arity))

def callValue (arity : Arity) : Asm Unit :=
  emitChecked (Word.make .callValue (dynamicOperand arity))

def deref : Asm Unit := emitChecked (Word.make .deref 0)

def field (index : Nat) : Asm Unit := emitChecked (Word.make .field (narrow index))

def ret (n : Nat) : Asm Unit := emitChecked (Word.make .ret (narrow n))

def retVars : Asm Unit := emitChecked (Word.make .ret Word.returnVars)

/-! ## Resolving -/

/-- Places of the defined functions in the two tables, in the order of their numbers. -/
structure Tables where
  fixed : Array Nat
  variadic : Array Nat
  places : Array (Option Nat)

/-- Adds the next function to the table it belongs to. -/
def Tables.add (t : Tables) (f : FuncInfo) : Tables :=
  let id := t.places.size
  if !f.isDefined then { t with places := t.places.push none }
  else if f.isVariadic then
    { t with variadic := t.variadic.push id, places := t.places.push (some t.variadic.size) }
  else { t with fixed := t.fixed.push id, places := t.places.push (some t.fixed.size) }

def tables (funcs : Array FuncInfo) : Tables := funcs.foldl Tables.add ⟨#[], #[], #[]⟩

/-- The word at an offset, pointed to the place of a function. -/
def pointTo (f : FuncInfo) (place : Nat) (w : Word) : Except Fault Word :=
  match w.opcode? with
  | some .closure | some .hostClosure =>
    w.withOperandBits (if f.isVariadic then place ||| Word.closureRange else place)
  | some .callFuncv =>
    if place < Word.tableRange then w.withOperandBits place
    else .error (.because "variadic table overflow")
  | _ => w.withOperandBits place

/-- Points the words at the given offsets to the place of a function. -/
def pointAll (f : FuncInfo) (place : Nat) (code : Array Word) (offsets : List Nat) :
    Except Fault (Array Word) :=
  offsets.foldlM (fun code offset => do
    match code[offset]? with
    | some w => return code.setIfInBounds offset (← pointTo f place w)
    | none => throw .outOfRange) code

/-- Points all words that refer to functions from number `id` on. -/
def pointRefs (refs : List (Nat × Nat)) (places : Array (Option Nat)) :
    List FuncInfo → Nat → Array Word → Except (Stop BuildError) (Array Word)
  | [], _, code => .ok code
  | f :: fs, id, code =>
    match (refs.filter (·.2 == id)).map (·.1) with
    | [] => pointRefs refs places fs (id + 1) code
    | offsets =>
      match places[id]?.join with
      | none => .error (.error (.undefined f.name))
      | some place =>
        match pointAll f place code offsets with
        | .error fault => .error (.fault fault)
        | .ok code => pointRefs refs places fs (id + 1) code

/-- Closes an assembly: every function begun is ended, every slot filled, and every call finds its
function. -/
def resolve (a : Assembly) (mainEnd : Nat) : Except (Stop BuildError) Program :=
  match a.opened with
  | top :: _ => .error (.error (.stillOpen (a.funcs[top]?.getD default).name))
  | [] =>
    match a.reserved.min? with
    | some offset => .error (.error (.unpatched offset))
    | none =>
      let t := tables a.funcs
      (pointRefs a.refs t.places a.funcs.toList 0 a.code).map fun code =>
        { code
          consts := a.consts
          funcs := a.funcs
          fixed := t.fixed
          variadic := t.variadic
          vars := a.vars
          mainVars := a.mainVars
          mainEnd }

end Assembly

end StackScript
