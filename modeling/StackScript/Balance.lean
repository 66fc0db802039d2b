import StackScript.Program
import StackScript.Host.Registry

/-!
# Stack balance

A check of each function by itself, before anything runs: that no instruction takes more values
than the function has pushed, that argument slots exist, and that the main body does not return. It
ends where a callee is known at run time only.
-/

namespace StackScript

/-- Why a program fails the check. -/
inductive BalanceError
  | returnInMain (offset : Nat)
  | argumentSlot (below offset numIn : Nat)
  | underflow (offset : Nat) (w : Word) (needed : Int)
  | inFunction (name : String) (e : BalanceError)

namespace BalanceError

def text : BalanceError → String
  | returnInMain offset => s!"return in main body at ip={offset}"
  | argumentSlot below offset numIn =>
    s!"argument slot {below} out of range at ip={offset} ({numIn} parameters)"
  | underflow offset w needed =>
    let shown := w.text
    s!"stack underflow at ip={offset}, op={shown}, needed {needed} items"
  | inFunction name e => s!"in function {name}: " ++ e.text

def message (e : BalanceError) : String := "stack-check error: " ++ e.text

end BalanceError

namespace Balance

/-- What is known of host functions: how many parameters and results they have. -/
structure Known where
  func? : Nat → Option (Nat × Nat)
  funcv? : Nat → Option (Nat × Nat)

/-- Nothing is known of host functions. -/
def Known.none : Known := ⟨fun _ => .none, fun _ => .none⟩

def Known.ofNatives (n : Natives) : Known := ⟨n.funcCounts?, n.funcvCounts?⟩

/-- Counts are compared as signed sixty-four-bit numbers. -/
def signed (n : Nat) : Int := (BitVec.ofNat 64 n).toInt

/-- Values taken by a variadic call, if the instruction tells. -/
def variadicPops (field : ArityField) (numIn : Nat) : Option Int :=
  match field with
  | .spread => some (signed numIn)
  | .overflow => none
  | .count n => some n

/-- Values taken and left by an instruction, if they are known beforehand. -/
def effect (p : Program) (known : Known) (i : Instr) : Except Fault (Option (Int × Int)) :=
  match i with
  | .nop => .ok (some (0, 0))
  | .pushInt .. | .pushConst _ | .loadVar .. | .loadArg _ | .loadNativeVar _ | .addrVar ..
  | .pushNative _ | .pushNativev _ | .closure .. | .hostClosure .. => .ok (some (0, 1))
  | .pop n => .ok (some (n, 0))
  | .storeVar .. | .storeArg _ => .ok (some (1, 0))
  | .addrOp _ op => .ok (op.map fun op => ((op.stackEffect.1 : Int), (op.stackEffect.2 : Int)))
  | .builtinOp .. => .ok (some (2, 1))
  | .convert _ | .deref | .field _ => .ok (some (1, 1))
  | .callFunc index => do
    let f ← p.tableFunc false index
    return f.map fun f => ((f.numIn : Int), signed f.numOut)
  | .callFuncv arity index => do
    match ← p.tableFunc true index with
    | some f => return (variadicPops arity f.numIn).map (·, signed f.numOut)
    | none => return none
  | .callNative addr => .ok ((known.func? addr).map fun (i, o) => ((i : Int), (o : Int)))
  | .callNativev arity addr =>
    .ok ((known.funcv? addr).bind fun (i, o) => (variadicPops arity i).map (·, (o : Int)))
  | .callClosure _ | .callValue _ => .ok none
  | .retVars => .ok (some (0, 0))
  | .ret n => .ok (some (n, 0))

/-- A height, which has to be a signed sixty-four-bit number. -/
def height (h : Int) : Except Fault Int :=
  if IntKind.int64.Holds h then .ok h else .error .outOfRange

/-- The slot of an argument that an instruction refers to. -/
def argumentSlot? : Instr → Option Nat
  | .loadArg n | .storeArg n => some n
  | _ => none

def isReturn : Instr → Bool
  | .ret _ | .retVars => true
  | _ => false

abbrev Checked := Except (Stop BalanceError)

def ofFault {α : Type} : Except Fault α → Checked α
  | .ok a => .ok a
  | .error f => .error (.fault f)

/-- Follows the words from `offset` up to `stop`, starting at height `h`. -/
def checkFrom (p : Program) (known : Known) (numIn stop offset : Nat) (h : Int) : Checked Unit :=
  if offset < stop then do
    let w ← ofFault (match p.code[offset]? with
      | some w => .ok w
      | none => .error .outOfRange)
    match w.decode? with
    | none => return ()
    | some i =>
      match argumentSlot? i with
      | some below =>
        if below = 0 ∨ numIn < below then throw (.error (.argumentSlot below offset numIn))
      | none => pure ()
      match ← ofFault (effect p known i) with
      | none => return ()
      | some (pops, pushes) =>
        let h ← ofFault (height (h - pops))
        if h < 0 then throw (.error (.underflow offset w pops))
        let h ← ofFault (height (h + pushes))
        if isReturn i then return ()
        checkFrom p known numIn stop (offset + 1) h
  else .ok ()
termination_by stop - offset

/-- The first return from `offset` up to `stop`. -/
def firstReturn (p : Program) (stop offset : Nat) : Except Fault (Option Nat) :=
  if offset < stop then
    match p.code[offset]? with
    | none => .error .outOfRange
    | some w =>
      if w.opcode? = some .ret then .ok (some offset) else firstReturn p stop (offset + 1)
  else .ok none
termination_by stop - offset

def inFunction (name : String) : Checked Unit → Checked Unit
  | .error (.error e) => .error (.error (.inFunction name e))
  | r => r

/-- Checks a function that has words. -/
def checkFunc (p : Program) (known : Known) (f : FuncInfo) : Checked Unit :=
  match f.entry, f.stop with
  | some entry, some stop => inFunction f.name (checkFrom p known f.numIn stop entry 0)
  | _, _ => .ok ()

/-- Checks the main body and every function. -/
def check (p : Program) (known : Known) : Checked Unit := do
  match ← ofFault (firstReturn p p.mainEnd 0) with
  | some offset => throw (.error (.returnInMain offset))
  | none => pure ()
  checkFrom p known 0 p.mainEnd 0 0
  p.funcs.toList.forM (checkFunc p known)

end Balance

end StackScript
