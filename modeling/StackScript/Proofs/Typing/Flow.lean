import StackScript.Proofs.Direct.Expressions
import StackScript.Proofs.Typing.Values

/-!
# Typed code

`Effect g b τ i τ'` says what the instruction `i` of the body `b` does to the types of what lies on the
stack, the topmost first, and `Flow` says it of instructions one after another. Besides values of types
of the source there are closures and counts, which only the compiler puts there, and values that are
known (`Slot`). A value may always be taken for one of a type that it goes into (`Flow.widen`).
-/

namespace StackScript

/-! ## Slots -/

/-- What is known of one value on the stack. -/
inductive Slot
  | value (t : Ty)
  | closure (sig : Signature)
  | count (n : Nat)
  /-- The value itself is known. -/
  | kept (v : Value)

namespace Slot

/-- What is known as the first may be taken for the second. -/
inductive Into : Slot → Slot → Prop
  | refl (x : Slot) : Into x x
  | value {t u : Ty} (h : t.Into u) : Into (.value t) (.value u)

instance : Std.Refl Into := ⟨.refl⟩

/-- The value is as the slot says. -/
def Holds (g : Setting) (cells : Array Ty) (s : Store) (v : Value) : Slot → Prop
  | value t => v.Has g cells s t
  | closure sig => ∃ c, v = .closure c ∧ c.Sound g s ∧ c.sig = sig
  | count n => v.scalar?.bind Scalar.signed? = some (n : Int)
  | kept w => v = w

/-- Values of some types, the last one topmost. -/
def values (ts : List Ty) : List Slot := ts.reverse.map .value

variable {g : Setting} {cells cells' : Array Ty} {s s' : Store} {v : Value} {x y : Slot}

theorem Holds.into (h : Holds g cells s v x) (hxy : x.Into y) : Holds g cells s v y := by
  cases hxy with
  | refl => exact h
  | value hu => exact Value.Has.into h hu

theorem Holds.mono (h : Holds g cells s v x) (hcells : Extends cells cells') (hs : s.Grows s') :
    Holds g cells' s' v x := by
  cases x with
  | value t => exact Value.Has.mono h hcells hs
  | closure sig =>
    obtain ⟨c, rfl, hc, hsig⟩ := h
    exact ⟨c, rfl, hc.mono hs, hsig⟩
  | count n | kept w => exact h

@[simp] theorem values_nil : values [] = [] := rfl

@[simp] theorem length_values (ts : List Ty) : (values ts).length = ts.length := by simp [values]

theorem values_append (ts us : List Ty) : values (ts ++ us) = values us ++ values ts := by
  simp [values]

theorem values_singleton (t : Ty) : values [t] = [.value t] := rfl

end Slot

/-- The values on the stack are as their slots say. -/
def AllHold (g : Setting) (cells : Array Ty) (s : Store) (vs : List Value) (τ : List Slot) : Prop :=
  List.Forall₂ (Slot.Holds g cells s) vs τ

/-- Values are of the types at their places. -/
def AreOf (g : Setting) (cells : Array Ty) (s : Store) (vs : List Value) (ts : List Ty) : Prop :=
  List.Forall₂ (Value.Has g cells s) vs ts

section

variable {g : Setting} {cells cells' : Array Ty} {s s' : Store} {τ τ' σ : List Slot}
  {vs ws : List Value} {ts us : List Ty}

theorem AllHold.into (h : AllHold g cells s vs τ) (hτ : List.Forall₂ Slot.Into τ τ') :
    AllHold g cells s vs τ' := by
  induction hτ generalizing vs with
  | nil => exact h
  | cons hx _ ih =>
    cases h with
    | cons hv hvs => exact .cons (hv.into hx) (ih hvs)

theorem AllHold.mono (h : AllHold g cells s vs τ) (hcells : Extends cells cells') (hs : s.Grows s') :
    AllHold g cells' s' vs τ := List.Forall₂.imp (fun _ _ hv => Slot.Holds.mono hv hcells hs) h

theorem AreOf.mono (h : AreOf g cells s vs ts) (hcells : Extends cells cells') (hs : s.Grows s') :
    AreOf g cells' s' vs ts := List.Forall₂.imp (fun _ _ hv => Value.Has.mono hv hcells hs) h

/-- The values for the first slots and those for the others. -/
theorem AllHold.split (h : AllHold g cells s vs (σ ++ τ)) : ∃ ws rest, vs = ws ++ rest ∧
    AllHold g cells s ws σ ∧ AllHold g cells s rest τ :=
  ⟨_, _, (List.take_append_drop σ.length vs).symm, List.forall₂_take_append _ _ _ h,
    List.forall₂_drop_append _ _ _ h⟩

theorem allHold_values : AllHold g cells s vs (Slot.values ts) ↔ AreOf g cells s vs.reverse ts := by
  rw [AllHold, Slot.values, List.forall₂_map_right_iff, ← List.forall₂_reverse_iff, List.reverse_reverse]
  exact Iff.rfl

/-- Values that are kept are those that they were. -/
theorem allHold_kept : AllHold g cells s vs (ws.map .kept) ↔ vs = ws := by
  rw [AllHold, List.forall₂_map_right_iff]
  exact List.forall₂_eq_eq_eq ▸ Iff.rfl

/-- The values on top are of the types, the topmost of the last one. -/
theorem AllHold.take (h : AllHold g cells s vs (Slot.values ts ++ τ)) : ∃ ws rest,
    vs = ws.reverse ++ rest ∧ AreOf g cells s ws ts ∧ AllHold g cells s rest τ := by
  obtain ⟨ws, rest, rfl, hws, hrest⟩ := h.split
  exact ⟨ws.reverse, rest, by rw [List.reverse_reverse], allHold_values.1 hws, hrest⟩

theorem AreOf.push (h : AreOf g cells s ws ts) (hvs : AllHold g cells s vs τ) :
    AllHold g cells s (ws.reverse ++ vs) (Slot.values ts ++ τ) :=
  List.rel_append (allHold_values.2 (by rwa [List.reverse_reverse])) hvs

end

/-! ## Instructions -/

/-- Arguments of the types are what a call by the signature takes behind the first `skip` parameters;
those of a spread call end with a slice. -/
def Arity.Brings (sig : Signature) (skip : Nat) : Arity → List Ty → Prop
  | count n, ts => sig.Takes skip n ∧ ts = Compile.argTypes sig skip n
  | spread, ts => sig.variadic = true ∧ ts = sig.params.drop skip

/-- The argument count that the field of a variadic call gives, with what lies above the arguments
for that. -/
inductive ArityField.Reads : ArityField → Arity → List Slot → Prop
  | spread : Reads .spread .spread []
  | count (n : Nat) : Reads (.count n) (.count n) []
  | overflow (n : Nat) : Reads .overflow (.count (Word.overflowArity + n)) [.count n]

/-- A function that code of the body `b` finds in a table: one that is declared, or one that the body
makes. -/
structure Entry (g : Setting) (b : Body) (variadic : Bool) (place id : Nat) (sig : Signature) :
    Prop where
  entry : g.out.program.At id variadic place
  declares : g.out.program.sig? id = some sig
  variadic : sig.variadic = variadic
  nest : g.out.nest id = [id] ∨ g.out.nest id = id :: g.out.chain b.func

/-- A variable that code of the body `b` finds at an address. -/
def VarSlot (g : Setting) (b : Body) (scope : Scope) (index : Nat) (d : Var) : Prop :=
  ∃ S name id, S.out = g.out ∧ S.body = b ∧ VarAt S name id d scope index

/-- A parameter of the function whose body is `b`, with its distance below the frame. -/
inductive ParamSlot (g : Setting) (b : Body) : Nat → Ty → Prop
  | mk {func index : Nat} {sig : Signature} {t : Ty} (hfunc : b.func = some func)
    (hsig : g.out.program.sig? func = some sig) (ht : sig.params[index]? = some t) :
    ParamSlot g b (b.numParams - index) t

/-- An operator at a kind goes with operands of two types. -/
structure Operator.Applies (op : Operator) (k : Kind) (t u : Ty) : Prop where
  defined : op.definedOn k = true
  first : t.kind = k
  second : if op.isShift then u.kind.isInteger = true else u.kind = k

open Slot in
/-- What an instruction of the body `b` makes of the values on the stack. -/
inductive Effect (g : Setting) (b : Body) : List Slot → Instr → List Slot → Prop
  | push {τ : List Slot} {i : Instr} {v : Value} (hpush : i.pushed? g.out.program.consts = some v)
    (hv : v.kind.isBasic = true) : Effect g b τ i (.value (.basic v.kind) :: τ)
  | count {τ : List Slot} {i : Instr} {v : Value} {n : Nat}
    (hpush : i.pushed? g.out.program.consts = some v)
    (hn : v.scalar?.bind Scalar.signed? = some (n : Int)) : Effect g b τ i (.count n :: τ)
  | pop {τ : List Slot} {ts : List Ty} : Effect g b (values ts ++ τ) (.pop ts.length) τ
  | loadVar {τ : List Slot} {scope : Scope} {index : Nat} {d : Var} (h : VarSlot g b scope index d) :
    Effect g b τ (.loadVar scope index) (.value d.ty :: τ)
  | storeVar {τ : List Slot} {scope : Scope} {index : Nat} {d : Var} (h : VarSlot g b scope index d) :
    Effect g b (.value d.ty :: τ) (.storeVar scope index) τ
  | addrVar {τ : List Slot} {scope : Scope} {index : Nat} {d : Var} (h : VarSlot g b scope index d) :
    Effect g b τ (.addrVar scope index) (.value (.ptr d.ty) :: τ)
  | loadArg {τ : List Slot} {below : Nat} {t : Ty} (h : ParamSlot g b below t) :
    Effect g b τ (.loadArg below) (.value t :: τ)
  | storeArg {τ : List Slot} {below : Nat} {t : Ty} (h : ParamSlot g b below t) :
    Effect g b (.value t :: τ) (.storeArg below) τ
  | loadNativeVar {τ : List Slot} {addr : Nat} {x : NativeVar}
    (h : g.out.registry.natives.vars[addr]? = some x) :
    Effect g b τ (.loadNativeVar addr) (.value x.ty :: τ)
  | builtinOp {τ : List Slot} {k : Kind} {op : Operator} {t u : Ty} (h : op.Applies k t u) :
    Effect g b (.value u :: .value t :: τ) (.builtinOp (some k) (some op))
      (.value (.basic (op.resultKind k)) :: τ)
  | convert {τ : List Slot} {k : Kind} {t : Ty} (hk : k.isBasic = true) (ht : t.kind.isBasic = true)
    (h : t.kind.Widens k) : Effect g b (.value t :: τ) (.convert (some k)) (.value (.basic k) :: τ)
  | callFunc {τ : List Slot} {place id : Nat} {sig : Signature} (h : Entry g b false place id sig) :
    Effect g b (values sig.params ++ τ) (.callFunc place) (values sig.results ++ τ)
  | callFuncv {τ σ : List Slot} {field : ArityField} {arity : Arity} {place id : Nat}
    {sig : Signature} {ts : List Ty} (h : Entry g b true place id sig) (hreads : field.Reads arity σ)
    (hts : arity.Brings sig 0 ts) :
    Effect g b (σ ++ (values ts ++ τ)) (.callFuncv field place) (values sig.results ++ τ)
  | callNative {τ : List Slot} {addr : Nat} {x : NativeFunc}
    (h : g.out.registry.natives.funcs[addr]? = some x) :
    Effect g b (values x.func.sig.params ++ τ) (.callNative addr) (values x.func.sig.results ++ τ)
  | callNativev {τ σ : List Slot} {field : ArityField} {arity : Arity} {addr : Nat}
    {x : NativeFunc} {ts : List Ty} (h : g.out.registry.natives.funcvs[addr]? = some x)
    (hreads : field.Reads arity σ) (hts : arity.Brings x.func.sig 0 ts) :
    Effect g b (σ ++ (values ts ++ τ)) (.callNativev field addr) (values x.func.sig.results ++ τ)
  /-- A receiver with nothing declared behind it is packed with the arguments. -/
  | callMethodv {τ σ : List Slot} {field : ArityField} {n addr : Nat} {x : NativeFunc} {recv : Ty}
    (hlax : g.lax) (h : g.out.registry.natives.funcvs[addr]? = some x)
    (hparams : x.func.sig.params = [recv]) (hreads : field.Reads (.count (n + 1)) σ) :
    Effect g b (σ ++ (values (recv :: List.replicate n (Compile.trailing x.func.sig)) ++ τ))
      (.callNativev field addr) (values x.func.sig.results ++ τ)
  | pushNative {τ : List Slot} {addr : Nat} {x : NativeFunc}
    (h : g.out.registry.natives.funcs[addr]? = some x) :
    Effect g b τ (.pushNative addr) (.value (.func x.func.sig) :: τ)
  | pushNativev {τ : List Slot} {addr : Nat} {x : NativeFunc}
    (h : g.out.registry.natives.funcvs[addr]? = some x) :
    Effect g b τ (.pushNativev addr) (.value (.func x.func.sig) :: τ)
  | closure {τ : List Slot} {variadic : Bool} {place id : Nat} {sig : Signature}
    (h : Entry g b variadic place id sig) : Effect g b τ (.closure variadic place) (.closure sig :: τ)
  | hostClosure {τ : List Slot} {variadic : Bool} {place id : Nat} {sig : Signature}
    (h : Entry g b variadic place id sig) :
    Effect g b τ (.hostClosure variadic place) (.value (.func sig) :: τ)
  | callClosure {τ : List Slot} {arity : Arity} {sig : Signature} {ts : List Ty}
    (hts : arity.Brings sig 0 ts) :
    Effect g b (.closure sig :: (values ts ++ τ)) (.callClosure arity) (values sig.results ++ τ)
  | callValue {τ : List Slot} {arity : Arity} {t : Ty} {sig : Signature} {ts : List Ty}
    (ht : t.underlying = .func sig) (hts : arity.Brings sig 0 ts) :
    Effect g b (.value t :: (values ts ++ τ)) (.callValue arity) (values sig.results ++ τ)
  | deref {τ : List Slot} {t elem : Ty} (ht : t.underlying = .ptr elem) :
    Effect g b (.value t :: τ) .deref (.value elem :: τ)
  | field {τ : List Slot} {t : Ty} {fs : List Field} {x : Field} {index : Nat}
    (ht : t.underlying = .struct fs) (hx : fs[index]? = some x) :
    Effect g b (.value t :: τ) (.field index) (.value x.ty :: τ)
  | stepAt {τ : List Slot} {t elem : Ty} {up : Bool} (ht : t.underlying = .ptr elem)
    (hnum : elem.kind.isNumeric = true) :
    Effect g b (.value t :: τ) (.addrOp (some elem.kind) (some (stepAddress up))) τ
  | updateAt {τ : List Slot} {t elem u : Ty} {op : Operator} (ht : t.underlying = .ptr elem)
    (hop : op.hasUpdateForm = true) (h : op.Applies elem.kind elem u) :
    Effect g b (.value t :: .value u :: τ) (.addrOp (some elem.kind) (some (.update op))) τ
  /-- The kind of what lies behind a pointer may be one that the instruction cannot name. -/
  | loadAt {τ : List Slot} {t elem : Ty} {k : Option Kind} (hlax : g.lax)
    (ht : t.underlying = .ptr elem) :
    Effect g b (.value t :: τ) (.addrOp k (some .load)) (.value elem :: τ)
  | storeAt {τ : List Slot} {t elem : Ty} {k : Option Kind} (hlax : g.lax)
    (ht : t.underlying = .ptr elem) :
    Effect g b (.value t :: .value elem :: τ) (.addrOp k (some .store)) τ
  | ret {τ τ' : List Slot} (hfunc : b.func.isSome) :
    Effect g b (values b.results ++ τ) (.ret b.results.length) τ'
  | retVars {τ τ' : List Slot} (hfunc : b.func.isSome) : Effect g b τ .retVars τ'

/-- What instructions one after another make of the values on the stack. -/
inductive Flow (g : Setting) (b : Body) : List Slot → List Instr → List Slot → Prop
  | nil {τ : List Slot} : Flow g b τ [] τ
  | cons {τ τ' τ'' : List Slot} {i : Instr} {is : List Instr} (h : Effect g b τ i τ')
    (hs : Flow g b τ' is τ'') : Flow g b τ (i :: is) τ''
  | widen {τ τ' τ'' : List Slot} {is : List Instr} (hw : List.Forall₂ Slot.Into τ τ')
    (h : Flow g b τ' is τ'') : Flow g b τ is τ''

namespace Flow

variable {g : Setting} {b : Body} {τ τ' τ'' : List Slot} {is js : List Instr} {i : Instr}

theorem single (h : Effect g b τ i τ') : Flow g b τ [i] τ' := .cons h .nil

theorem append (h : Flow g b τ is τ') (h' : Flow g b τ' js τ'') : Flow g b τ (is ++ js) τ'' := by
  induction h with
  | nil => exact h'
  | cons h _ ih => exact .cons h (ih h')
  | widen hw _ ih => exact .widen hw (ih h')

theorem into_refl (τ : List Slot) : List.Forall₂ Slot.Into τ τ := List.forall₂_refl τ

/-- The topmost value goes where another type is declared. -/
theorem into {t u : Ty} (h : t.Into u) : Flow g b (.value t :: τ) [] (.value u :: τ) :=
  .widen (.cons (.value h) (into_refl τ)) .nil

/-- No instructions make nothing of the operands but others of their number. -/
theorem length_eq (h : Flow g b τ [] τ') : τ.length = τ'.length := by
  generalize hks : [] = ks at h
  induction h with
  | nil => rfl
  | cons => cases hks
  | widen hw _ ih => exact hw.length_eq.trans (ih hks)

/-- Instructions of a flow stop at some operands in between. -/
theorem split (h : Flow g b τ (is ++ js) τ') : ∃ σ, Flow g b τ is σ ∧ Flow g b σ js τ' := by
  generalize hks : is ++ js = ks at h
  induction h generalizing is with
  | nil =>
    obtain ⟨rfl, rfl⟩ := List.append_eq_nil_iff.1 hks
    exact ⟨_, .nil, .nil⟩
  | @cons τ τ₁ τ' i ks h hs ih =>
    cases is with
    | nil =>
      rw [List.nil_append] at hks
      exact ⟨τ, .nil, hks ▸ .cons h hs⟩
    | cons j is =>
      obtain ⟨rfl, rfl⟩ := List.cons.inj hks
      obtain ⟨σ, hfirst, hrest⟩ := ih rfl
      exact ⟨σ, .cons h hfirst, hrest⟩
  | widen hw _ ih =>
    obtain ⟨σ, hfirst, hrest⟩ := ih hks
    exact ⟨σ, .widen hw hfirst, hrest⟩

end Flow

/-- An instruction leaves alone what lies below the values that it takes. -/
theorem Effect.frame {g : Setting} {b : Body} {τ τ' : List Slot} {i : Instr} (h : Effect g b τ i τ')
    (ρ : List Slot) : Effect g b (τ ++ ρ) i (τ' ++ ρ) := by
  cases h with
  | push hpush hv => exact .push hpush hv
  | count hpush hn => exact .count hpush hn
  | pop => exact List.append_assoc .. ▸ .pop
  | loadVar h => exact .loadVar h
  | storeVar h => exact .storeVar h
  | addrVar h => exact .addrVar h
  | loadArg h => exact .loadArg h
  | storeArg h => exact .storeArg h
  | loadNativeVar h => exact .loadNativeVar h
  | builtinOp h => exact .builtinOp h
  | convert hk ht h => exact .convert hk ht h
  | callFunc h => simpa using Effect.callFunc h
  | callFuncv h hreads hts => simpa using Effect.callFuncv h hreads hts
  | callNative h => simpa using Effect.callNative h
  | callNativev h hreads hts => simpa using Effect.callNativev h hreads hts
  | callMethodv hlax h hparams hreads => simpa using Effect.callMethodv hlax h hparams hreads
  | pushNative h => exact .pushNative h
  | pushNativev h => exact .pushNativev h
  | closure h => exact .closure h
  | hostClosure h => exact .hostClosure h
  | callClosure hts => simpa using Effect.callClosure hts
  | callValue ht hts => simpa using Effect.callValue ht hts
  | deref ht => exact .deref ht
  | field ht hx => exact .field ht hx
  | stepAt ht hnum => exact .stepAt ht hnum
  | updateAt ht hop h => exact .updateAt ht hop h
  | loadAt hlax ht => exact .loadAt hlax ht
  | storeAt hlax ht => exact .storeAt hlax ht
  | ret hfunc => exact List.append_assoc .. ▸ .ret hfunc
  | retVars hfunc => exact .retVars hfunc

theorem Flow.frame {g : Setting} {b : Body} {τ τ' : List Slot} {is : List Instr} (h : Flow g b τ is τ')
    (ρ : List Slot) : Flow g b (τ ++ ρ) is (τ' ++ ρ) := by
  induction h with
  | nil => exact .nil
  | cons h _ ih => exact .cons (h.frame ρ) ih
  | widen hw _ ih => exact .widen (List.rel_append hw (into_refl ρ)) ih

end StackScript
