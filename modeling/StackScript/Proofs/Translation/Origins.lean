import StackScript.Proofs.Hosting.Registering
import StackScript.Proofs.Translation.Files

/-!
# Where operands come from

Every instruction of compiled code that goes to a variable was made for a name that stands for this
variable, and every instruction that finds a script function in a table was made for a declared
function or for a function literal (`Instr.From`). The name is looked up at some site of the body
that the code belongs to.
-/

namespace StackScript

namespace Instr

/-- The variable that an instruction goes to. -/
def address? : Instr → Option (Scope × Nat)
  | loadVar scope index | storeVar scope index | addrVar scope index => some (scope, index)
  | _ => none

/-- The table, by whether its functions are variadic, and the place in it of the function that an
instruction calls or makes a value of. -/
def entry? : Instr → Option (Bool × Nat)
  | callFunc place => some (false, place)
  | callFuncv _ place => some (true, place)
  | closure variadic place | hostClosure variadic place => some (variadic, place)
  | _ => none

/-- The entry of the registry that an instruction goes to. -/
def native? : Instr → Option NativeSymbol
  | loadNativeVar addr => some ⟨addr, .var⟩
  | callNative addr | pushNative addr => some ⟨addr, .func⟩
  | callNativev _ addr | pushNativev addr => some ⟨addr, .funcv⟩
  | _ => none

/-- What the instruction, in the code of a body, was made for, if it refers to a variable, to a
script function or to the registry. -/
inductive From (o : Output) (b : Body) (i : Instr) : Prop
  | var {S : Site} {name : String} {id index : Nat} {v : Var} {scope : Scope} (hout : S.out = o)
    (hbody : S.body = b) (h : VarAt S name id v scope index) (hi : i.address? = some (scope, index))
    (hentry : i.entry? = none)
  | func {S : Site} {name : String} {id place : Nat} {sig : Signature} {variadic : Bool}
    (hout : S.out = o) (hbody : S.body = b) (h : FuncAt S name id sig)
    (hat : o.program.At id variadic place) (hi : i.entry? = some (variadic, place))
    (haddress : i.address? = none)
  | literal {S : Site} {label id place : Nat} {stmts : List Stmt} {sig : Signature}
    {variadic : Bool} (hout : S.out = o) (hbody : S.body = b) (h : LiteralAt S label stmts id sig)
    (hat : o.program.At id variadic place) (hi : i.entry? = some (variadic, place))
    (haddress : i.address? = none)
  | native {s : NativeSymbol} (hi : i.native? = some s)
    (hs : (o.registry.natives.lookup? s).isSome) (haddress : i.address? = none)
    (hentry : i.entry? = none)
  | plain (haddress : i.address? = none) (hentry : i.entry? = none) (hnative : i.native? = none)

end Instr

/-- Every one of the instructions was. -/
def AllFrom (o : Output) (b : Body) (is : List Instr) : Prop := ∀ i ∈ is, i.From o b

variable {o : Output} {b : Body} {is js : List Instr} {i : Instr}

namespace AllFrom

theorem nil : AllFrom o b [] := fun _ h => absurd h List.not_mem_nil

theorem cons (h : i.From o b) (h' : AllFrom o b is) : AllFrom o b (i :: is) :=
  List.forall_mem_cons.2 ⟨h, h'⟩

theorem append (h : AllFrom o b is) (h' : AllFrom o b js) : AllFrom o b (is ++ js) :=
  fun i hi => (List.mem_append.1 hi).elim (h i) (h' i)

theorem single (h : i.From o b) : AllFrom o b [i] := fun _ hj => List.mem_singleton.1 hj ▸ h

theorem plain (haddress : i.address? = none) (hentry : i.entry? = none) (hnative : i.native? = none) :
    AllFrom o b [i] := single (.plain haddress hentry hnative)

end AllFrom

/-! ## Expressions -/

theorem Instr.From.of_pushed? {consts : Array Value} {v : Value} (h : i.pushed? consts = some v) :
    i.From o b := by
  cases i <;> first | exact .plain rfl rfl rfl | cases h

section

variable {p : Program} {arity : Arity}

theorem ArityCode.allFrom {field : ArityField} (h : ArityCode p arity is field) : AllFrom o b is := by
  cases h with
  | spread | count => exact .nil
  | overflow _ hpush => exact .single (.of_pushed? hpush)

end

theorem NativeSymbol.Code.allFrom {s : NativeSymbol} {t : Ty} (h : s.Code o.registry t i) :
    AllFrom o b [i] := by
  cases h with
  | var h => exact .single (.native (s := ⟨_, .var⟩) rfl (by simp [Natives.lookup?, h]) rfl rfl)
  | func h => exact .single (.native (s := ⟨_, .func⟩) rfl (by simp [Natives.lookup?, h]) rfl rfl)
  | funcv h => exact .single (.native (s := ⟨_, .funcv⟩) rfl (by simp [Natives.lookup?, h]) rfl rfl)

/-- The symbol of a host function at an address. -/
def NativeSymbol.ofFunc (addr : Nat) (variadic : Bool) : NativeSymbol :=
  ⟨addr, if variadic then .funcv else .func⟩

theorem NativeSymbol.Calls.entry {r : Registry} {s : NativeSymbol} {variadic : Bool}
    {sig : Signature} (h : s.Calls r variadic sig) :
    (r.natives.lookup? (.ofFunc s.addr variadic)).isSome := by
  cases h with
  | fixed h | variadic h => simp [Natives.lookup?, NativeSymbol.ofFunc, h]

theorem Pushed.Coerced.allFrom {k : Kind} {e : Pushed} (h : e.Coerced k is) : AllFrom o b is := by
  cases h with
  | const | value => exact .nil
  | convertConst | convert => exact .plain rfl rfl rfl

theorem Pushed.CoercedSecond.allFrom {k : Option Kind} {e : Pushed} (h : e.CoercedSecond k is) :
    AllFrom o b is := by
  cases k with
  | some k => exact Pushed.Coerced.allFrom h
  | none => exact h.1 ▸ .nil

variable {S : Site}

theorem VarAt.from {name : String} {id index : Nat} {v : Var} {scope : Scope}
    (h : VarAt S name id v scope index) (hi : i.address? = some (scope, index))
    (hentry : i.entry? = none) : AllFrom S.out S.body [i] :=
  .single (.var rfl rfl h hi hentry)

/-- A call of a host function goes to the registry. -/
theorem CallCode.allFrom_native {p : Program} {addr : Nat} {variadic method : Bool} {arity : Arity}
    (hentry : (o.registry.natives.lookup? (.ofFunc addr variadic)).isSome)
    (h : CallCode p (.native addr variadic method) arity is) : AllFrom o b is := by
  cases h with
  | nativeFixed => exact .single (.native rfl hentry rfl rfl)
  | nativeVariadic harity => exact harity.allFrom.append (.single (.native rfl hentry rfl rfl))

theorem CallCode.allFrom {f : Expr} {ref : FuncRef} {sig : Signature} {arity : Arity}
    (hf : CalleeAt S f ref sig) (h : CallCode S.program ref arity is) : AllFrom S.out S.body is := by
  cases hf with
  | func hfunc =>
    cases h with
    | fixed hat => exact .single (.func rfl rfl hfunc hat rfl rfl)
    | variadic hat harity => exact harity.allFrom.append (.single (.func rfl rfl hfunc hat rfl rfl))
  | native _ hcalls => exact h.allFrom_native hcalls.entry
  | literal hliteral =>
    cases h with
    | literal hat => exact .cons (.literal rfl rfl hliteral hat rfl rfl) (.plain rfl rfl rfl)

mutual

theorem Code.allFrom {e : Expr} {p : Pushed} {is : List Instr} :
    Code S e p is → AllFrom S.out S.body is
  | .var h | .addrOf h => h.from rfl rfl
  | .func h hat => .single (.func rfl rfl h hat rfl rfl)
  | .funcLit h hat => .single (.literal rfl rfl h hat rfl rfl)
  | .param _ => .plain rfl rfl rfl
  | .package _ => .nil
  | .native _ hcode => hcode.allFrom
  | .const _ _ hpush => .single (.of_pushed? hpush)
  | .binary hx hy _ _ _ _ hp hq =>
    ((hx.allFrom.append hp.allFrom).append (hy.allFrom.append hq.allFrom)).append (.plain rfl rfl rfl)
  | .call hf hargs hcall => hargs.allFrom.append (hcall.allFrom hf)
  | .callMethod hx (.mk _ _ hcalls) _ _ hargs hcall =>
    (hx.allFrom.append hargs.allFrom).append (hcall.allFrom_native hcalls.entry)
  | .callValue hargs hf _ => (hargs.allFrom.append hf.allFrom).append (.plain rfl rfl rfl)
  | .field hx _ _ =>
    (hx.allFrom.append fun _ hi => (List.mem_replicate.1 hi).2 ▸ .plain rfl rfl rfl).append
      (.plain rfl rfl rfl)
  | .deref hx _ => hx.allFrom.append (.plain rfl rfl rfl)

theorem Passed.allFrom {sig : Signature} {skip : Nat} {args : List Expr} {spread : Bool}
    {arity : Arity} {is : List Instr} :
    Passed S sig skip args spread arity is → AllFrom S.out S.body is
  | .spread _ h | .each _ h => h.allFrom
  | .sole h _ _ _ => h.allFrom

theorem Each.allFrom {es : List Expr} {ts : List Ty} {is : List Instr} :
    Each S es ts is → AllFrom S.out S.body is
  | .nil => .nil
  | .cons h _ hes => h.allFrom.append hes.allFrom

end

/-! ## Statements -/

theorem Site.Leads.allFrom {S' : Site} (hs : S.Leads S') (h : AllFrom S'.out S'.body is) :
    AllFrom S.out S.body is := by
  rwa [hs.out, hs.body] at h

theorem Addressed.allFrom {x : Expr} {t : Ty} (h : Addressed S x t is) : AllFrom S.out S.body is := by
  cases h with
  | var h => exact h.from rfl rfl
  | through hx hptr => exact hx.allFrom

theorem Given.allFrom {defines : Bool} {x : Expr} {p : Pushed} {S' : Site}
    (h : Given S defines x p is S') : AllFrom S.out S.body is := by
  cases h with
  | blank | param => exact .plain rfl rfl rfl
  | var _ h => exact h.from rfl rfl
  | define _ _ h => exact h.from (S := S.declare _) rfl rfl
  | through hx => exact hx.allFrom.append (.plain rfl rfl rfl)

theorem GivenAll.allFrom {defines : Bool} {xs : List Expr} {ps : List Pushed} {S' : Site}
    (h : GivenAll S defines xs ps is S') : AllFrom S.out S.body is := by
  induction h with
  | nil => exact .nil
  | cons h _ ih => exact h.allFrom.append (h.leads.allFrom ih)

theorem Singles.allFrom {es : List Expr} {ps : List Pushed} (h : Singles S es ps is) :
    AllFrom S.out S.body is := by
  induction h with
  | nil => exact .nil
  | cons h _ _ ih => exact h.allFrom.append ih

theorem Values.allFrom {n : Nat} {es : List Expr} {ps : List Pushed} (h : Values S n es ps is) :
    AllFrom S.out S.body is := by
  cases h with
  | sole h => exact h.allFrom
  | each _ h => exact h.allFrom

theorem Updated.allFrom {op : Operator} {x value : Expr} (h : Updated S op x value is) :
    AllFrom S.out S.body is := by
  cases h with
  | addr hv hx _ _ _ hsecond =>
    exact ((hv.allFrom.append hsecond.allFrom).append hx.allFrom).append (.plain rfl rfl rfl)
  | param _ hv _ _ _ hsecond =>
    exact (((AllFrom.plain rfl rfl rfl).append hv.allFrom).append hsecond.allFrom).append
      (.cons (.plain rfl rfl rfl) (.plain rfl rfl rfl))

theorem Stepped.allFrom {up : Bool} {x : Expr} (h : Stepped S up x is) : AllFrom S.out S.body is := by
  cases h with
  | addr hx => exact hx.allFrom.append (.plain rfl rfl rfl)
  | param _ _ _ hpush =>
    exact .cons (.plain rfl rfl rfl) (.cons (.of_pushed? hpush)
      (.cons (.plain rfl rfl rfl) (.plain rfl rfl rfl)))

theorem AllFrom.ofReturn (n : Nat) : AllFrom o b [.ofReturn n] := by
  unfold Instr.ofReturn
  split <;> exact .plain rfl rfl rfl

theorem Returned.allFrom {values : List Expr} (h : Returned S values is) :
    AllFrom S.out S.body is := by
  cases h with
  | bare => exact .plain rfl rfl rfl
  | sole h => exact h.allFrom.append (.ofReturn _)
  | each h => exact h.allFrom.append (.ofReturn _)

theorem Dropped.allFrom {e : Expr} (h : Dropped S e is) : AllFrom S.out S.body is := by
  cases h with
  | results h =>
    refine h.allFrom.append ?_
    unfold Instr.popping
    split
    · exact .plain rfl rfl rfl
    · exact .nil
  | single h => exact h.allFrom.append (.plain rfl rfl rfl)

mutual

theorem StmtCode.allFrom {S S' : Site} {st : Stmt} {is : List Instr} :
    StmtCode S st is S' → AllFrom S.out S.body is
  | .expr h => h.allFrom
  | .assign _ hvalues htargets => hvalues.allFrom.append htargets.allFrom
  | .update _ h => h.allFrom
  | .ret _ h => h.allFrom
  | .block h => h.allFrom (S := S.enter)
  | .increment h | .decrement h => h.allFrom

theorem StmtsCode.allFrom {S S' : Site} {ss : List Stmt} {is : List Instr} :
    StmtsCode S ss is S' → AllFrom S.out S.body is
  | .nil => .nil
  | .cons h hs => h.allFrom.append (h.leads.allFrom hs.allFrom)

end

/-! ## Bodies -/

theorem Program.Reads.mem {p : Program} {offset o : Nat} (h : p.Reads offset is) (hle : offset ≤ o)
    (hlt : o < offset + is.length) (hi : p.instr? o = some i) : i ∈ is := by
  induction is generalizing offset with
  | nil => simp at hlt; omega
  | cons j js ih =>
    obtain ⟨hj, hreads⟩ := h
    rw [List.length_cons] at hlt
    obtain rfl | hne := Nat.eq_or_lt_of_le hle
    · exact Option.some.inj (hi.symm.trans hj) ▸ List.mem_cons_self
    · exact List.mem_cons_of_mem j (ih hreads hne (by omega))

/-- Where the code of a body lies: that of the main body, or that of a function. -/
inductive Program.Covers (p : Program) : Option Nat → Nat → Nat → Prop
  | main : Covers p none 0 p.mainEnd
  | func {id entry stop : Nat} {g : FuncInfo} (hg : p.funcs[id]? = some g)
    (hentry : g.entry = some entry) (hstop : g.stop = some stop) : Covers p (some id) entry stop

/-- Every instruction in the code of a body has its operands from there. -/
theorem FileCode.from {f : File} (h : FileCode o f) {func : Option Nat} {first stop offset : Nat}
    (hcovers : o.program.Covers func first stop) (hle : first ≤ offset) (hlt : offset < stop)
    (hi : o.program.instr? offset = some i) : ∃ b : Body, b.func = func ∧ i.From o b := by
  cases hcovers with
  | main =>
    obtain ⟨S', is, hend, hreads, hcode, -⟩ := h.main
    exact ⟨.main, rfl, hcode.allFrom i (hreads.mem hle (by omega) hi)⟩
  | func hg hentry hstop =>
    obtain @⟨sig, body, scopes, S', is, entry, first, -, -, -, -, -, -, hbody, -, -, hentry', hstop',
      hreads, hcode⟩ := h.funcs _ _ hg (by rw [hstop]; rfl)
    cases hentry.symm.trans hentry'
    cases hstop.symm.trans hstop'
    exact ⟨body, hbody.func, hcode.allFrom i (hreads.mem hle hlt hi)⟩

end StackScript
