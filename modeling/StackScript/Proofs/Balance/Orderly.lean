import StackScript.Proofs.Balance.Compiled
import StackScript.Proofs.Translation.Origins

/-!
# Arguments and results of a function

Every instruction of a function refers to an argument that the function has, and every return of a
number of values is one of as many as the function declares (`Instr.Orderly`). Unlike the balance
check this holds of all its instructions, also of those behind a call whose callee is known at run
time only.
-/

namespace StackScript

open Balance

/-- Within a function of `numIn` parameters and `numOut` results: the instruction refers to one of its
arguments, and a return is one of all its results. -/
structure Instr.Orderly (numIn numOut : Nat) (i : Instr) : Prop where
  slot : ∀ below, argumentSlot? i = some below → 0 < below ∧ below ≤ numIn
  ret : ∀ n, i = .ret n → n = numOut

/-- Every one of the instructions is. -/
def AllOrderly (numIn numOut : Nat) (is : List Instr) : Prop := ∀ i ∈ is, i.Orderly numIn numOut

variable {numIn numOut : Nat} {is js : List Instr} {i : Instr}

/-- The instruction neither refers to an argument nor returns. -/
theorem Instr.Orderly.plain (hslot : argumentSlot? i = none) (hret : isReturn i = false) :
    i.Orderly numIn numOut where
  slot _ h := nomatch hslot.symm.trans h
  ret n h := by
    rw [h] at hret
    cases hret

theorem Instr.Orderly.ofSlot {below : Nat} (hslot : argumentSlot? i = some below)
    (hret : isReturn i = false) (h : 0 < below ∧ below ≤ numIn) : i.Orderly numIn numOut where
  slot b hb := by
    cases hslot.symm.trans hb
    exact h
  ret n hn := by
    rw [hn] at hret
    cases hret

namespace AllOrderly

theorem nil : AllOrderly numIn numOut [] := fun _ h => absurd h List.not_mem_nil

theorem cons (h : i.Orderly numIn numOut) (h' : AllOrderly numIn numOut is) :
    AllOrderly numIn numOut (i :: is) := List.forall_mem_cons.2 ⟨h, h'⟩

theorem append (h : AllOrderly numIn numOut is) (h' : AllOrderly numIn numOut js) :
    AllOrderly numIn numOut (is ++ js) := fun i hi => (List.mem_append.1 hi).elim (h i) (h' i)

theorem single (h : i.Orderly numIn numOut) : AllOrderly numIn numOut [i] :=
  fun _ hj => List.mem_singleton.1 hj ▸ h

theorem plain (hslot : argumentSlot? i = none) (hret : isReturn i = false) :
    AllOrderly numIn numOut [i] := single (.plain hslot hret)

theorem slot {below : Nat} (hslot : argumentSlot? i = some below) (hret : isReturn i = false)
    (h : 0 < below ∧ below ≤ numIn) : AllOrderly numIn numOut [i] := single (.ofSlot hslot hret h)

/-- The return of all results, or of the result variables. -/
theorem ofReturn : AllOrderly numIn numOut [.ofReturn numOut] := by
  refine single ?_
  unfold Instr.ofReturn
  split
  · exact ⟨fun _ h => (nomatch h), fun _ h => (nomatch h)⟩
  · exact ⟨fun _ h => (nomatch h), fun _ h => by cases h; rfl⟩

end AllOrderly

/-! ## Expressions -/

/-- The instruction writes to an argument. -/
def Instr.storesArg : Instr → Bool
  | .storeArg _ => true
  | _ => false

/-- As in the code of an expression: the instruction at most reads one of `numIn` arguments, and does
not return. -/
structure Instr.Calm (numIn : Nat) (i : Instr) : Prop where
  slot : ∀ below, argumentSlot? i = some below → 0 < below ∧ below ≤ numIn
  stores : i.storesArg = false
  returns : isReturn i = false

/-- Every one of the instructions is calm. -/
def AllCalm (numIn : Nat) (is : List Instr) : Prop := ∀ i ∈ is, i.Calm numIn

theorem Instr.Calm.plain (hslot : argumentSlot? i = none) (hret : isReturn i = false) :
    i.Calm numIn where
  slot _ h := nomatch hslot.symm.trans h
  stores := by cases i <;> first | rfl | cases hslot
  returns := hret

theorem Instr.Calm.of_pushed? {consts : Array Value} {v : Value} (h : i.pushed? consts = some v) :
    i.Calm numIn := by
  cases i <;> first | exact .plain rfl rfl | cases h

namespace AllCalm

theorem nil : AllCalm numIn [] := fun _ h => absurd h List.not_mem_nil

theorem append (h : AllCalm numIn is) (h' : AllCalm numIn js) : AllCalm numIn (is ++ js) :=
  fun i hi => (List.mem_append.1 hi).elim (h i) (h' i)

theorem single (h : i.Calm numIn) : AllCalm numIn [i] := fun _ hj => List.mem_singleton.1 hj ▸ h

theorem plain (hslot : argumentSlot? i = none) (hret : isReturn i = false) : AllCalm numIn [i] :=
  single (.plain hslot hret)

theorem orderly (h : AllCalm numIn is) : AllOrderly numIn numOut is := fun i hi =>
  ⟨(h i hi).slot, fun n heq => by
    have hret := (h i hi).returns
    rw [heq] at hret
    cases hret⟩

end AllCalm

section

variable {p : Program} {arity : Arity}

theorem ArityCode.calm {field : ArityField} (h : ArityCode p arity is field) : AllCalm numIn is := by
  cases h with
  | spread | count => exact .nil
  | overflow _ hpush => exact .single (.of_pushed? hpush)

theorem CallCode.calm {ref : FuncRef} (h : CallCode p ref arity is) : AllCalm numIn is := by
  cases h with
  | literal hat => exact AllCalm.append (.plain rfl rfl) (.plain rfl rfl)
  | fixed | nativeFixed => exact .plain rfl rfl
  | variadic _ harity | nativeVariadic harity => exact harity.calm.append (.plain rfl rfl)

end

theorem NativeSymbol.Code.calm {r : Registry} {s : NativeSymbol} {t : Ty} (h : s.Code r t i) :
    AllCalm numIn [i] := by
  cases h <;> exact .plain rfl rfl

theorem Pushed.Coerced.calm {k : Kind} {e : Pushed} (h : e.Coerced k is) : AllCalm numIn is := by
  cases h with
  | const | value => exact .nil
  | convertConst | convert => exact .plain rfl rfl

theorem Pushed.CoercedSecond.calm {k : Option Kind} {e : Pushed} (h : e.CoercedSecond k is) :
    AllCalm numIn is := by
  cases k with
  | some k => exact Pushed.Coerced.calm h
  | none => exact h.1 ▸ .nil

variable {S : Site}

mutual

theorem Code.calm (hS : S.Takes numIn) {e : Expr} {p : Pushed} {is : List Instr} :
    Code S e p is → AllCalm numIn is
  | .var _ | .func _ _ | .funcLit _ _ | .addrOf _ => .plain rfl rfl
  | .param h => .single ⟨fun _ hslot => Option.some.inj hslot ▸ h.slot hS, rfl, rfl⟩
  | .package _ => .nil
  | .native _ hcode => hcode.calm
  | .const _ _ hpush => .single (.of_pushed? hpush)
  | .binary hx hy _ _ _ _ hp hq =>
    (((hx.calm hS).append hp.calm).append ((hy.calm hS).append hq.calm)).append (.plain rfl rfl)
  | .call _ hargs hcall => (hargs.calm hS).append hcall.calm
  | .callMethod hx _ _ _ hargs hcall => ((hx.calm hS).append (hargs.calm hS)).append hcall.calm
  | .callValue hargs hf _ => ((hargs.calm hS).append (hf.calm hS)).append (.plain rfl rfl)
  | .field hx _ _ =>
    ((hx.calm hS).append fun _ hi => (List.mem_replicate.1 hi).2 ▸ .plain rfl rfl).append
      (.plain rfl rfl)
  | .deref hx _ => (hx.calm hS).append (.plain rfl rfl)

theorem Passed.calm (hS : S.Takes numIn) {sig : Signature} {skip : Nat} {args : List Expr}
    {spread : Bool} {arity : Arity} {is : List Instr} :
    Passed S sig skip args spread arity is → AllCalm numIn is
  | .spread _ h | .each _ h => h.calm hS
  | .sole h _ _ _ => h.calm hS

theorem Each.calm (hS : S.Takes numIn) {es : List Expr} {ts : List Ty} {is : List Instr} :
    Each S es ts is → AllCalm numIn is
  | .nil => .nil
  | .cons h _ hes => (h.calm hS).append (hes.calm hS)

end

theorem Singles.calm (hS : S.Takes numIn) {es : List Expr} {ps : List Pushed} (h : Singles S es ps is) :
    AllCalm numIn is := by
  induction h with
  | nil => exact .nil
  | cons h _ _ ih => exact (h.calm hS).append ih

theorem Values.calm (hS : S.Takes numIn) {n : Nat} {es : List Expr} {ps : List Pushed}
    (h : Values S n es ps is) : AllCalm numIn is := by
  cases h with
  | sole h => exact h.calm hS
  | each _ h => exact h.calm hS

/-! ## Statements -/

/-- The body at a site belongs to a function of `numOut` results. -/
def Site.Gives (S : Site) (numOut : Nat) : Prop := Assembly.narrow S.body.results.length = numOut

theorem Site.Gives.of_leads {S' : Site} (h : S.Gives numOut) (hs : S.Leads S') : S'.Gives numOut := by
  unfold Site.Gives
  rw [hs.body]
  exact h

section

variable (hS : S.Takes numIn)

include hS

theorem Addressed.orderly {x : Expr} {t : Ty} (h : Addressed S x t is) : AllOrderly numIn numOut is := by
  cases h with
  | var h => exact .plain rfl rfl
  | through hx hptr => exact (hx.calm hS).orderly

theorem Given.orderly {defines : Bool} {x : Expr} {p : Pushed} {S' : Site}
    (h : Given S defines x p is S') : AllOrderly numIn numOut is := by
  cases h with
  | blank | var | define => exact .plain rfl rfl
  | param _ h => exact .slot rfl rfl (h.slot hS)
  | through hx => exact (hx.calm hS).orderly.append (.plain rfl rfl)

theorem GivenAll.orderly {defines : Bool} {xs : List Expr} {ps : List Pushed} {S' : Site}
    (h : GivenAll S defines xs ps is S') : AllOrderly numIn numOut is := by
  induction h with
  | nil => exact .nil
  | cons h _ ih => exact (h.orderly hS).append (ih (hS.of_leads h.leads))

theorem Updated.orderly {op : Operator} {x value : Expr} (h : Updated S op x value is) :
    AllOrderly numIn numOut is := by
  cases h with
  | addr hv hx _ _ _ hsecond =>
    have hvalue : AllOrderly numIn numOut _ := ((hv.calm hS).append hsecond.calm).orderly
    exact (hvalue.append (hx.orderly hS)).append (.plain rfl rfl)
  | param hx hv _ _ _ hsecond =>
    have hslot := hx.slot hS
    have hvalue : AllOrderly numIn numOut _ := ((hv.calm hS).append hsecond.calm).orderly
    rw [List.append_assoc [_]]
    exact ((AllOrderly.slot rfl rfl hslot).append hvalue).append
      (.cons (.plain rfl rfl) (.slot rfl rfl hslot))

theorem Stepped.orderly {up : Bool} {x : Expr} (h : Stepped S up x is) : AllOrderly numIn numOut is := by
  cases h with
  | addr hx => exact (hx.orderly hS).append (.plain rfl rfl)
  | param hx _ _ hpush =>
    have hslot := hx.slot hS
    exact .cons (.ofSlot rfl rfl hslot) (.append (AllCalm.single (.of_pushed? hpush)).orderly
      (.cons (.plain rfl rfl) (.slot rfl rfl hslot)))

theorem Returned.orderly (hout : S.Gives numOut) {values : List Expr} (h : Returned S values is) :
    AllOrderly numIn numOut is := by
  have hlast : AllOrderly numIn numOut [.ofReturn (Assembly.narrow S.body.results.length)] :=
    hout ▸ .ofReturn
  cases h with
  | bare => exact .single ⟨fun _ h => (nomatch h), fun _ h => (nomatch h)⟩
  | sole h => exact (h.calm hS).orderly.append hlast
  | each h => exact (h.calm hS).orderly.append hlast

theorem Dropped.orderly {e : Expr} (h : Dropped S e is) : AllOrderly numIn numOut is := by
  cases h with
  | results h =>
    refine (h.calm hS).orderly.append ?_
    unfold Instr.popping
    split
    · exact .plain rfl rfl
    · exact .nil
  | single h => exact (h.calm hS).orderly.append (.plain rfl rfl)

end

mutual

theorem StmtCode.orderly {S S' : Site} (hS : S.Takes numIn) (hout : S.Gives numOut) {st : Stmt}
    {is : List Instr} : StmtCode S st is S' → AllOrderly numIn numOut is
  | .expr h => h.orderly hS
  | .assign _ hvalues htargets => (hvalues.calm hS).orderly.append (htargets.orderly hS)
  | .update _ h => h.orderly hS
  | .ret _ h => h.orderly hS hout
  | .block h => h.orderly (S := S.enter) hS hout
  | .increment h | .decrement h => h.orderly hS

theorem StmtsCode.orderly {S S' : Site} (hS : S.Takes numIn) (hout : S.Gives numOut)
    {ss : List Stmt} {is : List Instr} : StmtsCode S ss is S' → AllOrderly numIn numOut is
  | .nil => .nil
  | .cons h hs => (h.orderly hS hout).append (hs.orderly (hS.of_leads h.leads) (hout.of_leads h.leads))

end

/-! ## Functions -/

/-- The code of every function keeps to its own parameters and results, and a frame has a variable
for each result. -/
structure Program.Orderly (p : Program) : Prop where
  code : ∀ (id : Nat) (f : FuncInfo) (entry stop offset : Nat) (i : Instr), p.funcs[id]? = some f →
    f.entry = some entry → f.stop = some stop → entry ≤ offset → offset < stop →
    p.instr? offset = some i → i.Orderly f.numIn f.numOut
  results : ∀ (id : Nat) (f : FuncInfo), p.funcs[id]? = some f → f.stop.isSome →
    f.numOut ≤ f.vars.size

/-- The code of a function keeps to its parameters and results. -/
theorem FuncCode.orderly {o : Output} {id : Nat} {g : FuncInfo} (hg : o.program.funcs[id]? = some g)
    (hshort : g.numOut < mostPushed) (h : FuncCode o id g) :
    ∃ entry is, g.entry = some entry ∧ g.stop = some (entry + is.length) ∧
      o.program.Reads entry is ∧ AllOrderly g.numIn g.numOut is ∧ g.numOut ≤ g.vars.size := by
  obtain @⟨sig, body, scopes, S', is, entry, first, hparams, hsig, hnumOut, hresults, -, -, hbody, -,
    -, hentry, hstop, hreads, hcode⟩ := h
  refine ⟨entry, is, hentry, hstop, hreads,
    hcode.orderly (Body.Of.takes hbody hg hsig hparams) ?_, ?_⟩
  · show Assembly.narrow body.results.length = g.numOut
    rw [hbody.results, ← hnumOut]
    rw [mostPushed_eq] at hshort
    exact narrow_of_lt (by show _ < 4294967296; omega)
  · rw [hnumOut]
    by_contra hlt
    obtain ⟨t, ht⟩ : ∃ t, sig.results[g.vars.size]? = some t :=
      ⟨_, List.getElem?_eq_getElem (by omega)⟩
    obtain ⟨id, v, hid, -⟩ := hresults _ _ ht
    exact absurd (Array.getElem?_eq_some_iff.1 hid).1 (Nat.lt_irrefl _)

theorem FileCode.orderly {o : Output} {f : File} (h : FileCode o f)
    (hshort : ∀ (id : Nat) (sig : Signature), o.program.sig? id = some sig → sig.Short) :
    o.program.Orderly := by
  have hfunc (id : Nat) (g : FuncInfo) (hg : o.program.funcs[id]? = some g) (hstop : g.stop.isSome) :
      ∃ entry is, g.entry = some entry ∧ g.stop = some (entry + is.length) ∧
        o.program.Reads entry is ∧ AllOrderly g.numIn g.numOut is ∧ g.numOut ≤ g.vars.size := by
    have hcode := h.funcs id g hg hstop
    refine hcode.orderly hg ?_
    obtain ⟨-, hsig, hnumOut, -⟩ := hcode
    rw [hnumOut]
    exact (hshort id _ (hsig.sig? hg)).2
  refine ⟨fun id g entry stop offset i hg hentry hstop hle hlt hi => ?_, fun id g hg hstop => ?_⟩
  · obtain ⟨entry', is, hentry', hstop', hreads, horders, -⟩ := hfunc id g hg (by rw [hstop]; rfl)
    cases hentry.symm.trans hentry'
    cases hstop.symm.trans hstop'
    exact horders i (hreads.mem hle hlt hi)
  · obtain ⟨-, -, -, -, -, -, hvars⟩ := hfunc id g hg hstop
    exact hvars

/-- The functions of a program that the compiler gives keep to their parameters and results. -/
theorem File.orderly_of_compile {r : Registry} {folds : Bool} {f : File} {p : Program}
    (h : f.compile r folds = .ok p) (hsmall : p.Small)
    (hshort : ∀ (id : Nat) (sig : Signature), p.sig? id = some sig → sig.Short) : p.Orderly := by
  obtain ⟨o, -, -, rfl, hcode⟩ := File.code_of_compile h hsmall
  exact hcode.orderly hshort

end StackScript
