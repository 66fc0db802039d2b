import StackScript.Proofs.Balance.Accepting
import StackScript.Proofs.Translation.Files

/-!
# Compiled programs are balanced

The code of an expression leaves as many values as its `Pushed` has types, and the code of a
statement leaves none, whatever lies below. So the balance check passes every program that the
compiler gives (`File.check_of_compile`). Code behind a call whose callee is known at run time only
is not looked at (`Stops`).
-/

namespace StackScript

namespace Balance

section

variable (p : Program) (known : Known) (numIn : Nat)

/-- The check ends within the instructions. -/
def Stops (is : List Instr) : Prop := ∀ h rest, Accepts p known numIn (is ++ rest) h

/-- The instructions leave `n` values and do not return. Their number is small unless the check ends
within them. -/
structure Leaves (is : List Instr) (n : Nat) : Prop where
  raises : Raises p known numIn is 0 n
  small : n ≤ mostPushed ∨ Stops p known numIn is
  returns : ∀ i ∈ is, isReturn i = false

end

variable {p : Program} {known : Known} {numIn : Nat} {is js : List Instr} {i : Instr} {a b m n : Nat}

theorem Stops.raises (h : Stops p known numIn is) : Raises p known numIn is a b :=
  fun _ rest _ => h _ rest

theorem Stops.append (h : Stops p known numIn is) (js : List Instr) :
    Stops p known numIn (is ++ js) := fun n rest => by
  rw [List.append_assoc]
  exact h n _

theorem Raises.stops (h : Raises p known numIn is 0 a) (h' : Stops p known numIn js) :
    Stops p known numIn (is ++ js) := fun n rest => by
  rw [List.append_assoc]
  exact h n _ (h' _ rest)

namespace Leaves

theorem nil : Leaves p known numIn [] 0 :=
  ⟨.nil, .inl (Nat.zero_le _), fun _ h => nomatch h⟩

theorem single (h : Raises p known numIn [i] 0 1) (hi : isReturn i = false) :
    Leaves p known numIn [i] 1 :=
  ⟨h, .inl (by decide), fun j hj => List.mem_singleton.1 hj ▸ hi⟩

/-- Values on top of those that were left. -/
theorem push (h : Leaves p known numIn is m) (h' : Leaves p known numIn js n)
    (hsmall : m + n ≤ mostPushed) : Leaves p known numIn (is ++ js) (m + n) :=
  ⟨h.raises.push h'.raises, .inl hsmall, fun i hi =>
    (List.mem_append.1 hi).elim (h.returns i) (h'.returns i)⟩

/-- Instructions that take what was left. -/
theorem andThen (h : Leaves p known numIn is m) (h' : Raises p known numIn js m n)
    (hsmall : n ≤ mostPushed) (hreturns : ∀ i ∈ js, isReturn i = false) :
    Leaves p known numIn (is ++ js) n :=
  ⟨h.raises.append h', .inl hsmall, fun i hi =>
    (List.mem_append.1 hi).elim (h.returns i) (hreturns i)⟩

end Leaves

end Balance

open Balance

/-! ## Sizes -/

/-- The table of a function fits the function, and signatures and code are small enough for heights
to be counted. -/
structure Output.Sized (o : Output) : Prop where
  code : o.program.code.size ≤ mostPushed
  sigs : ∀ (id : Nat) (sig : Signature), o.program.sig? id = some sig →
    sig.params.length < mostPushed ∧ sig.results.length < mostPushed
  table : ∀ (variadic : Bool) (place id : Nat) (sig : Signature),
    (o.program.table variadic)[place]? = some id → o.program.sig? id = some sig →
      sig.variadic = variadic ∧ ∃ f : FuncInfo, o.program.funcs[id]? = some f ∧
        f.numIn = sig.params.length ∧ f.numOut = sig.results.length
  funcs : ∀ (addr : Nat) (f : NativeFunc), o.registry.natives.funcs[addr]? = some f →
    f.func.sig.variadic = false ∧ f.func.sig.params.length < mostPushed ∧
      f.func.sig.results.length < mostPushed
  funcvs : ∀ (addr : Nat) (f : NativeFunc), o.registry.natives.funcvs[addr]? = some f →
    f.func.sig.variadic = true ∧ f.func.sig.params.length < mostPushed ∧
      f.func.sig.results.length < mostPushed

/-- What the check knows of the host functions that a program was compiled with. -/
def Output.known (o : Output) : Balance.Known := .ofNatives o.registry.natives

/-- The body at a site belongs to a function of `numIn` parameters. -/
def Site.Takes (S : Site) (numIn : Nat) : Prop :=
  ∀ id sig, S.body.func = some id → S.program.sig? id = some sig →
    S.body.numParams = sig.params.length ∧ numIn = sig.params.length

variable {S : Site} {numIn : Nat}

theorem Body.Of.takes {id : Nat} {sig : Signature} {g : FuncInfo} (h : S.body.Of id sig)
    (hg : S.program.funcs[id]? = some g) (hsig : g.Signed sig) (hparams : g.params = sig.params) :
    S.Takes g.numIn := by
  intro id' sig' hfunc hsig'
  cases h.func.symm.trans hfunc
  cases (hsig.sig? hg).symm.trans hsig'
  exact ⟨h.numParams, congrArg List.length hparams⟩

/-! ## Calls -/

theorem Balance.signed_of_lt {n : Nat} (h : n < mostPushed) : signed n = n := by
  have hlt : n < 2147483648 := h
  show (BitVec.ofNat 64 n).toInt = n
  have hnat : (BitVec.ofNat 64 n).toNat = n := by
    rw [BitVec.toNat_ofNat]
    exact Nat.mod_eq_of_lt (by omega)
  rw [BitVec.toInt_eq_toNat_of_lt (by omega), hnat]

/-- Values on the stack for a call of a function. -/
def Arity.taken (sig : Signature) : Arity → Nat
  | count n => n
  | spread => sig.params.length

/-- A call of a function that the compiler knows. -/
inductive FuncRef.Of (o : Output) : FuncRef → Signature → Prop
  | script {id : Nat} {literal : Bool} {sig : Signature} (h : o.program.sig? id = some sig) :
    Of o (.script id literal) sig
  | fixed {addr : Nat} {f : NativeFunc} {method : Bool}
    (h : o.registry.natives.funcs[addr]? = some f) : Of o (.native addr false method) f.func.sig
  | variadic {addr : Nat} {f : NativeFunc} {method : Bool}
    (h : o.registry.natives.funcvs[addr]? = some f) : Of o (.native addr true method) f.func.sig

section Calls

variable {o : Output} {sig : Signature} {arity : Arity} {is : List Instr} {ref : FuncRef}

theorem raises_instr {p : Program} {known : Balance.Known} {i : Instr} {a b : Nat}
    (hslot : argumentSlot? i = none)
    (heffect : effect p known i = .ok (some ((a : Int), (b : Int)))) (hb : b < mostPushed) :
    Raises p known numIn [i] a b := .of_effect hslot heffect (Nat.le_of_lt hb)

theorem raises_push {p : Program} {known : Balance.Known} {i : Instr} (hslot : argumentSlot? i = none)
    (heffect : effect p known i = .ok (some (0, 1))) (a : Nat) :
    Raises p known numIn [i] a (a + 1) := by
  have hraises : Raises p known numIn [i] (0 + a) (1 + a) :=
    (raises_instr hslot heffect (by decide)).frame a
  rwa [Nat.zero_add, Nat.add_comm 1] at hraises

theorem pushed?_effect {p : Program} {known : Balance.Known} {i : Instr} {consts : Array Value} {v : Value}
    (h : i.pushed? consts = some v) :
    argumentSlot? i = none ∧ effect p known i = .ok (some (0, 1)) ∧ isReturn i = false := by
  cases i <;> first | exact ⟨rfl, rfl, rfl⟩ | cases h

/-- A variadic call takes its arguments, however their count is given. -/
theorem ArityCode.raises {p : Program} {known : Balance.Known} {field : ArityField} {j : Instr}
    (h : ArityCode p arity is field) (hcount : ∀ n, arity = .count n → n < 1 <<< 32)
    (hparams : sig.params.length < mostPushed) (hresults : sig.results.length < mostPushed)
    (hslot : argumentSlot? j = none) (heffect : effect p known j =
      .ok ((variadicPops field sig.params.length).map (·, (sig.results.length : Int)))) :
    Raises p known numIn (is ++ [j]) (arity.taken sig) sig.results.length := by
  cases h with
  | spread =>
    rw [variadicPops, signed_of_lt hparams] at heffect
    exact raises_instr hslot heffect hresults
  | @count n hn =>
    rw [narrow_of_lt (hcount n rfl)] at heffect
    exact raises_instr hslot heffect hresults
  | @overflow n i v hn hpush hv =>
    obtain ⟨hslot', heffect', -⟩ := pushed?_effect hpush
    exact (raises_push hslot' heffect' n).append (.of_unknown hslot heffect)

theorem ArityCode.returns {p : Program} {field : ArityField} (h : ArityCode p arity is field) :
    ∀ i ∈ is, isReturn i = false := by
  cases h with
  | overflow hn hpush hv =>
    intro i hi
    cases List.mem_singleton.1 hi
    have heffect : _ ∧ effect p .none _ = _ ∧ _ := pushed?_effect hpush
    exact heffect.2.2
  | _ => exact fun _ hi => nomatch hi

theorem tableFunc_of_entry {p : Program} {variadic : Bool} {place id : Nat} {f : FuncInfo}
    (hentry : (p.table variadic)[place]? = some id) (hf : p.funcs[id]? = some f) :
    p.tableFunc variadic place = .ok (some f) := by
  simp [Program.tableFunc, hentry, Program.func, hf, Except.map]

theorem effect_callFunc {p : Program} {known : Balance.Known} {place : Nat} {f : FuncInfo}
    (h : p.tableFunc false place = .ok (some f)) :
    effect p known (.callFunc place) = .ok (some ((f.numIn : Int), signed f.numOut)) := by
  rw [effect, h]
  rfl

theorem effect_callFuncv {p : Program} {known : Balance.Known} {place : Nat} {f : FuncInfo}
    {field : ArityField} (h : p.tableFunc true place = .ok (some f)) :
    effect p known (.callFuncv field place) =
      .ok ((variadicPops field f.numIn).map (·, signed f.numOut)) := by
  rw [effect, h]
  rfl

/-- A call takes its arguments and leaves its results. -/
theorem CallCode.raises (ho : o.Sized) (h : CallCode o.program ref arity is) (href : ref.Of o sig)
    (hcount : ∀ n, arity = .count n → n < 1 <<< 32 ∧ (sig.variadic = false → n = sig.params.length))
    (hspread : arity = .spread → sig.variadic = true) :
    Raises o.program o.known numIn is (arity.taken sig) sig.results.length := by
  have hfixed (hv : sig.variadic = false) : arity.taken sig = sig.params.length := by
    cases arity with
    | count n => exact (hcount n rfl).2 hv
    | spread => rfl
  cases h with
  | literal hat =>
    exact (raises_push rfl rfl _).append (.of_unknown rfl rfl)
  | @fixed id place arity hat =>
    cases href with
    | script hsig =>
      obtain ⟨hv, f, hf, hin, hout⟩ := ho.table _ _ _ _ hat.entry hsig
      obtain ⟨-, hresults⟩ := ho.sigs _ _ hsig
      rw [hfixed hv]
      refine raises_instr rfl ?_ hresults
      rw [effect_callFunc (tableFunc_of_entry hat.entry hf), ← hin, ← hout,
        signed_of_lt (hout ▸ hresults)]
  | @variadic id place arity js field hat harity =>
    cases href with
    | script hsig =>
      obtain ⟨hv, f, hf, hin, hout⟩ := ho.table _ _ _ _ hat.entry hsig
      obtain ⟨hparams, hresults⟩ := ho.sigs _ _ hsig
      refine harity.raises (fun n hn => (hcount n hn).1) hparams hresults rfl ?_
      rw [effect_callFuncv (tableFunc_of_entry hat.entry hf), ← hin, ← hout,
        signed_of_lt (hout ▸ hresults)]
  | nativeFixed =>
    cases href with
    | fixed hf =>
      obtain ⟨hv, -, hresults⟩ := ho.funcs _ _ hf
      rw [hfixed hv]
      refine raises_instr rfl ?_ hresults
      show Except.ok ((o.registry.natives.funcCounts? _).map _) = _
      rw [Natives.funcCounts?, hf]
      rfl
  | nativeVariadic harity =>
    cases href with
    | variadic hf =>
      obtain ⟨-, hparams, hresults⟩ := ho.funcvs _ _ hf
      refine harity.raises (fun n hn => (hcount n hn).1) hparams hresults rfl ?_
      show Except.ok ((o.registry.natives.funcvCounts? _).bind _) = _
      rw [Natives.funcvCounts?, hf]
      rfl

theorem CallCode.returns {p : Program} (h : CallCode p ref arity is) :
    ∀ i ∈ is, isReturn i = false := by
  cases h with
  | variadic _ harity =>
    intro i hi
    obtain hi | hi := List.mem_append.1 hi
    · exact harity.returns i hi
    · exact List.mem_singleton.1 hi ▸ rfl
  | nativeVariadic harity =>
    intro i hi
    obtain hi | hi := List.mem_append.1 hi
    · exact harity.returns i hi
    · exact List.mem_singleton.1 hi ▸ rfl
  | _ => simp [isReturn]

theorem FuncRef.Of.small (ho : o.Sized) (h : ref.Of o sig) : sig.results.length < mostPushed := by
  cases h with
  | script h => exact (ho.sigs _ _ h).2
  | fixed h => exact (ho.funcs _ _ h).2.2
  | variadic h => exact (ho.funcvs _ _ h).2.2

theorem CalleeAt.of {f : Expr} (h : CalleeAt S f ref sig) : ref.Of S.out sig := by
  cases h with
  | func h => exact .script h.sig
  | native _ hcalls =>
    cases hcalls with
    | fixed h => exact .fixed h
    | variadic h => exact .variadic h
  | literal h => exact .script h.sig

theorem Method.of {t : Ty} {name : String} {addr : Nat} {variadic : Bool}
    (h : Method o.registry t name addr variadic sig) : (FuncRef.native addr variadic true).Of o sig := by
  cases h with
  | mk _ _ hcalls =>
    cases hcalls with
    | fixed h => exact .fixed h
    | variadic h => exact .variadic h

/-- Values on the stack for the arguments behind the first `skip` parameters. -/
def Arity.rest (sig : Signature) (skip : Nat) : Arity → Nat
  | count n => n
  | spread => sig.params.length - skip

/-- Arguments lie on the stack as a call takes them. -/
structure ArgsLie (o : Output) (numIn : Nat) (sig : Signature) (skip : Nat) (arity : Arity)
    (is : List Instr) : Prop where
  leaves : Leaves o.program o.known numIn is (arity.rest sig skip)
  takes : ∀ n, arity = .count n → sig.Takes skip n
  spread : arity = .spread → sig.variadic = true

/-- A call behind its arguments, above values that are taken as the first parameters. -/
theorem ArgsLie.call (ho : o.Sized) {skip : Nat} {js : List Instr}
    (h : ArgsLie o numIn sig skip arity is) (hskip : skip ≤ sig.params.length)
    (hcall : CallCode o.program ref (Compile.withReceiver skip arity) js) (href : ref.Of o sig) :
    Raises o.program o.known numIn (is ++ js) skip sig.results.length := by
  obtain hsmall | hstops := h.leaves.small
  · have htaken : (Compile.withReceiver skip arity).taken sig = arity.rest sig skip + skip := by
      cases arity with
      | count n => rfl
      | spread => exact (Nat.sub_add_cancel hskip).symm
    have hraises : Raises o.program o.known numIn js (arity.rest sig skip + skip)
        sig.results.length := by
      rw [← htaken]
      refine hcall.raises ho href (fun n hn => ?_) fun hspread => ?_
      · cases arity with
        | count m =>
          cases hn
          have hm : m ≤ mostPushed := hsmall
          have hparams : sig.variadic = false → m = sig.params.length - skip := fun hv => by
            have := h.takes m rfl
            simp only [Signature.Takes, hv, Bool.false_eq_true, if_false, Compile.fixedCount] at this
            exact this
          have hlt : skip ≤ sig.params.length := hskip
          have hbound : sig.params.length < mostPushed := by
            cases href with
            | script hsig => exact (ho.sigs _ _ hsig).1
            | fixed hf => exact (ho.funcs _ _ hf).2.1
            | variadic hf => exact (ho.funcvs _ _ hf).2.1
          rw [mostPushed_eq] at hm hbound
          refine ⟨by show m + skip < 4294967296; omega, fun hv => ?_⟩
          have := hparams hv
          omega
        | spread => cases hn
      · cases arity with
        | count m => cases hspread
        | spread => exact h.spread rfl
    have hargs := h.leaves.raises.frame skip
    rw [Nat.zero_add] at hargs
    exact hargs.append hraises
  · exact (hstops.append js).raises

theorem raises_callValue {p : Program} {known : Balance.Known} :
    Stops p known numIn [.callValue arity] := fun _ _ =>
  ⟨fun _ hslot => (nomatch hslot), .inl rfl⟩

end Calls

/-! ## Expressions -/

theorem one_lt : 1 < mostPushed := by decide

theorem withReceiver_zero (arity : Arity) : Compile.withReceiver 0 arity = arity := by
  cases arity <;> rfl

theorem NativeSymbol.Code.leaves {p : Program} {known : Balance.Known} {r : Registry}
    {s : NativeSymbol} {t : Ty} {i : Instr} (h : s.Code r t i) : Leaves p known numIn [i] 1 := by
  cases h <;> exact .single (raises_push rfl rfl 0) rfl

theorem Pushed.Coerced.raises {p : Program} {known : Balance.Known} {k : Kind} {e : Pushed}
    {is : List Instr} (h : e.Coerced k is) : Raises p known numIn is 1 1 ∧
      (∀ i ∈ is, isReturn i = false) ∧ e.types.length = 1 := by
  cases h with
  | const | value => exact ⟨.nil, fun _ hi => (nomatch hi), rfl⟩
  | convertConst | convert =>
    exact ⟨raises_instr rfl rfl (by decide), fun i hi => List.mem_singleton.1 hi ▸ rfl, rfl⟩

theorem Pushed.CoercedSecond.raises {p : Program} {known : Balance.Known} {k : Option Kind}
    {e : Pushed} {is : List Instr} (h : e.CoercedSecond k is) : Raises p known numIn is 1 1 ∧
      ∀ i ∈ is, isReturn i = false := by
  cases k with
  | some k =>
    obtain ⟨hraises, hreturns, -⟩ := Pushed.Coerced.raises h
    exact ⟨hraises, hreturns⟩
  | none =>
    obtain ⟨rfl, -⟩ := h
    exact ⟨.nil, fun _ hi => nomatch hi⟩

theorem Pushed.Fits.length {t : Ty} {e : Pushed} (h : e.Fits t) : e.types.length = 1 := by
  cases e with
  | const | value => rfl
  | results | package => exact h.elim

theorem length_ofResults (sig : Signature) :
    (Pushed.ofResults sig).types.length = sig.results.length := by
  unfold Pushed.ofResults
  split
  · rename_i t h
    rw [h]
    rfl
  · simp [Pushed.types]

/-- The code of one value has an instruction. -/
theorem Code.length_pos {e : Expr} {p : Pushed} {is : List Instr} (h : Code S e p is)
    (hp : p.types.length = 1) : 0 < is.length := by
  cases h with
  | package => cases hp
  | call _ _ hcall | callMethod _ _ _ _ _ hcall =>
    cases hcall <;> (simp only [List.length_append, List.length_cons]; omega)
  | _ => simp only [List.length_append, List.length_cons, List.length_nil]; omega

/-- The slot of a parameter is one of the arguments. -/
theorem ParamAt.slot (hS : S.Takes numIn) {name : String} {below : Nat} {t : Ty}
    (h : ParamAt S name below t) : 0 < below ∧ below ≤ numIn := by
  cases h with
  | mk hfind hfunc hsig hty =>
    obtain ⟨hparams, hin⟩ := hS _ _ hfunc hsig
    have hlt := (List.getElem?_eq_some_iff.1 hty).1
    omega

mutual

/-- The code of an expression leaves its values. -/
theorem Code.leaves (ho : S.out.Sized) (hS : S.Takes numIn) {e : Expr} {p : Pushed}
    {is : List Instr} : Code S e p is → is.length ≤ mostPushed →
    Leaves S.program S.out.known numIn is p.types.length
  | .var _, _ | .func _ _, _ | .funcLit _ _, _ | .addrOf _, _ => .single (raises_push rfl rfl 0) rfl
  | .param h, _ => .single (.of_slot rfl (h.slot hS).1 (h.slot hS).2 rfl (by decide)) rfl
  | .package _, _ => .nil
  | .native _ hcode, _ => hcode.leaves
  | .const _ _ hpush, _ => by
    obtain ⟨hslot, heffect, hret⟩ := pushed?_effect hpush
    exact .single (raises_push hslot heffect 0) hret
  | .binary hx hy hfold hkx hky hr hp hq, hlen => by
    simp only [List.length_append] at hlen
    have hx := hx.leaves ho hS (by omega)
    have hy := hy.leaves ho hS (by omega)
    rw [Pushed.length_types_of_operandKind? hkx] at hx
    rw [Pushed.length_types_of_operandKind? hky] at hy
    obtain ⟨hp, hpr, -⟩ := hp.raises
    obtain ⟨hq, hqr⟩ := hq.raises
    have hfirst := hx.andThen hp (Nat.le_of_lt one_lt) hpr
    have hsecond := hy.andThen hq (Nat.le_of_lt one_lt) hqr
    exact (hfirst.push hsecond (by decide)).andThen (raises_instr rfl rfl one_lt) (Nat.le_of_lt one_lt)
      fun i hi => List.mem_singleton.1 hi ▸ rfl
  | .call hf hargs hcall, hlen => by
    simp only [List.length_append] at hlen
    have hargs := hargs.lie ho hS (by omega)
    rw [length_ofResults]
    exact ⟨hargs.call ho (Nat.zero_le _) (withReceiver_zero _ ▸ hcall) hf.of,
      .inl (Nat.le_of_lt (hf.of.small ho)), fun i hi =>
        (List.mem_append.1 hi).elim (hargs.leaves.returns i) (hcall.returns i)⟩
  | .callMethod hx hmethod hparams hrecv hargs hcall, hlen => by
    simp only [List.length_append] at hlen
    have hx := hx.leaves ho hS (by omega)
    have hargs := hargs.lie ho hS (by omega)
    rw [length_ofResults, List.append_assoc]
    refine hx.andThen (hargs.call ho (by rw [hparams]; simp) hcall hmethod.of)
      (Nat.le_of_lt (hmethod.of.small ho)) fun i hi =>
        (List.mem_append.1 hi).elim (hargs.leaves.returns i) (hcall.returns i)
  | .callValue hargs hf hsig, hlen => by
    simp only [List.length_append] at hlen
    have hargs := hargs.lie ho hS (by omega)
    have hf := hf.leaves ho hS (by omega)
    have hbefore := hargs.leaves.raises.push hf.raises
    refine ⟨(hbefore.stops raises_callValue).raises, .inr (hbefore.stops raises_callValue),
      fun i hi => ?_⟩
    simp only [List.mem_append, List.mem_singleton] at hi
    obtain (hi | hi) | rfl := hi
    · exact hargs.leaves.returns i hi
    · exact hf.returns i hi
    · rfl
  | .field hx hstrip hfield, hlen => by
    simp only [List.length_append] at hlen
    have hx := hx.leaves ho hS (by omega)
    refine (hx.andThen (.replicate _ (raises_instr rfl rfl one_lt)) (Nat.le_of_lt one_lt)
      fun i hi => (List.mem_replicate.1 hi).2 ▸ rfl).andThen (raises_instr rfl rfl one_lt)
      (Nat.le_of_lt one_lt) fun i hi => List.mem_singleton.1 hi ▸ rfl
  | .deref hx hptr, hlen => by
    simp only [List.length_append] at hlen
    have hx := hx.leaves ho hS (by omega)
    exact hx.andThen (raises_instr rfl rfl one_lt) (Nat.le_of_lt one_lt)
      fun i hi => List.mem_singleton.1 hi ▸ rfl

/-- Arguments lie on the stack as a call takes them. -/
theorem Passed.lie (ho : S.out.Sized) (hS : S.Takes numIn) {sig : Signature} {skip : Nat}
    {args : List Expr} {spread : Bool} {arity : Arity} {is : List Instr} :
    Passed S sig skip args spread arity is → is.length ≤ mostPushed →
      ArgsLie S.out numIn sig skip arity is
  | .spread hvariadic h, hlen => by
    obtain ⟨hleaves, -⟩ := h.leaves ho hS hlen
    rw [List.length_drop] at hleaves
    exact ⟨hleaves, fun _ hn => (nomatch hn), fun _ => hvariadic⟩
  | .sole h htypes htakes hfit, hlen => by
    have := h.leaves ho hS hlen
    simp only [Pushed.types, List.length_reverse] at this
    exact ⟨this, fun n hn => by cases hn; exact htakes, fun hs => nomatch hs⟩
  | .each htakes h, hlen => by
    obtain ⟨hleaves, -⟩ := h.leaves ho hS hlen
    rw [Compile.length_argTypes] at hleaves
    exact ⟨hleaves, fun n hn => by cases hn; exact htakes, fun hs => nomatch hs⟩

/-- Each expression leaves one value. -/
theorem Each.leaves (ho : S.out.Sized) (hS : S.Takes numIn) {es : List Expr} {ts : List Ty}
    {is : List Instr} : Each S es ts is → is.length ≤ mostPushed →
      Leaves S.program S.out.known numIn is ts.length ∧ ts.length ≤ is.length
  | .nil, _ => ⟨.nil, Nat.le_refl _⟩
  | .cons h hfit hes, hlen => by
    rw [List.length_append] at hlen
    have he := h.leaves ho hS (by omega)
    have hpos := h.length_pos hfit.length
    obtain ⟨hes, hle⟩ := hes.leaves ho hS (by omega)
    rw [hfit.length] at he
    have := he.push hes (by omega)
    rw [Nat.add_comm] at this
    exact ⟨this, by rw [List.length_append, List.length_cons]; omega⟩

end

/-! ## Statements -/

/-- Code that leaves what it finds, and returns from functions only. -/
structure Restores (S : Site) (numIn : Nat) (is : List Instr) : Prop where
  raises : Raises S.program S.out.known numIn is 0 0
  returns : S.body.func = none → ∀ i ∈ is, isReturn i = false

namespace Restores

variable {is js : List Instr}

theorem append (h : Restores S numIn is) (h' : Restores S numIn js) :
    Restores S numIn (is ++ js) :=
  ⟨h.raises.append h'.raises, fun hmain i hi =>
    (List.mem_append.1 hi).elim (h.returns hmain i) (h'.returns hmain i)⟩

theorem of_leaves (h : Leaves S.program S.out.known numIn is 0) : Restores S numIn is :=
  ⟨h.raises, fun _ => h.returns⟩

theorem of_leads {S' : Site} (hs : S.Leads S') (h : Restores S' numIn is) : Restores S numIn is := by
  obtain ⟨hraises, hreturns⟩ := h
  rw [Site.program, hs.out] at hraises
  rw [hs.body] at hreturns
  exact ⟨hraises, hreturns⟩

end Restores

theorem Site.Takes.of_leads {S' : Site} (h : S.Takes numIn) (hs : S.Leads S') : S'.Takes numIn := by
  unfold Site.Takes Site.program
  rw [hs.out, hs.body]
  exact h

theorem raises_addrOp {p : Program} {known : Balance.Known} {k : Option Kind}
    {op : Option AddressOperator} {a b : Nat}
    (h : ∀ op', op = some op' → op'.stackEffect = (a, b)) (hb : b < mostPushed) :
    Raises p known numIn [.addrOp k op] a b := by
  cases op with
  | none => exact .of_unknown rfl rfl
  | some op =>
    refine raises_instr rfl ?_ hb
    simp [effect, h op rfl]

theorem raises_ofReturn {p : Program} {known : Balance.Known} {a b n : Nat} (h : n ≤ a) :
    Raises p known numIn [.ofReturn n] a b := by
  unfold Instr.ofReturn
  split
  · exact .of_return (n := 0) rfl rfl rfl (Nat.zero_le _)
  · exact .of_return rfl rfl rfl h

section Statements

variable (ho : S.out.Sized) (hS : S.Takes numIn)

include ho hS

theorem Addressed.leaves {x : Expr} {t : Ty} {is : List Instr} (h : Addressed S x t is)
    (hlen : is.length ≤ mostPushed) : Leaves S.program S.out.known numIn is 1 := by
  cases h with
  | var h => exact .single (raises_push rfl rfl 0) rfl
  | through hx hptr => exact hx.leaves ho hS hlen

/-- A target takes one value. -/
theorem Given.raises {defines : Bool} {x : Expr} {p : Pushed} {is : List Instr} {S' : Site}
    (h : Given S defines x p is S') (hlen : is.length ≤ mostPushed) :
    Raises S.program S.out.known numIn is 1 0 ∧ ∀ i ∈ is, isReturn i = false := by
  have hlast {i : Instr} (hi : isReturn i = false) : ∀ j ∈ [i], isReturn j = false :=
    fun j hj => List.mem_singleton.1 hj ▸ hi
  cases h with
  | blank | var | define => exact ⟨raises_instr rfl rfl (by decide), hlast rfl⟩
  | param _ hparam =>
    obtain ⟨hpos, hle⟩ := hparam.slot hS
    exact ⟨.of_slot rfl hpos hle rfl (by decide), hlast rfl⟩
  | through hx hptr =>
    rw [List.length_append] at hlen
    have hx := hx.leaves ho hS (by omega)
    refine ⟨(hx.raises.frame 1).append (raises_addrOp (fun op hop => ?_) (by decide)),
      fun i hi => (List.mem_append.1 hi).elim (hx.returns i) (hlast rfl i)⟩
    cases hop
    rfl

theorem GivenAll.raises {defines : Bool} {xs : List Expr} {ps : List Pushed} {is : List Instr}
    {S' : Site} (h : GivenAll S defines xs ps is S') (hlen : is.length ≤ mostPushed) :
    Raises S.program S.out.known numIn is ps.length 0 ∧ ∀ i ∈ is, isReturn i = false := by
  induction h with
  | nil => exact ⟨.nil, fun _ hi => nomatch hi⟩
  | @cons S S₁ S₂ defines x xs p ps is₁ is₂ h hs ih =>
    rw [List.length_append] at hlen
    obtain ⟨hraises, hreturns⟩ := h.raises ho hS (by omega)
    obtain ⟨hraises', hreturns'⟩ := ih (h.leads.out ▸ ho) (hS.of_leads h.leads) (by omega)
    rw [Site.program, h.leads.out] at hraises'
    have hfirst := hraises.frame ps.length
    rw [Nat.zero_add, Nat.add_comm] at hfirst
    exact ⟨hfirst.append hraises', fun i hi =>
      (List.mem_append.1 hi).elim (hreturns i) (hreturns' i)⟩

theorem Singles.leaves {es : List Expr} {ps : List Pushed} {is : List Instr}
    (h : Singles S es ps is) (hlen : is.length ≤ mostPushed) :
    Leaves S.program S.out.known numIn is ps.length ∧ ps.length ≤ is.length := by
  induction h with
  | nil => exact ⟨.nil, Nat.le_refl _⟩
  | cons h hp hs ih =>
    rw [List.length_append] at hlen
    have he := h.leaves ho hS (by omega)
    have hpos := h.length_pos (Pushed.length_types_of_isSingle hp)
    obtain ⟨hs, hle⟩ := ih (by omega)
    rw [Pushed.length_types_of_isSingle hp] at he
    have := he.push hs (by omega)
    rw [List.length_append, List.length_append, List.length_singleton, Nat.add_comm _ 1]
    exact ⟨this, by omega⟩

theorem Values.leaves {n : Nat} {es : List Expr} {ps : List Pushed} {is : List Instr}
    (h : Values S n es ps is) (hlen : is.length ≤ mostPushed) :
    Leaves S.program S.out.known numIn is ps.length := by
  cases h with
  | sole h hn =>
    have := h.leaves ho hS hlen
    simpa [Pushed.types] using this
  | each hn h => exact (h.leaves ho hS hlen).1

/-- The second operand of an operator, brought to its kind, is the one value left. -/
theorem Code.leaves_second {value : Expr} {e : Pushed} {k : OperandKind} {second : Option Kind}
    {is js : List Instr} (h : Code S value e is) (hk : e.operandKind? = some k)
    (hsecond : e.CoercedSecond second js) (hlen : is.length ≤ mostPushed) :
    Leaves S.program S.out.known numIn (is ++ js) 1 := by
  have hleaves := h.leaves ho hS hlen
  rw [Pushed.length_types_of_operandKind? hk] at hleaves
  obtain ⟨hraises, hreturns⟩ := hsecond.raises
  exact hleaves.andThen hraises (Nat.le_of_lt one_lt) hreturns

theorem Updated.leaves {op : Operator} {x value : Expr} {is : List Instr}
    (h : Updated S op x value is) (hlen : is.length ≤ mostPushed) :
    Leaves S.program S.out.known numIn is 0 := by
  cases h with
  | addr hv hx hk hr hfirst hsecond =>
    simp only [List.length_append] at hlen
    have hvalue := hv.leaves_second ho hS hk hsecond (by omega)
    refine (hvalue.push (hx.leaves ho hS (by omega)) (by decide)).andThen
      (raises_addrOp (fun op' hop => ?_) (by decide)) (Nat.zero_le _)
      fun i hi => List.mem_singleton.1 hi ▸ rfl
    simp only [AddressOperator.nameable] at hop
    split at hop <;> cases hop
    rfl
  | param hx hv hk hr hfirst hsecond =>
    simp only [List.length_append] at hlen
    have hvalue := hv.leaves_second ho hS hk hsecond (by omega)
    obtain ⟨hpos, hle⟩ := hx.slot hS
    have hload : Leaves S.program S.out.known numIn [.loadArg _] 1 :=
      .single (.of_slot rfl hpos hle rfl (by decide)) rfl
    rw [List.append_assoc [_]]
    refine (hload.push hvalue (by decide)).andThen ((raises_instr (b := 1) rfl rfl one_lt).append
      (.of_slot rfl hpos hle rfl (by decide))) (Nat.zero_le _) fun i hi => ?_
    simp only [List.mem_cons, List.not_mem_nil, or_false] at hi
    obtain rfl | rfl := hi <;> rfl

theorem Stepped.leaves {up : Bool} {x : Expr} {is : List Instr} (h : Stepped S up x is)
    (hlen : is.length ≤ mostPushed) :
    Leaves S.program S.out.known numIn is 0 := by
  cases h with
  | addr hx hnum =>
    rw [List.length_append] at hlen
    refine (hx.leaves ho hS (by omega)).andThen (raises_addrOp (fun op hop => ?_) (by decide))
      (Nat.zero_le _) fun i hi => List.mem_singleton.1 hi ▸ rfl
    cases up <;> cases hop <;> rfl
  | param hx hnum hone hpush hv =>
    obtain ⟨hslot, heffect, hret⟩ := pushed?_effect hpush
    obtain ⟨hpos, hle⟩ := hx.slot hS
    have hload : Leaves S.program S.out.known numIn [.loadArg _] 1 :=
      .single (.of_slot rfl hpos hle rfl (by decide)) rfl
    refine (hload.push (.single (raises_push hslot heffect 0) hret) (by decide)).andThen
      ((raises_instr (b := 1) rfl rfl one_lt).append
        (.of_slot rfl hpos hle rfl (by decide))) (Nat.zero_le _) fun i hi => ?_
    simp only [List.mem_cons, List.not_mem_nil, or_false] at hi
    obtain rfl | rfl := hi <;> rfl

/-- Nothing behind a return is looked at. -/
theorem Returned.raises {values : List Expr} {is : List Instr} (h : Returned S values is)
    (hlen : is.length ≤ mostPushed) : Raises S.program S.out.known numIn is 0 0 := by
  cases h with
  | bare => exact .of_return (n := 0) rfl rfl rfl (Nat.zero_le _)
  | sole h hfit =>
    rw [List.length_append] at hlen
    have h := h.leaves ho hS (by omega)
    simp only [Pushed.types, List.length_reverse, hfit.length_eq] at h
    exact h.raises.append (raises_ofReturn (Nat.mod_le _ _))
  | each h =>
    rw [List.length_append] at hlen
    exact (h.leaves ho hS (by omega)).1.raises.append (raises_ofReturn (Nat.mod_le _ _))

theorem Dropped.leaves {e : Expr} {is : List Instr} (h : Dropped S e is)
    (hlen : is.length ≤ mostPushed) :
    Leaves S.program S.out.known numIn is 0 := by
  cases h with
  | @results types is h =>
    rw [List.length_append] at hlen
    have h := h.leaves ho hS (by omega)
    simp only [Pushed.types, List.length_reverse] at h
    obtain hsmall | hstops := h.small
    · unfold Instr.popping
      split
      · refine h.andThen ?_ (Nat.zero_le _) fun i hi => List.mem_singleton.1 hi ▸ rfl
        rw [mostPushed_eq] at hsmall
        rw [narrow_of_lt (by show _ < 4294967296; omega)]
        exact raises_instr rfl rfl (by decide)
      · obtain hzero : types.length = 0 := by omega
        rw [hzero] at h
        exact h.andThen .nil (Nat.zero_le _) fun _ hi => nomatch hi
    · refine ⟨(hstops.append _).raises, .inr (hstops.append _),
        fun i hi => (List.mem_append.1 hi).elim (h.returns i) ?_⟩
      unfold Instr.popping
      split
      · exact fun hi => List.mem_singleton.1 hi ▸ rfl
      · exact fun hi => nomatch hi
  | single h hp hdefault =>
    rw [List.length_append] at hlen
    have h := h.leaves ho hS (by omega)
    rw [Pushed.length_types_of_isSingle hp] at h
    exact h.andThen (raises_instr rfl rfl (by decide)) (Nat.zero_le _)
      fun i hi => List.mem_singleton.1 hi ▸ rfl

end Statements

/-- A statement that neither returns nor has statements of its own. -/
def Stmt.IsPlain : Stmt → Prop
  | .ret _ | .block _ => False
  | .expr _ | .assign .. | .increment _ | .decrement _ => True

/-- The code of such a statement leaves what it finds. -/
theorem StmtCode.leaves {S S' : Site} (ho : S.out.Sized) (hS : S.Takes numIn) {st : Stmt}
    {is : List Instr} (h : StmtCode S st is S') (hst : st.IsPlain) (hlen : is.length ≤ mostPushed) :
    Leaves S.program S.out.known numIn is 0 := by
  cases h with
  | ret | block => exact hst.elim
  | expr h => exact h.leaves ho hS hlen
  | assign _ hvalues htargets =>
    rw [List.length_append] at hlen
    obtain ⟨hraises, hreturns⟩ := htargets.raises ho hS (by omega)
    exact (hvalues.leaves ho hS (by omega)).andThen hraises (Nat.zero_le _) hreturns
  | update _ h => exact h.leaves ho hS hlen
  | increment h | decrement h => exact h.leaves ho hS hlen

mutual

/-- The code of a statement leaves what it finds, and returns from functions only. -/
theorem StmtCode.restores {S S' : Site} (ho : S.out.Sized) (hS : S.Takes numIn) {st : Stmt}
    {is : List Instr} : StmtCode S st is S' → is.length ≤ mostPushed → Restores S numIn is
  | .ret hfunc h, hlen => ⟨h.raises ho hS hlen, fun hmain => by rw [hmain] at hfunc; cases hfunc⟩
  | .block h, hlen => by
    obtain ⟨hraises, hreturns⟩ := h.restores (S := S.enter) ho hS hlen
    exact ⟨hraises, hreturns⟩
  | .expr h, hlen => .of_leaves ((StmtCode.expr h).leaves ho hS trivial hlen)
  | .assign hmode hvalues htargets, hlen =>
    .of_leaves ((StmtCode.assign hmode hvalues htargets).leaves ho hS trivial hlen)
  | .update hform h, hlen => .of_leaves ((StmtCode.update hform h).leaves ho hS trivial hlen)
  | .increment h, hlen => .of_leaves ((StmtCode.increment h).leaves ho hS trivial hlen)
  | .decrement h, hlen => .of_leaves ((StmtCode.decrement h).leaves ho hS trivial hlen)

theorem StmtsCode.restores {S S' : Site} (ho : S.out.Sized) (hS : S.Takes numIn) {ss : List Stmt}
    {is : List Instr} : StmtsCode S ss is S' → is.length ≤ mostPushed → Restores S numIn is
  | .nil, _ => ⟨.nil, fun _ _ hi => nomatch hi⟩
  | .cons h hs, hlen => by
    rw [List.length_append] at hlen
    exact (h.restores ho hS (by omega)).append (.of_leads h.leads
      (hs.restores (h.leads.out ▸ ho) (hS.of_leads h.leads) (by omega)))

end

/-! ## Files -/

/-- Host functions stand in the table for functions of their kind. -/
structure Registry.Sorted (r : Registry) : Prop where
  funcs : ∀ (addr : Nat) (f : NativeFunc), r.natives.funcs[addr]? = some f →
    f.func.sig.variadic = false
  funcvs : ∀ (addr : Nat) (f : NativeFunc), r.natives.funcvs[addr]? = some f →
    f.func.sig.variadic = true

/-- A signature has few enough parameters and results for heights to be counted. -/
def Signature.Short (sig : Signature) : Prop :=
  sig.params.length < mostPushed ∧ sig.results.length < mostPushed

/-- Code and signatures are short enough for heights to be counted. -/
structure Program.Countable (p : Program) (n : Natives) : Prop where
  code : p.code.size ≤ mostPushed
  sigs : ∀ (id : Nat) (sig : Signature), p.sig? id = some sig → sig.Short
  funcs : ∀ (addr : Nat) (f : NativeFunc), n.funcs[addr]? = some f → f.func.sig.Short
  funcvs : ∀ (addr : Nat) (f : NativeFunc), n.funcvs[addr]? = some f → f.func.sig.Short

section Files

variable {o : Output} {f : File}

theorem FileCode.sized (h : FileCode o f) (hsorted : o.registry.Sorted)
    (hcount : o.program.Countable o.registry.natives) : o.Sized where
  code := hcount.code
  sigs := hcount.sigs
  table variadic place id sig hentry hsig := by
    obtain ⟨g, hg, hv, hstop⟩ := h.tables variadic place id hentry
    obtain ⟨hparams, hsigned, hout, -⟩ := h.funcs id g hg hstop
    cases (hsigned.sig? hg).symm.trans hsig
    exact ⟨hsigned.isVariadic.symm.trans hv, g, hg, congrArg List.length hparams, hout⟩
  funcs addr g hg := ⟨hsorted.funcs addr g hg, hcount.funcs addr g hg⟩
  funcvs addr g hg := ⟨hsorted.funcvs addr g hg, hcount.funcvs addr g hg⟩

/-- Code that leaves what it finds passes the check. -/
theorem checkFrom_of_restores {S : Site} {numIn offset : Nat} {is : List Instr} (ho : S.out.Sized)
    (hreads : S.program.Reads offset is) (h : Restores S numIn is) :
    checkFrom S.program S.out.known numIn (offset + is.length) offset 0 = .ok () := by
  have hlen := Nat.le_trans hreads.length_le ho.code
  refine checkFrom_of_accepts (h := 0) hreads rfl ?_ (accepts_of_raises h.raises)
  rw [mostPushed_eq] at *
  show _ < 9223372036854775808
  omega

theorem FuncCode.check {id : Nat} {g : FuncInfo} (ho : o.Sized) (hg : o.program.funcs[id]? = some g)
    (h : FuncCode o id g) : checkFunc o.program o.known g = .ok () := by
  obtain @⟨sig, body, scopes, S', is, entry, first, hparams, hsig, -, -, -, -, hbody, -, -, hentry,
    hstop, hreads, hcode⟩ := h
  have hlen := Nat.le_trans hreads.length_le ho.code
  have htakes : Site.Takes ⟨o, body, scopes, first + sig.results.length⟩ g.numIn :=
    Body.Of.takes hbody hg hsig hparams
  have hcheck := checkFrom_of_restores (S := ⟨o, body, scopes, first + sig.results.length⟩) ho
    hreads (hcode.restores ho htakes hlen)
  unfold checkFunc
  rw [hentry, hstop]
  exact congrArg (inFunction g.name) hcheck

/-- A translation passes the balance check. -/
theorem FileCode.check (h : FileCode o f) (ho : o.Sized) : Balance.check o.program o.known = .ok () := by
  obtain ⟨S', is, hend, hreads, hcode, -⟩ := h.main
  have hlen := Nat.le_trans hreads.length_le ho.code
  have htakes : Site.Takes ⟨o, .main, [f.funcNames ++ f.importNames], 0⟩ 0 := by
    intro _ _ hfunc
    cases hfunc
  have hmain := hcode.restores ho htakes hlen
  have hreturn : firstReturn o.program o.program.mainEnd 0 = .ok none :=
    firstReturn_eq_none hreads (by rw [hend, Nat.zero_add]) (hmain.returns rfl)
  have hbody : checkFrom o.program o.known 0 o.program.mainEnd 0 0 = .ok () := by
    have hbody := checkFrom_of_restores (S := ⟨o, .main, [f.funcNames ++ f.importNames], 0⟩) ho
      hreads hmain
    rwa [Nat.zero_add, ← hend] at hbody
  have hfuncs : o.program.funcs.toList.forM (checkFunc o.program o.known) = .ok () := by
    refine forM_eq_ok fun g hg => ?_
    obtain ⟨id, hid⟩ := List.mem_iff_getElem?.1 hg
    rw [Array.getElem?_toList] at hid
    cases hstop : g.stop with
    | some stop => exact (h.funcs id g hid (by rw [hstop]; rfl)).check ho hid
    | none =>
      unfold checkFunc
      rw [hstop]
      split <;> trivial
  unfold Balance.check
  rw [hreturn]
  show (checkFrom o.program o.known 0 o.program.mainEnd 0 0 >>= fun _ => _) = _
  rw [hbody]
  exact hfuncs

/-- A program that the compiler gives passes the balance check against the host functions it was
compiled with. -/
theorem File.check_of_compile {r : Registry} {folds : Bool} {f : File} {p : Program}
    (h : f.compile r folds = .ok p) (hsmall : p.Small) (hsorted : r.Sorted)
    (hcount : p.Countable r.natives) : Balance.check p (.ofNatives r.natives) = .ok () := by
  obtain ⟨o, rfl, -, rfl, hcode⟩ := File.code_of_compile h hsmall
  exact hcode.check (hcode.sized hsorted hcount)

end Files

end StackScript
