import StackScript.Proofs.Balance.Compiled
import StackScript.Proofs.Running.Variadic
import StackScript.Proofs.Typing.Operands
import StackScript.Proofs.Typing.PointerFree

/-!
# Compiled code is typed

Where what is declared goes together (`Setting.Consistent`), the code of an expression leaves values of
the types that the compiler takes it for (`Code.flows`), and that of a statement leaves nothing
(`StmtCode.flows`). By induction on the code relation.
-/

namespace StackScript

/-! ## Declarations -/

/-- The last parameter of a variadic signature takes a slice. -/
def Signature.Packs (sig : Signature) : Prop :=
  ∃ last elem, sig.params.getLast? = some last ∧ last.underlying = .slice elem

/-- What the packages of a registry declare goes together. -/
structure Registry.Proper (r : Registry) (D : TypeNames) : Prop where
  types : ∀ (path name : String) (t : Ty), r.findType? path name = some t → t.Proper D
  vars : ∀ x ∈ r.natives.vars, x.ty.Proper D
  funcs : ∀ x ∈ r.natives.funcs, x.func.sig.Proper D ∧ x.func.sig.variadic = false
  funcvs : ∀ x ∈ r.natives.funcvs, x.func.sig.Proper D ∧ x.func.sig.variadic = true

/-- The arguments of variadic host functions can be packed as these are declared. -/
structure Setting.Packs (g : Setting) : Prop where
  hosts : ∀ (i : Nat) (sig : Signature), g.host i = some sig → sig.variadic = true → sig.Packs
  /-- A receiver is not packed with the arguments behind it. -/
  methods : ∀ (t : Ty) (name : String) (addr : Nat) (variadic : Bool) (sig : Signature),
    Method g.out.registry t name addr variadic sig → variadic = true → 2 ≤ sig.params.length

/-- What a program and its host functions declare goes together. -/
structure Setting.Consistent (g : Setting) (D : TypeNames) : Prop where
  code : ∃ f, FileCode g.out f
  sigs : ∀ (id : Nat) (sig : Signature), g.out.program.sig? id = some sig → sig.Proper D
  registry : g.out.registry.Proper D
  packs : g.lax ∨ g.Packs

/-- The site lies in the program, and the variables that are seen there have proper types. -/
structure Site.Typed (S : Site) (g : Setting) (D : TypeNames) : Prop where
  out : S.out = g.out
  vars : ∀ (name : String) (id : Nat) (d : Var), S.scopes.find? name = some (.var id) →
    g.out.program.vars[id]? = some d → d.ty.Proper D

section

variable {g : Setting} {D : TypeNames} {S : Site} {b : Body} {τ : List Slot} {sig : Signature}

theorem Setting.Consistent.entry (h : g.Consistent D) {id place : Nat} {variadic : Bool}
    (hat : g.out.program.At id variadic place) (hsig : g.out.program.sig? id = some sig)
    (hnest : g.out.nest id = [id] ∨ g.out.nest id = id :: g.out.chain b.func) :
    Entry g b variadic place id sig := by
  refine ⟨hat, hsig, ?_, hnest⟩
  obtain ⟨f, hcode⟩ := h.code
  obtain ⟨info, hinfo, hvariadic, hstop⟩ := hcode.tables variadic place id hat.entry
  cases hcode.funcs id info hinfo hstop with
  | mk _ hsigned =>
    cases (hsigned.sig? hinfo).symm.trans hsig
    rw [← hvariadic, FuncInfo.isVariadic, hsigned.variadicity]
    cases sig.variadic <;> rfl

theorem Site.sig?_out (hS : S.out = g.out) {id : Nat} (h : S.program.sig? id = some sig) :
    g.out.program.sig? id = some sig := by
  rw [← hS]
  exact h

theorem VarAt.slotAt (hS : S.out = g.out) {name : String} {id index : Nat} {d : Var} {scope : Scope}
    (h : VarAt S name id d scope index) : VarSlot g S.body scope index d :=
  ⟨S, name, id, hS, rfl, h⟩

theorem Site.Typed.var (hS : S.Typed g D) {name : String} {id index : Nat} {d : Var} {scope : Scope}
    (hv : VarAt S name id d scope index) : d.ty.Proper D := by
  have hvar : S.out.program.vars[id]? = some d := hv.var
  exact hS.vars name id d hv.find (hS.out ▸ hvar)

theorem ParamAt.slotAt (hS : S.out = g.out) {name : String} {below : Nat} {t : Ty}
    (h : ParamAt S name below t) : ParamSlot g S.body below t := by
  cases h with
  | mk _ hfunc hsig hty => exact .mk hfunc (Site.sig?_out hS hsig) hty

theorem Setting.Consistent.param (h : g.Consistent D) (hS : S.out = g.out) {name : String}
    {below : Nat} {t : Ty} (hp : ParamAt S name below t) : t.Proper D := by
  cases hp with
  | mk _ _ hsig hty =>
    exact (h.sigs _ _ (Site.sig?_out hS hsig)).types.1 t (List.mem_of_getElem? hty)

/-- The signature of a function that a call names. -/
theorem Setting.Consistent.calls (h : g.Consistent D) {s : NativeSymbol} {variadic : Bool}
    (hc : s.Calls g.out.registry variadic sig) : sig.Proper D ∧ sig.variadic = variadic := by
  cases hc with
  | fixed hf => exact h.registry.funcs _ (Array.mem_of_getElem? hf)
  | variadic hf => exact h.registry.funcvs _ (Array.mem_of_getElem? hf)

theorem Setting.Consistent.method (h : g.Consistent D) {t : Ty} {name : String} {addr : Nat}
    {variadic : Bool} (hmethod : Method g.out.registry t name addr variadic sig) : sig.Proper D := by
  obtain ⟨-, -, hcalls⟩ := hmethod
  exact (h.calls hcalls).1

theorem Setting.Consistent.callee (h : g.Consistent D) (hS : S.out = g.out) {e : Expr} {ref : FuncRef}
    (hc : CalleeAt S e ref sig) : sig.Proper D := by
  cases hc with
  | func hf => exact h.sigs _ _ (Site.sig?_out hS hf.sig)
  | native _ hcalls =>
    have hcalls : NativeSymbol.Calls S.out.registry _ _ _ := hcalls
    rw [hS] at hcalls
    exact (h.calls hcalls).1
  | literal hl => exact h.sigs _ _ (Site.sig?_out hS hl.sig)

end

/-! ## What lies on the stack -/

namespace Pushed

/-- What is left, as slots of the stack. -/
def slots (p : Pushed) : List Slot := p.types.map .value

/-- A constant has a basic kind, its own if it has one; types are proper. -/
def Proper (D : TypeNames) : Pushed → Prop
  | const c v => v.kind.isBasic = true ∧ ∀ w, c = .bound w → v.kind = w.kind
  | value t => t.Proper D
  | results ts => ts.length < mostTypes ∧ ∀ t ∈ ts, t.Proper D
  | package .. => True

variable {g : Setting} {D : TypeNames} {b : Body} {p : Pushed} {t : Ty} {k : Kind}
  {kind : OperandKind} {is : List Instr}

theorem slots_results (ts : List Ty) : (results ts).slots = Slot.values ts := rfl

theorem slots_ofResults (sig : Signature) : (ofResults sig).slots = Slot.values sig.results := by
  unfold ofResults
  split
  · rename_i t h
    rw [h]
    rfl
  · rfl

theorem proper_ofResults {sig : Signature} (h : sig.Proper D) : (ofResults sig).Proper D := by
  have htypes := h.types.2
  unfold ofResults
  split
  · rename_i t hr
    exact htypes t (by rw [hr]; exact List.mem_singleton_self t)
  · exact ⟨h.few.2, htypes⟩

/-- The type of a single value. -/
theorem exists_type (hp : p.Proper D) (hk : p.operandKind? = some kind) : ∃ t : Ty, p.types = [t] ∧
    t.Proper D ∧ ∀ l, kind = .bound l → t.kind = l := by
  cases p with
  | const c v =>
    cases hk
    refine ⟨.basic v.kind, rfl, hp.1, fun l hl => ?_⟩
    cases c with
    | bound w =>
      cases hl
      exact hp.2 w rfl
    | _ => cases hl
  | value t =>
    cases hk
    exact ⟨t, rfl, hp, fun l hl => by cases hl; rfl⟩
  | results | package => cases hk

/-- A kind that widens to another one is the same or that of a number. -/
theorem isBasic_of_widens {l : Kind} (h : k.Widens l) (hne : k ≠ l) : k.isBasic = true := by
  obtain rfl | ⟨hpos, -⟩ := h
  · exact absurd rfl hne
  · exact Kind.isBasic_of_isNumeric (by simpa [Kind.isNumeric] using hpos)

/-- The value is brought to a kind that it widens to. -/
theorem Coerced.flows (h : p.Coerced k is) (hp : p.Proper D) (hk : k.isBasic = true)
    (hwidens : ∀ l, p.operandKind? = some (.bound l) → l.Widens k) :
    ∃ u : Ty, u.kind = k ∧ ∀ τ : List Slot, Flow g b (p.slots ++ τ) is (.value u :: τ) := by
  cases h with
  | @const c v hv => exact ⟨.basic v.kind, hv, fun τ => .nil⟩
  | @convertConst v w hne =>
    have hkind := hp.2 w rfl
    have hwiden : v.kind.Widens k := hkind ▸ hwidens w.kind rfl
    refine ⟨.basic k, rfl, fun τ => ?_⟩
    rw [Kind.nameable_of_isBasic hk]
    exact .single (.convert hk hp.1 hwiden)
  | @value t ht => exact ⟨t, ht, fun τ => .nil⟩
  | @convert t hne =>
    have hwiden := hwidens t.kind rfl
    refine ⟨.basic k, rfl, fun τ => ?_⟩
    rw [Kind.nameable_of_isBasic hk]
    exact .single (.convert hk (isBasic_of_widens hwiden hne) hwiden)

/-- The value is brought to what an operator takes as its second operand. -/
theorem CoercedSecond.flows {second : Option Kind} (h : p.CoercedSecond second is) (hp : p.Proper D)
    (hbasic : ∀ k, second = some k → k.isBasic = true)
    (hwidens : ∀ l k, p.operandKind? = some (.bound l) → second = some k → l.Widens k)
    (hcount : second = none → ∃ i, p.operandKind? = some (.bound (.int i))) : ∃ u : Ty,
      (∀ k, second = some k → u.kind = k) ∧ (second = none → u.kind.isInteger = true) ∧
      ∀ τ : List Slot, Flow g b (p.slots ++ τ) is (.value u :: τ) := by
  cases second with
  | some k =>
    obtain ⟨u, hu, hflow⟩ := Coerced.flows (g := g) (b := b) h hp (hbasic k rfl)
      fun l hl => hwidens l k hl rfl
    refine ⟨u, fun k' hk' => ?_, fun hnone => ?_, hflow⟩
    · cases hk'
      exact hu
    · cases hnone
  | none =>
    obtain ⟨rfl, -⟩ := h
    obtain ⟨i, hi⟩ := hcount rfl
    obtain ⟨t, htypes, -, ht⟩ := exists_type hp hi
    refine ⟨t, fun k hk => ?_, fun _ => ?_, fun τ => ?_⟩
    · cases hk
    · rw [ht _ rfl]
      rfl
    · rw [slots, htypes]
      exact .nil

/-- The value goes where a type is declared. -/
theorem Fits.flows {target : Ty} (h : p.Fits target) (hp : p.Proper D) (ht : target.Proper D)
    (τ : List Slot) : Flow g b (p.slots ++ τ) [] (.value target :: τ) := by
  cases p with
  | const c v =>
    refine .into ?_
    cases target with
    | any => exact .inl rfl
    | _ =>
      obtain ⟨hbasic, hkind⟩ := h
      right
      rw [Ty.underlying_of_isBasic hbasic, hkind]
      rfl
  | value t => exact .into (Ty.into_of_assignable hp ht h)
  | results | package => exact h.elim

end Pushed

/-- Values of assignable types. -/
theorem Assignable.into {D : TypeNames} {ts us : List Ty} (h : Assignable ts us)
    (hts : ∀ t ∈ ts, t.Proper D) (hus : ∀ u ∈ us, u.Proper D) :
    List.Forall₂ Slot.Into (Slot.values ts) (Slot.values us) := by
  rw [Slot.values, Slot.values, List.forall₂_map_left_iff, List.forall₂_map_right_iff,
    List.forall₂_reverse_iff]
  induction h with
  | nil => exact .nil
  | cons h _ ih =>
    obtain ⟨ht, hts⟩ := List.forall_mem_cons.1 hts
    obtain ⟨hu, hus⟩ := List.forall_mem_cons.1 hus
    exact .cons (.value (Ty.into_of_assignable ht hu h)) (ih hts hus)

/-! ## Calls -/

open Machine (Countable signed_of_alike ofOperand_dynamicOperand)

section

variable {g : Setting} {D : TypeNames} {b : Body} {sig : Signature} {arity : Arity} {ts : List Ty}
  {is : List Instr} {ref : FuncRef}

theorem proper_trailing (h : sig.Proper D) : (Compile.trailing sig).Proper D := by
  unfold Compile.trailing Signature.variadicElem?
  split
  · cases hlast : sig.params.getLast? with
    | none => trivial
    | some last =>
      rw [Option.bind_some]
      cases helem : last.elem? with
      | none => trivial
      | some elem => exact (h.types.1 last (List.mem_of_getLast? hlast)).elem? helem
  · trivial

theorem proper_argTypes (h : sig.Proper D) (skip n : Nat) :
    ∀ t ∈ Compile.argTypes sig skip n, t.Proper D := by
  intro t ht
  obtain ht | ht := List.mem_append.1 (List.mem_of_mem_take ht)
  · exact h.types.1 t (List.mem_of_mem_drop (List.mem_of_mem_take ht))
  · obtain ⟨-, rfl⟩ := List.mem_replicate.1 ht
    exact proper_trailing h

namespace Arity.Brings

/-- A call by a signature without variadic parameters brings the parameters. -/
theorem fixed (h : arity.Brings sig 0 ts) (hsig : sig.variadic = false) : ts = sig.params := by
  cases arity with
  | spread =>
    rw [h.1] at hsig
    cases hsig
  | count n =>
    obtain ⟨htakes, rfl⟩ := h
    have hcount : Compile.fixedCount sig 0 = sig.params.length := by
      simp [Compile.fixedCount, hsig]
    simp only [Signature.Takes, hsig, Bool.false_eq_true, if_false, hcount] at htakes
    subst htakes
    simp [Compile.argTypes, hcount]

/-- The receiver is one more argument in front. -/
theorem withReceiver (h : arity.Brings sig 1 ts) {recv : Ty} {params : List Ty}
    (hparams : sig.params = recv :: params) (hmany : sig.variadic = true → 2 ≤ sig.params.length) :
    (Compile.withReceiver 1 arity).Brings sig 0 (recv :: ts) := by
  cases arity with
  | spread =>
    obtain ⟨hvariadic, rfl⟩ := h
    exact ⟨hvariadic, by simp [hparams]⟩
  | count n =>
    obtain ⟨htakes, rfl⟩ := h
    have hcount : Compile.fixedCount sig 0 = Compile.fixedCount sig 1 + 1 := by
      unfold Compile.fixedCount
      rw [hparams] at hmany ⊢
      cases hvariadic : sig.variadic with
      | false => simp
      | true =>
        have := hmany hvariadic
        simp only [List.length_cons, if_true] at this ⊢
        omega
    refine ⟨?_, ?_⟩
    · unfold Signature.Takes at htakes ⊢
      rw [hcount]
      split at htakes <;> rename_i hvariadic
      · rw [if_pos hvariadic]
        omega
      · rw [if_neg hvariadic]
        omega
    · unfold Compile.argTypes
      rw [hcount, hparams]
      simp [List.take_succ_cons]

end Arity.Brings

/-- A function that code of the body `b` names in a call. -/
inductive FuncRef.Names (g : Setting) (b : Body) : FuncRef → Signature → Prop
  | script {id : Nat} {literal : Bool} {sig : Signature} (hsig : g.out.program.sig? id = some sig)
    (hnest : g.out.nest id = [id] ∨ g.out.nest id = id :: g.out.chain b.func) :
    Names g b (.script id literal) sig
  | native {s : NativeSymbol} {variadic method : Bool} {sig : Signature}
    (h : s.Calls g.out.registry variadic sig) : Names g b (.native s.addr variadic method) sig

theorem CalleeAt.names {S : Site} (hS : S.out = g.out) {e : Expr} (h : CalleeAt S e ref sig) :
    ref.Names g S.body sig := by
  cases h with
  | func hf => exact .script (Site.sig?_out hS hf.sig) (.inl (hS ▸ hf.nest))
  | native _ hcalls =>
    have hcalls : NativeSymbol.Calls S.out.registry _ _ _ := hcalls
    exact .native (hS ▸ hcalls)
  | literal hl =>
    have hnest : S.out.nest _ = _ :: S.out.chain S.body.func := hl.nest
    rw [hS] at hnest
    exact .script (Site.sig?_out hS hl.sig) (.inr hnest)

/-- What is pushed ahead of a variadic call is what it reads its argument count from. -/
theorem ArityCode.flows {field : ArityField} (h : ArityCode g.out.program arity is field)
    (hn : Countable arity) :
    ∃ σ, field.Reads arity σ ∧ ∀ τ : List Slot, Flow g b τ is (σ ++ τ) := by
  have hlimit : Word.spreadCall < 1 <<< 32 := by decide
  cases h with
  | spread => exact ⟨[], .spread, fun τ => .nil⟩
  | @count n h =>
    have := hn n rfl
    rw [narrow_of_lt (by omega)]
    exact ⟨[], .count n, fun τ => .nil⟩
  | @overflow n i v h hpush hv =>
    have := hn n rfl
    rw [narrow_of_lt (by omega)] at h hv
    have hsigned : v.scalar?.bind Scalar.signed? = some ((n - Word.overflowArity : Nat) : Int) :=
      signed_of_alike (by omega)
        (by rwa [show ((n - Word.overflowArity : Nat) : Int) = n - Word.overflowArity by omega])
    refine ⟨[.count (n - Word.overflowArity)], ?_, fun τ => .single (.count hpush hsigned)⟩
    have hreads := ArityField.Reads.overflow (n - Word.overflowArity)
    rwa [Nat.add_sub_cancel' h] at hreads

/-- A call takes its arguments and leaves its results. -/
theorem CallCode.flows (hg : g.Consistent D) (h : CallCode g.out.program ref arity is)
    (hnames : ref.Names g b sig) (hts : arity.Brings sig 0 ts) (hn : Countable arity)
    (τ : List Slot) : Flow g b (Slot.values ts ++ τ) is (Slot.values sig.results ++ τ) := by
  cases h with
  | literal hat =>
    cases hnames with
    | script hsig hnest =>
      rw [ofOperand_dynamicOperand hn]
      exact .cons (.closure (hg.entry hat hsig hnest)) (.single (.callClosure hts))
  | fixed hat =>
    cases hnames with
    | script hsig hnest =>
      have hentry := hg.entry hat hsig hnest
      rw [hts.fixed hentry.variadic]
      exact .single (.callFunc hentry)
  | variadic hat harity =>
    cases hnames with
    | script hsig hnest =>
      obtain ⟨σ, hreads, hflow⟩ := harity.flows (g := g) (b := b) hn
      exact (hflow _).append (.single (.callFuncv (hg.entry hat hsig hnest) hreads hts))
  | nativeFixed =>
    cases hnames with
    | native hcalls =>
      rw [hts.fixed (hg.calls hcalls).2]
      cases hcalls with
      | fixed hf => exact .single (.callNative hf)
  | nativeVariadic harity =>
    cases hnames with
    | native hcalls =>
      obtain ⟨σ, hreads, hflow⟩ := harity.flows (g := g) (b := b) hn
      cases hcalls with
      | variadic hf => exact (hflow _).append (.single (.callNativev hf hreads hts))

/-- A method takes its receiver with the arguments behind it. -/
theorem CallCode.flows_method (hg : g.Consistent D) {t recv : Ty} {name : String} {addr : Nat}
    {variadic : Bool} {params : List Ty}
    (h : CallCode g.out.program (.native addr variadic true) (Compile.withReceiver 1 arity) is)
    (hmethod : Method g.out.registry t name addr variadic sig) (hparams : sig.params = recv :: params)
    (hts : arity.Brings sig 1 ts) (hn : Countable (Compile.withReceiver 1 arity)) (τ : List Slot) :
    Flow g b (Slot.values (recv :: ts) ++ τ) is (Slot.values sig.results ++ τ) := by
  have hmany : g.lax ∨ (variadic = true → 2 ≤ sig.params.length) :=
    hg.packs.imp_right fun h => h.methods _ _ _ _ _ hmethod
  obtain ⟨-, -, hcalls⟩ := hmethod
  have hvariadic := (hg.calls hcalls).2
  by_cases hfew : variadic = true → 2 ≤ sig.params.length
  · exact h.flows hg (.native hcalls) (hts.withReceiver hparams fun h => hfew (hvariadic ▸ h)) hn τ
  · have hlax := hmany.resolve_right hfew
    obtain ⟨rfl, hfew⟩ := Classical.not_imp.1 hfew
    obtain rfl : params = [] := by
      rw [hparams, List.length_cons] at hfew
      exact List.eq_nil_of_length_eq_zero (by omega)
    cases arity with
    | spread =>
      obtain ⟨-, rfl⟩ := hts
      exact h.flows hg (.native hcalls) ⟨hvariadic, by simp [hparams]⟩ hn τ
    | count n =>
      obtain ⟨-, rfl⟩ := hts
      have htypes : Compile.argTypes sig 1 n = List.replicate n (Compile.trailing sig) := by
        simp [Compile.argTypes, Compile.fixedCount, hparams, hvariadic]
      rw [htypes]
      cases h with
      | nativeVariadic harity =>
        obtain ⟨σ, hreads, hflow⟩ := harity.flows (g := g) (b := b) hn
        cases hcalls with
        | variadic hf => exact (hflow _).append (.single (.callMethodv hlax hf hparams hreads))

end

/-! ## Expressions -/

section

variable {g : Setting} {D : TypeNames} {S : Site} {b : Body}

theorem PointsTo.underlying {t elem : Ty} (h : PointsTo t elem) : t.underlying = .ptr elem := by
  have hkind := h.kind
  have helem := h.elem
  rw [← Ty.kind_underlying] at hkind
  unfold Ty.elem? at helem
  split at helem <;> rename_i hunder <;> cases helem
  · rw [hunder] at hkind
    cases hkind
  · exact hunder

/-- Pointers are followed to what the innermost one points to. -/
theorem flow_stripPtrs {t base : Ty} {n : Nat} (h : t.stripPtrs = (n, base)) (τ : List Slot) :
    Flow g b (.value t :: τ) (List.replicate n .deref) (.value base :: τ) := by
  induction t using Ty.stripPtrs.induct generalizing n base with
  | case1 elem m v hv ih =>
    rw [Ty.stripPtrs, hv] at h
    cases h
    exact .cons (.deref rfl) (ih hv)
  | case2 t hnot =>
    cases t with
    | ptr elem => exact absurd rfl (hnot elem)
    | _ =>
      cases h
      exact .nil

/-- The field of a struct on top. -/
theorem flow_field {t ty : Ty} {name : String} {index : Nat} (ht : t.Proper D)
    (h : t.field? name = some (index, ty)) (τ : List Slot) : ty.Proper D ∧
      Flow g b (.value t :: τ) [.field (Assembly.narrow index)] (.value ty :: τ) := by
  obtain ⟨fs, x, hfs, hx, rfl⟩ := Ty.mem_of_field? h
  obtain ⟨hproper, hlt⟩ := ht.field hfs hx
  rw [narrow_of_lt hlt]
  exact ⟨hproper, .single (.field hfs hx)⟩

theorem NativeSymbol.Code.flows (hg : g.Consistent D) {s : NativeSymbol} {t : Ty} {i : Instr}
    (h : s.Code g.out.registry t i) :
    t.Proper D ∧ ∀ τ : List Slot, Flow g b τ [i] (.value t :: τ) := by
  cases h with
  | var hv => exact ⟨hg.registry.vars _ (Array.mem_of_getElem? hv), fun τ => .single (.loadNativeVar hv)⟩
  | func hf => exact ⟨(hg.registry.funcs _ (Array.mem_of_getElem? hf)).1, fun τ => .single (.pushNative hf)⟩
  | funcv hf => exact ⟨(hg.registry.funcvs _ (Array.mem_of_getElem? hf)).1, fun τ => .single (.pushNativev hf)⟩

/-- An operator on two values that were brought to the kinds it works at. -/
theorem flow_binary {op : Operator} {p q : Pushed} {kx ky : OperandKind} {r : Resolution}
    {is₁ is₂ is₃ is₄ : List Instr} (hx : p.Proper D ∧ ∀ τ, Flow g b τ is₁ (p.slots ++ τ))
    (hy : q.Proper D ∧ ∀ τ, Flow g b τ is₃ (q.slots ++ τ)) (hkx : p.operandKind? = some kx)
    (hky : q.operandKind? = some ky) (hr : op.settle kx ky = .ok r) (hp : p.Coerced r.first is₂)
    (hq : q.CoercedSecond r.second is₄) (τ : List Slot) :
    Flow g b τ (is₁ ++ is₂ ++ (is₃ ++ is₄) ++ [.builtinOp r.operand.nameable (some op)])
      (.value (.basic r.result) :: τ) := by
  obtain ⟨x', y', hresolve, -, hdefault⟩ := Operator.resolve_of_settle hr
  obtain ⟨hoperand, hbasic, hresult⟩ := Operator.operand_of_resolve hresolve
  obtain ⟨t, ht, hfirst⟩ := Pushed.Coerced.flows (g := g) (b := b) hp hx.1 (hoperand ▸ hbasic)
    fun l hl => by
      rw [hkx] at hl
      cases hl
      exact Operator.widens_first hr
  obtain ⟨u, hu, hcount, hsecond⟩ := Pushed.CoercedSecond.flows (g := g) (b := b) hq hy.1
    (fun k => Operator.isBasic_second_of_resolve hresolve)
    (fun l k hl hk => by
      rw [hky] at hl
      cases hl
      exact Operator.widens_second hr hk)
    fun hnone => by
      obtain ⟨i, rfl⟩ := Operator.isInteger_of_settle hr hnone
      exact ⟨i, hky⟩
  rw [hresult, Kind.nameable_of_isBasic hbasic]
  exact (((hx.2 τ).append (hfirst τ)).append ((hy.2 _).append (hsecond _))).append
    (.single (.builtinOp (Operator.applies_of_resolve hresolve ht hu hcount)))

theorem Constant.Yields.proper {e : Expr} {c : Constant} {v : Value} (h : Means S e c)
    (hc : c.Yields v) : (Pushed.const c v).Proper D := by
  refine ⟨h.hasBasic.yields hc, ?_⟩
  rintro w rfl
  exact hc.kind_eq

/-- Arguments that code of some length leaves are few. -/
def Arity.Few (arity : Arity) (length : Nat) : Prop :=
  ∀ n, arity = .count n → n ≤ length ∨ n < mostTypes

theorem Arity.Few.countable {arity : Arity} {length skip : Nat} (h : arity.Few length)
    (hlen : length + skip < Word.spreadCall) (hskip : skip ≤ 1) :
    Countable (Compile.withReceiver skip arity) := by
  have hlimit : mostTypes + 1 < Word.spreadCall := by decide
  intro n hn
  cases arity with
  | spread => cases hn
  | count m =>
    cases hn
    have := h m rfl
    omega

mutual

/-- The code of an expression leaves what it says. -/
theorem Code.flows (hg : g.Consistent D) (hS : S.Typed g D) {e : Expr} {p : Pushed}
    {is : List Instr} : Code S e p is → g.lax ∨ e.PointerFree → is.length < Word.spreadCall →
      p.Proper D ∧ ∀ τ, Flow g S.body τ is (p.slots ++ τ)
  | .var h, _, _ => ⟨hS.var h, fun τ => .single (.loadVar (h.slotAt hS.out))⟩
  | .param h, _, _ => ⟨hg.param hS.out h, fun τ => .single (.loadArg (h.slotAt hS.out))⟩
  | .package _, _, _ => ⟨trivial, fun τ => .nil⟩
  | .func h hat, _, _ =>
    have hsig := Site.sig?_out hS.out h.sig
    ⟨hg.sigs _ _ hsig, fun τ => .single (.hostClosure (hg.entry (hS.out ▸ hat) hsig (.inl (hS.out ▸ h.nest))))⟩
  | .native _ hcode, _, _ => by
    have hcode : NativeSymbol.Code S.out.registry _ _ _ := hcode
    rw [hS.out] at hcode
    exact hcode.flows hg
  | .const h hc hpush, _, _ => by
    have hpush : Instr.pushed? S.out.program.consts _ = _ := hpush
    rw [hS.out] at hpush
    exact ⟨hc.proper h, fun τ => .single (.push hpush (hc.proper (D := D) h).1)⟩
  | .binary hx hy _ hkx hky hr hp hq, hfree, hlen => by
    simp only [List.length_append] at hlen
    have hx := hx.flows hg hS (hfree.imp_right (·.1)) (by omega)
    have hy := hy.flows hg hS (hfree.imp_right (·.2)) (by omega)
    obtain ⟨x', y', hresolve, -⟩ := Operator.resolve_of_settle hr
    obtain ⟨-, hbasic, hresult⟩ := Operator.operand_of_resolve hresolve
    exact ⟨hresult ▸ Constant.isBasic_resultKind hbasic, flow_binary hx hy hkx hky hr hp hq⟩
  | .call hf hargs hcall, hfree, hlen => by
    simp only [List.length_append] at hlen
    have hsig := hg.callee hS.out hf
    obtain ⟨ts, hts, hn, hflow⟩ := hargs.flows hg hS hsig (hfree.imp_right (·.2)) (by omega)
    have hcall : CallCode S.out.program _ _ _ := hcall
    rw [hS.out] at hcall
    refine ⟨Pushed.proper_ofResults hsig, fun τ => ?_⟩
    rw [Pushed.slots_ofResults]
    have hn := hn.countable (show _ + 0 < _ by omega) (Nat.zero_le 1)
    rw [withReceiver_zero] at hn
    exact (hflow τ).append (hcall.flows hg (hf.names hS.out) hts hn τ)
  | .callMethod hx hmethod hparams hrecv hargs hcall, hfree, hlen => by
    simp only [List.length_append] at hlen
    have hpos := hx.length_pos rfl
    obtain ⟨hproper, hx⟩ := hx.flows hg hS (hfree.imp_right (·.1)) (by omega)
    have hmethod : Method S.out.registry _ _ _ _ _ := hmethod
    have hcall : CallCode S.out.program _ _ _ := hcall
    rw [hS.out] at hmethod hcall
    have hsig : Signature.Proper D _ := hg.method hmethod
    obtain ⟨ts, hts, hn, hflow⟩ := hargs.flows hg hS hsig (hfree.imp_right (·.2)) (by omega)
    have hrecvProper := hsig.types.1 _ (hparams ▸ List.mem_cons_self)
    refine ⟨Pushed.proper_ofResults hsig, fun τ => ?_⟩
    have hcall := hcall.flows_method (b := S.body) hg hmethod hparams hts
      (hn.countable (by omega) (Nat.le_refl _)) τ
    rw [← List.singleton_append, Slot.values_append, List.append_assoc] at hcall
    rw [Pushed.slots_ofResults]
    have hinto := Flow.into (g := g) (b := S.body) (τ := τ) (Ty.into_of_assignable hproper hrecvProper hrecv)
    simpa using (((hx τ).append hinto).append (hflow _)).append hcall
  | .callValue hargs hf hsig, hfree, hlen => by
    simp only [List.length_append] at hlen
    obtain ⟨hproper, hvalue⟩ := hf.flows hg hS (hfree.imp_right (·.1)) (by omega)
    have hsigned := hproper.signature? hsig
    obtain ⟨ts, hts, hn, hflow⟩ := hargs.flows hg hS hsigned (hfree.imp_right (·.2)) (by omega)
    refine ⟨Pushed.proper_ofResults hsigned, fun τ => ?_⟩
    have hn := hn.countable (show _ + 0 < _ by omega) (Nat.zero_le 1)
    rw [withReceiver_zero] at hn
    rw [Pushed.slots_ofResults, ofOperand_dynamicOperand hn]
    exact ((hflow τ).append (hvalue _)).append (.single (.callValue (Ty.underlying_of_signature? hsig) hts))
  | .field hx hstrip hfield, hfree, hlen => by
    simp only [List.length_append] at hlen
    obtain ⟨hproper, hx⟩ := hx.flows hg hS hfree (by omega)
    have hbase := hproper.stripPtrs hstrip
    exact ⟨(flow_field (g := g) (b := S.body) hbase hfield []).1, fun τ =>
      ((hx τ).append (flow_stripPtrs hstrip τ)).append (flow_field hbase hfield τ).2⟩
  | .funcLit h hat, _, _ => by
    have hsig := Site.sig?_out hS.out h.sig
    have hnest : S.out.nest _ = _ :: S.out.chain S.body.func := h.nest
    rw [hS.out] at hnest
    exact ⟨hg.sigs _ _ hsig, fun τ => .single (.hostClosure (hg.entry (hS.out ▸ hat) hsig (.inr hnest)))⟩
  | .addrOf h, _, _ => ⟨hS.var h, fun τ => .single (.addrVar (h.slotAt hS.out))⟩
  | .deref hx hptr, hfree, hlen => by
    simp only [List.length_append] at hlen
    have hlax := hfree.resolve_right fun h => h
    obtain ⟨hproper, hx⟩ := hx.flows hg hS (.inl hlax) (by omega)
    exact ⟨hproper.elem? hptr.elem, fun τ =>
      (hx τ).append (.single (.loadAt hlax hptr.underlying))⟩

/-- Arguments are of the types that a call takes. -/
theorem Passed.flows (hg : g.Consistent D) (hS : S.Typed g D) {sig : Signature} (hsig : sig.Proper D)
    {skip : Nat} {args : List Expr} {spread : Bool} {arity : Arity} {is : List Instr} :
    Passed S sig skip args spread arity is → g.lax ∨ exprsPointerFree args →
      is.length < Word.spreadCall → ∃ ts, arity.Brings sig skip ts ∧ arity.Few is.length ∧
        ∀ τ, Flow g S.body τ is (Slot.values ts ++ τ)
  | .spread hvariadic h, hfree, hlen => by
    obtain ⟨-, hflow⟩ := h.flows hg hS (fun t ht => hsig.types.1 t (List.mem_of_mem_drop ht)) hfree hlen
    refine ⟨_, ⟨hvariadic, rfl⟩, fun n hn => ?_, hflow⟩
    cases hn
  | .sole h _ htakes hfit, hfree, hlen => by
    obtain ⟨⟨hfew, htypes⟩, hflow⟩ := h.flows hg hS (hfree.imp_right (·.1)) hlen
    refine ⟨_, ⟨htakes, rfl⟩, fun n hn => ?_, fun τ => ?_⟩
    · cases hn
      exact .inr hfew
    · have hinto := hfit.into htypes (proper_argTypes hsig _ _)
      rw [Pushed.slots_results] at hflow
      have hwiden := Flow.widen (List.rel_append hinto (Flow.into_refl τ)) (Flow.nil (g := g) (b := S.body))
      simpa using (hflow τ).append hwiden
  | .each htakes h, hfree, hlen => by
    obtain ⟨hle, hflow⟩ := h.flows hg hS (proper_argTypes hsig _ _) hfree hlen
    rw [Compile.length_argTypes] at hle
    exact ⟨_, ⟨htakes, rfl⟩, fun n hn => by cases hn; exact .inl hle, hflow⟩

/-- Each expression leaves a value that goes where a type is declared. -/
theorem Each.flows (hg : g.Consistent D) (hS : S.Typed g D) {es : List Expr} {ts : List Ty}
    (hts : ∀ t ∈ ts, t.Proper D) {is : List Instr} : Each S es ts is →
      g.lax ∨ exprsPointerFree es → is.length < Word.spreadCall →
      ts.length ≤ is.length ∧ ∀ τ, Flow g S.body τ is (Slot.values ts ++ τ)
  | .nil, _, _ => ⟨Nat.le_refl _, fun τ => .nil⟩
  | .cons h hfit hes, hfree, hlen => by
    rw [List.length_append] at hlen ⊢
    obtain ⟨ht, hts⟩ := List.forall_mem_cons.1 hts
    obtain ⟨hproper, he⟩ := h.flows hg hS (hfree.imp_right (·.1)) (by omega)
    obtain ⟨hle, hes⟩ := hes.flows hg hS hts (hfree.imp_right (·.2)) (by omega)
    have hpos := h.length_pos hfit.length
    refine ⟨by rw [List.length_cons]; omega, fun τ => ?_⟩
    rw [← List.singleton_append, Slot.values_append, List.append_assoc, Slot.values_singleton]
    simpa using ((he τ).append (hfit.flows hproper ht τ)).append (hes _)

end

end

end StackScript
