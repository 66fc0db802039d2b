import StackScript.Proofs.Translation.Calls

/-!
# The code of expressions

`emits`: the code that the compiler emits for an expression is a code of it by the rules of the
translation, and the entry it leaves on the shadow stack says what the look-ahead said.
-/

namespace StackScript

open CompileState

variable {L : Layout} {home : Home} {s s' s'' : CompileState} {R R' : Output → List Instr → Prop}

namespace Compile

/-! ## Literals and operators -/

theorem ensures_emitLit {l : Literal} (h : InOrder L home s) :
    Ensures L.env (emit (.lit l)) s fun _ s' => ∃ i entry, Compiled L home s (.lit l) i entry s' := by
  have hreads : Reads L.env s (ofConstant l.constant) fun c => l.constant = .ok c :=
    .ofConstant (fun _ => Literal.ofFile_constant) fun _ hc => hc
  unfold emit
  refine Ensures.bind hreads fun c s₁ hread => ?_
  obtain ⟨rfl, hset, hc⟩ := hread
  have hi : Settled L.env s₁ (infer (.lit l)) (.const c .pending) := by
    unfold infer
    exact hset.bind (.pure _)
  exact (ensures_emitConstant h (Literal.simple_of_constant hc) hi fun o _ => .lit hc).imp fun _ _ h => ⟨_, h⟩

/-- Wherever the expression lies at this place of the file, it is compiled. -/
def Emits (L : Layout) (home : Home) (e : Expr) : Prop :=
  ∀ s, InOrder L home s → Ensures L.env (emit e) s fun _ s' =>
    ∃ i entry, Compiled L home s e i entry s'

def EmitsReceiver (L : Layout) (home : Home) (f : Expr) : Prop :=
  ∀ s sig ref, InOrder L home s → Settled L.env s (infer f) (.func ref sig) →
    Ensures L.env (emitReceiver f sig ref) s (Received L home s f sig ref)

def EmitsSole (L : Layout) (home : Home) (args : List Expr) : Prop :=
  ∀ s, InOrder L home s → Ensures L.env (emitSole args) s (Soled L home s args)

def EmitsEach (L : Layout) (home : Home) (args : List Expr) : Prop :=
  ∀ s context types, InOrder L home s →
    Ensures L.env (emitEach args context types) s fun _ => Passes L home s args types

/-- The operands of an operator were emitted, each brought to its kind. -/
theorem ensures_apply {op : Operator} {x y : Expr} {i j : Inferred} {kx ky : OperandKind}
    {r : Resolution} (h : InOrder L home s)
    (hopen : ¬(L.env.folds = true ∧ (∃ a slot, i = .const a slot) ∧ ∃ b slot, j = .const b slot))
    (hkx : i.operandKind? = some kx) (hky : j.operandKind? = some ky) (hr : op.settle kx ky = .ok r)
    (hi : Settled L.env s (infer x) i) (hj : Settled L.env s (infer y) j)
    (hx : Emits L home x) (hy : Emits L home y) :
    Ensures L.env (do
      emit x
      coerceTop r.first
      emit y
      coerceSecond r
      asm (Assembly.builtinOp r.operand op)
      replace 2 [.value (.basic r.result)]) s fun _ s' =>
        s'.shadow = .value (.basic r.result) :: s.shadow ∧ Moves L home s s' fun o is =>
          Code (s.site o) (.binary op x y) (.value (.basic r.result)) is := by
  refine (hx s h).bind fun _ s₁ ⟨i', ex, cx⟩ => ?_
  obtain rfl := cx.settled.unique (hi.later cx.moves.later)
  refine (ensures_coerceTop (L := L) cx.moves.order.tidy cx.shadow
    (cx.agrees.operandKind?.trans hkx)).bind fun _ s₂ ⟨ex', rx⟩ => ?_
  have mx := cx.moves.seq (rx.step.moves cx.moves.order)
  refine (hy s₂ mx.order).bind fun _ s₃ ⟨j', ey, cy⟩ => ?_
  obtain rfl := cy.settled.unique (hj.later (mx.later.trans cy.moves.later))
  refine (ensures_coerceSecond (L := L) cy.moves.order.tidy cy.shadow
    (cy.agrees.operandKind?.trans hky)).bind fun _ s₄ ⟨ey', ry⟩ => ?_
  have my := mx.seq (cy.moves.seq (ry.step.moves cy.moves.order))
  refine (ensures_builtinOp (L := L) my.order.tidy).bind fun _ s₅ ⟨hshadow, hstep⟩ => ?_
  have mo := my.seq (hstep.moves my.order)
  have hs₅ : s₅.shadow = [ey', ex'] ++ s.shadow := by
    rw [hshadow, ry.shadow, rx.shadow]
    rfl
  refine ensures_replace hs₅ rfl ⟨rfl, (mo.replace [.value (.basic r.result)] hs₅ ?_ ?_).mono ?_⟩
  · simp [rx.slot, ry.slot]
  · simpa using ⟨rfl, .value _⟩
  · rintro o _ ho ⟨_, _, rfl, ⟨_, _, rfl, ⟨is₁, is₂, rfl, ⟨p, hp, hcode⟩, hcoerced⟩, is₃, is₄, rfl,
      ⟨q, hq, hcode'⟩, hcoerced'⟩, rfl⟩
    rw [mx.later.site] at hcode'
    have hfolds : o.folds = L.env.folds := ho.folds
    refine .binary hcode hcode' (fun ⟨hf, hpc, hqc⟩ => hopen ⟨hfolds ▸ hf, ?_, ?_⟩)
      (hp.operandKind?.trans (cx.agrees.operandKind?.trans hkx))
      (hq.operandKind?.trans (cy.agrees.operandKind?.trans hky)) hr (hcoerced p hp) (hcoerced' q hq)
    · exact cx.agrees.const_of_shows hp hpc
    · exact cy.agrees.const_of_shows hq hqc

theorem emits_binary {op : Operator} {x y : Expr} (hplaced : x.Placed L home ∧ y.Placed L home)
    (hx : Emits L home x) (hy : Emits L home y) : Emits L home (.binary op x y) := by
  intro s h
  unfold emit
  refine (ensures_infer x h hplaced.1).bind fun i s₁ hi => ?_
  refine (ensures_infer y hi.ahead.order hplaced.2).bind fun j s₂ hj => ?_
  refine reads_combine.andThen fun c hset hcomb => ?_
  have hi₂ := hi.of_later hj.ahead
  have hinfer := settled_binary hi₂.settled hj.settled hset
  cases hcomb with
  | folded hfolds hi' hj' hfold =>
    subst hi' hj'
    refine (ensures_emitConstant hi₂.ahead.order (Constant.simple_of_fold hfold) hinfer
      fun o ho => ?_).imp fun _ s' hdone => ?_
    · cases hi₂.known o ho with
      | const ha =>
        cases hj.known o ho with
        | const hb => exact .folded (ho.folds.trans hfolds) ha hb hfold
    · obtain ⟨entry, hc⟩ := hdone
      exact ⟨_, entry, hc.of_ahead hi₂.ahead⟩
  | applied hopen hkx hky hr =>
    refine (ensures_apply hi₂.ahead.order hopen hkx hky hr hi₂.settled hj.settled hx hy).imp
      fun _ s' hdone => ?_
    obtain ⟨hshadow, hmoves⟩ := hdone
    have hc : Compiled L home s₂ (.binary op x y) _ _ s' :=
      ⟨hshadow, hinfer.later hmoves.later, .value _, hmoves.mono fun o is _ hcode =>
        ⟨_, .value _, hcode⟩⟩
    exact ⟨_, _, hc.of_ahead hi₂.ahead⟩

/-! ## Calls -/

/-- A call of a function that the look-ahead knows. -/
theorem ensures_callKnown {f : Expr} {args : List Expr} {spread : Bool} {ref : FuncRef}
    {sig : Signature} {n : Nat} (h : InOrder L home s) (hn : s.shadow.length = n)
    (hf : Settled L.env s (infer f) (.func ref sig)) (hfunc : s.HasFunc (.func ref sig))
    (hknown : ∀ o, Completes L s o → Known (s.site o) f (.func ref sig))
    (hrecv : EmitsReceiver L home f) (hsole : EmitsSole L home args)
    (heach : EmitsEach L home args) :
    Ensures L.env (do
      let skip ← emitReceiver f sig ref
      let arity ← passArgs sig skip f.shown args.length spread (emitSole args) (emitEach args)
      emitCall sig (withReceiver skip arity) ref
      cutTo n
      push (resultEntry sig)) s fun _ s' => s'.shadow = resultEntry sig :: s.shadow ∧
        Moves L home s s' fun o is => Code (s.site o) (.call f args spread) (.ofResults sig) is := by
  obtain ⟨hagrees, hslot⟩ := resultEntry_cases sig
  refine (hrecv s sig ref h hf).bind fun skip s₁ hreceived => ?_
  cases hreceived with
  | none hne =>
    refine (ensures_passArgs h (hsole _ h) fun s' context types h' => heach s' context types h').bind
      fun arity s₂ hpass => ?_
    refine (ensures_emitCall hpass.moves.order (hpass.moves.later.grows.hasFunc hfunc)).bind
      fun _ s₃ ⟨hshadow, hstep⟩ => ?_
    have hpiles := hpass.seq (.of_same (hstep.moves hpass.moves.order) hshadow)
    refine (ensures_leave hpiles hn hagrees.lies hslot).imp fun _ s₄ ⟨hs₄, hmoves⟩ =>
      ⟨hs₄, hmoves.mono ?_⟩
    rintro o _ ho ⟨is₁, is₂, rfl, hargs, hcall⟩
    have harity : withReceiver 0 arity = arity := by cases arity <;> rfl
    rw [harity] at hcall
    cases hknown o (ho.mono hmoves.later.grows) with
    | func hcallee => exact .call hcallee hargs hcall
    | method => exact absurd rfl (hne _ _)
  | some hf' hmethod hparams hx =>
    subst hf'
    have h₁ := hx.moves.order
    refine (ensures_passArgs h₁ (hsole _ h₁) fun s' context types h' => heach s' context types h').bind
      fun arity s₂ hpass => ?_
    refine (ensures_emitCall hpass.moves.order
      ((hx.moves.later.trans hpass.moves.later).grows.hasFunc hfunc)).bind fun _ s₃ ⟨hshadow, hstep⟩ => ?_
    have hpiles := (hx.seq hpass).seq (.of_same (hstep.moves hpass.moves.order) hshadow)
    refine (ensures_leave hpiles hn hagrees.lies hslot).imp fun _ s₄ ⟨hs₄, hmoves⟩ =>
      ⟨hs₄, hmoves.mono ?_⟩
    rintro o _ ho ⟨_, is₃, rfl, ⟨is₁, is₂, rfl, ⟨hassign, hcode⟩, hargs⟩, hcall⟩
    rw [hx.moves.later.site] at hargs
    have hregistry : o.registry = L.env.registry := ho.registry
    exact .callMethod hcode (hregistry ▸ hmethod : Method o.registry _ _ _ _ _) hparams hassign hargs
      hcall

/-- A call of a value. -/
theorem ensures_callValueOf {f : Expr} {args : List Expr} {spread : Bool} {t : Ty} {sig : Signature}
    {n : Nat} (h : InOrder L home s) (hn : s.shadow.length = n)
    (hf : Settled L.env s (infer f) (.value t)) (hsig : t.signature? = some sig)
    (hemit : Emits L home f) (hsole : EmitsSole L home args) (heach : EmitsEach L home args) :
    Ensures L.env (do
      let arity ← passArgs sig 0 f.shown args.length spread (emitSole args) (emitEach args)
      emit f
      asm (Assembly.callValue arity)
      cutTo n
      push (resultEntry sig)) s fun _ s' => s'.shadow = resultEntry sig :: s.shadow ∧
        Moves L home s s' fun o is => Code (s.site o) (.call f args spread) (.ofResults sig) is := by
  obtain ⟨hagrees, hslot⟩ := resultEntry_cases sig
  refine (ensures_passArgs h (hsole _ h) fun s' context types h' => heach s' context types h').bind
    fun arity s₁ hpass => ?_
  refine (hemit s₁ hpass.moves.order).bind fun _ s₂ ⟨i, entry, hc⟩ => ?_
  obtain rfl := hc.settled.unique (hf.later (hpass.moves.later.trans hc.moves.later))
  cases hc.agrees
  refine (ensures_callValue (L := L) hc.moves.order.tidy).bind fun _ s₃ ⟨hshadow, hstep⟩ => ?_
  have hpiles := (hpass.seq (.of_one hc.moves hc.shadow rfl)).seq
    (.of_same (hstep.moves hc.moves.order) hshadow)
  refine (ensures_leave hpiles hn hagrees.lies hslot).imp fun _ s₄ ⟨hs₄, hmoves⟩ =>
    ⟨hs₄, hmoves.mono ?_⟩
  rintro o _ ho ⟨_, _, rfl, ⟨is₁, is₂, rfl, hargs, p, hp, hcode⟩, rfl⟩
  rw [hpass.moves.later.site] at hcode
  cases hp
  exact .callValue hargs hcode hsig

theorem emits_call {f : Expr} {args : List Expr} {spread : Bool} (hplaced : f.Placed L home)
    (hf : Emits L home f) (hrecv : EmitsReceiver L home f) (hsole : EmitsSole L home args)
    (heach : EmitsEach L home args) : Emits L home (.call f args spread) := by
  intro s h
  unfold emit
  refine ensures_bind.2 ?_
  simp only [ensures_get]
  refine (ensures_infer f h hplaced).bind fun i s₁ hi => ?_
  refine reads_callee.andThen fun r hset hcalled => ?_
  have hn : s₁.shadow.length = s.shadow.length := congrArg _ hi.ahead.shadow
  have hinfer : Settled L.env s₁ (infer (.call f args spread)) (resultEntry r.2) := by
    unfold infer
    exact hi.settled.bind (hset.bind (.pure _))
  have hdone {s' : CompileState} {sig : Signature} (hshadow : s'.shadow = resultEntry sig :: s₁.shadow)
      (hmoves : Moves L home s₁ s' fun o is =>
        Code (s₁.site o) (.call f args spread) (.ofResults sig) is)
      (hinfer : Settled L.env s₁ (infer (.call f args spread)) (resultEntry sig)) :
      ∃ i entry, Compiled L home s (.call f args spread) i entry s' := by
    have hc : Compiled L home s₁ (.call f args spread) (resultEntry sig) (resultEntry sig) s' :=
      ⟨hshadow, hinfer.later hmoves.later, (resultEntry_cases sig).1, hmoves.mono fun o is _ hcode =>
        ⟨_, shows_resultEntry o sig, hcode⟩⟩
    exact ⟨_, _, hc.of_ahead hi.ahead⟩
  cases hcalled with
  | func ref sig =>
    exact (ensures_callKnown hi.ahead.order hn hi.settled hi.func hi.known hrecv hsole heach).imp
      fun _ s' ⟨hshadow, hmoves⟩ => hdone hshadow hmoves hinfer
  | value hsig =>
    exact (ensures_callValueOf hi.ahead.order hn hi.settled hsig hf hsole heach).imp
      fun _ s' ⟨hshadow, hmoves⟩ => hdone hshadow hmoves hinfer

/-! ## The other expressions -/

theorem emits_select {x : Expr} {name : String} (hplaced : x.Placed L home) (hx : Emits L home x) :
    Emits L home (.select x name) := by
  intro s h
  unfold emit
  refine (ensures_infer x h hplaced).bind fun j s₁ hj => ?_
  refine reads_resolveMember.andThen fun m hset hm => ?_
  have hinfer {i : Inferred} := settled_select (i := i) hj.settled hset
  cases hm with
  | native hfind =>
    refine (ensures_emitNative hj.ahead.order hfind (fun i hi => hinfer hi) fun o ho => ?_).imp
      fun _ s' hdone => ?_
    · cases hj.known o ho with
      | package hpackage =>
        exact .member hpackage (ho.registry.symm ▸ hfind : o.registry.find? _ _ = _)
    · obtain ⟨i, entry, hc⟩ := hdone
      exact ⟨i, entry, hc.of_ahead hj.ahead⟩
  | @field t base ty ptrs index hstrip hfield =>
    refine (hx s₁ hj.ahead.order).bind fun _ s₂ hdone => ?_
    obtain ⟨j', entry, hc⟩ := hdone
    obtain rfl := hc.settled.unique (hj.settled.later hc.moves.later)
    cases hc.agrees
    refine ensures_bind.2 (ensures_discard.2 (ensures_pop hc.shadow ?_))
    have hpop := hc.moves.drop hc.shadow rfl
    refine (ensures_derefs (List.range ptrs) hpop.order).bind fun _ s₃ hderefs => ?_
    obtain ⟨hshadow, hderef⟩ := hderefs
    refine (ensures_field (L := L) hderef.order.tidy).bind fun _ s₄ hfielded => ?_
    obtain ⟨hshadow', hstep⟩ := hfielded
    have hmoves := ((hpop.seq hderef).seq (hstep.moves hderef.order)).push (.value ty) rfl
    have hc' : Compiled L home s₁ (.select x name) (.value ty) (.value ty) _ :=
      ⟨congrArg _ (hshadow'.trans hshadow), (hinfer (.pure _)).later hmoves.later, .value ty,
        hmoves.mono ?_⟩
    · exact ⟨_, _, hc'.of_ahead hj.ahead⟩
    · rintro o _ ho ⟨_, _, rfl, ⟨is, _, rfl, ⟨p, hp, hcode⟩, rfl⟩, rfl⟩
      cases hp
      rw [List.length_range]
      exact ⟨_, .value ty, .field hcode hstrip hfield⟩
  | method hm =>
    cases hm with
    | mk => trivial

theorem emits_funcLit {label : Nat} {ty : FuncTypeExpr} {body : List Stmt}
    (hplaced : (Expr.funcLit label ty body).Placed L home) :
    Emits L home (.funcLit label ty body) := by
  intro s h
  obtain ⟨hhome, hbody⟩ := hplaced
  unfold emit
  refine (ensures_literalFunc h hhome hbody).bind fun id s₁ hlooked => ?_
  obtain ⟨hahead, hid⟩ := hlooked
  have hlt : id < s₁.asm.funcs.size := (hahead.order.declared.literals _ _ hid).2.1
  refine (reads_signatureOf hahead.order hlt).andThen fun sig hset hsigned => ?_
  obtain ⟨f, hf, hsig⟩ := hsigned
  refine (ensures_emitClosure (e := .funcLit label ty body) hahead.order hf
    (settled_funcLit hid hset) (.func _ _) fun o ho variadic place hat => ?_).imp fun _ s' hdone => ?_
  · exact .funcLit (literalAt_of_completes hahead.order ho hhome hid hf hsig) hat
  · obtain ⟨entry, hc⟩ := hdone
    exact ⟨_, entry, hc.of_ahead hahead⟩

theorem ensures_emitAddress {x : Expr} (h : InOrder L home s) :
    Ensures L.env (emitAddress x) s fun _ s' =>
      ∃ ty entry, Compiled L home s (.addrOf x) (.value (.ptr ty)) entry s' := by
  unfold emitAddress
  refine (reads_addressed h).andThen fun r hset hr => ?_
  obtain ⟨id, ty⟩ := r
  obtain ⟨name, v, rfl, hfind, hv, rfl⟩ := hr
  refine (ensures_varOperand h hfind).bind fun address s₁ ⟨hs, v', hv', hat⟩ => ?_
  subst hs
  cases hv.symm.trans hv'
  have hinfer : Settled L.env s₁ (infer (.addrOf (.ident name))) (.value (.ptr v.ty)) := by
    unfold infer
    exact hset.bind (.pure _)
  refine (ensures_pushTyped h hinfer (.value _) (ensures_addrVar h.tidy) fun o is ho his => ?_).imp
    fun _ _ h => ⟨_, h⟩
  subst his
  exact .addrOf (hat o ho)

theorem emits_addrOf {x : Expr} : Emits L home (.addrOf x) := fun _ h =>
  (ensures_emitAddress h).imp fun _ _ ⟨_, entry, hc⟩ => ⟨_, entry, hc⟩

theorem emits_deref {x : Expr} (hplaced : x.Placed L home) (hx : Emits L home x) :
    Emits L home (.deref x) := by
  intro s h
  unfold emit
  refine (ensures_infer x h hplaced).bind fun j s₁ hj => ?_
  refine reads_pointee.andThen fun elem hset hpointee => ?_
  obtain ⟨t, rfl, hptr⟩ := hpointee
  refine (hx s₁ hj.ahead.order).bind fun _ s₂ hdone => ?_
  obtain ⟨j', entry, hc⟩ := hdone
  obtain rfl := hc.settled.unique (hj.settled.later hc.moves.later)
  cases hc.agrees
  refine ensures_bind.2 (ensures_discard.2 (ensures_pop hc.shadow ?_))
  have hpop := hc.moves.drop hc.shadow rfl
  refine (ensures_addrOp (L := L) hpop.order.tidy).bind fun _ s₃ hdone => ?_
  obtain ⟨hshadow, hstep⟩ := hdone
  have hmoves := (hpop.seq (hstep.moves hpop.order)).push (.value elem) rfl
  have hinfer : Settled L.env s₁ (infer (.deref x)) (.value elem) := by
    unfold infer
    exact hj.settled.bind (hset.bind (.pure _))
  have hc' : Compiled L home s₁ (.deref x) (.value elem) (.value elem) _ :=
    ⟨congrArg _ hshadow, hinfer.later hmoves.later, .value elem, hmoves.mono ?_⟩
  · exact ⟨_, _, hc'.of_ahead hj.ahead⟩
  · rintro o _ ho ⟨is, _, rfl, ⟨p, hp, hcode⟩, rfl⟩
    cases hp
    exact ⟨_, .value elem, .deref hcode hptr⟩

/-! ## Receivers and arguments -/

theorem emitsReceiver_select {x : Expr} {name : String} (hx : Emits L home x) :
    EmitsReceiver L home (.select x name) := by
  intro s sig ref h hf
  rcases ref with ⟨id, literal⟩ | ⟨addr, variadic, _ | _⟩
  · exact .none fun _ _ heq => nomatch heq
  · exact .none fun _ _ heq => nomatch heq
  · unfold emitReceiver
    obtain ⟨_, _, -, hreceiver⟩ := method_of_infer hf.exec
    refine ensures_bind.2 (ensures_receiverType hreceiver fun recv params hparams => ?_)
    refine (hx s h).bind fun _ s₁ ⟨j, entry, hc⟩ => ?_
    obtain ⟨t, rfl, hmethod⟩ := method_of_settled (hf.later hc.moves.later) hc.settled
    cases hc.agrees
    refine (ensures_fitTop (L := L) hc.moves.order.tidy hc.shadow).bind fun _ s₂ hfit => ?_
    have hmoves := hc.moves.seq (hfit.step.moves hc.moves.order)
    refine .some rfl hmethod hparams (.of_one (hmoves.mono ?_) hfit.shadow rfl)
    rintro o _ ho ⟨is, _, rfl, ⟨p, hp, hcode⟩, rfl, hfits⟩
    cases hp
    rw [List.append_nil]
    exact ⟨hfits _ (.value t), hcode⟩

theorem emitsReceiver_other {f : Expr} (hf : ∀ x name, f ≠ .select x name) :
    EmitsReceiver L home f := by
  intro s sig ref h hinfer
  have hne : ∀ addr variadic, ref ≠ .native addr variadic true := by
    rintro addr variadic rfl
    obtain ⟨x, name, rfl⟩ := exists_select_of_infer hinfer.exec
    exact hf x name rfl
  rw [emitReceiver_eq hne]
  exact .none hne

theorem emitsSole_one {e : Expr} (hplaced : e.Placed L home) (he : Emits L home e) :
    EmitsSole L home [e] := by
  intro s h
  unfold emitSole
  refine (ensures_infer e h hplaced).bind fun i s₁ hi => ?_
  split
  · rename_i t t' ts
    refine (he s₁ hi.ahead.order).bind fun _ s₂ ⟨j, entry, hc⟩ => ?_
    obtain rfl := hc.settled.unique (hi.settled.later hc.moves.later)
    cases hc.agrees
    refine ensures_bind.2 (ensures_pop hc.shadow ?_)
    have hpop := hc.moves.drop hc.shadow rfl
    refine .sole (by simp) (.of_same ?_ hi.ahead.shadow)
    refine hi.ahead.then (hpop.mono ?_)
    rintro o is ho ⟨p, hp, hcode⟩
    cases hp
    rwa [hi.ahead.later.site] at hcode
  · exact .each hi.ahead

theorem emitsSole_other {args : List Expr} (hargs : ∀ e, args ≠ [e]) : EmitsSole L home args := by
  intro s h
  unfold emitSole
  split
  · exact absurd rfl (hargs _)
  · exact .each (.refl h)

theorem emitsEach_nil : EmitsEach L home [] := fun s context types h =>
  (Piles.of_same (.refl h) rfl).mono fun o is _ his hlen => by
    subst his
    obtain rfl : types = [] := List.length_eq_zero_iff.1 hlen.symm
    exact .nil

theorem emitsEach_cons {e : Expr} {es : List Expr} (he : Emits L home e) (hes : EmitsEach L home es) :
    EmitsEach L home (e :: es) := by
  intro s context types h
  cases types with
  | nil => exact (Piles.of_same (.refl h) rfl).mono fun o is _ _ hlen => nomatch hlen
  | cons t ts =>
    unfold emitEach
    refine (he s h).bind fun _ s₁ ⟨i, entry, hc⟩ => ?_
    refine (ensures_fitTop (L := L) hc.moves.order.tidy hc.shadow).bind fun _ s₂ hfit => ?_
    have hmoves := hc.moves.seq (hfit.step.moves hc.moves.order)
    refine (hes s₂ context ts hmoves.order).imp fun _ s₃ hpasses => ?_
    refine ((Piles.of_one hmoves hfit.shadow rfl).seq hpasses).mono ?_
    rintro o _ ho ⟨_, is₂, rfl, ⟨is₁, _, rfl, ⟨p, hp, hcode⟩, rfl, hfits⟩, heach⟩ hlen
    rw [hmoves.later.site] at heach
    rw [List.append_nil]
    exact .cons hcode (hfits p hp) (heach (Nat.succ.inj hlen))

/-! ## All expressions -/

mutual

/-- What the compiler emits for an expression is a code of it. -/
theorem emits (e : Expr) (hplaced : e.Placed L home) : Emits L home e := by
  cases e with
  | ident name => exact fun s h => ensures_emitIdent h
  | lit l => exact fun s h => ensures_emitLit h
  | binary op x y => exact emits_binary hplaced (emits x hplaced.1) (emits y hplaced.2)
  | call f args spread =>
    exact emits_call hplaced.1 (emits f hplaced.1) (emitsReceiver f hplaced.1)
      (emitsSole args hplaced.2) (emitsEach args hplaced.2)
  | select x name => exact emits_select hplaced (emits x hplaced)
  | funcLit label ty body => exact emits_funcLit hplaced
  | addrOf x => exact emits_addrOf
  | deref x => exact emits_deref hplaced (emits x hplaced)
termination_by structural e

theorem emitsReceiver (f : Expr) (hplaced : f.Placed L home) : EmitsReceiver L home f := by
  cases f with
  | select x name => exact emitsReceiver_select (emits x hplaced)
  | _ => exact emitsReceiver_other fun _ _ heq => nomatch heq
termination_by structural f

theorem emitsSole (args : List Expr) (hplaced : exprsPlaced L home args) :
    EmitsSole L home args := by
  match args with
  | [] => exact emitsSole_other fun _ heq => nomatch heq
  | [e] => exact emitsSole_one hplaced.1 (emits e hplaced.1)
  | _ :: _ :: _ => exact emitsSole_other fun _ heq => nomatch heq
termination_by structural args

theorem emitsEach (args : List Expr) (hplaced : exprsPlaced L home args) :
    EmitsEach L home args := by
  cases args with
  | nil => exact emitsEach_nil
  | cons e es => exact emitsEach_cons (emits e hplaced.1) (emitsEach es hplaced.2)
termination_by structural args

end

end Compile

end StackScript
