import StackScript.Proofs.Translation.Reading

/-!
# What the look-ahead finds

`ensures_infer`: after looking ahead at an expression the answer is settled, and a constant or a
function that was found is one by the rules of the translation.
-/

namespace StackScript

open CompileState

/-- The place of the compiler, as one of a finished program. -/
def CompileState.site (s : CompileState) (o : Output) : Site :=
  ⟨o, s.body, s.scopes, s.asm.vars.size⟩

theorem Later.site {s s' : CompileState} (h : Later s s') (o : Output) : s'.site o = s.site o := by
  rw [CompileState.site, CompileState.site, h.body, h.scopes, h.vars]

/-- A script function that was found is one of the state, with its signature. -/
def CompileState.HasFunc (s : CompileState) : Inferred → Prop
  | .func (.script id _) sig => ∃ f : FuncInfo, s.asm.funcs[id]? = some f ∧ f.Signed sig
  | _ => True

theorem FuncInfo.Signed.becomes {f g : FuncInfo} {sig : Signature} (h : f.Signed sig)
    (hg : f.Becomes g) : g.Signed sig :=
  ⟨hg.sig.trans h.declares, hg.variadicity.trans h.variadicity, h.last⟩

theorem Grows.hasFunc {s s' : CompileState} (h : Grows s s') {i : Inferred} (hi : s.HasFunc i) :
    s'.HasFunc i := by
  unfold CompileState.HasFunc at hi ⊢
  split at hi
  · obtain ⟨f, hf, hsig⟩ := hi
    obtain ⟨g, hg, hbecomes⟩ := h.funcs _ _ hf
    exact ⟨g, hg, hsig.becomes hbecomes⟩
  · trivial

/-- What the look-ahead finds, by the rules of the translation. -/
inductive Known (S : Site) : Expr → Inferred → Prop
  | const {e : Expr} {c : Constant} (h : Means S e c) : Known S e (.const c .pending)
  | value {e : Expr} (t : Ty) : Known S e (.value t)
  | results {e : Expr} {ts : List Ty} (h : ts.length ≠ 1) : Known S e (.results ts)
  | func {e : Expr} {ref : FuncRef} {sig : Signature} (h : CalleeAt S e ref sig) :
    Known S e (.func ref sig)
  | method {x : Expr} {name : String} {addr : Nat} {variadic : Bool} {sig : Signature} :
    Known S (.select x name) (.func (.native addr variadic true) sig)
  | package {name path : String} (hfind : S.scopes.find? name = some (.package path)) :
    Known S (.ident name) (.package path name)

section Known

variable {L : Layout} {home : Home} {s s' : CompileState} {o : Output}

theorem sig?_of_completes (ho : Completes L s o) {id : Nat} {f : FuncInfo} {sig : Signature}
    (hf : s.asm.funcs[id]? = some f) (hsig : f.Signed sig) : o.program.sig? id = some sig := by
  obtain ⟨g, hg, hbecomes⟩ := ho.funcs _ _ hf
  rw [Program.sig?, hg, Option.bind_some, hbecomes.sig, hsig.declares]

theorem funcAt_of_completes (h : InOrder L home s) (ho : Completes L s o) {name : String} {id : Nat}
    {f : FuncInfo} {sig : Signature} (hfind : s.scopes.find? name = some (.func id))
    (hf : s.asm.funcs[id]? = some f) (hsig : f.Signed sig) : FuncAt (s.site o) name id sig :=
  have hvalid := h.declared.scopes.valid hfind o ho
  ⟨hfind, sig?_of_completes ho hf hsig, hvalid.1, hvalid.2.2.1, hvalid.2.2.2⟩

theorem literalAt_of_completes (h : InOrder L home s) (ho : Completes L s o) {label id : Nat}
    {body : List Stmt} {f : FuncInfo} {sig : Signature} (hhome : L.Has label home body)
    (hid : s.literals.lookup label = some id) (hf : s.asm.funcs[id]? = some f)
    (hsig : f.Signed sig) : LiteralAt (s.site o) label body id sig :=
  ⟨ho.literals _ _ hid, sig?_of_completes ho hf hsig,
    ho.nest _ _ _ hid (hhome.home ▸ h.declared.owner), (ho.bodies _ _ hid).trans hhome.body⟩

theorem known_of_native {S : Site} {e : Expr} {x : NativeSymbol} {i : Inferred}
    (h : Compile.NativeEntry S.registry x i) (hat : HostAt S e x) : Known S e i := by
  cases h with
  | var h => exact .value _
  | func h => exact .func (.native hat (.fixed h))
  | funcv h => exact .func (.native hat (.variadic h))

end Known

namespace Compile

variable {L : Layout} {home : Home} {s s' : CompileState}

theorem settled_select {x : Expr} {name : String} {j i : Inferred} {m : Member}
    (hx : Settled L.env s (infer x) j) (hm : Settled L.env s (resolveMember j name) m)
    (hi : Settled L.env s (memberEntry m) i) : Settled L.env s (infer (.select x name)) i := by
  unfold infer
  exact hx.bind (hm.bind hi)

/-- The result of looking ahead at an expression. -/
structure Looked (L : Layout) (home : Home) (s : CompileState) (e : Expr) (i : Inferred)
    (s' : CompileState) : Prop where
  ahead : LooksAhead L home s s'
  settled : Settled L.env s' (infer e) i
  known : ∀ o, Completes L s' o → Known (s'.site o) e i
  func : s'.HasFunc i

theorem hasFunc_of_native {r : Registry} {x : NativeSymbol} {i : Inferred} (h : NativeEntry r x i) :
    s.HasFunc i := by
  cases h <;> trivial

theorem hasFunc_resultEntry (sig : Signature) : s.HasFunc (resultEntry sig) := by
  unfold resultEntry
  split <;> trivial

/-- A call leaves no single result, or one value. -/
theorem known_resultEntry {S : Site} {e : Expr} (sig : Signature) : Known S e (resultEntry sig) := by
  unfold resultEntry
  split
  · exact .value _
  · rename_i h
    refine .results fun hlen => ?_
    obtain ⟨t, ht⟩ := List.length_eq_one_iff.1 hlen
    exact h t ht

theorem ensures_inferIdent {name : String} (h : InOrder L home s) :
    Ensures L.env (infer (.ident name)) s (Looked L home s (.ident name)) := by
  have hreads : Reads L.env s (infer (.ident name)) fun i => s.HasFunc i ∧
      ∀ o, Completes L s o → Known (s.site o) (.ident name) i := by
    unfold infer
    refine .bind (reads_resolveName h) fun n hn => (reads_namedEntry hn).imp fun i hi => ?_
    refine ⟨?_, fun o ho => ?_⟩
    · cases n with
      | native x => exact hasFunc_of_native hi
      | func id sig =>
        subst hi
        exact hn.2
      | _ =>
        subst hi
        trivial
    cases n with
    | var id ty =>
      subst hi
      exact .value _
    | param below ty =>
      subst hi
      exact .value _
    | package path shown =>
      subst hi
      obtain ⟨rfl, hfind⟩ := hn
      exact .package hfind
    | func id sig =>
      subst hi
      obtain ⟨hfind, f, hf, hsig⟩ := hn
      exact .func (.func (funcAt_of_completes h ho hfind hf hsig))
    | native x =>
      have hregistry : L.env.registry = (s.site o).registry := ho.registry.symm
      rw [hregistry] at hi
      obtain ⟨hfind, htrue, hfalse, hx⟩ := hn
      rw [hregistry] at hx
      exact known_of_native hi (.universe hfind htrue hfalse hx)
    | truth b =>
      subst hi
      obtain ⟨hfind, rfl⟩ := hn
      exact .const (.truth hfind)
  exact Ensures.imp hreads fun i s' ⟨hs, hset, hfunc, hknown⟩ => by
    subst hs
    exact ⟨.refl h, hset, hknown, hfunc⟩

/-- What is known stays known in later states. -/
theorem Looked.of_later {e : Expr} {i : Inferred} (h : Looked L home s e i s')
    {s'' : CompileState} (hs : LooksAhead L home s' s'') : Looked L home s e i s'' where
  ahead := h.ahead.trans hs
  settled := h.settled.later hs.later
  known := fun o ho => by
    rw [hs.later.site]
    exact h.known o (ho.mono hs.later.grows)
  func := hs.later.grows.hasFunc h.func

theorem settled_funcLit {label id : Nat} {ty : FuncTypeExpr} {body : List Stmt} {sig : Signature}
    (hid : s.literals.lookup label = some id) (hsig : Settled L.env s (signatureOf id) sig) :
    Settled L.env s (infer (.funcLit label ty body)) (.func (.script id true) sig) := by
  unfold infer
  refine Settled.bind (fun s' hs => ?_) (hsig.bind (.pure _))
  show ((literalFunc label ty body) L.env).exec s' = _
  unfold literalFunc
  rw [exec_bind_ok (t := get) (a := s') rfl, hs.grows.literals _ _ hid]
  rfl

theorem ensures_inferFuncLit {label : Nat} {ty : FuncTypeExpr} {body : List Stmt}
    (h : InOrder L home s) (hplaced : (Expr.funcLit label ty body).Placed L home) :
    Ensures L.env (infer (.funcLit label ty body)) s (Looked L home s (.funcLit label ty body)) := by
  obtain ⟨hhome, hbody⟩ := hplaced
  unfold infer
  refine (ensures_literalFunc h hhome hbody).bind fun id s₁ ⟨hahead, hid⟩ => ?_
  have hlt : id < s₁.asm.funcs.size := (hahead.order.declared.literals _ _ hid).2.1
  refine (reads_signatureOf hahead.order hlt).andThen fun sig hset ⟨f, hf, hsig⟩ => ?_
  exact ⟨hahead, settled_funcLit hid hset, fun o ho => .func (.literal
    (literalAt_of_completes hahead.order ho hhome hid hf hsig)), f, hf, hsig⟩

theorem ensures_inferLit {l : Literal} (h : InOrder L home s) :
    Ensures L.env (infer (.lit l)) s (Looked L home s (.lit l)) := by
  have hreads : Reads L.env s (infer (.lit l)) fun i => s.HasFunc i ∧
      ∀ o : Output, Known (s.site o) (.lit l) i := by
    unfold infer
    exact .bind (.ofConstant (fun _ => Literal.ofFile_constant) fun c hc => (hc : _ = Except.ok c))
      fun c hc => .pure ⟨trivial, fun o => .const (.lit hc)⟩
  exact Ensures.imp hreads fun i s' ⟨hs, hset, hfunc, hknown⟩ => by
    subst hs
    exact ⟨.refl h, hset, fun o _ => hknown o, hfunc⟩

/-- A step that only reads, after looking ahead at a part. -/
theorem Looked.then_reads {α : Type} {e x : Expr} {i : Inferred} {t : Compile α} {P : α → Prop}
    (hi : Looked L home s x i s') (ht : Reads L.env s' t P) {k : α → Inferred}
    (hinfer : ∀ a, Settled L.env s' t a → Settled L.env s' (infer e) (k a))
    (hfunc : ∀ a, s'.HasFunc (k a))
    (hknown : ∀ a o, P a → Completes L s' o → Known (s'.site o) e (k a)) :
    Ensures L.env (t >>= fun a => pure (k a)) s' (Looked L home s e) :=
  Ensures.bind ht fun a s'' ⟨hs, hset, ha⟩ => by
    subst hs
    exact ⟨hi.ahead, hinfer a hset, fun o ho => hknown a o ha ho, hfunc a⟩

/-- What the look-ahead takes an operator on two operands for. -/
def combinedEntry : Combined → Inferred
  | .folded c => .const c .pending
  | .applied r => .value (.basic r.result)

theorem settled_binary {op : Operator} {x y : Expr} {i j : Inferred} {c : Combined}
    (hx : Settled L.env s (infer x) i) (hy : Settled L.env s (infer y) j)
    (hc : Settled L.env s (combine op x y i j) c) :
    Settled L.env s (infer (.binary op x y)) (combinedEntry c) := by
  unfold infer
  refine hx.bind (hy.bind (hc.bind ?_))
  cases c <;> exact .pure _

/-- After looking ahead at an expression the answer is settled. -/
theorem ensures_infer (e : Expr) {s : CompileState} (h : InOrder L home s)
    (hplaced : e.Placed L home) : Ensures L.env (infer e) s (Looked L home s e) := by
  cases e with
  | ident name => exact ensures_inferIdent h
  | lit l => exact ensures_inferLit h
  | binary op x y =>
    obtain ⟨hx, hy⟩ := hplaced
    unfold infer
    refine (ensures_infer x h hx).bind fun i s₁ hi => ?_
    refine (ensures_infer y hi.ahead.order hy).bind fun j s₂ hj => ?_
    refine reads_combine.andThen fun c hset hcomb => ?_
    have hi₂ := hi.of_later hj.ahead
    have hbind := settled_binary hi₂.settled hj.settled hset
    cases hcomb with
    | folded hfolds hi' hj' hfold =>
      subst hi' hj'
      refine ⟨hi₂.ahead, hbind, fun o ho => ?_, trivial⟩
      cases hi₂.known o ho with
      | const ha =>
        cases hj.known o ho with
        | const hb => exact .const (.folded (ho.folds.trans hfolds) ha hb hfold)
    | applied hopen hkx hky hr =>
      exact ⟨hi₂.ahead, hbind, fun o _ => .value _, trivial⟩
  | call f args spread =>
    obtain ⟨hf, -⟩ := hplaced
    unfold infer
    refine (ensures_infer f h hf).bind fun i s₁ hi => ?_
    refine hi.then_reads reads_callee (k := fun r => resultEntry r.2) (fun r hr => ?_)
      (fun r => hasFunc_resultEntry _) fun r o _ _ => known_resultEntry _
    unfold infer
    exact hi.settled.bind (hr.bind (.pure _))
  | select x name =>
    unfold infer
    refine (ensures_infer x h hplaced).bind fun i s₁ hi => ?_
    refine reads_resolveMember.andThen fun m hset hm => ?_
    have hbind {i' : Inferred} := settled_select (i := i') hi.settled hset
    cases hm with
    | native hfind =>
      refine Ensures.imp (reads_nativeEntry hfind) fun i' s₁ ⟨hs, hset', hi'⟩ => ?_
      subst hs
      refine ⟨hi.ahead, hbind hset', fun o ho => ?_, hasFunc_of_native hi'⟩
      cases hi.known o ho with
      | package hpackage =>
        have hregistry : L.env.registry = (s₁.site o).registry := ho.registry.symm
        rw [hregistry] at hi' hfind
        exact known_of_native hi' (.member hpackage hfind)
    | field hstrip hfield => exact ⟨hi.ahead, hbind (.pure _), fun o _ => .value _, trivial⟩
    | method hm =>
      cases hm with
      | mk hmethod => exact ⟨hi.ahead, hbind (.pure _), fun o _ => .method, trivial⟩
  | funcLit label ty body => exact ensures_inferFuncLit h hplaced
  | addrOf x =>
    have hreads : Reads L.env s (infer (.addrOf x)) fun i => ∃ t, i = .value t := by
      unfold infer
      exact .bind (reads_addressed h) fun r _ => .pure ⟨_, rfl⟩
    exact Ensures.imp hreads fun i s' ⟨hs, hset, t, hi⟩ => by
      subst hs hi
      exact ⟨.refl h, hset, fun o _ => .value _, trivial⟩
  | deref x =>
    unfold infer
    refine (ensures_infer x h hplaced).bind fun i s₁ hi => ?_
    refine hi.then_reads reads_pointee (k := fun t => .value t) (fun r hr => ?_)
      (fun r => trivial) fun r o _ _ => .value _
    unfold infer
    exact hi.settled.bind (hr.bind (.pure _))
termination_by structural e

end Compile

end StackScript
