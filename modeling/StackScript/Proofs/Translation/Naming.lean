import StackScript.Proofs.Translation.Inferring

/-!
# The code of names

`Moves` says what a stretch of the compilation at one place of the file does: the state grows, all
stays in order, and the code that was added is as described. Each step that emits code for a name
moves the state in this way.
-/

namespace StackScript

open CompileState

variable {L : Layout} {home : Home} {s s' s'' : CompileState} {R R' : Output → List Instr → Prop}

/-! ## Stretches of the compilation -/

/-- From the one state to the other, code as described was added at one place of the file. -/
structure Moves (L : Layout) (home : Home) (s s' : CompileState) (R : Output → List Instr → Prop) :
    Prop where
  later : Later s s'
  order : InOrder L home s'
  emitted : Emitted L s s' R

namespace Moves

theorem mono (h : Moves L home s s' R) (hR : ∀ o is, Completes L s' o → R o is → R' o is) :
    Moves L home s s' R' :=
  { h with emitted := h.emitted.mono hR }

theorem seq (h : Moves L home s s' R) (h' : Moves L home s' s'' R') :
    Moves L home s s'' fun o is => ∃ is₁ is₂, is = is₁ ++ is₂ ∧ R o is₁ ∧ R' o is₂ where
  later := h.later.trans h'.later
  order := h'.order
  emitted := h.emitted.seq h'.emitted h'.later.grows

theorem refl (h : InOrder L home s) : Moves L home s s fun _ is => is = [] :=
  ⟨.refl s, h, .nil rfl⟩

end Moves

theorem LooksAhead.moves (h : LooksAhead L home s s') : Moves L home s s' fun _ is => is = [] :=
  ⟨h.later, h.order, .nil (by rw [h.code])⟩

/-- What was looked ahead at adds nothing to the code. -/
theorem LooksAhead.then (h : LooksAhead L home s s') (h' : Moves L home s' s'' R) :
    Moves L home s s'' R :=
  (h.moves.seq h').mono fun o is _ ⟨is₁, is₂, his, hnil, hr⟩ => by
    subst his hnil
    exact hr

theorem Step.moves (h : Step L s s' R) (ho : InOrder L home s) : Moves L home s s' R :=
  ⟨h.later, ho.step h, h.emitted⟩

/-- A step that adds nothing to the code. -/
theorem Moves.then_step (h : Moves L home s s' R)
    (h' : Step L s' s'' fun _ is => is = []) : Moves L home s s'' R :=
  (h.seq (h'.moves h.order)).mono fun o is _ ⟨is₁, is₂, his, hr, hnil⟩ => by
    subst his hnil
    rwa [List.append_nil]

/-- An entry comes to the top of the shadow stack, or those on top are replaced. -/
theorem Moves.replace {es rest : Shadow} (es' : Shadow) (h : Moves L home s s' R)
    (hs : s'.shadow = es ++ rest) (hes : ∀ e ∈ es, e.slot? = none)
    (hes' : ∀ e ∈ es', e.slot? = none ∧ e.Lies) :
    Moves L home s (s'.withShadow (es' ++ rest)) R :=
  h.then_step (step_replace es' h.order.tidy hs hes hes')

theorem Moves.drop {e : Inferred} {rest : Shadow} (h : Moves L home s s' R)
    (hs : s'.shadow = e :: rest) (he : e.slot? = none) : Moves L home s (s'.withShadow rest) R :=
  h.then_step (step_drop h.order.tidy hs he)

theorem Moves.push {e : Inferred} (h : Moves L home s s' R) (he : e.Lies) (hslot : e.slot? = none) :
    Moves L home s (s'.withShadow (e :: s'.shadow)) R :=
  h.then_step (step_push h.order.tidy he hslot)

namespace Compile

/-! ## Variables -/

theorem varAt_of_sees {S : Site} {name : String} {id : Nat} {v : Var} {a : VarAddr}
    (hfind : S.scopes.find? name = some (.var id)) (hv : S.program.vars[id]? = some v)
    (ha : v.addr = some a) (h : S.out.Sees S.chain id) {depth : Nat} (hdepth : S.chain.length = depth) :
    (a.depth = 0 → VarAt S name id v .global a.index) ∧
      (a.depth ≠ 0 → VarAt S name id v (.up (depth - a.depth)) a.index) := by
  obtain ⟨v', a', hv', ha', h⟩ := h
  cases hv.symm.trans hv'
  cases ha.symm.trans ha'
  refine ⟨fun hzero => ⟨hfind, hv, ?_⟩, fun hzero => ⟨hfind, hv, ?_⟩⟩
  · rw [if_pos hzero] at h
    exact h
  · rw [if_neg hzero] at h
    obtain ⟨-, g, f, hg, hf, hvar⟩ := h
    subst hdepth
    show (S.chain[S.chain.length - a.depth]?.bind (S.program.funcs[·]?)).bind _ = _
    rw [hg]
    show (S.program.funcs[g]?).bind _ = _
    rw [show S.program.funcs[g]? = some f from hf]
    exact hvar

/-- A variable in scope has an address as seen from the place that is compiled. -/
theorem ensures_varOperand {name : String} {id : Nat} (h : InOrder L home s)
    (hfind : s.scopes.find? name = some (.var id)) :
    Ensures L.env (varOperand id) s fun address s' => s' = s ∧ ∃ v, s.asm.vars[id]? = some v ∧
      ∀ o, Completes L s o → VarAt (s.site o) name id v (.ofField address.1) address.2 := by
  have hknown := h.declared.scopes.known hfind
  have hvalid := h.declared.scopes.valid hfind
  unfold varOperand
  refine (reads_var hknown.var_lt).andThen fun v _ hv => ?_
  obtain ⟨v', a, hv', haddr, hdepth⟩ := hknown
  cases hv.symm.trans hv'
  dsimp only
  split
  · rename_i ha
    cases haddr.symm.trans ha
  · rename_i ha
    cases haddr.symm.trans ha
    have hat (o : Output) (ho : Completes L s o) :=
      varAt_of_sees (S := s.site o) hfind (ho.vars _ _ hv) ha (hvalid o ho)
        (h.declared.depth o ho)
    refine ensures_bind.2 ?_
    simp only [ensures_get]
    split
    · rename_i hzero
      exact ⟨rfl, v, hv, fun o ho => (hat o ho).1 hzero⟩
    · rename_i hzero
      split
      · omega
      · split
        · trivial
        · rename_i hrange
          refine ⟨rfl, v, hv, fun o ho => ?_⟩
          have hne : s.body.depth - a.depth ≠ Word.globalScope := fun heq => hrange (heq ▸ Nat.le_refl _)
          rw [Scope.ofField, if_neg hne]
          exact (hat o ho).2 hzero

theorem paramAt_of_completes {name : String} {func index below : Nat} {ty : Ty} {o : Output}
    (h : InOrder L home s) (ho : Completes L s o)
    (hfind : s.scopes.find? name = some (.param func index ty)) (hfunc : s.body.func = some func)
    (hbelow : below = s.body.numParams - index) : ParamAt (s.site o) name below ty := by
  obtain ⟨sig, hsig, hty⟩ := h.declared.scopes.valid hfind o ho
  subst hbelow
  exact .mk hfind hfunc hsig hty

/-- A step that adds an instruction for a variable. -/
theorem ensures_variable {name : String} {id : Nat} {op : Nat → Nat → Asm PUnit}
    (instr : Scope → Nat → Instr) (h : InOrder L home s)
    (hfind : s.scopes.find? name = some (.var id))
    (hop : ∀ scope index, Ensures L.env (asm (op scope index)) s fun _ =>
      Adds L s (instr (.ofField scope) index)) :
    Ensures L.env (varOperand id >>= fun address => asm (op address.1 address.2)) s fun _ s' =>
      s'.shadow = s.shadow ∧ ∃ v, s.asm.vars[id]? = some v ∧ Step L s s' fun o is =>
        ∃ scope index, VarAt (s.site o) name id v scope index ∧ is = [instr scope index] := by
  refine (ensures_varOperand h hfind).bind fun address s₁ ⟨hs, v, hv, hat⟩ => ?_
  subst hs
  exact (hop address.1 address.2).imp fun _ s' ⟨hshadow, hstep⟩ =>
    ⟨hshadow, v, hv, hstep.mono fun o is ho his =>
      ⟨_, _, hat o (ho.mono hstep.grows), his⟩⟩

/-- The value on top goes into a variable. -/
theorem ensures_emitStore {name : String} {id : Nat} (h : InOrder L home s)
    (hfind : s.scopes.find? name = some (.var id)) :
    Ensures L.env (emitStore id) s fun _ s' => s'.shadow = s.shadow ∧
      ∃ v, s.asm.vars[id]? = some v ∧ Step L s s' fun o is =>
        ∃ scope index, VarAt (s.site o) name id v scope index ∧ is = [.storeVar scope index] := by
  unfold emitStore
  exact ensures_variable .storeVar h hfind fun _ _ => ensures_storeVar h.tidy

/-! ## Code that pushes one value -/

/-- An expression was compiled: the entry on top goes with what the look-ahead finds, and the code
is that of the expression. -/
structure Compiled (L : Layout) (home : Home) (s : CompileState) (e : Expr) (i entry : Inferred)
    (s' : CompileState) : Prop where
  shadow : s'.shadow = entry :: s.shadow
  settled : Settled L.env s' (infer e) i
  agrees : i.Agrees entry
  moves : Moves L home s s' fun o is => ∃ p, entry.Shows o p ∧ Code (s.site o) e p is

/-- What was looked ahead at before adds nothing. -/
theorem Compiled.of_ahead {e : Expr} {i entry : Inferred} (h : Compiled L home s' e i entry s'')
    (hs : LooksAhead L home s s') : Compiled L home s e i entry s'' where
  shadow := h.shadow.trans (by rw [hs.shadow])
  settled := h.settled
  agrees := h.agrees
  moves := (hs.then h.moves).mono fun o is _ hcode => by
    rwa [hs.later.site] at hcode

/-- A value was pushed by one instruction. -/
theorem ensures_pushTyped {t : Asm PUnit} {ty : Ty} {e : Expr} {i : Inferred}
    {R : Output → List Instr → Prop} (h : InOrder L home s) (hi : Settled L.env s (infer e) i)
    (hagrees : i.Agrees (.value ty))
    (ht : Ensures L.env (asm t) s fun _ s' => s'.shadow = s.shadow ∧ Step L s s' R)
    (hR : ∀ o is, Completes L s o → R o is → Code (s.site o) e (.value ty) is) :
    Ensures L.env (asm t >>= fun _ => push (.value ty)) s fun _ s' =>
      ∃ entry, Compiled L home s e i entry s' := by
  refine ht.bind fun _ s₁ ⟨hshadow, hstep⟩ => ?_
  have hmoves := (hstep.moves h).push (.value ty) rfl
  refine ⟨.value ty, congrArg _ hshadow, hi.later hmoves.later, hagrees, hmoves.mono fun o is ho hr => ?_⟩
  exact ⟨.value ty, .value ty, hR o is (ho.mono hmoves.later.grows) hr⟩

theorem ensures_emitNative {x : NativeSymbol} {path name : String} {e : Expr} (h : InOrder L home s)
    (hx : L.env.registry.find? path name = some x)
    (hi : ∀ i, Settled L.env s (nativeEntry x) i → Settled L.env s (infer e) i)
    (hat : ∀ o, Completes L s o → HostAt (s.site o) e x) :
    Ensures L.env (emitNative x) s fun _ s' => ∃ i entry, Compiled L home s e i entry s' := by
  have hcode {ty : Ty} {instr : Instr} (hc : x.Code L.env.registry ty instr) (o : Output)
      (is : List Instr) (ho : Completes L s o) (his : is = [instr]) :
      Code (s.site o) e (.value ty) is := by
    subst his
    exact .native (hat o ho) (ho.registry.symm ▸ hc : x.Code o.registry ty instr)
  unfold emitNative
  refine (reads_nativeEntry hx).andThen fun i hset hentry => ?_
  have hi' := hi i hset
  refine Ensures.imp ?_ fun _ _ h => ⟨i, h⟩
  cases hentry with
  | var hv => exact ensures_pushTyped h hi' (.value _) (ensures_loadNativeVar h.tidy) (hcode (.var hv))
  | func hf => exact ensures_pushTyped h hi' (.func _ _) (ensures_pushNative h.tidy) (hcode (.func hf))
  | funcv hf => exact ensures_pushTyped h hi' (.func _ _) (ensures_pushNativev h.tidy) (hcode (.funcv hf))

theorem ensures_emitConstant {c : Constant} {e : Expr} (h : InOrder L home s) (hc : c.Simple)
    (hi : Settled L.env s (infer e) (.const c .pending))
    (hmeans : ∀ o, Completes L s o → Means (s.site o) e c) :
    Ensures L.env (pushConstant c) s fun _ s' =>
      ∃ entry, Compiled L home s e (.const c .pending) entry s' := by
  refine (ensures_pushConstant (L := L) h.tidy hc).imp fun _ s' ⟨entry, hshadow, hagrees, hstep⟩ => ?_
  refine ⟨entry, hshadow, hi.later hstep.later, hagrees, (hstep.moves h).mono fun o is ho hr => ?_⟩
  obtain ⟨i, v, his, hpush, hc, hshows⟩ := hr
  subst his
  exact ⟨_, hshows, .const (hmeans o (ho.mono hstep.grows)) hc hpush⟩

theorem ensures_emitClosure {id : Nat} {f : FuncInfo} {sig : Signature} {e : Expr} {i : Inferred}
    (h : InOrder L home s) (hf : s.asm.funcs[id]? = some f)
    (hi : Settled L.env s (infer e) i) (hagrees : i.Agrees (.value (.func sig)))
    (hcode : ∀ o, Completes L s o → ∀ variadic place, o.program.At id variadic place →
      Code (s.site o) e (.value (.func sig)) [.hostClosure variadic place]) :
    Ensures L.env (emitClosure id sig) s fun _ s' => ∃ entry, Compiled L home s e i entry s' := by
  unfold emitClosure
  refine ensures_pushTyped h hi hagrees
    (ensures_hostClosure h.tidy (Extends.lt_of_getElem? hf)) fun o is ho hr => ?_
  obtain ⟨variadic, place, hat, his⟩ := hr
  subst his
  exact hcode o ho variadic place hat

/-! ## Identifiers -/

theorem settled_ident {name : String} {n : Named} {i : Inferred}
    (hn : Settled L.env s (resolveName name) n) (hi : Settled L.env s (namedEntry n) i) :
    Settled L.env s (infer (.ident name)) i := by
  unfold infer
  exact hn.bind hi

theorem ensures_emitIdent {name : String} (h : InOrder L home s) :
    Ensures L.env (emit (.ident name)) s fun _ s' =>
      ∃ i entry, Compiled L home s (.ident name) i entry s' := by
  unfold emit
  refine (reads_resolveName h).andThen fun n hset hn => ?_
  cases n with
  | var id ty =>
    obtain ⟨hfind, v, hv, hty⟩ := hn
    refine (ensures_varOperand h hfind).bind fun address s₂ ⟨hs, v', hv', hat⟩ => ?_
    subst hs
    cases hv.symm.trans hv'
    subst hty
    refine (ensures_pushTyped h (settled_ident hset (.pure _)) (.value _)
      (ensures_loadVar h.tidy) fun o is ho his => ?_).imp fun _ _ h => ⟨_, h⟩
    subst his
    exact .var (hat o ho)
  | param below ty =>
    obtain ⟨func, index, hfind, hfunc, hbelow⟩ := hn
    refine (ensures_pushTyped h (settled_ident hset (.pure _)) (.value _)
      (ensures_loadArg h.tidy) fun o is ho his => ?_).imp fun _ _ h => ⟨_, h⟩
    subst his
    exact .param (paramAt_of_completes h ho hfind hfunc hbelow)
  | package path shown =>
    obtain ⟨rfl, hfind⟩ := hn
    have hmoves := (Moves.refl h).push (.package path shown) rfl
    refine ⟨_, .package path shown, rfl, (settled_ident hset (.pure _)).later hmoves.later,
      .package _ _, hmoves.mono fun o is ho his => ?_⟩
    subst his
    exact ⟨_, .package _ _, .package hfind⟩
  | func id sig =>
    obtain ⟨hfind, f, hf, hsig⟩ := hn
    refine (ensures_emitClosure h hf (settled_ident hset (.pure _)) (.func _ _)
      fun o ho variadic place hat => ?_).imp fun _ _ h => ⟨_, h⟩
    exact .func (funcAt_of_completes h ho hfind hf hsig) hat
  | native x =>
    obtain ⟨hfind, htrue, hfalse, hx⟩ := hn
    refine ensures_emitNative h hx (fun i hi => settled_ident hset hi) fun o ho => ?_
    exact .universe hfind htrue hfalse (ho.registry.symm ▸ hx : o.registry.find? _ _ = _)
  | truth b =>
    obtain ⟨hfind, rfl⟩ := hn
    exact (ensures_emitConstant h (Constant.simple_truth b)
      (settled_ident hset (.pure _)) fun o ho => .truth hfind).imp
      fun _ _ h => ⟨_, h⟩

end Compile

end StackScript
