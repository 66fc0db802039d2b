import StackScript.Proofs.Direct.Statements
import StackScript.Proofs.Typing.Compiled

/-!
# Compiled statements are typed

The code of a statement takes the stack to what it was before (`StmtCode.flows`), or returns values of
the types that the function declares. So the words of every function, and those of the main body, are
typed from an empty stack on (`FileCode.flows`).
-/

namespace StackScript

section

variable {g : Setting} {D : TypeNames} {S : Site} {b : Body}

/-! ## Targets -/

/-- A pointer to the target of an update. -/
theorem Addressed.flows (hg : g.Consistent D) (hS : S.Typed g D) {x : Expr} {t : Ty}
    {is : List Instr} (h : Addressed S x t is) (hfree : g.lax ∨ x.PointerFree)
    (hlen : is.length < Word.spreadCall) : t.Proper D ∧ ∃ u : Ty, u.underlying = .ptr t ∧
      ∀ τ, Flow g S.body τ is (.value u :: τ) := by
  cases h with
  | @var name id index v scope h =>
    exact ⟨hS.var h, .ptr v.ty, rfl, fun τ => .single (.addrVar (h.slotAt hS.out))⟩
  | through hx hptr =>
    have hlax := hfree.resolve_right fun h => h
    obtain ⟨hproper, hx⟩ := hx.flows hg hS (.inl hlax) hlen
    exact ⟨hproper.elem? hptr.elem, _, hptr.underlying, hx⟩

/-- What is left on the stack, the values of the first one topmost. -/
def Pushed.slotsOf (ps : List Pushed) : List Slot := ps.flatMap Pushed.slots

/-- The type of a single value that stays on the stack. -/
theorem Pushed.exists_slot {p : Pushed} (h : p.isSingle = true) :
    ∃ t : Ty, p.slots = Slot.values [t] := by
  cases p with
  | const c v => exact ⟨_, rfl⟩
  | value t => exact ⟨t, rfl⟩
  | results | package => cases h

theorem Pushed.slots_of_declared {p : Pushed} {t : Ty} (h : p.declared? = some t) :
    p.slots = [.value t] := by
  cases p with
  | const | value =>
    cases h
    rfl
  | results | package => cases h

theorem Pushed.slotsOf_values (ts : List Ty) : slotsOf (ts.map .value) = ts.map .value := by
  induction ts with
  | nil => rfl
  | cons t ts ih => exact congrArg (Slot.value t :: ·) ih

/-- The value on top goes to its target. -/
theorem Given.flows (hg : g.Consistent D) (hS : S.Typed g D) {defines : Bool} {x : Expr}
    {p : Pushed} {is : List Instr} {S' : Site} (h : Given S defines x p is S') (hp : p.Proper D)
    (hfree : g.lax ∨ x.PointerFree) (hlen : is.length < Word.spreadCall) (τ : List Slot) :
    Flow g S.body (p.slots ++ τ) is τ := by
  cases h with
  | blank hsingle hdefault =>
    obtain ⟨t, ht⟩ := Pushed.exists_slot hsingle
    rw [ht]
    exact .single (Effect.pop : Effect g S.body (Slot.values [t] ++ τ) (.pop [t].length) τ)
  | var _ h hfit =>
    exact (hfit.flows hp (hS.var h) τ).append (.single (.storeVar (h.slotAt hS.out)))
  | param _ h hfit =>
    exact (hfit.flows hp (hg.param hS.out h) τ).append (.single (.storeArg (h.slotAt hS.out)))
  | through hx hptr hfit =>
    have hlax := hfree.resolve_right fun h => h
    rw [List.length_append] at hlen
    obtain ⟨hproper, hx⟩ := hx.flows hg hS (.inl hlax) (by omega)
    exact (hfit.flows hp (hproper.elem? hptr.elem) τ).append
      ((hx _).append (.single (.storeAt hlax hptr.underlying)))
  | define _ _ h hty =>
    rw [Pushed.slots_of_declared hty]
    exact .single (.storeVar (VarAt.slotAt (S := S.declare _) hS.out h))

/-! ## Declarations -/

/-- The site behind sees variables of proper types, and so are those that are declared in between. -/
structure Site.Types (g : Setting) (D : TypeNames) (S S' : Site) : Prop where
  typed : S'.Typed g D
  vars : ∀ (id : Nat) (d : Var), S.next ≤ id → id < S'.next → g.out.program.vars[id]? = some d →
    d.ty.Proper D

theorem Site.Types.refl (hS : S.Typed g D) : Site.Types g D S S :=
  ⟨hS, fun _ _ h h' => absurd h' (Nat.not_lt.2 h)⟩

theorem Site.Types.trans {S' S'' : Site} (h : Site.Types g D S S') (h' : Site.Types g D S' S'') :
    Site.Types g D S S'' where
  typed := h'.typed
  vars id d hid hlt hd := by
    rcases Nat.lt_or_ge id S'.next with hid' | hid'
    · exact h.vars id d hid hid' hd
    · exact h'.vars id d hid' hlt hd

theorem Pushed.proper_of_declared {p : Pushed} {t : Ty} (h : p.declared? = some t) (hp : p.Proper D) :
    t.Proper D := by
  cases p with
  | const c v =>
    cases h
    exact hp.1
  | value t =>
    cases h
    exact hp
  | results | package => cases h

/-- A variable gets the type of the value that defines it. -/
theorem Given.types (hS : S.Typed g D) {defines : Bool} {x : Expr} {p : Pushed} {is : List Instr}
    {S' : Site} (h : Given S defines x p is S') (hp : p.Proper D) : Site.Types g D S S' := by
  cases h with
  | @define name index v _ _ _ _ hvar hty =>
    have hproper := Pushed.proper_of_declared hty hp
    have hv : S.out.program.vars[S.next]? = some v := hvar.var
    rw [hS.out] at hv
    refine ⟨⟨hS.out, fun name' id d hfind hd => ?_⟩, fun id d hid hlt hd => ?_⟩
    · have hfind : (S.scopes.declare name (.var S.next)).find? name' = some (.var id) := hfind
      rw [Scopes.find?_declare] at hfind
      split at hfind
      · cases hfind
        cases hv.symm.trans hd
        exact hproper
      · exact hS.vars name' id d hfind hd
    · obtain rfl : id = S.next := Nat.le_antisymm (Nat.le_of_lt_succ hlt) hid
      cases hv.symm.trans hd
      exact hproper
  | _ => exact .refl hS

theorem GivenAll.types (hS : S.Typed g D) {defines : Bool} {xs : List Expr} {ps : List Pushed}
    {is : List Instr} {S' : Site} (h : GivenAll S defines xs ps is S') (hps : ∀ p ∈ ps, p.Proper D) :
    Site.Types g D S S' := by
  induction h with
  | nil => exact .refl hS
  | cons h _ ih =>
    obtain ⟨hp, hps⟩ := List.forall_mem_cons.1 hps
    have hfirst := h.types hS hp
    exact hfirst.trans (ih hfirst.typed hps)

theorem GivenAll.flows (hg : g.Consistent D) (hS : S.Typed g D) {defines : Bool} {xs : List Expr}
    {ps : List Pushed} {is : List Instr} {S' : Site} (h : GivenAll S defines xs ps is S')
    (hps : ∀ p ∈ ps, p.Proper D) (hfree : ∀ x ∈ xs, g.lax ∨ x.PointerFree)
    (hlen : is.length < Word.spreadCall) (τ : List Slot) :
    Flow g S.body (Pushed.slotsOf ps ++ τ) is τ := by
  induction h with
  | nil => exact .nil
  | cons h hs ih =>
    rw [List.length_append] at hlen
    obtain ⟨hp, hps⟩ := List.forall_mem_cons.1 hps
    obtain ⟨hx, hxs⟩ := List.forall_mem_cons.1 hfree
    have hrest := ih (h.types hS hp).typed hps hxs (by omega)
    rw [h.leads.body] at hrest
    rw [Pushed.slotsOf, List.flatMap_cons, List.append_assoc]
    exact (h.flows hg hS hp hx (by omega) _).append hrest

/-! ## Values -/

theorem Singles.flows (hg : g.Consistent D) (hS : S.Typed g D) {es : List Expr} {ps : List Pushed}
    {is : List Instr} (h : Singles S es ps is) (hfree : g.lax ∨ exprsPointerFree es)
    (hlen : is.length < Word.spreadCall) : (∀ p ∈ ps, p.Proper D) ∧
      ∀ τ, Flow g S.body τ is (Pushed.slotsOf ps ++ τ) := by
  induction h with
  | nil => exact ⟨fun _ hp => absurd hp List.not_mem_nil, fun τ => .nil⟩
  | cons h hp hs ih =>
    rw [List.length_append] at hlen
    obtain ⟨hproper, he⟩ := h.flows hg hS (hfree.imp_right (·.1)) (by omega)
    obtain ⟨hps, hes⟩ := ih (hfree.imp_right (·.2)) (by omega)
    refine ⟨fun q hq => ?_, fun τ => ?_⟩
    · obtain hq | hq := List.mem_append.1 hq
      · exact hps q hq
      · rwa [List.mem_singleton.1 hq]
    · rw [Pushed.slotsOf, List.flatMap_append, List.flatMap_singleton, List.append_assoc]
      exact (he τ).append (hes _)

theorem Values.flows (hg : g.Consistent D) (hS : S.Typed g D) {n : Nat} {es : List Expr}
    {ps : List Pushed} {is : List Instr} (h : Values S n es ps is)
    (hfree : g.lax ∨ exprsPointerFree es) (hlen : is.length < Word.spreadCall) :
    (∀ p ∈ ps, p.Proper D) ∧ ∀ τ, Flow g S.body τ is (Pushed.slotsOf ps ++ τ) := by
  cases h with
  | @sole e types _ h hn =>
    obtain ⟨⟨-, htypes⟩, hflow⟩ := h.flows hg hS (hfree.imp_right (·.1)) hlen
    refine ⟨fun p hp => ?_, by rwa [Pushed.slotsOf_values]⟩
    obtain ⟨t, ht, rfl⟩ := List.mem_map.1 hp
    exact htypes t (List.mem_reverse.1 ht)
  | each hn h => exact h.flows hg hS hfree hlen

/-! ## Updates -/

/-- The result of an operator with an update form has the type of its first operand. -/
theorem into_resultKind {op : Operator} {k : Kind} {t : Ty} (hop : op.hasUpdateForm = true)
    (ht : t.kind = k) (hk : k.isBasic = true) : (Ty.basic (op.resultKind k)).Into t := by
  subst ht
  right
  rw [op.resultKind_of_update hop, Ty.underlying_of_isBasic hk]
  rfl

/-- The second operand of an update, and what the operator works at. -/
theorem flow_updateOperand {op : Operator} {p : Pushed} {t : Ty} {k : OperandKind} {r : Resolution}
    {is₁ is₂ : List Instr} (hv : p.Proper D ∧ ∀ τ, Flow g b τ is₁ (p.slots ++ τ))
    (hk : p.operandKind? = some k) (hr : op.resolve (.bound t.kind) k = .ok r)
    (hfirst : r.first = t.kind) (hsecond : p.CoercedSecond r.second is₂) :
    r.operand = t.kind ∧ t.kind.isBasic = true ∧ ∃ u : Ty, op.Applies t.kind t u ∧
      ∀ τ, Flow g b τ (is₁ ++ is₂) (.value u :: τ) := by
  obtain ⟨hoperand, hbasic, -⟩ := Operator.operand_of_resolve hr
  have hoperand := hoperand.trans hfirst
  obtain ⟨u, hu, hcount, hflow⟩ := Pushed.CoercedSecond.flows (g := g) (b := b) hsecond hv.1
    (fun k => Operator.isBasic_second_of_resolve hr)
    (fun l k' hl hk' => by
      rw [hk] at hl
      cases hl
      exact Operator.widens_second_of_resolve hr hk')
    fun hnone => by
      obtain ⟨i, rfl⟩ := Operator.isInteger_of_resolve hr hnone
      exact ⟨i, hk⟩
  have happlies := Operator.applies_of_resolve hr hfirst.symm hu hcount
  rw [hoperand] at happlies hbasic
  exact ⟨hoperand, hbasic, u, happlies, fun τ => (hv.2 τ).append (hflow τ)⟩

theorem Updated.flows (hg : g.Consistent D) (hS : S.Typed g D) {op : Operator} {x value : Expr}
    {is : List Instr} (h : Updated S op x value is) (hop : op.hasUpdateForm = true)
    (hx : g.lax ∨ x.PointerFree) (hvalue : g.lax ∨ value.PointerFree)
    (hlen : is.length < Word.spreadCall) (τ : List Slot) : Flow g S.body τ is τ := by
  cases h with
  | addr hv hxs hk hr hfirst hsecond =>
    simp only [List.length_append] at hlen
    obtain ⟨-, hbasic, u, happlies, hflow⟩ := flow_updateOperand
      (hv.flows hg hS hvalue (by omega)) hk hr hfirst hsecond
    obtain ⟨-, w, hw, haddr⟩ := hxs.flows hg hS hx (by omega)
    rw [Kind.nameable_of_isBasic hbasic, AddressOperator.nameable, if_pos hop]
    exact ((hflow τ).append (haddr _)).append (.single (.updateAt hw hop happlies))
  | param hxs hv hk hr hfirst hsecond =>
    simp only [List.length_append] at hlen
    obtain ⟨hoperand, hbasic, u, happlies, hflow⟩ := flow_updateOperand
      (hv.flows hg hS hvalue (by omega)) hk hr hfirst hsecond
    have hslot := hxs.slotAt hS.out
    rw [hoperand, Kind.nameable_of_isBasic hbasic, List.append_assoc [_]]
    exact (Flow.single (.loadArg hslot)).append ((hflow _).append (.cons (.builtinOp happlies)
      (.append (.into (into_resultKind hop rfl hbasic)) (.single (.storeArg hslot)))))

/-- A number goes with a step up or down. -/
theorem applies_step {up : Bool} {t u : Ty} (hnum : t.kind.isNumeric = true) (hu : u.kind = t.kind) :
    (stepOperator up).Applies t.kind t u where
  defined := by
    cases up with
    | false => exact hnum
    | true => exact Bool.or_eq_true_iff.2 (.inl hnum)
  first := rfl
  second := by cases up <;> exact hu

theorem Stepped.flows (hg : g.Consistent D) (hS : S.Typed g D) {up : Bool} {x : Expr}
    {is : List Instr} (h : Stepped S up x is) (hfree : g.lax ∨ x.PointerFree)
    (hlen : is.length < Word.spreadCall) (τ : List Slot) : Flow g S.body τ is τ := by
  cases h with
  | addr hxs hnum =>
    rw [List.length_append] at hlen
    obtain ⟨-, w, hw, haddr⟩ := hxs.flows hg hS hfree (by omega)
    rw [Kind.nameable_of_isBasic (Kind.isBasic_of_isNumeric hnum)]
    have hnameable : (stepAddress up).nameable = some (stepAddress up) := by cases up <;> rfl
    rw [hnameable]
    exact (haddr τ).append (.single (.stepAt hw hnum))
  | @param name below t one v i hxs hnum hone hpush hv =>
    have hbasic := Kind.isBasic_of_isNumeric hnum
    have hkind : v.kind = t.kind := hv.1.trans (Value.kind_of_convert hone)
    have hslot := hxs.slotAt hS.out
    have hpush : i.pushed? S.out.program.consts = some v := hpush
    rw [hS.out] at hpush
    rw [Kind.nameable_of_isBasic hbasic]
    have hform : (stepOperator up).hasUpdateForm = true := by cases up <;> rfl
    exact .cons (.loadArg hslot) (.cons (.push hpush (hkind ▸ hbasic)) (.cons
      (.builtinOp (applies_step hnum hkind))
      (.append (.into (into_resultKind hform rfl hbasic)) (.single (.storeArg hslot)))))

/-! ## Returns -/

/-- The results that a body returns have proper types and are few. -/
structure Body.Proper (b : Body) (D : TypeNames) : Prop where
  few : b.results.length < mostTypes
  results : ∀ t ∈ b.results, t.Proper D

theorem flow_ofReturn (hb : b.Proper D) (hfunc : b.func.isSome) (τ τ' : List Slot) :
    Flow g b (Slot.values b.results ++ τ) [.ofReturn (Assembly.narrow b.results.length)] τ' := by
  have hlimit : mostTypes < 1 <<< 32 ∧ mostTypes < Word.returnVars := by decide
  have hfew := hb.few
  rw [narrow_of_lt (by omega), Instr.ofReturn, if_neg (by omega)]
  exact .single (.ret hfunc)

/-- Nothing is said of what lies on the stack behind a return. -/
theorem Returned.flows (hg : g.Consistent D) (hS : S.Typed g D) (hb : S.body.Proper D)
    (hfunc : S.body.func.isSome) {values : List Expr} {is : List Instr} (h : Returned S values is)
    (hfree : g.lax ∨ exprsPointerFree values) (hlen : is.length < Word.spreadCall)
    (τ τ' : List Slot) : Flow g S.body τ is τ' := by
  cases h with
  | bare => exact .single (.retVars hfunc)
  | sole h hfit =>
    rw [List.length_append] at hlen
    obtain ⟨⟨-, htypes⟩, hflow⟩ := h.flows hg hS (hfree.imp_right (·.1)) (by omega)
    rw [Pushed.slots_results] at hflow
    have hinto := List.rel_append (hfit.into htypes hb.results) (Flow.into_refl τ)
    exact (hflow τ).append (.widen hinto (flow_ofReturn hb hfunc τ τ'))
  | each h =>
    rw [List.length_append] at hlen
    obtain ⟨-, hflow⟩ := h.flows hg hS hb.results hfree (by omega)
    exact (hflow τ).append (flow_ofReturn hb hfunc τ τ')

theorem Dropped.flows (hg : g.Consistent D) (hS : S.Typed g D) {e : Expr} {is : List Instr}
    (h : Dropped S e is) (hfree : g.lax ∨ e.PointerFree) (hlen : is.length < Word.spreadCall)
    (τ : List Slot) : Flow g S.body τ is τ := by
  have hlimit : mostTypes < 1 <<< 32 := by decide
  cases h with
  | @results types is h =>
    rw [List.length_append] at hlen
    obtain ⟨⟨hfew, -⟩, hflow⟩ := h.flows hg hS hfree (by omega)
    refine (hflow τ).append ?_
    rw [Pushed.slots_results, Instr.popping]
    split
    · rw [narrow_of_lt (by omega)]
      exact .single .pop
    · obtain rfl : types = [] := List.length_eq_zero_iff.1 (by omega)
      exact .nil
  | single h hp hdefault =>
    rw [List.length_append] at hlen
    obtain ⟨-, hflow⟩ := h.flows hg hS hfree (by omega)
    obtain ⟨t, ht⟩ := Pushed.exists_slot hp
    rw [ht] at hflow
    exact (hflow τ).append (.single (Effect.pop : Effect g S.body (Slot.values [t] ++ τ) (.pop [t].length) τ))

/-! ## Statements -/

mutual

/-- What a statement declares has proper types. -/
theorem StmtCode.types (hg : g.Consistent D) {S S' : Site} (hS : S.Typed g D) {st : Stmt}
    {is : List Instr} : StmtCode S st is S' → g.lax ∨ st.PointerFree →
      is.length < Word.spreadCall → Site.Types g D S S'
  | .expr _, _, _ | .update _ _, _, _ | .ret _ _, _, _ | .increment _, _, _ | .decrement _, _, _ =>
    .refl hS
  | .assign _ hvalues htargets, hfree, hlen => by
    rw [List.length_append] at hlen
    exact htargets.types hS (hvalues.flows hg hS (hfree.imp_right (·.2)) (by omega)).1
  | .block h, hfree, hlen =>
    ⟨⟨hS.out, hS.vars⟩, (h.types hg (S := S.enter) ⟨hS.out, hS.vars⟩ hfree hlen).vars⟩

theorem StmtsCode.types (hg : g.Consistent D) {S S' : Site} (hS : S.Typed g D) {ss : List Stmt}
    {is : List Instr} : StmtsCode S ss is S' → g.lax ∨ stmtsPointerFree ss →
      is.length < Word.spreadCall → Site.Types g D S S'
  | .nil, _, _ => .refl hS
  | .cons h hs, hfree, hlen => by
    rw [List.length_append] at hlen
    have hfirst := h.types hg hS (hfree.imp_right (·.1)) (by omega)
    exact hfirst.trans (hs.types hg hfirst.typed (hfree.imp_right (·.2)) (by omega))

end

mutual

/-- The code of a statement leaves what it finds. -/
theorem StmtCode.flows (hg : g.Consistent D) {S S' : Site} (hS : S.Typed g D)
    (hb : S.body.Proper D) {st : Stmt} {is : List Instr} : StmtCode S st is S' →
      g.lax ∨ st.PointerFree → is.length < Word.spreadCall → ∀ τ, Flow g S.body τ is τ
  | .expr h, hfree, hlen => h.flows hg hS hfree hlen
  | .assign _ hvalues htargets, hfree, hlen => by
    rw [List.length_append] at hlen
    obtain ⟨hps, hflow⟩ := hvalues.flows hg hS (hfree.imp_right (·.2)) (by omega)
    have htargets := htargets.flows hg hS hps (fun x hx => hfree.imp_right fun h =>
      exprsPointerFree_iff.1 h.1 x (List.mem_reverse.1 hx)) (by omega)
    exact fun τ => (hflow τ).append (htargets τ)
  | .update hform h, hfree, hlen => fun τ =>
    h.flows hg hS hform (hfree.imp_right (·.1.1)) (hfree.imp_right (·.2.1)) hlen τ
  | .ret hfunc h, hfree, hlen => fun τ => h.flows hg hS hb hfunc hfree hlen τ τ
  | .block h, hfree, hlen => h.flows hg (S := S.enter) ⟨hS.out, hS.vars⟩ hb hfree hlen
  | .increment h, hfree, hlen | .decrement h, hfree, hlen => h.flows hg hS hfree hlen

theorem StmtsCode.flows (hg : g.Consistent D) {S S' : Site} (hS : S.Typed g D)
    (hb : S.body.Proper D) {ss : List Stmt} {is : List Instr} : StmtsCode S ss is S' →
      g.lax ∨ stmtsPointerFree ss → is.length < Word.spreadCall → ∀ τ, Flow g S.body τ is τ
  | .nil, _, _ => fun τ => .nil
  | .cons h hs, hfree, hlen => by
    rw [List.length_append] at hlen
    have hfirst := (h.types hg hS (hfree.imp_right (·.1)) (by omega)).typed
    have hrest := hs.flows hg hfirst (h.leads.body ▸ hb) (hfree.imp_right (·.2)) (by omega)
    rw [h.leads.body] at hrest
    exact fun τ => (h.flows hg hS hb (hfree.imp_right (·.1)) (by omega) τ).append (hrest τ)

end

end

end StackScript
