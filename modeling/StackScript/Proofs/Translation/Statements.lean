import StackScript.Proofs.Translation.Assigning

/-!
# The code of statements

`emitsStmts`: the code that the compiler emits for statements is a code of them by the rules of the
translation, and the shadow stack is empty again behind each of them.
-/

namespace StackScript

open CompileState

variable {L : Layout} {home : Home} {s s' s'' : CompileState} {R R' : Output → List Instr → Prop}

namespace Compile

/-! ## Targets of updates -/

/-- What an update writes to, by what is known of the state. -/
inductive TargetOf (L : Layout) (s : CompileState) : Expr → Target → Prop
  | var {name : String} {id : Nat} {v : Var} (hfind : s.scopes.find? name = some (.var id))
    (hv : s.asm.vars[id]? = some v) : TargetOf L s (.ident name) (.addr v.ty)
  | param {name : String} {func index below : Nat} {ty : Ty}
    (hfind : s.scopes.find? name = some (.param func index ty)) (hfunc : s.body.func = some func)
    (hbelow : below = s.body.numParams - index) : TargetOf L s (.ident name) (.param below ty)
  | through {x : Expr} {t elem : Ty} (hx : Settled L.env s (infer x) (.value t))
    (hptr : PointsTo t elem) : TargetOf L s (.deref x) (.addr elem)

theorem TargetOf.later {x : Expr} {t : Target} (h : TargetOf L s x t) (hs : Later s s') :
    TargetOf L s' x t := by
  cases h with
  | var hfind hv => exact .var (hs.scopes ▸ hfind) (hs.grows.vars _ _ hv)
  | param hfind hfunc hbelow =>
    exact .param (hs.scopes ▸ hfind) (hs.body ▸ hfunc) (hs.body ▸ hbelow)
  | through hx hptr => exact .through (hx.later hs) hptr

theorem ensures_target {x : Expr} (h : InOrder L home s) (hplaced : x.Placed L home) :
    Ensures L.env (target x) s fun t s' => LooksAhead L home s s' ∧ TargetOf L s' x t := by
  cases x with
  | ident name =>
    refine (reads_assignable h.declared.names).andThen fun r _ hr => ?_
    rcases r with id | ⟨below, ty⟩
    · refine Ensures.bind (reads_var (h.declared.scopes.known hr).var_lt) fun v s₁ ⟨hs, _, hv⟩ => ?_
      subst hs
      exact ⟨.refl h, .var hr hv⟩
    · obtain ⟨func, index, hfind, hfunc, hbelow⟩ := hr
      exact ⟨.refl h, .param hfind hfunc hbelow⟩
  | deref p =>
    refine (ensures_infer p h hplaced).bind fun i s hi => ?_
    refine reads_pointee.andThen fun elem _ ⟨t, ht, hptr⟩ => ?_
    subst ht
    exact ⟨hi.ahead, .through hi.settled hptr⟩
  | _ => trivial

/-- The address of a target was pushed, and an operator applied to it. -/
def AppliesAt (L : Layout) (home : Home) (s : CompileState) (x : Expr) (ty : Ty) (k : Kind)
    (op : AddressOperator) (s' : CompileState) : Prop :=
  s'.shadow = s.shadow ∧ Moves L home s s' fun o is => ∃ js, Addressed (s.site o) x ty js ∧
    is = js ++ [.addrOp k.nameable op.nameable]

theorem ensures_popAddress {x e : Expr} {i entry : Inferred} {ty : Ty} {k : Kind}
    {op : AddressOperator} (hc : Compiled L home s e i entry s') (hslot : entry.slot? = none)
    (hcode : ∀ o p is, Completes L s' o → entry.Shows o p → Code (s.site o) e p is →
      Addressed (s.site o) x ty is) :
    Ensures L.env (do discard pop; asm (Assembly.addrOp k op)) s' fun _ =>
      AppliesAt L home s x ty k op := by
  refine ensures_bind.2 (ensures_discard.2 (ensures_pop hc.shadow ?_))
  have hpop := hc.moves.drop hc.shadow hslot
  refine (ensures_addrOp (L := L) hpop.order.tidy).imp fun _ s'' ⟨hshadow, hstep⟩ => ?_
  have hgrows : Grows s' s'' := 
    (step_drop (L := L) hc.moves.order.tidy hc.shadow hslot).grows.trans hstep.grows
  refine ⟨hshadow, (hpop.seq (hstep.moves hpop.order)).mono ?_⟩
  rintro o _ ho ⟨is, _, rfl, ⟨p, hp, he⟩, rfl⟩
  exact ⟨is, hcode o p is (ho.mono hgrows) hp he, rfl⟩

theorem ensures_emitAtAddress {x : Expr} {ty : Ty} {k : Kind} {op : AddressOperator}
    (h : InOrder L home s) (hplaced : x.Placed L home) (hx : TargetOf L s x (.addr ty)) :
    Ensures L.env (emitAtAddress x k op) s fun _ => AppliesAt L home s x ty k op := by
  cases hx with
  | @var name id v hfind hv =>
    refine (ensures_emitAddress h).bind fun _ s₁ ⟨t, entry, hc⟩ => ?_
    have hslot : entry.slot? = none := by
      cases hc.agrees
      rfl
    refine ensures_popAddress hc hslot fun o p is ho _ hcode => ?_
    cases hcode with
    | @addrOf _ id' index v' scope hat =>
      have hid : id' = id := by
        have heq := hat.find.symm.trans hfind
        cases heq
        rfl
      subst hid
      have hv' := (ho.mono hc.moves.later.grows).vars _ _ hv
      cases hat.var.symm.trans hv'
      exact .var hat
    | native hhost => cases hhost
    | const hmeans => cases hmeans
  | @through p t elem hset hptr =>
    refine (emits p hplaced s h).bind fun _ s₁ ⟨i, entry, hc⟩ => ?_
    obtain rfl := hc.settled.unique (hset.later hc.moves.later)
    cases hc.agrees
    refine ensures_popAddress hc rfl fun o q is ho hq hcode => ?_
    cases hq
    exact .through hcode hptr

/-! ## Updates -/

/-- The second operand of an update was pushed, and the shadow stack does not show it any more. -/
theorem ensures_emitOperand {value : Expr} {i : Inferred} {k : OperandKind} {r : Resolution}
    {β : Type} {cont : Compile β} {Q : β → CompileState → Prop} (h : InOrder L home s)
    (hplaced : value.Placed L home) (hi : Settled L.env s (infer value) i)
    (hk : i.operandKind? = some k)
    (hQ : ∀ s', s'.shadow = s.shadow → Moves L home s s' (fun o is => ∃ p is₁ is₂, is = is₁ ++ is₂ ∧
      Code (s.site o) value p is₁ ∧ p.operandKind? = some k ∧ p.CoercedSecond r.second is₂) →
        Ensures L.env cont s' Q) :
    Ensures L.env (do emit value; coerceSecond r; discard pop; cont) s Q := by
  refine (emits value hplaced s h).bind fun _ s₁ ⟨j, e, hc⟩ => ?_
  obtain rfl := hc.settled.unique (hi.later hc.moves.later)
  refine (ensures_coerceSecond (L := L) hc.moves.order.tidy hc.shadow
    (hc.agrees.operandKind?.trans hk)).bind fun _ s₂ ⟨e', hr⟩ => ?_
  refine ensures_bind.2 (ensures_discard.2 (ensures_pop hr.shadow ?_))
  have hmoves := hc.moves.seq (hr.step.moves hc.moves.order)
  refine hQ _ rfl ((hmoves.drop hr.shadow hr.slot).mono ?_)
  rintro o _ ho ⟨is₁, is₂, rfl, ⟨p, hp, hcode⟩, hsecond⟩
  exact ⟨p, is₁, is₂, rfl, hcode, hp.operandKind?.trans (hc.agrees.operandKind?.trans hk), hsecond p hp⟩

theorem ensures_emitUpdate {op : Operator} {x value : Expr} (h : InOrder L home s)
    (hx : x.Placed L home) (hv : value.Placed L home) :
    Ensures L.env (emitUpdate op x value) s fun _ s' => s'.shadow = s.shadow ∧
      Moves L home s s' fun o is => op.hasUpdateForm = true ∧ Updated (s.site o) op x value is := by
  unfold emitUpdate
  split
  · trivial
  · rename_i hform
    have hform : op.hasUpdateForm = true := by simpa using hform
    refine (ensures_target h hx).bind fun t s₁ ⟨hahead, ht⟩ => ?_
    refine (ensures_infer value hahead.order hv).bind fun i s₂ hi => ?_
    refine reads_operandKind.andThen fun k _ hk => ?_
    refine ensures_bind.2 (ensures_ofOperands fun r hr => ?_)
    have ht₂ := ht.later hi.ahead.later
    have hahead₂ := hahead.trans hi.ahead
    dsimp only
    split
    · trivial
    · rename_i hfirst
      have hfirst : r.first = t.ty.kind := by simpa using hfirst
      cases t with
      | addr ty =>
        refine ensures_emitOperand hi.ahead.order hv hi.settled hk fun s₃ hshadow hvalue => ?_
        refine (ensures_emitAtAddress hvalue.order hx (ht₂.later hvalue.later)).imp
          fun _ s₄ ⟨hshadow', hat⟩ => ?_
        refine ⟨hshadow'.trans (hshadow.trans hahead₂.shadow),
          (hahead₂.then (hvalue.seq hat)).mono ?_⟩
        rintro o _ ho ⟨_, _, rfl, ⟨p, is₁, is₂, rfl, hcode, hpk, hsecond⟩, js, haddr, rfl⟩
        rw [hahead₂.later.site] at hcode
        rw [hvalue.later.site, hahead₂.later.site] at haddr
        rw [← List.append_assoc]
        exact ⟨hform, .addr hcode haddr hpk hr hfirst hsecond⟩
      | param below ty =>
        cases ht₂ with
        | @param name func index _ _ hfind hfunc hbelow =>
          refine (ensures_loadArg (L := L) hi.ahead.order.tidy).bind fun _ s₃ ⟨hshadow, hload⟩ => ?_
          have mload := hload.moves hi.ahead.order
          refine ensures_emitOperand mload.order hv (hi.settled.later mload.later) hk
            fun s₄ hshadow' hvalue => ?_
          refine (ensures_builtinOp (L := L) hvalue.order.tidy).bind fun _ s₅ ⟨hshadow₆, hop⟩ => ?_
          have mop := hop.moves hvalue.order
          refine (ensures_storeArg (L := L) mop.order.tidy).imp fun _ s₆ ⟨hshadow₇, hstore⟩ => ?_
          have hmoves := hahead₂.then ((mload.seq hvalue).seq (mop.seq (hstore.moves mop.order)))
          refine ⟨hshadow₇.trans (hshadow₆.trans (hshadow'.trans (hshadow.trans hahead₂.shadow))),
            hmoves.mono ?_⟩
          rintro o _ ho ⟨_, _, rfl, ⟨_, _, rfl, rfl, p, is₁, is₂, rfl, hcode, hpk, hsecond⟩,
            _, _, rfl, rfl, rfl⟩
          rw [mload.later.site, hahead₂.later.site] at hcode
          have hparam := paramAt_of_completes hi.ahead.order
            (ho.mono ((mload.later.trans hvalue.later).trans
              (mop.later.trans hstore.later)).grows) hfind hfunc hbelow
          rw [hahead₂.later.site] at hparam
          have hupdated := Updated.param hparam hcode hpk hr hfirst hsecond
          exact ⟨hform, by simpa using hupdated⟩

/-! ## Steps up and down -/

theorem ensures_emitStep {up : Bool} {x : Expr} (h : InOrder L home s) (hx : x.Placed L home) :
    Ensures L.env (emitStep up x) s fun _ s' => s'.shadow = s.shadow ∧
      Moves L home s s' fun o is => Stepped (s.site o) up x is := by
  unfold emitStep
  refine (ensures_target h hx).bind fun t s₁ ⟨hahead, ht⟩ => ?_
  dsimp only
  split
  · trivial
  · rename_i hnum
    have hnum : t.ty.kind.isNumeric = true := by simpa using hnum
    cases t with
    | addr ty =>
      refine (ensures_emitAtAddress hahead.order hx ht).imp fun _ s₂ ⟨hshadow, hat⟩ => ?_
      refine ⟨hshadow.trans hahead.shadow, (hahead.then hat).mono ?_⟩
      rintro o _ ho ⟨js, haddr, rfl⟩
      rw [hahead.later.site] at haddr
      exact .addr haddr hnum
    | param below ty =>
      cases ht with
      | @param name func index _ _ hfind hfunc hbelow =>
        dsimp only
        split
        · rename_i hnone
          obtain ⟨one, hone⟩ := Value.exists_convert_one hnum
          cases hone.symm.trans hnone
        · rename_i one hone
          refine (ensures_loadArg (L := L) hahead.order.tidy).bind fun _ s₂ ⟨hshadow₂, hload⟩ => ?_
          have mload := hload.moves hahead.order
          refine ensures_bind.2 (ensures_discard.2 ?_)
          refine (ensures_pushValue (L := L) mload.order.tidy
            (Value.isScalar_of_convert ⟨_, rfl⟩ hone)).imp fun _ s₃ ⟨hshadow₃, hone'⟩ => ?_
          have mone := hone'.moves mload.order
          refine (ensures_builtinOp (L := L) mone.order.tidy).bind fun _ s₄ ⟨hshadow₄, hop⟩ => ?_
          have mop := hop.moves mone.order
          refine (ensures_storeArg (L := L) mop.order.tidy).imp fun _ s₅ ⟨hshadow₅, hstore⟩ => ?_
          have hmoves := hahead.then ((mload.seq mone).seq (mop.seq (hstore.moves mop.order)))
          refine ⟨hshadow₅.trans (hshadow₄.trans (hshadow₃.trans (hshadow₂.trans hahead.shadow))),
            hmoves.mono ?_⟩
          rintro o _ ho ⟨_, _, rfl, ⟨_, _, rfl, rfl, i, u, rfl, hpush, hu⟩, _, _, rfl, rfl, rfl⟩
          have hparam := paramAt_of_completes hahead.order
            (ho.mono ((mload.later.trans mone.later).trans (mop.later.trans hstore.later)).grows)
            hfind hfunc hbelow
          rw [hahead.later.site] at hparam
          exact .param hparam hnum hone hpush hu

/-! ## Returns -/

theorem ensures_checkReturned {types results : List Ty} {s : CompileState}
    (hlen : types.length = results.length) :
    Ensures L.env (checkReturned types results) s fun _ s' => s' = s ∧ Assignable types results := by
  induction types generalizing results with
  | nil =>
    obtain rfl : results = [] := List.length_eq_zero_iff.1 hlen.symm
    exact ⟨rfl, .nil⟩
  | cons t types ih =>
    cases results with
    | nil => cases hlen
    | cons result results =>
      show Ensures L.env (checkAssignable t result _ >>= fun _ => checkReturned types results) s _
      unfold checkAssignable
      split
      · rename_i ht
        exact ensures_bind.2 ((ih (Nat.succ.inj hlen)).imp fun _ s' ⟨hs, hall⟩ => ⟨hs, .cons ht hall⟩)
      · trivial

/-- Expressions that come with a return: its code is theirs, and then the instruction. -/
def Returns (L : Layout) (home : Home) (s : CompileState) (values : List Expr) (s' : CompileState) :
    Prop :=
  s'.shadow = [] ∧ Moves L home s s' fun o is => Returned (s.site o) values is

theorem ensures_returnSole {x : Expr} (h : InOrder L home s) (hs : s.shadow = [])
    (hplaced : x.Placed L home) :
    Ensures L.env (do
      emit x
      match ← pop with
      | .results types =>
        if types.length ≠ s.body.results.length then
          fail (.returnCount s.body.name s.body.results.length types.length)
        checkReturned types s.body.results
      | _ => fail (.returnCount s.body.name s.body.results.length 1)
      asm (Assembly.ret s.body.results.length)) s fun _ => Returns L home s [x] := by
  refine (emits x hplaced s h).bind fun _ s₁ ⟨i, e, hc⟩ => ?_
  refine ensures_bind.2 (ensures_pop hc.shadow ?_)
  have hagrees := hc.agrees
  cases hagrees with
  | results types =>
    dsimp only
    split
    · trivial
    · rename_i hlen
      refine (ensures_checkReturned (by simpa using hlen)).bind fun _ s₂ ⟨hs₂, hfit⟩ => ?_
      subst hs₂
      have hpop := hc.moves.drop hc.shadow rfl
      refine (ensures_ret (L := L) hpop.order.tidy).imp fun _ s₃ ⟨hshadow, hstep⟩ => ?_
      refine ⟨hshadow.trans hs, (hpop.seq (hstep.moves hpop.order)).mono ?_⟩
      rintro o _ ho ⟨is, _, rfl, ⟨p, hp, hcode⟩, rfl⟩
      cases hp
      exact .sole hcode hfit
  | _ => trivial

theorem ensures_returnEach {values : List Expr} (h : InOrder L home s) (hs : s.shadow = [])
    (hplaced : exprsPlaced L home values) :
    Ensures L.env (do
      if values.length ≠ s.body.results.length then
        fail (.returnCount s.body.name s.body.results.length values.length)
      emitEach values "return statement" s.body.results
      cutTo 0
      asm (Assembly.ret s.body.results.length)) s fun _ => Returns L home s values := by
  split
  · trivial
  · rename_i hlen
    refine (emitsEach values hplaced s _ _ h).bind fun _ s₁ hpasses => ?_
    obtain ⟨es, hes, hslots⟩ := hpasses.entries
    rw [hs] at hes
    refine ensures_bind.2 (ensures_cutTo hes rfl ?_)
    have hcut := hpasses.moves.replace [] hes hslots (by simp)
    refine (ensures_ret (L := L) hcut.order.tidy).imp fun _ s₂ ⟨hshadow, hstep⟩ => ?_
    refine ⟨hshadow, (hcut.seq (hstep.moves hcut.order)).mono ?_⟩
    rintro o _ ho ⟨is, _, rfl, heach, rfl⟩
    exact .each (heach (by simpa using hlen))

theorem ensures_emitReturn {values : List Expr} (h : InOrder L home s) (hs : s.shadow = [])
    (hplaced : exprsPlaced L home values) :
    Ensures L.env (emitReturn values) s fun _ s' => s.body.func.isSome ∧ Returns L home s values s' := by
  unfold emitReturn
  refine ensures_bind.2 ?_
  simp only [ensures_get]
  split
  · trivial
  · rename_i hfunc
    have hfunc : s.body.func.isSome := Option.isSome_iff_ne_none.2 (by simpa using hfunc)
    split
    · rename_i hempty
      obtain rfl : values = [] := List.isEmpty_iff.1 hempty
      split
      · refine (ensures_retVars (L := L) h.tidy).imp fun _ s' hdone => ?_
        obtain ⟨hshadow, hstep⟩ := hdone
        refine ⟨hfunc, hshadow.trans hs, (hstep.moves h).mono ?_⟩
        rintro o _ ho rfl
        exact .bare
      · trivial
    · unfold emitReturnValues
      dsimp only
      split
      · exact (ensures_returnSole h hs hplaced.1).imp fun _ _ hr => ⟨hfunc, hr⟩
      · exact (ensures_returnEach h hs hplaced).imp fun _ _ hr => ⟨hfunc, hr⟩

/-! ## Dropped values -/

theorem ensures_emitDropped {x : Expr} (h : InOrder L home s) (hplaced : x.Placed L home) :
    Ensures L.env (emitDropped x) s fun _ s' => s'.shadow = s.shadow ∧
      Moves L home s s' fun o is => Dropped (s.site o) x is := by
  unfold emitDropped
  refine (emits x hplaced s h).bind fun _ s₁ ⟨i, e, hc⟩ => ?_
  refine ensures_bind.2 (ensures_top hc.shadow ?_)
  have hsingle (he : e.isSingle = true) : Ensures L.env discardTop s₁ fun _ s' =>
      s'.shadow = s.shadow ∧ Moves L home s s' fun o is => Dropped (s.site o) x is := by
    refine (ensures_discardTop (L := L) hc.moves.order.tidy hc.shadow).imp
      fun _ s₂ ⟨hshadow, hstep⟩ => ⟨hshadow, (hc.moves.seq (hstep.moves hc.moves.order)).mono ?_⟩
    rintro o _ ho ⟨is, _, rfl, ⟨p, hp, hcode⟩, rfl, hdefault⟩
    exact .single hcode (hp.isSingle.trans he) (hdefault p hp)
  have hagrees := hc.agrees
  cases hagrees with
  | results types =>
    refine ensures_bind.2 (ensures_discard.2 (ensures_pop hc.shadow ?_))
    have hpop := hc.moves.drop hc.shadow rfl
    refine (ensures_popWords (L := L) hpop.order.tidy).imp fun _ s₂ ⟨hshadow, hstep⟩ =>
      ⟨hshadow, (hpop.seq (hstep.moves hpop.order)).mono ?_⟩
    rintro o _ ho ⟨is, _, rfl, ⟨p, hp, hcode⟩, rfl⟩
    cases hp
    exact .results hcode
  | package => trivial
  | slot => exact hsingle rfl
  | emitted => exact hsingle rfl
  | value => exact hsingle rfl
  | func => exact hsingle rfl

/-! ## Statements -/

/-- The statement is compiled wherever it lies at this place of the file, with nothing on the shadow
stack. -/
def EmitsStmt (L : Layout) (home : Home) (st : Stmt) : Prop :=
  ∀ s, InOrder L home s → s.shadow = [] → Ensures L.env (emitStmt st) s fun _ s' =>
    s'.shadow = [] ∧ Advances L home s s' fun o is => StmtCode (s.site o) st is (s'.site o)

def EmitsStmts (L : Layout) (home : Home) (ss : List Stmt) : Prop :=
  ∀ s, InOrder L home s → s.shadow = [] → Ensures L.env (emitStmts ss) s fun _ s' =>
    s'.shadow = [] ∧ Advances L home s s' fun o is => StmtsCode (s.site o) ss is (s'.site o)

theorem ensures_atRest {Q : PUnit → CompileState → Prop} (hs : s.shadow = []) (h : Q ⟨⟩ s) :
    Ensures L.env atRest s Q := by
  unfold atRest
  refine ensures_bind.2 ?_
  simp only [ensures_get, hs]
  exact h

/-- A statement that declares nothing. -/
theorem emitsStmt_of_moves {st : Stmt}
    (h : ∀ s, InOrder L home s → s.shadow = [] → Ensures L.env (emitStmt st) s fun _ s' =>
      s'.shadow = [] ∧ Moves L home s s' fun o is => StmtCode (s.site o) st is (s.site o)) :
    EmitsStmt L home st := fun s ho hs => (h s ho hs).imp fun _ s' ⟨hshadow, hmoves⟩ =>
  ⟨hshadow, hmoves.advances.mono fun o is _ hcode => by
    rw [hmoves.later.site]
    exact hcode⟩

theorem emitsStmt_assign (defines : Bool) {targets values : List Expr}
    (ht : exprsPlaced L home targets) (hv : exprsPlaced L home values) :
    EmitsStmt L home (.assign (.ofDefines defines) targets values) := by
  intro s h hs
  have heq : emitStmt (.assign (.ofDefines defines) targets values) =
      emitAssign defines targets values := by cases defines <;> rfl
  rw [heq]
  refine (ensures_emitAssign h ht hv).imp fun _ s' ⟨hshadow, hadv⟩ => ⟨hshadow.trans hs, hadv.mono ?_⟩
  rintro o _ ho ⟨ps, is₁, is₂, rfl, hvals, hgiven⟩
  exact .assign rfl hvals hgiven

theorem emitsStmt_update {op : Operator} {targets values : List Expr}
    (ht : exprsPlaced L home targets) (hv : exprsPlaced L home values) :
    EmitsStmt L home (.assign (.update op) targets values) := by
  refine emitsStmt_of_moves fun s h hs => ?_
  match targets, values with
  | [x], [value] =>
    refine (ensures_emitUpdate h ht.1 hv.1).imp fun _ s' ⟨hshadow, hmoves⟩ =>
      ⟨hshadow.trans hs, hmoves.mono fun o is _ hr => .update hr.1 hr.2⟩
  | [], _ | _ :: _ :: _, _ | [_], [] | [_], _ :: _ :: _ => trivial

theorem emitsStmt_step {up : Bool} {x : Expr} {st : Stmt} (hx : x.Placed L home)
    (heq : emitStmt st = emitStep up x)
    (hcode : ∀ S is, Stepped S up x is → StmtCode S st is S) : EmitsStmt L home st := by
  refine emitsStmt_of_moves fun s h hs => ?_
  rw [heq]
  exact (ensures_emitStep h hx).imp fun _ s' ⟨hshadow, hmoves⟩ =>
    ⟨hshadow.trans hs, hmoves.mono fun o is _ hr => hcode _ is hr⟩

/-- An inner block is empty at first. -/
theorem order_openBlock (h : InOrder L home s) : InOrder L home (s.withNames s.names.openBlock) := by
  have hsame : ∀ b ∈ s.queue, s.names.openBlock.seenFrom b.path b.horizons =
      s.names.seenFrom b.path b.horizons := fun b _ =>
    NameTable.seenFrom_congr fun j _ => NameTable.block_push rfl j
  refine ⟨{ h.tidy with }, h.declared.withNames (NameTable.sound_openBlock h.declared.names) ?_
    (by simp [NameTable.openBlock]) fun b hb _ => hsame b hb,
    fun b hb hne => (h.covers b hb hne).mono rfl (Nat.le_refl _)⟩
  rw [NameTable.scopes_openBlock]
  exact h.declared.scopes.inner

/-- What an inner block declared is gone behind it. -/
theorem order_closeBlock {s₁ : CompileState} {R : Output → List Instr → Prop}
    (h : InOrder L home s) (hadv : Advances L home (s.withNames s.names.openBlock) s₁ R) :
    InOrder L home (s₁.withNames s₁.names.closeBlock) := by
  have hsound := h.declared.names
  refine ⟨{ hadv.order.tidy with }, hadv.order.declared.withNames
    (NameTable.sound_closeBlock hsound hadv.names hadv.order.declared.names) ?_ (Nat.le_refl _)
    fun b _ _ => rfl, fun b hb hne => (hadv.order.covers b hb hne).mono rfl (Nat.le_refl _)⟩
  rw [NameTable.scopes_closeBlock hsound hadv.names, hadv.body]
  exact h.declared.scopes.grow (grows_withNames.trans hadv.grows)

/-- A block declares for itself alone. -/
theorem emitsStmt_block {body : List Stmt} (hbody : EmitsStmts L home body) :
    EmitsStmt L home (.block body) := by
  intro s h hs
  show Ensures L.env (inBlock (emitStmts body)) s _
  unfold inBlock
  refine ensures_bind.2 ?_
  simp only [ensures_modify]
  have hsound := h.declared.names
  refine (hbody _ (order_openBlock h) hs).bind fun _ s₁ hdone => ?_
  obtain ⟨hshadow, hadv⟩ := hdone
  refine ensures_bind.2 ?_
  simp only [ensures_modify]
  have hgrows : Grows s s₁ := grows_withNames.trans hadv.grows
  have hclose := order_closeBlock h hadv
  have hframe : FrameGrows s (s₁.withNames s₁.names.closeBlock) :=
    (frameGrows_withNames.trans rfl hadv.frame).trans hadv.body frameGrows_withNames
  refine ⟨hshadow, hgrows.trans grows_withNames, .closeBlock hadv.names, hadv.body, hframe, hclose,
    ?_⟩
  intro o ho
  obtain ⟨is, hsize, hreads, hcode⟩ := hadv.emitted o (ho.mono grows_withNames)
  have hsite : (s₁.withNames s₁.names.closeBlock).site o = (s.site o).leave (s₁.site o) := by
    show (⟨o, s₁.body, s₁.names.closeBlock.scopes, s₁.asm.vars.size⟩ : Site) = _
    rw [hadv.body, NameTable.scopes_closeBlock hsound hadv.names]
    rfl
  have henter : (s.withNames s.names.openBlock).site o = (s.site o).enter := by
    show (⟨o, s.body, s.names.openBlock.scopes, s.asm.vars.size⟩ : Site) = _
    rw [NameTable.scopes_openBlock]
    rfl
  refine ⟨is, hsize, hreads, ?_⟩
  show StmtCode _ _ _ ((s₁.withNames s₁.names.closeBlock).site o)
  rw [hsite]
  rw [henter] at hcode
  exact .block hcode

mutual

/-- What the compiler emits for a statement is a code of it. -/
theorem emitsStmt (st : Stmt) (hplaced : st.Placed L home) : EmitsStmt L home st := by
  cases st with
  | expr x =>
    exact emitsStmt_of_moves fun s h hs => (ensures_emitDropped h hplaced).imp
      fun _ s' ⟨hshadow, hmoves⟩ => ⟨hshadow.trans hs, hmoves.mono fun o is _ hr => .expr hr⟩
  | assign mode targets values =>
    cases mode with
    | assign => exact emitsStmt_assign false hplaced.1 hplaced.2
    | define => exact emitsStmt_assign true hplaced.1 hplaced.2
    | update op => exact emitsStmt_update hplaced.1 hplaced.2
  | ret values =>
    exact emitsStmt_of_moves fun s h hs => (ensures_emitReturn h hs hplaced).imp
      fun _ s' ⟨hfunc, hshadow, hmoves⟩ => ⟨hshadow, hmoves.mono fun o is _ hr => .ret hfunc hr⟩
  | block body => exact emitsStmt_block (emitsStmts body hplaced)
  | increment x => exact emitsStmt_step hplaced rfl fun _ _ => .increment
  | decrement x => exact emitsStmt_step hplaced rfl fun _ _ => .decrement
termination_by structural st

theorem emitsStmts (ss : List Stmt) (hplaced : stmtsPlaced L home ss) : EmitsStmts L home ss := by
  intro s h hs
  cases ss with
  | nil =>
    refine ⟨hs, (Advances.refl h).mono ?_⟩
    rintro o _ ho rfl
    exact .nil
  | cons st ss =>
    unfold emitStmts
    refine (emitsStmt st hplaced.1 s h hs).bind fun _ s₁ ⟨hshadow, hst⟩ => ?_
    refine ensures_bind.2 (ensures_atRest hshadow ?_)
    refine (emitsStmts ss hplaced.2 s₁ hst.order hshadow).imp fun _ s₂ ⟨hshadow', hss⟩ => ?_
    refine ⟨hshadow', (hst.seq hss).mono ?_⟩
    rintro o _ ho ⟨is₁, is₂, rfl, hcode, hcodes⟩
    exact .cons hcode hcodes
termination_by structural ss

end

end Compile

end StackScript
