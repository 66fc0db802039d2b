import StackScript.Proofs.Scoping.Entering

/-!
# What compiling a statement declares

A statement that is no block enters functions of its literals, and a definition then declares its
names for new variables, the last target first (`defines_emitStmt`).
-/

namespace StackScript

namespace Compile

variable {ls : List Literal.Func}

/-! ## Statements that define nothing -/

theorem entering_assignable (name : String) : Entering ls (assignable name) := by
  unfold assignable
  refine .bind (entering_find? name) fun x => ?_
  split
  · exact .pure _
  · exact .bind (entering_paramBelow _ _ _) fun _ => .pure _
  all_goals exact .fail _

theorem entering_assignName (name : String) : Entering ls (assignName name) := by
  unfold assignName
  split
  · exact entering_discardTop
  · refine .bind (entering_assignable name) fun r => ?_
    split
    · exact .bind (entering_var _) fun _ => .bind (entering_fitTop _ _) fun _ =>
        .bind (.discard entering_pop) fun _ => entering_emitStore _
    · exact .bind (entering_fitTop _ _) fun _ => .bind (.discard entering_pop) fun _ =>
        entering_word _

theorem entering_assignThrough (p : Expr) : Entering p.literals (assignThrough p) :=
  .bind (entering_infer p) fun e => .bind (entering_pointee p e) fun _ =>
    .bind (entering_fitTop _ _) fun _ => .bind (.discard entering_pop) fun _ =>
      .bind (entering_emit p) fun _ => .bind (.discard entering_pop) fun _ => entering_word _

theorem entering_assignTo (x : Expr) : Entering x.literals (assignTo false x) := by
  cases x with
  | ident name => exact entering_assignName name
  | deref p => exact entering_assignThrough p
  | _ => exact .fail _

theorem entering_definedType (e : Inferred) : Entering ls (definedType e) := by
  unfold definedType
  split
  · exact .pure _
  · exact .pure _
  · exact .fail _

theorem entering_checkSingle (x : Expr) (e : Inferred) : Entering ls (checkSingle x e) := by
  unfold checkSingle
  split
  all_goals first | exact .pure _ | exact .fail _

theorem entering_emitValues (n : Nat) (values : List Expr) :
    Entering (literalsOf values) (emitValues n values) := by
  have hsingle : ∀ value ∈ values, Entering (literalsOf values) (do
      emit value
      checkSingle value (← top)) := fun value hvalue =>
    .bind ((entering_emit value).mono (literals_subset_of_mem hvalue)) fun _ =>
      .bind entering_top fun e => entering_checkSingle value e
  unfold emitValues
  split
  · rename_i value
    split
    · exact hsingle value (List.mem_singleton_self _)
    · refine .bind ((entering_emit value).mono (List.subset_append_left ..)) fun _ =>
        .bind entering_pop fun e => ?_
      split
      · split
        · exact entering_replace _ _
        · exact .fail _
      · exact .fail _
  · exact .check (.forM hsingle)

theorem entering_target (x : Expr) : Entering x.literals (target x) := by
  cases x with
  | ident name =>
    refine .bind (entering_assignable name) fun r => ?_
    cases r with
    | inl id => exact .bind (entering_var id) fun _ => .pure _
    | inr r => exact .pure _
  | deref p => exact .bind (entering_infer p) fun e => .bind (entering_pointee p e) fun _ => .pure _
  | _ => exact .fail _

theorem entering_emitAtAddress (x : Expr) (k : Kind) (op : AddressOperator) :
    Entering x.literals (emitAtAddress x k op) := by
  have hrest : Entering x.literals (do
      discard pop
      asm (Assembly.addrOp k op)) := .bind (.discard entering_pop) fun _ => entering_word _
  unfold emitAtAddress
  split
  · rename_i p
    exact .bind (entering_emit p) fun _ => hrest
  · exact .bind (entering_emitAddress _) fun _ => hrest

theorem entering_emitUpdate (op : Operator) (x value : Expr) :
    Entering (literalsOf [x] ++ literalsOf [value]) (emitUpdate op x value) := by
  have hx : x.literals ⊆ literalsOf [x] ++ literalsOf [value] :=
    List.Subset.trans (List.subset_append_left ..) (List.subset_append_left ..)
  have hvalue : value.literals ⊆ literalsOf [x] ++ literalsOf [value] :=
    List.Subset.trans (List.subset_append_left ..) (List.subset_append_right ..)
  unfold emitUpdate
  refine .check (.bind ((entering_target x).mono hx) fun t =>
    .bind ((entering_infer value).mono hvalue) fun e => .bind (entering_operandKind value e)
      fun k => .bind (.ofOperands _) fun r => .check ?_)
  cases t with
  | addr ty =>
    exact .bind ((entering_emit value).mono hvalue) fun _ => .bind (entering_coerceSecond r)
      fun _ => .bind (.discard entering_pop) fun _ => (entering_emitAtAddress x _ _).mono hx
  | param below ty =>
    exact .bind (entering_word _) fun _ => .bind ((entering_emit value).mono hvalue) fun _ =>
      .bind (entering_coerceSecond r) fun _ => .bind (.discard entering_pop) fun _ =>
        .bind (entering_word _) fun _ => entering_word _

theorem entering_emitStep (up : Bool) (x : Expr) : Entering x.literals (emitStep up x) := by
  unfold emitStep
  refine .bind (entering_target x) fun t => .check ?_
  cases t with
  | addr ty => exact entering_emitAtAddress x _ _
  | param below ty =>
    dsimp only
    split
    · exact .fail _
    · exact .bind (entering_word _) fun _ =>
        .bind (.discard (.asm (Assembly.sameFuncs_pushValue _))) fun _ =>
          .bind (entering_word _) fun _ => entering_word _

theorem entering_checkReturned (types results : List Ty) :
    Entering ls (checkReturned types results) :=
  .forM fun _ _ => entering_checkAssignable _ _ _

theorem entering_emitReturnValues (body : Body) (values : List Expr) :
    Entering (literalsOf values) (emitReturnValues body values) := by
  unfold emitReturnValues
  dsimp only
  split
  · rename_i value _
    refine .bind ((entering_emit value).mono (List.subset_append_left ..)) fun _ =>
      .bind entering_pop fun e => ?_
    split
    · exact .check (.bind (entering_checkReturned _ _) fun _ => entering_word _)
    · exact .bind (.fail _) fun _ => entering_word _
  · exact .check (.bind (entering_emitEach _ _ _) fun _ => .bind (entering_cutTo _) fun _ =>
      entering_word _)

theorem entering_emitReturn (values : List Expr) :
    Entering (literalsOf values) (emitReturn values) := by
  unfold emitReturn
  refine .bind .get fun s => .check ?_
  split
  · split
    · exact entering_word _
    · exact .fail _
  · exact entering_emitReturnValues _ values

theorem entering_emitDropped (e : Expr) : Entering e.literals (emitDropped e) := by
  unfold emitDropped
  refine .bind (entering_emit e) fun _ => .bind entering_top fun i => ?_
  split
  · exact .bind (.discard entering_pop) fun _ => .asm (Assembly.sameFuncs_pop _)
  · exact .fail _
  · exact entering_discardTop

end Compile

/-! ## Definitions -/

/-- The name that a target of a definition declares. -/
def Expr.definedName? : Expr → Option String
  | .ident name => if name = "_" then none else some name
  | _ => none

/-- The names that a statement declares, in the order in which it does. -/
def Stmt.defined : Stmt → List String
  | .assign .define targets _ => targets.reverse.filterMap Expr.definedName?
  | _ => []

/-- A variable has come to the end of the frame of the body that is compiled. In the main body its
slot is its place there, and it knows whether it lies in a block. -/
structure CompileState.AddsVar (name : String) (s s' : CompileState) : Prop where
  size : s'.asm.vars.size = s.asm.vars.size + 1
  vars : s.body.func = none → ∃ ty, s'.asm.vars =
    s.asm.vars.push ((Var.new (.named name) ty s.names.inInner).placed 0 s.asm.mainVars.size)
  mainVars : s.body.func = none → s'.asm.mainVars = s.asm.mainVars.push s.asm.vars.size

/-- Between the states, some names were declared for new variables, which are stored into. -/
inductive CompileState.Defines : List String → CompileState → CompileState → Prop
  | nil {s s' : CompileState} (h : s.Enters [] s') : Defines [] s s'
  | cons {name : String} {names : List String} {s s₁ s₂ s' : CompileState} (h : s.Enters [] s₁)
    (hfresh : s₁.names.declares name = false)
    (hnames : s₂.names = s₁.names.declare name (.var s₁.asm.vars.size))
    (hvars : s₁.AddsVar name s₂) (hslot : s₁.body.func = none →
      Assembly.narrow s₁.asm.mainVars.size < Word.slotRange) (hjoined : s₁.Joined s₂ [])
    (hbody : s₂.body = s₁.body) (hrest : Defines names s₂ s') : Defines (name :: names) s s'

namespace CompileState.Defines

variable {s s' s'' : CompileState} {names names' : List String}

theorem enters (h : s.Enters [] s') (h' : Defines names s' s'') : Defines names s s'' := by
  cases h' with
  | nil h' => exact .nil (h.trans h')
  | cons h' hfresh hnames hvars hslot hjoined hbody hrest =>
    exact .cons (h.trans h') hfresh hnames hvars hslot hjoined hbody hrest

theorem trans (h : Defines names s s') (h' : Defines names' s' s'') :
    Defines (names ++ names') s s'' := by
  induction h with
  | nil h => exact h'.enters h
  | cons h hfresh hnames hvars hslot hjoined hbody _ ih =>
    exact .cons h hfresh hnames hvars hslot hjoined hbody (ih h')

/-- No function is entered. -/
theorem joined (h : Defines names s s') : s.Joined s' [] := by
  have hnothing {s s' : CompileState} (hs : s.Enters [] s') : s.Joined s' [] := by
    obtain ⟨new, hjoined, hnew⟩ := hs.joined
    rwa [List.eq_nil_iff_forall_not_mem.2 fun b hb => nomatch (hnew b hb).literal] at hjoined
  induction h with
  | nil h => exact hnothing h
  | cons h _ _ _ _ hjoined _ _ ih => exact (hnothing h).trans (hjoined.trans ih)

end CompileState.Defines

namespace Compile

variable {env : CompileEnv} {s s' : CompileState}

/-- The check between statements changes nothing. -/
theorem eq_of_atRest (h : (atRest env).exec s = (.ok ⟨⟩, s')) : s' = s := by
  unfold atRest at h
  obtain ⟨_, _, hget, h⟩ := exec_bind_eq_ok.1 h
  cases hget
  dsimp only at h
  split at h
  · cases h
  · cases h
    rfl

/-- What a step enters if it goes through. -/
theorem Entering.enters {α : Type} {ls : List Literal.Func} {t : Compile α} {a : α}
    (h : Entering ls t) (hexec : (t env).exec s = (.ok a, s')) : s.Enters ls s' := by
  have hs := (h env).related s
  rwa [hexec] at hs

/-- A function that changes without coming to its end. -/
theorem funcsRun_set {xs : Array FuncInfo} {id : Nat} {f g : FuncInfo} (hf : xs[id]? = some f)
    (hg : g.stop = f.stop) : FuncsRun xs (xs.setIfInBounds id g) := fun id' k hk hstop => by
  obtain ⟨rfl, rfl⟩ | ⟨-, hk⟩ := getElem?_setIfInBounds_of hk
  · exact ⟨f, hf, hg ▸ hstop⟩
  · exact ⟨k, hk, hstop⟩

/-- A new variable has the next number. -/
theorem defineVar_eq_ok {owner : Option Nat} {v : Var} {a a' : Assembly} {id : Nat}
    (hv : v.addr = none) (h : (Assembly.defineVar owner v).exec a = (.ok id, a')) :
    id = a.vars.size ∧ a'.funcs.size = a.funcs.size ∧ FuncsRun a.funcs a'.funcs ∧
      ∃ depth index, a'.vars = a.vars.push (v.placed depth index) ∧
        (owner = none → depth = 0 ∧ index = a.mainVars.size ∧ a'.mainVars = a.mainVars.push id) := by
  cases owner with
  | none =>
    rw [exec_defineGlobal hv] at h
    cases h
    exact ⟨rfl, rfl, .refl _, 0, _, rfl, fun _ => ⟨rfl, rfl, rfl⟩⟩
  | some func =>
    cases hf : a.funcs[func]? with
    | none =>
      have hfunc : (Assembly.func func).exec a = (.error (.fault .outOfRange), a) := by
        show (Task.expect a.funcs[func]? : Asm FuncInfo).exec a = _
        rw [hf]
        rfl
      unfold Assembly.defineVar at h
      rw [Task.exec_bind_ok (Task.exec_get a)] at h
      simp only at h
      rw [Task.exec_bind_error hfunc] at h
      cases h
    | some f =>
      rw [exec_defineLocal hf hv] at h
      cases h
      exact ⟨rfl, Array.size_setIfInBounds, funcsRun_set hf rfl, _, _, rfl, nofun⟩

/-- A new variable changes no more than the frame. -/
theorem newVar_eq_ok {name : String} {ty : Ty} {id : Nat}
    (h : (newVar name ty env).exec s = (.ok id, s')) :
    id = s.asm.vars.size ∧ s.AddsVar name s' ∧ s'.names = s.names ∧ s'.body = s.body ∧
      s.Joined s' [] := by
  unfold newVar at h
  obtain ⟨_, _, hget, h⟩ := exec_bind_eq_ok.1 h
  cases hget
  obtain ⟨a, hdefine, rfl⟩ : ∃ a, (Assembly.defineVar s.body.func
      (.new (.named name) ty s.names.inInner)).exec s.asm = (.ok id, a) ∧ s' = { s with asm := a } := by
    rw [exec_asm] at h
    generalize (Assembly.defineVar s.body.func _).exec s.asm = r at h
    obtain ⟨(e | e) | i, a⟩ := r <;> cases h
    exact ⟨a, rfl, rfl⟩
  obtain ⟨rfl, hfuncs, hrun, depth, index, hvars, hglobal⟩ := defineVar_eq_ok rfl hdefine
  refine ⟨rfl, ⟨?_, fun hmain => ?_, fun hmain => (hglobal hmain).2.2⟩, rfl, rfl,
    (List.append_nil _).symm, hfuncs, rfl, hrun⟩
  · exact (congrArg Array.size hvars).trans (Array.size_push _)
  · obtain ⟨rfl, rfl, -⟩ := hglobal hmain
    exact ⟨ty, hvars⟩

/-- A variable that is stored into has a small slot. -/
theorem slot_lt_of_emitStore {id depth index : Nat} {v : Var} (hv : s.asm.vars[id]? = some v)
    (haddr : v.addr = some ⟨depth, index⟩) (h : (emitStore id env).exec s = (.ok ⟨⟩, s')) :
    index < Word.slotRange := by
  unfold emitStore at h
  obtain ⟨⟨scope, slot⟩, s₁, hoperand, h⟩ := exec_bind_eq_ok.1 h
  have hslot : slot = index := by
    unfold varOperand at hoperand
    have hvar : (Assembly.var id).exec s.asm = (.ok v, s.asm) := by
      show (Task.expect s.asm.vars[id]? : Asm Var).exec s.asm = _
      rw [hv]
      rfl
    rw [exec_bind_ok (exec_asm_ok hvar), haddr] at hoperand
    obtain ⟨_, _, hget, hoperand⟩ := exec_bind_eq_ok.1 hoperand
    cases hget
    dsimp only at hoperand
    split at hoperand
    · cases hoperand
      rfl
    · split at hoperand
      · cases hoperand
      · split at hoperand
        · cases hoperand
        · cases hoperand
          rfl
  subst hslot
  cases hw : Word.makeVar .storeVar scope slot with
  | ok w => exact Word.lt_of_makeVar hw
  | error f =>
    dsimp only [Assembly.storeVar, Assembly.emitChecked] at h
    rw [hw] at h
    cases h

theorem declare_eq_ok {name : String} {x : Symbol}
    (h : (declare name x env).exec s = (.ok ⟨⟩, s')) :
    s.names.declares name = false ∧ s' = s.declaring name x := by
  unfold declare at h
  obtain ⟨_, _, hget, h⟩ := exec_bind_eq_ok.1 h
  cases hget
  obtain ⟨hfresh, h⟩ := exec_check_eq_ok h
  cases h
  exact ⟨by simpa using hfresh, rfl⟩

/-- A definition of a name declares it for a new variable. -/
theorem defines_defineName {name : String} (h : (defineName name env).exec s = (.ok ⟨⟩, s')) :
    s.Defines (Expr.ident name).definedName?.toList s' := by
  unfold defineName at h
  split at h
  · rename_i hblank
    rw [Expr.definedName?, if_pos hblank]
    exact .nil (entering_discardTop.enters h)
  · rename_i hname
    rw [Expr.definedName?, if_neg hname]
    obtain ⟨_, _, hget, h⟩ := exec_bind_eq_ok.1 h
    cases hget
    obtain ⟨-, h⟩ := exec_check_eq_ok h
    obtain ⟨_, s₁, hbind, h⟩ := exec_bind_eq_ok.1 h
    obtain ⟨e, s₂, hpop, h⟩ := exec_bind_eq_ok.1 h
    obtain ⟨ty, s₃, hty, h⟩ := exec_bind_eq_ok.1 h
    obtain ⟨id, s₄, hnew, h⟩ := exec_bind_eq_ok.1 h
    obtain ⟨_, s₅, hdeclare, h⟩ := exec_bind_eq_ok.1 h
    obtain ⟨rfl, hvars, hnames, hbody, hjoined⟩ := newVar_eq_ok hnew
    obtain ⟨hfresh, rfl⟩ := declare_eq_ok hdeclare
    have hslot (hmain : s₃.body.func = none) :
        Assembly.narrow s₃.asm.mainVars.size < Word.slotRange := by
      obtain ⟨ty', hpush⟩ := hvars.vars hmain
      have hlast : s₄.asm.vars[s₃.asm.vars.size]? =
          some ((Var.new (.named name) ty' s₃.names.inInner).placed 0 s₃.asm.mainVars.size) := by
        rw [hpush, Array.getElem?_push_size]
      exact slot_lt_of_emitStore (s := s₄.declaring name _) hlast rfl h
    have hs₃ : s.Enters [] s₃ := (entering_bindDefaultTop.enters hbind).trans
      ((entering_pop.enters hpop).trans ((entering_definedType e).enters hty))
    have hrest : (s₄.declaring name (.var s₃.asm.vars.size)).Defines [] s' :=
      .nil ((entering_emitStore _).enters h)
    have hadds : s₃.AddsVar name (s₄.declaring name (.var s₃.asm.vars.size)) :=
      ⟨hvars.size, hvars.vars, hvars.mainVars⟩
    refine .cons hs₃ (hnames ▸ hfresh) ?_ hadds hslot ?_ ?_ hrest
    · exact congrArg (NameTable.declare · name _) hnames
    · exact ⟨hjoined.queue, hjoined.size, hjoined.ids, hjoined.run⟩
    · exact hbody

theorem defines_assignTo {x : Expr} (h : (assignTo true x env).exec s = (.ok ⟨⟩, s')) :
    s.Defines x.definedName?.toList s' := by
  cases x with
  | ident name => exact defines_defineName h
  | _ => cases h

theorem defines_targets {xs : List Expr} (h : (xs.forM (assignTo true) env).exec s = (.ok ⟨⟩, s')) :
    s.Defines (xs.filterMap Expr.definedName?) s' := by
  induction xs generalizing s with
  | nil =>
    cases h
    exact .nil (.refl _)
  | cons x xs ih =>
    obtain ⟨_, s₁, hx, hxs⟩ := exec_bind_eq_ok.1 h
    have hdefines := (defines_assignTo hx).trans (ih hxs)
    rw [List.filterMap_cons]
    cases hname : x.definedName? with
    | none => simpa [hname] using hdefines
    | some name => simpa [hname] using hdefines

theorem entering_assignTo_define {x : Expr} (h : x.definedName? = none) :
    Entering x.literals (assignTo true x) := by
  cases x with
  | ident name =>
    have hblank : name = "_" := by
      by_contra hname
      rw [Expr.definedName?, if_neg hname] at h
      cases h
    show Entering _ (defineName name)
    unfold defineName
    rw [if_pos hblank]
    exact entering_discardTop
  | _ => exact .fail _

/-- A statement that is no block and defines nothing enters functions of its literals. -/
theorem entering_emitStmt {st : Stmt} (hblock : ∀ body, st ≠ .block body)
    (hdefined : st.defined = []) : Entering st.literals (emitStmt st) := by
  cases st with
  | expr e => exact entering_emitDropped e
  | assign mode targets values =>
    have htargets {x : Expr} (hx : x ∈ targets.reverse) :
        x.literals ⊆ (Stmt.assign mode targets values).literals :=
      List.Subset.trans (literals_subset_of_mem (List.mem_reverse.1 hx))
        (List.subset_append_left ..)
    have hvalues : Entering (Stmt.assign mode targets values).literals
        (emitValues targets.length values) :=
      (entering_emitValues _ values).mono (List.subset_append_right ..)
    cases mode with
    | assign =>
      exact .bind hvalues fun _ => .forM fun x hx => (entering_assignTo x).mono (htargets hx)
    | define =>
      exact .bind hvalues fun _ => .forM fun x hx =>
        (entering_assignTo_define (List.filterMap_eq_nil_iff.1 hdefined x hx)).mono (htargets hx)
    | update op =>
      unfold emitStmt
      split
      · exact entering_emitUpdate op _ _
      · exact .fail _
  | ret values => exact entering_emitReturn values
  | block body => exact absurd rfl (hblock body)
  | increment x => exact entering_emitStep true x
  | decrement x => exact entering_emitStep false x

/-- A statement that goes through has entered functions of its literals, and then declared what it
defines. -/
theorem defines_emitStmt {st : Stmt} (hblock : ∀ body, st ≠ .block body)
    (h : (emitStmt st env).exec s = (.ok ⟨⟩, s')) :
    ∃ s₁, s.Enters st.literals s₁ ∧ s₁.Defines st.defined s' := by
  by_cases hdefined : st.defined = []
  · exact ⟨s', (entering_emitStmt hblock hdefined).enters h, hdefined ▸ .nil (.refl s')⟩
  · cases st with
    | assign mode targets values =>
      cases mode with
      | define =>
        obtain ⟨_, s₁, hemit, htargets⟩ := exec_bind_eq_ok.1 h
        exact ⟨s₁, ((entering_emitValues _ values).mono (List.subset_append_right ..)).enters hemit,
          defines_targets htargets⟩
      | _ => exact absurd rfl hdefined
    | _ => exact absurd rfl hdefined

mutual

/-- Statements that go through have entered functions alone. -/
theorem joined_emitStmt : ∀ (st : Stmt) {s s' : CompileState},
    (emitStmt st env).exec s = (.ok ⟨⟩, s') → ∃ new, s.Joined s' new
  | .block body, s, s', h => by
    obtain ⟨_, s₁, hopen, h⟩ := exec_bind_eq_ok.1 h
    cases hopen
    obtain ⟨_, s₂, hbody, h⟩ := exec_bind_eq_ok.1 h
    cases h
    obtain ⟨new, hjoined⟩ := joined_emitStmts body hbody
    exact ⟨new, hjoined.queue, hjoined.size, hjoined.ids, hjoined.run⟩
  | .expr _, _, _, h | .assign _ _ _, _, _, h | .ret _, _, _, h | .increment _, _, _, h
  | .decrement _, _, _, h => by
    obtain ⟨s₁, henters, hdefines⟩ := defines_emitStmt (fun _ hst => by cases hst) h
    obtain ⟨new, hjoined, -⟩ := henters.joined
    exact ⟨new ++ [], hjoined.trans hdefines.joined⟩
termination_by structural st => st

theorem joined_emitStmts : ∀ (ss : List Stmt) {s s' : CompileState},
    (emitStmts ss env).exec s = (.ok ⟨⟩, s') → ∃ new, s.Joined s' new
  | [], s, s', h => by
    cases h
    exact ⟨[], .refl s⟩
  | st :: ss, s, s', h => by
    obtain ⟨_, s₁, hst, h⟩ := exec_bind_eq_ok.1 h
    obtain ⟨_, s₂, hrest, h⟩ := exec_bind_eq_ok.1 h
    cases eq_of_atRest hrest
    obtain ⟨new, hjoined⟩ := joined_emitStmt st hst
    obtain ⟨new', hjoined'⟩ := joined_emitStmts ss h
    exact ⟨new ++ new', hjoined.trans hjoined'⟩
termination_by structural ss => ss

end

end Compile

end StackScript
