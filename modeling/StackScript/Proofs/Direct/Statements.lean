import StackScript.Proofs.Direct.Expressions

/-!
# Statements

The code of statements does to the frame of the main body what the evaluator does to its
environment, and leaves the stack as it was (`mirrors_stmts`).
-/

namespace StackScript

/-! ## Kinds of steps and updates -/

/-- An update keeps the kind. -/
theorem Operator.resultKind_of_update {k : Kind} (op : Operator) (h : op.hasUpdateForm = true) :
    op.resultKind k = k := by
  cases op <;> first | rfl | cases h

namespace Direct

/-! ## Environments that change -/

/-- The thread is at a site where the evaluator has an environment. -/
def Tracks (m : Machine) (base : List (String × Symbol)) (taken : List String) (ctx : Nat)
    (st : Stack) (S : Site) (env : Env) (s : Thread) : Prop :=
  Setting m.program base taken S env ∧ ∃ w vars, s.At w st ∧ Holds m.program env ctx w vars

/-- One environment came from another one; its blocks declare the names given. -/
structure Follows (env : Env) (ns : Names) (env' : Env) : Prop where
  size : env.vars.size ≤ env'.vars.size
  names : env'.blocks.names = ns

theorem Follows.trans {env env' env'' : Env} {ns ns' : Names} (h : Follows env ns env')
    (h' : Follows env' ns' env'') : Follows env ns' env'' :=
  ⟨Nat.le_trans h.size h'.size, h'.names⟩

theorem Env.change_of_value {env : Env} {name : String} {id : Nat} {old : Value}
    (hid : env.blocks.find? name = some id) (hold : env.vars[id]? = some old)
    (f : Value → Outcome Value) : env.change name f =
      (do return { env with vars := env.vars.setIfInBounds id (← f old) }) := by
  simp only [Env.change, hid, hold]

theorem Operand.update_of_resolve {x : Operand} {op : Operator} {old w : Value} {r : Resolution}
    (hop : op.hasUpdateForm = true) (hr : op.resolve (.bound old.kind) x.known.operandKind = .ok r)
    (hfirst : r.first = old.kind) (hw : x.known.coerceSecond r.second = .ok w) :
    x.update op old = evaluated (op.eval r.operand old w) := by
  unfold update
  rw [hop, hr]
  show (do
    if r.first ≠ old.kind then throw .refused
    let w ← sound (x.known.coerceSecond r.second)
    evaluated (op.eval r.operand old w) : Outcome Value) = _
  rw [if_neg (not_not.2 hfirst), hw]
  rfl

section

variable {p : Program} {base : List (String × Symbol)} {taken : List String} {S : Site} {env : Env}
  {name : String} {id index ctx : Nat} {d : Var} {scope : Scope} {v old : Value} {w w' : World}
  {vars : Array Value}

/-- A variable keeps its kind. -/
theorem Setting.change (h : Setting p base taken S env) (hold : env.vars[id]? = some old)
    (hkind : v.kind = old.kind) :
    Setting p base taken S { env with vars := env.vars.setIfInBounds id v } where
  program := h.program
  pool := h.pool
  ids := h.ids
  main := h.main
  packages := h.packages
  blocks := h.blocks
  scopes := h.scopes
  next := by rw [Array.size_setIfInBounds]; exact h.next
  known name id hid := by rw [Array.size_setIfInBounds]; exact h.known name id hid
  types id' u hu := by
    rw [Array.getElem?_setIfInBounds] at hu
    split at hu
    · split at hu
      · cases hu
        rename_i heq _
        subst heq
        rw [hkind]
        exact h.types _ _ hold
      · cases hu
    · exact h.types id' u hu

/-- A block shows a new variable. -/
theorem Setting.declare (h : Setting p base taken S env)
    (hv : VarAt (S.declare name) name S.next d scope index) (hty : d.ty = .basic v.kind)
    (hwide : v.kind.Wide) : Setting p base taken (S.declare name) (env.declare name v) where
  program := h.program
  pool := h.pool
  ids := h.ids
  main := h.main
  packages := h.packages
  blocks := Blocks.declare_ne_nil env.blocks name env.vars.size
  scopes := by
    show S.scopes.declare name (.var S.next) = _
    rw [h.scopes, h.next, Blocks.declare_shown h.blocks]
    rfl
  next := by
    show S.next + 1 = (env.vars.push v).size
    rw [Array.size_push, h.next]
  known name' id hid := by
    show id < (env.vars.push v).size
    rw [Array.size_push]
    have hid : (env.blocks.declare name env.vars.size).find? name' = some id := hid
    rw [Blocks.find?_declare] at hid
    split at hid
    · cases hid
      exact Nat.lt_succ_self _
    · exact Nat.lt_succ_of_lt (h.known _ _ hid)
  types id u hu := by
    have hu : (env.vars.push v)[id]? = some u := hu
    rw [Array.getElem?_push] at hu
    split at hu
    · cases hu
      rename_i heq
      have hvar := hv.var
      rw [h.next] at hvar
      exact ⟨hwide, d, heq ▸ h.program ▸ hvar, hty⟩
    · exact h.types id u hu

theorem Setting.enter (h : Setting p base taken S env) :
    Setting p base taken S.enter { env with blocks := [] :: env.blocks } where
  program := h.program
  pool := h.pool
  ids := h.ids
  main := h.main
  packages := h.packages
  blocks := List.cons_ne_nil [] env.blocks
  scopes := by
    show [] :: S.scopes = _
    rw [h.scopes, Blocks.enter_shown h.blocks]
  next := h.next
  known name id hid := h.known name id hid
  types := h.types

/-- Behind a block its variables are out of scope. -/
theorem Setting.leave {S' : Site} {env' : Env} (h : Setting p base taken S env)
    (h' : Setting p base taken S' env') (hsize : env.vars.size ≤ env'.vars.size) :
    Setting p base taken (S.leave S') { env' with blocks := env.blocks } where
  program := h.program
  pool := h.pool
  ids := h.ids
  main := h.main
  packages := h.packages
  blocks := h.blocks
  scopes := h.scopes
  next := h'.next
  known name id hid := Nat.lt_of_lt_of_le (h.known name id hid) hsize
  types := h'.types

theorem Holds.change (h : Holds p env ctx w vars) (hid : id < env.vars.size)
    (hm : Machine.MainFrame w' ctx (vars.setIfInBounds id v)) :
    Holds p { env with vars := env.vars.setIfInBounds id v } ctx w' (vars.setIfInBounds id v) where
  frame := hm
  size := by rw [Array.size_setIfInBounds]; exact h.size
  values id' u hu := by
    rw [Array.getElem?_setIfInBounds] at hu ⊢
    split at hu
    · rename_i heq
      have hvar := h.values id env.vars[id] (Array.getElem?_eq_getElem hid)
      rw [if_pos heq, if_pos (Array.getElem?_eq_some_iff.1 hvar).1]
      exact hu
    · rw [if_neg ‹_›]
      exact h.values id' u hu

theorem Holds.declare (h : Holds p env ctx w vars) (hid : env.vars.size < vars.size)
    (hm : Machine.MainFrame w' ctx (vars.setIfInBounds env.vars.size v)) :
    Holds p (env.declare name v) ctx w' (vars.setIfInBounds env.vars.size v) where
  frame := hm
  size := by rw [Array.size_setIfInBounds]; exact h.size
  values id u hu := by
    have hu : (env.vars.push v)[id]? = some u := hu
    rw [Array.getElem?_push] at hu
    rw [Array.getElem?_setIfInBounds]
    split at hu
    · cases hu
      rename_i heq
      rw [if_pos heq.symm, if_pos hid]
    · rw [if_neg fun heq => ‹¬_› heq.symm]
      exact h.values id u hu

/-- What is known of a variable that a name stands for. -/
theorem Setting.variable (h : Setting p base taken S env) (hv : VarAt S name id d scope index) :
    ∃ v, scope = .global ∧ index = id ∧ env.blocks.find? name = some id ∧ env.vars[id]? = some v ∧
      v.kind.Wide ∧ d.ty = .basic v.kind := by
  obtain ⟨hscope, -, hindex, hd, hfind⟩ := h.varAt hv
  obtain ⟨v, -, hval⟩ := h.value?_of_var hfind
  obtain ⟨hwide, d', hd', hty⟩ := h.types id v hval
  cases hd.symm.trans hd'
  exact ⟨v, hscope, hindex, h.find?_of_var hfind, hval, hwide, hty⟩

/-- The main body has no parameters. -/
theorem Setting.not_param (h : Setting p base taken S env) {below : Nat} {t : Ty} :
    ¬ParamAt S name below t := fun ⟨_, hfunc, _, _⟩ => nomatch h.main.symm.trans hfunc

end

/-! ## Values of an assignment -/

/-- The place that a value goes to decides on its kind, or it has its default kind. -/
def Placed (p : Pushed) : Prop := p.Default ∨ ∃ k : Kind, k.Wide ∧ p.Fits (.basic k)

/-- Values on the stack, with what they are to the evaluator, the topmost first. -/
inductive Laid (st : Stack) : List Pushed → List Operand → Stack → Prop
  | nil : Laid st [] [] st
  | cons {p : Pushed} {ps : List Pushed} {x : Operand} {xs : List Operand} {v : Value} {st' : Stack}
    (h : Leaves p x v) (hs : Laid st ps xs st') : Laid st (p :: ps) (x :: xs) (st'.push v)

theorem Laid.snoc {st st' : Stack} {p : Pushed} {ps : List Pushed} {x : Operand} {xs : List Operand}
    {v : Value} (h : Leaves p x v) (hs : Laid (st.push v) ps xs st') :
    Laid st (ps ++ [p]) (xs ++ [x]) st' := by
  induction hs with
  | nil => exact .cons h .nil
  | cons h' _ ih => exact .cons h' ih

section

variable {m : Machine} {base : List (String × Symbol)} {taken : List String} {S S' : Site}
  {env : Env} {call : Caller} {ctx : Nat} {w : World} {vars : Array Value} {p : Pushed}
  {is : List Instr} {s : Thread} {st st' : Stack} {x : Operand} {v : Value} {defines : Bool}

theorem Placed.wide (hp : Placed p) (h : Setting m.program base taken S env) {e : Expr}
    (he : e.CallFree taken env.blocks.names) (hcode : Code S e p is) :
    ∀ c v, p = .const c v → v.kind.Wide := by
  obtain hdefault | ⟨k, hk, hfit⟩ := hp
  · exact wide_of_default h he hcode hdefault
  · rintro c v rfl
    exact (show v.kind = k from hfit.2) ▸ hk

/-- The code of values of an assignment leaves them in turn. -/
theorem mirrors_singles (h : Setting m.program base taken S env) (hold : Holds m.program env ctx w vars)
    {es : List Expr} {ps : List Pushed} (hcode : Singles S es ps is) :
    ∀ {s : Thread} {st : Stack}, (∀ e ∈ es, e.CallFree taken env.blocks.names) →
      (∀ e ∈ es, e.Signless S.out.folds) → (∀ p ∈ ps, Placed p) → s.At w st →
        Mirrors (m.follow call ctx is) s (es.mapM (·.evaluate S.out.folds env)) fun _ xs s' =>
          ∃ st', Laid st ps xs.reverse st' ∧ s'.At w st' := by
  induction hcode with
  | nil => exact fun _ _ _ hs => .pure ⟨_, .nil, hs⟩
  | @cons e es p ps is₁ is₂ hcode hp hrest ih =>
    intro s st hfree hsign hplaced hs
    have hfirst : Placed p := hplaced p (by simp)
    rw [List.mapM_cons]
    refine mirrors_append ((mirrors_code h hold (hfree e (by simp)) (hsign e (by simp)) hcode
      (hfirst.wide h (hfree e (by simp)) hcode) hs).bind fun _ x s₁ ⟨v, hx, hs₁⟩ => ?_)
    have hrest : Mirrors (m.follow call ctx is₂ >>= pure) s₁
        (do return x :: (← es.mapM (·.evaluate S.out.folds env))) fun _ xs s' =>
          ∃ st', Laid st (ps ++ [p]) xs.reverse st' ∧ s'.At w st' := by
      refine (ih (fun e he => hfree e (by simp [he])) (fun e he => hsign e (by simp [he]))
        (fun p hp => hplaced p (by simp [hp])) hs₁).bind fun _ xs s₂ ⟨st', hlaid, hs₂⟩ => ?_
      exact .pure ⟨st', by rw [List.reverse_cons]; exact hlaid.snoc hx, hs₂⟩
    rwa [bind_pure] at hrest

/-- An expression of the fragment leaves one value. -/
theorem singles_of_values (h : Setting m.program base taken S env) {n : Nat} {es : List Expr}
    {ps : List Pushed} (hes : ∀ e ∈ es, e.CallFree taken env.blocks.names)
    (hcode : Values S n es ps is) : Singles S es ps is := by
  cases hcode with
  | each _ hs => exact hs
  | sole hcode _ => cases h.expected (hes _ (by simp)) hcode

/-! ## Targets -/

theorem Leaves.wide (h : Leaves p x v) : v.kind.Wide := by
  cases h with
  | const _ hwide => exact hwide
  | value hwide => exact hwide

theorem Leaves.declared {t : Ty} (h : Leaves p x v) (ht : p.declared? = some t) :
    t = .basic v.kind := by
  cases h <;> exact (Option.some.inj ht).symm

theorem Leaves.settled (h : Leaves p x v) (hdefault : p.Default) : x.settled = .ok v := by
  refine congrArg sound (show x.known.bindDefault = .ok v from ?_)
  cases h with
  | const h =>
    have hkind : v.kind = _ := hdefault
    rw [hkind] at h
    exact h
  | value h => exact Constant.bindDefault_bound v

theorem Leaves.fitted {k : Kind} (h : Leaves p x v) (hfit : p.Fits (.basic k)) :
    v.kind = k ∧ x.fitted k = .ok v := by
  have hbind : v.kind = k ∧ x.known.bind k = .ok v := by
    cases h with
    | const h =>
      obtain ⟨-, rfl⟩ : _ ∧ v.kind = k := hfit
      exact ⟨rfl, h⟩
    | value h =>
      have hkind : v.kind = k := by simpa [Pushed.Fits, Ty.assignable, Ty.same] using hfit
      exact ⟨hkind, if_pos hkind⟩
  exact ⟨hbind.1, congrArg sound hbind.2⟩

theorem mirrors_given (h : Setting m.program base taken S env) (hold : Holds m.program env ctx w vars)
    {t : Expr} (ht : isName t = true) (hcode : Given S defines t p is S') (hx : Leaves p x v)
    (hs : s.At w (st.push v)) :
    Mirrors (m.follow call ctx is) s (give defines env x t) fun _ env' s' =>
      Tracks m base taken ctx st S' env' s' ∧
        Follows env (if defines then Names.target env.blocks.names t else env.blocks.names) env' := by
  cases hcode with
  | blank hp hdefault =>
    rw [give, if_pos rfl, hx.settled hdefault]
    refine .done rfl (ensures_single hs fun s' hs' => (Machine.ensures_pop_one hs').imp fun _ s₂ hs₂ => ?_)
    refine ⟨⟨h, w, vars, hs₂, hold⟩, Nat.le_refl _, ?_⟩
    cases defines <;> rfl
  | @var name id index d scope _ hname hv hfit =>
    obtain ⟨old, rfl, rfl, hfind, hval, hwide, hty⟩ := h.variable hv
    rw [hty] at hfit
    obtain ⟨hkind, hfitted⟩ := hx.fitted hfit
    have hid : index < env.vars.size := (Array.getElem?_eq_some_iff.1 hval).1
    have hindex : index < vars.size := (Array.getElem?_eq_some_iff.1 (hold.values _ _ hval)).1
    rw [give, if_neg hname, if_neg (by simp), Env.change_of_value hfind hval, hfitted]
    refine .done rfl (ensures_single hs fun s' hs' =>
      (Machine.ensures_storeVar hold.frame hindex hs').imp fun _ s₂ ⟨w', hs₂, hm⟩ => ?_)
    exact ⟨⟨h.change hval hkind, w', _, hs₂, hold.change hid hm⟩,
      by rw [Array.size_setIfInBounds], rfl⟩
  | param _ hparam => exact absurd hparam h.not_param
  | through => cases ht
  | @define name index d scope _ hname hfresh hv hty hdefault =>
    have hdeclares : env.blocks.declares name = false := by
      rw [h.scopes] at hfresh
      exact Blocks.declares_of_shown h.blocks hfresh
    have h' := h.declare hv (hx.declared hty) hx.wide
    obtain ⟨rfl, hslot, rfl, -, -⟩ := h'.varAt hv
    have hindex : env.vars.size < vars.size := by
      rw [hold.size, ← h.next]
      exact (Array.getElem?_eq_some_iff.1 hslot).1
    rw [give, if_neg hname, if_pos rfl, if_neg (by rw [hdeclares]; simp), hx.settled hdefault]
    refine .done rfl (ensures_single hs fun s' hs' =>
      (Machine.ensures_storeVar hold.frame (h.next ▸ hindex) hs').imp fun _ s₂ ⟨w', hs₂, hm⟩ => ?_)
    rw [h.next] at hm
    refine ⟨⟨h', w', _, hs₂, hold.declare hindex hm⟩, ?_, ?_⟩
    · show env.vars.size ≤ (env.vars.push v).size
      rw [Array.size_push]
      exact Nat.le_succ _
    · show (env.blocks.declare name env.vars.size).names = Names.target env.blocks.names (.ident name)
      rw [Blocks.names_declare, Names.target, if_neg hname]

theorem placed_of_given (h : Setting m.program base taken S env) {t : Expr} (ht : isName t = true)
    (hcode : Given S defines t p is S') : Placed p ∧ (defines = true → p.Default) ∧
      (defines = false → S' = S) := by
  cases hcode with
  | blank _ hdefault => exact ⟨.inl hdefault, fun _ => hdefault, fun _ => rfl⟩
  | var _ hv hfit =>
    obtain ⟨old, -, -, -, -, hwide, hty⟩ := h.variable hv
    exact ⟨.inr ⟨_, hwide, hty ▸ hfit⟩, fun h => (nomatch h), fun _ => rfl⟩
  | param _ hparam => exact absurd hparam h.not_param
  | through => cases ht
  | define _ _ _ _ hdefault => exact ⟨.inl hdefault, fun _ => hdefault, fun h => (nomatch h)⟩

/-- Targets that are defined get values of default kinds. -/
theorem default_of_defined {ts : List Expr} {ps : List Pushed}
    (hcode : GivenAll S true ts ps is S') : (∀ t ∈ ts, isName t = true) → ∀ p ∈ ps, p.Default := by
  generalize hdef : true = defines at hcode
  induction hcode with
  | nil => exact fun _ p hp => nomatch hp
  | @cons _ _ _ _ t ts p ps _ _ hfirst _ ih =>
    subst hdef
    intro hts q hq
    obtain rfl | hq := List.mem_cons.1 hq
    · cases hfirst with
      | blank _ hdefault => exact hdefault
      | define _ _ _ _ hdefault => exact hdefault
    · exact ih rfl (fun t ht => hts t (by simp [ht])) q hq

theorem placed_of_givenAll (h : Setting m.program base taken S env) {ts : List Expr}
    {ps : List Pushed} (hcode : GivenAll S defines ts ps is S') :
    (∀ t ∈ ts, isName t = true) → ∀ p ∈ ps, Placed p := by
  cases defines with
  | true => exact fun hts p hp => .inl (default_of_defined hcode hts p hp)
  | false =>
    generalize hdef : false = defines at hcode
    induction hcode with
    | nil => exact fun _ p hp => nomatch hp
    | @cons _ _ _ _ t ts p ps _ _ hfirst _ ih =>
      subst hdef
      intro hts q hq
      obtain ⟨hplaced, -, hsite⟩ := placed_of_given h (hts t (by simp)) hfirst
      obtain rfl | hq := List.mem_cons.1 hq
      · exact hplaced
      · exact ih (hsite rfl ▸ h) rfl (fun t ht => hts t (by simp [ht])) q hq

theorem mirrors_givenAll {ts : List Expr} {ps : List Pushed} (hcode : GivenAll S defines ts ps is S') :
    ∀ {env : Env} {xs : List Operand} {s : Thread} {w : World} {vars : Array Value} {st' : Stack},
      Setting m.program base taken S env → Holds m.program env ctx w vars →
      (∀ t ∈ ts, isName t = true) → Laid st ps xs st' → s.At w st' →
        Mirrors (m.follow call ctx is) s (giveAll defines env xs ts) fun _ env' s' =>
          Tracks m base taken ctx st S' env' s' ∧ Follows env
            (if defines then ts.foldl Names.target env.blocks.names else env.blocks.names) env' := by
  induction hcode with
  | nil =>
    intro env xs s w vars st' h hold _ hlaid hs
    cases hlaid
    exact .pure ⟨⟨h, w, vars, hs, hold⟩, Nat.le_refl _, by split <;> rfl⟩
  | @cons S S₁ S₂ defines t ts p ps is₁ is₂ hfirst _ ih =>
    intro env xs s w vars st' h hold hts hlaid hs
    cases hlaid with
    | cons hx hlaid =>
      refine mirrors_append ((mirrors_given h hold (hts t (by simp)) hfirst hx hs).bind
        fun _ env₁ s₁ ⟨⟨h₁, w₁, vars₁, hs₁, hold₁⟩, hfollows⟩ => ?_)
      refine (ih h₁ hold₁ (fun t ht => hts t (by simp [ht])) hlaid hs₁).imp
        fun _ env₂ s₂ ⟨htracks, hfollows'⟩ => ⟨htracks, ?_⟩
      rw [hfollows.names] at hfollows'
      cases defines <;> exact hfollows.trans hfollows'

/-! ## Assignments -/

theorem mirrors_assign (h : Setting m.program base taken S env) (hold : Holds m.program env ctx w vars)
    {ts es : List Expr} {ps : List Pushed} {is₁ is₂ : List Instr}
    (hts : ∀ t ∈ ts, isName t = true) (hes : ∀ e ∈ es, e.CallFree taken env.blocks.names)
    (hsign : ∀ e ∈ es, e.Signless S.out.folds) (hvalues : Values S ts.length es ps is₁)
    (htargets : GivenAll S defines ts.reverse ps is₂ S') (hs : s.At w st) :
    Mirrors (m.follow call ctx (is₁ ++ is₂)) s (assign S.out.folds defines env ts es) fun _ env' s' =>
      Tracks m base taken ctx st S' env' s' ∧ Follows env
        (if defines then ts.reverse.foldl Names.target env.blocks.names else env.blocks.names)
        env' := by
  have hts' : ∀ t ∈ ts.reverse, isName t = true := fun t ht => hts t (List.mem_reverse.1 ht)
  refine mirrors_append ((mirrors_singles h hold (singles_of_values h hes hvalues) hes hsign
    (placed_of_givenAll h htargets hts') hs).bind fun _ xs s₁ ⟨st', hlaid, hs₁⟩ => ?_)
  exact mirrors_givenAll htargets h hold hts' hlaid hs₁

/-! ## Updates -/

/-- The address of a variable is on top. -/
theorem Setting.addressed (h : Setting m.program base taken S env) {x : Expr} {t : Ty}
    (hx : isName x = true) (hcode : Addressed S x t is) : ∃ name id v, x = .ident name ∧
      env.blocks.find? name = some id ∧ env.vars[id]? = some v ∧ v.kind.Wide ∧ t = .basic v.kind ∧
      is = [.addrVar .global id] ∧ ∃ d, m.program.mainVars[id]? = some id ∧
        m.program.vars[id]? = some d := by
  cases hcode with
  | through => cases hx
  | @var name id index d scope hv =>
    obtain ⟨v, rfl, rfl, hfind, hval, hwide, hty⟩ := h.variable hv
    obtain ⟨-, hslot, -, hd, -⟩ := h.varAt hv
    exact ⟨name, index, v, rfl, hfind, hval, hwide, hty, rfl, d, hslot, hd⟩

theorem mirrors_addrOp {α : Type} {r : Outcome α} {Q : Unit → α → Thread → Prop} {k : Kind}
    {op : AddressOperator} {n : Nat} {t : Ty} {place : Place}
    (hs : s.At w (st.push (.ptr n t place)))
    (hrest : ∀ s', s'.At w st → Mirrors (Run.applyAddress k op place) s' r Q) :
    Mirrors (m.perform call ctx (.addrOp (some k) (some op))) s r Q :=
  .code (Run.ensures_pop hs) fun _ s₁ ⟨hv, hs₁⟩ => by
    subst hv
    exact hrest s₁ hs₁

/-- A variable whose address is at hand gets the value of an operator. -/
theorem mirrors_change (h : Setting m.program base taken S env) (hold : Holds m.program env ctx w vars)
    {op : Operator} {id : Nat} {old y : Value} (hval : env.vars[id]? = some old)
    (hop : op.hasUpdateForm = true) (hs : s.At w st) :
    Mirrors (Run.updatePlace op old.kind (.slot ctx id) y) s
      (do return { env with vars := env.vars.setIfInBounds id (← evaluated (op.eval old.kind old y)) })
      fun _ env' s' => Tracks m base taken ctx st S env' s' ∧ Follows env env.blocks.names env' := by
  have hupdate : Mirrors (Run.updatePlace op old.kind (.slot ctx id) y >>= pure) s
      (do return { env with vars := env.vars.setIfInBounds id (← evaluated (op.eval old.kind old y)) })
      fun _ env' s' => Tracks m base taken ctx st S env' s' ∧ Follows env env.blocks.names env' := by
    refine (mirrors_updatePlace hold.frame (hold.values id old hval) hs).bind
      fun _ u s₁ ⟨heval, w', hs₁, hm⟩ => .pure ?_
    have hkind : u.kind = old.kind := (Operator.kind_of_eval heval).trans (op.resultKind_of_update hop)
    exact ⟨⟨h.change hval hkind, w', _, hs₁,
      hold.change (Array.getElem?_eq_some_iff.1 hval).1 hm⟩, by rw [Array.size_setIfInBounds], rfl⟩
  rwa [bind_pure] at hupdate

theorem mirrors_update (h : Setting m.program base taken S env) (hold : Holds m.program env ctx w vars)
    {op : Operator} {x value : Expr} (hop : op.hasUpdateForm = true) (hx : isName x = true)
    (hvalue : value.CallFree taken env.blocks.names) (hsign : value.Signless S.out.folds)
    (hcode : Updated S op x value is) (hs : s.At w st) :
    Mirrors (m.follow call ctx is) s (update S.out.folds op env [x] [value]) fun _ env' s' =>
      Tracks m base taken ctx st S env' s' ∧ Follows env env.blocks.names env' := by
  cases hcode with
  | param hparam => exact absurd hparam h.not_param
  | @addr _ _ t p k r is₁ is₂ is₃ hv haddr hk hr hfirst hsecond =>
    obtain ⟨name, id, old, rfl, hfind, hval, hwide, rfl, rfl, d, hslot, hd⟩ := h.addressed hx haddr
    have hkinds := wideKinds_of_resolve (x := .bound old.kind) hwide ((h.expected hvalue hv).wide hk) hr
    obtain ⟨hoperand, hbasic, -⟩ := Operator.operand_of_resolve hr
    have hfirst : r.first = old.kind := hfirst
    rw [hoperand, hfirst] at hbasic
    simp only [Machine.follow_append, bind_assoc]
    refine (mirrors_code h hold hvalue hsign hv
      (wide_of_coercedSecond h hvalue hv hkinds.2.1 hsecond) hs).bind fun _ y s₁ ⟨u, hy, hs₁⟩ => ?_
    rw [Env.change_of_value hfind hval]
    refine .code (ensures_coercedSecond hy hsecond
      (fun k hk => Operator.isBasic_second_of_resolve hr hk) (fun k' hk' l hl => ?_) hs₁)
      fun _ s₂ ⟨u', hu', hs₂⟩ => ?_
    · cases hk.symm.trans hl
      exact Operator.widens_second_of_resolve hr hk'
    refine .code (ensures_single hs₂ fun s' hs' => Machine.ensures_addrVar hold.frame hslot hd hs')
      fun _ s₃ ⟨w', n, hm, hs₃⟩ => ?_
    rw [Operand.update_of_resolve hop (by rw [hy.operandKind hk]; exact hr) hfirst hu', hoperand,
      hfirst, show (Ty.basic old.kind).kind.nameable = some old.kind from
        Kind.nameable_of_isBasic hbasic,
      show (AddressOperator.update op).nameable = some (.update op) from if_pos hop]
    refine mirrors_single hs₃ fun s' hs' => mirrors_addrOp hs' fun s'' hs'' => ?_
    refine .code (Run.ensures_pop hs'') fun _ s₄ ⟨hv, hs₄⟩ => ?_
    subst hv
    exact mirrors_change h { hold with frame := hm } hval hop hs₄

theorem mirrors_step (h : Setting m.program base taken S env) (hold : Holds m.program env ctx w vars)
    {up : Bool} {x : Expr} (hx : isName x = true) (hcode : Stepped S up x is) (hs : s.At w st) :
    Mirrors (m.follow call ctx is) s (step up env x) fun _ env' s' =>
      Tracks m base taken ctx st S env' s' ∧ Follows env env.blocks.names env' := by
  cases hcode with
  | param hparam => exact absurd hparam h.not_param
  | @addr _ t is haddr hnum =>
    obtain ⟨name, id, old, rfl, hfind, hval, hwide, rfl, rfl, d, hslot, hd⟩ := h.addressed hx haddr
    obtain ⟨one, hone⟩ := Value.exists_convert_one hnum
    have hone : (Value.int 1).convert old.kind = some one := hone
    rw [step, Env.change_of_value hfind hval, stepped, hone]
    simp only [Machine.follow_append]
    refine .code (ensures_single hs fun s' hs' => Machine.ensures_addrVar hold.frame hslot hd hs')
      fun _ s₁ ⟨w', n, hm, hs₁⟩ => ?_
    rw [show (Ty.basic old.kind).kind.nameable = some old.kind from
      Kind.nameable_of_isBasic (Kind.isBasic_of_isNumeric hnum)]
    have happly : Run.applyAddress old.kind (stepAddress up) (.slot ctx id) = (do
        Run.updatePlace (stepOperator up) old.kind (.slot ctx id)
          (← Run.convert (.int 1) old.kind)) := by
      cases up <;> rfl
    rw [show (stepAddress up).nameable = some (stepAddress up) by cases up <;> rfl]
    refine mirrors_single hs₁ fun s' hs' => mirrors_addrOp hs' fun s'' hs'' => ?_
    rw [happly]
    refine .code (Run.ensures_convert hone hs'') fun _ s₂ ⟨hv, hs₂⟩ => ?_
    subst hv
    exact mirrors_change h { hold with frame := hm } hval (by cases up <;> rfl) hs₂

/-! ## Statements -/

theorem mirrors_dropped (h : Setting m.program base taken S env) (hold : Holds m.program env ctx w vars)
    {e : Expr} (he : e.CallFree taken env.blocks.names) (hsign : e.Signless S.out.folds)
    (hcode : Dropped S e is) (hs : s.At w st) :
    Mirrors (m.follow call ctx is) s ((Stmt.expr e).evaluate S.out.folds env) fun _ env' s' =>
      Tracks m base taken ctx st S env' s' ∧ Follows env env.blocks.names env' := by
  cases hcode with
  | results hcode => cases h.expected he hcode
  | single hcode hp hdefault =>
    refine mirrors_append ((mirrors_code h hold he hsign hcode (wide_of_default h he hcode hdefault)
      hs).bind fun _ x s₁ ⟨v, hx, hs₁⟩ => ?_)
    rw [hx.settled hdefault]
    exact .done rfl (ensures_single hs₁ fun s' hs' =>
      (Machine.ensures_pop_one hs').imp fun _ s₂ hs₂ => ⟨⟨h, w, vars, hs₂, hold⟩, Nat.le_refl _, rfl⟩)

end

variable {m : Machine} {base : List (String × Symbol)} {taken : List String} {call : Caller}
  {ctx : Nat} {st : Stack}

mutual

theorem mirrors_stmt : ∀ {stmt : Stmt} {S S' : Site} {env : Env} {is : List Instr} {s : Thread},
    StmtCode S stmt is S' → Tracks m base taken ctx st S env s →
    stmt.CallFree taken env.blocks.names → stmt.AllValues (Expr.Signless S.out.folds) →
      Mirrors (m.follow call ctx is) s (stmt.evaluate S.out.folds env) fun _ env' s' =>
        Tracks m base taken ctx st S' env' s' ∧ Follows env (stmt.names env.blocks.names) env'
  | .expr _, _, _, _, _, _, .expr hcode, ⟨h, w, vars, hs, hold⟩, hfree, hsign =>
    mirrors_dropped h hold hfree hsign hcode hs
  | .assign mode targets values, _, _, _, _, _, hcode, ⟨h, w, vars, hs, hold⟩, hfree, hsign => by
    cases hcode with
    | @assign _ _ _ defines _ _ _ _ _ hmode hvalues htargets =>
      subst hmode
      cases defines <;> exact mirrors_assign h hold hfree.1 hfree.2 hsign hvalues htargets hs
    | update hform hupdated =>
      exact mirrors_update h hold hform (hfree.1 _ (by simp)) (hfree.2 _ (by simp))
        (hsign _ (by simp)) hupdated hs
  | .block body, S, _, env, _, _, .block hcode, ⟨h, w, vars, hs, hold⟩, hfree, hsign => by
    have henter : Tracks m base taken ctx st S.enter { env with blocks := [] :: env.blocks } _ :=
      ⟨h.enter, w, vars, hs, { hold with }⟩
    have hbody := mirrors_stmts hcode henter hfree hsign
    have hblock := hbody.bind (f := pure) (g := fun env' => .ok { env' with blocks := env.blocks })
      (R := fun _ env' s' => Tracks m base taken ctx st _ env' s' ∧
        Follows env env.blocks.names env')
      fun _ env₁ s₁ ⟨⟨h₁, w₁, vars₁, hs₁, hold₁⟩, hsize⟩ =>
        .pure ⟨⟨h.leave h₁ hsize, w₁, vars₁, hs₁, { hold₁ with }⟩, hsize, rfl⟩
    rwa [bind_pure] at hblock
  | .increment x, _, _, _, _, _, .increment hcode, ⟨h, w, vars, hs, hold⟩, hfree, _ =>
    mirrors_step h hold hfree hcode hs
  | .decrement x, _, _, _, _, _, .decrement hcode, ⟨h, w, vars, hs, hold⟩, hfree, _ =>
    mirrors_step h hold hfree hcode hs
  | .ret _, _, _, _, _, _, _, _, hfree, _ => hfree.elim

/-- The code of statements does what the evaluator does. -/
theorem mirrors_stmts : ∀ {ss : List Stmt} {S S' : Site} {env : Env} {is : List Instr} {s : Thread},
    StmtsCode S ss is S' → Tracks m base taken ctx st S env s →
    CallFreeStmts taken env.blocks.names ss → AllValuesOf (Expr.Signless S.out.folds) ss →
      Mirrors (m.follow call ctx is) s (evaluateStmts S.out.folds env ss) fun _ env' s' =>
        Tracks m base taken ctx st S' env' s' ∧ env.vars.size ≤ env'.vars.size
  | [], _, _, _, _, _, .nil, htracks, _, _ => .pure ⟨htracks, Nat.le_refl _⟩
  | stmt :: ss, S, _, env, _, _, .cons hcode hrest, htracks, hfree, hsign => by
    have hfirst := mirrors_stmt hcode htracks hfree.1 hsign.1
    refine mirrors_append (hfirst.bind fun _ env₁ s₁ ⟨htracks₁, hfollows⟩ => ?_)
    have hout := hcode.leads.out
    rw [← hout] at hsign ⊢
    exact (mirrors_stmts hrest htracks₁ (hfollows.names ▸ hfree.2) hsign.2).imp
      fun _ env₂ s₂ ⟨htracks₂, hsize⟩ => ⟨htracks₂, Nat.le_trans hfollows.size hsize⟩

end

end Direct

end StackScript
