import StackScript.Proofs.Direct.Mirroring
import StackScript.Proofs.Direct.Pool
import StackScript.Proofs.Running.Operators

/-!
# Expressions

The code of an expression leaves the value that the evaluator finds (`mirrors_code`). A constant
whose kind was open when its slot was reserved has by then the kind that its place asks for.
-/

namespace StackScript

/-! ## Conversions -/

/-- A number of one kind read at a kind of higher rank. -/
def Kind.Widens (k l : Kind) : Prop := l = k ∨ 0 < k.rank ∧ k.rank < l.rank

theorem Value.convert_of_widens {v : Value} {k : Kind} (h : v.kind.Widens k) :
    ∃ u, v.convert k = some u := by
  obtain rfl | ⟨hpos, hlt⟩ := h
  · exact ⟨v, if_pos rfl⟩
  · have hne : ¬v.kind = k := fun h => by
      rw [h] at hlt
      exact Nat.lt_irrefl _ hlt
    rw [Value.convert, if_neg hne]
    cases v with
    | scalar s =>
      have hne : ¬s.kind = k := hne
      have hlt : s.kind.rank < k.rank := hlt
      have hpos : 0 < s.kind.rank := hpos
      simp only [Value.scalar?, Option.bind_some, Scalar.convert, if_neg hne]
      cases s with
      | int i n =>
        cases k with
        | int j => exact absurd hlt (Nat.lt_irrefl _)
        | float p => exact ⟨_, rfl⟩
        | complex p => exact ⟨_, rfl⟩
        | _ => exact absurd hlt (Nat.not_lt_zero _)
      | float p x =>
        cases k with
        | int j => exact absurd hlt (show ¬2 < 1 by decide)
        | float q => exact absurd hlt (Nat.lt_irrefl _)
        | complex q => exact ⟨_, rfl⟩
        | _ => exact absurd hlt (Nat.not_lt_zero _)
      | complex p x =>
        cases k with
        | int j => exact absurd hlt (show ¬3 < 1 by decide)
        | float q => exact absurd hlt (show ¬3 < 2 by decide)
        | complex q => exact absurd hlt (Nat.lt_irrefl _)
        | _ => exact absurd hlt (Nat.not_lt_zero _)
      | _ => exact absurd hpos (Nat.lt_irrefl _)
    | _ => exact absurd hpos (Nat.lt_irrefl _)

namespace Operator

variable {op : Operator} {x y : OperandKind} {k l : Kind} {r : Resolution}

theorem widens_commonKind_left (h : op.commonKind (.bound k) y = .ok l) : k.Widens l := by
  cases hy : y.isBound with
  | true =>
    cases y with
    | bound m =>
      obtain ⟨-, rfl⟩ | ⟨-, hk, -, hne, rfl⟩ := commonKind_bound h
      · exact .inl rfl
      · split
        · exact .inl rfl
        · exact .inr ⟨hk, by omega⟩
    | _ => cases hy
  | false =>
    cases (commonKind_bound_open hy).symm.trans h
    unfold widenOpen
    split
    · rename_i hwide
      exact .inr ⟨hwide.2.1, by rw [y.rank_default]; exact hwide.2.2⟩
    · exact .inl rfl

theorem widens_commonKind_right (h : op.commonKind x (.bound k) = .ok l) : k.Widens l := by
  cases hx : x.isBound with
  | true =>
    cases x with
    | bound m => exact widens_commonKind_left (commonKind_comm h)
    | _ => cases hx
  | false =>
    rw [commonKind_open_bound hx, ← commonKind_bound_open hx] at h
    exact widens_commonKind_left h

/-- An operand of a known kind is widened at most. -/
theorem widens_first (h : op.settle (.bound k) y = .ok r) : k.Widens r.first := by
  unfold settle at h
  rw [if_pos (by simp [OperandKind.isBound])] at h
  cases hop : op.isShift with
  | true =>
    obtain ⟨-, second, -, rfl⟩ := resolve_eq_ok_of_shift hop h
    exact .inl rfl
  | false =>
    obtain ⟨l, hl, rfl⟩ := resolve_eq_ok hop h
    exact widens_commonKind_left hl

theorem widens_second_of_resolve (h : op.resolve x (.bound k) = .ok r) (hl : r.second = some l) :
    k.Widens l := by
  cases hop : op.isShift with
  | true =>
    obtain ⟨-, second, hsecond, rfl⟩ := resolve_eq_ok_of_shift hop h
    cases hl
    cases k <;> cases hsecond
  | false =>
    obtain ⟨m, hm, rfl⟩ := resolve_eq_ok hop h
    cases hl
    exact widens_commonKind_right hm

theorem widens_second (h : op.settle x (.bound k) = .ok r) (hl : r.second = some l) :
    k.Widens l := by
  unfold settle at h
  rw [if_pos (by simp [OperandKind.isBound])] at h
  exact widens_second_of_resolve h hl

theorem isBasic_second_of_resolve (h : op.resolve x y = .ok r) (hk : r.second = some k) :
    k.isBasic = true := by
  have hbasic := (operand_of_resolve h).2.1
  cases hop : op.isShift with
  | true =>
    obtain ⟨-, second, hsecond, rfl⟩ := resolve_eq_ok_of_shift hop h
    cases hk
    unfold countKind at hsecond
    split at hsecond <;> cases hsecond
    rfl
  | false =>
    obtain ⟨l, -, rfl⟩ := resolve_eq_ok hop h
    cases hk
    exact hbasic

theorem resolve_of_settle (h : op.settle x y = .ok r) :
    ∃ x' y', op.resolve x' y' = .ok r ∧ x'.default = x.default ∧ y'.default = y.default := by
  unfold settle at h
  split at h
  · exact ⟨x, y, h, rfl, rfl⟩
  · exact ⟨_, _, h, rfl, rfl⟩

end Operator

/-! ## The setting -/

namespace Direct

/-- The main body of a program at a site whose variables are those of an environment. -/
structure Setting (p : Program) (base : List (String × Symbol)) (taken : List String) (S : Site)
    (env : Env) : Prop where
  program : S.program = p
  pool : ∀ (i : Nat) (v : Value), p.consts[i]? = some v → v.Signless
  ids : ∃ n, p.mainVars.toList = List.range n
  main : S.body.func = none
  packages : Packages base taken
  blocks : env.blocks ≠ []
  scopes : S.scopes = env.blocks.shown base
  next : S.next = env.vars.size
  known : ∀ name id, env.blocks.find? name = some id → id < env.vars.size
  types : ∀ (id : Nat) (v : Value), env.vars[id]? = some v → v.kind.Wide ∧
    ∃ d, p.vars[id]? = some d ∧ d.ty = .basic v.kind

/-- The frame of the main body shows the values of the variables. -/
structure Holds (p : Program) (env : Env) (ctx : Nat) (w : World) (vars : Array Value) : Prop where
  frame : Machine.MainFrame w ctx vars
  size : vars.size = p.mainVars.size
  values : ∀ (id : Nat) (v : Value), env.vars[id]? = some v → vars[id]? = some v

/-- What the code leaves, as the evaluator has it. -/
inductive Leaves : Pushed → Operand → Value → Prop
  | const {c : Constant} {v : Value} (h : c.bind v.kind = .ok v) (hwide : v.kind.Wide) :
    Leaves (.const c v) (.constant c) v
  | value {v : Value} (h : v.kind.Wide) : Leaves (.value (.basic v.kind)) (.value v) v

/-- What is known of an expression before it runs. -/
inductive Expected (folds : Bool) (e : Expr) : Pushed → Prop
  | const {c : Constant} {v : Value} (h : e.constant? folds = some c) : Expected folds e (.const c v)
  | value {k : Kind} (h : k.Wide) : Expected folds e (.value (.basic k))

theorem Expected.wide {folds : Bool} {e : Expr} {p : Pushed} {k : OperandKind}
    (h : Expected folds e p) (hk : p.operandKind? = some k) : k.default.Wide := by
  cases h with
  | const h =>
    cases hk
    exact (Expr.plain_of_constant h).wide
  | value h =>
    cases hk
    exact h

namespace Setting

variable {p : Program} {base : List (String × Symbol)} {taken : List String} {S : Site} {env : Env}
  {name : String} {id index : Nat} {d : Var} {scope : Scope} {e : Expr} {c : Constant}

/-! ## Names -/

theorem find? (h : Setting p base taken S env) :
    S.scopes.find? name = ((env.blocks.find? name).map .var).or (base.lookup name) := by
  rw [h.scopes, Blocks.find?_shown h.blocks]

/-- A variable of the environment has the slot of its number. -/
theorem varAt (h : Setting p base taken S env) (hv : VarAt S name id d scope index) :
    scope = .global ∧ p.mainVars[id]? = some id ∧ index = id ∧ p.vars[id]? = some d ∧
      S.scopes.find? name = some (.var id) := by
  obtain ⟨n, hn⟩ := h.ids
  obtain ⟨hfind, hvar, hslot⟩ := hv
  rw [h.program] at hvar
  cases scope with
  | up k =>
    have hchain : S.chain = [] := by
      rw [Site.chain, h.main]
      rfl
    rw [Site.varAt, hchain] at hslot
    cases hslot
  | global =>
    have hslot : p.mainVars[index]? = some id := by
      rw [← h.program]
      exact hslot
    have heq := hslot
    rw [← Array.getElem?_toList, hn] at heq
    obtain ⟨hlt, rfl⟩ := List.getElem?_eq_some_iff.1 heq
    rw [List.getElem_range] at hslot hvar hfind ⊢
    exact ⟨rfl, hslot, rfl, hvar, hfind⟩

theorem find?_of_var (h : Setting p base taken S env) (hfind : S.scopes.find? name = some (.var id)) :
    env.blocks.find? name = some id := by
  rw [h.find?] at hfind
  cases hid : env.blocks.find? name with
  | some id' =>
    rw [hid] at hfind
    cases hfind
    rfl
  | none =>
    rw [hid] at hfind
    obtain ⟨path, hpath⟩ := h.packages.package name _ hfind
    cases hpath

/-- A name of the fragment stands for a variable or for nothing that is declared. -/
theorem find?_of_callFree (h : Setting p base taken S env)
    (hname : (Expr.ident name).CallFree taken env.blocks.names) :
    (∃ id, S.scopes.find? name = some (.var id)) ∨
      S.scopes.find? name = none ∧ (name = toString true ∨ name = toString false) := by
  rw [h.find?]
  cases hid : env.blocks.find? name with
  | some id => exact .inl ⟨id, rfl⟩
  | none =>
    rcases hname with hdeclare | ⟨htruth, htaken⟩
    · rw [Blocks.declare_names, hid] at hdeclare
      cases hdeclare
    · refine .inr ⟨?_, htruth⟩
      cases hb : base.lookup name with
      | none => rfl
      | some x => exact absurd (h.packages.taken name x hb) htaken

theorem value?_of_var (h : Setting p base taken S env)
    (hfind : S.scopes.find? name = some (.var id)) :
    ∃ v, env.value? name = some v ∧ env.vars[id]? = some v := by
  have hid := h.find?_of_var hfind
  have hlt := h.known name id hid
  exact ⟨env.vars[id], by rw [Env.value?, hid]; exact Array.getElem?_eq_getElem hlt,
    Array.getElem?_eq_getElem hlt⟩

/-! ## Constants -/

theorem constant_of_means (hm : Means S e c) : e.constant? S.out.folds = some c := by
  induction hm with
  | lit h =>
    show Except.toOption _ = _
    rw [h]
    rfl
  | truth h => exact Expr.folded?_truth _
  | folded hfolds hx hy h ihx ihy =>
    rw [hfolds] at ihx ihy ⊢
    exact Expr.constant?_binary ihx ihy h

theorem evaluate_of_means (h : Setting p base taken S env) (hm : Means S e c) :
    e.evaluate S.out.folds env = .ok (.constant c) := by
  induction hm with
  | lit hl =>
    rw [Expr.evaluate, hl]
    rfl
  | @truth b hfind =>
    have hnone : env.value? (toString b) = none := by
      rw [h.find?] at hfind
      cases hid : env.blocks.find? (toString b) with
      | none => rw [Env.value?, hid]; rfl
      | some id =>
        rw [hid] at hfind
        cases hfind
    rw [Expr.evaluate, hnone]
    cases b <;> rfl
  | folded hfolds hx hy hc ihx ihy =>
    rw [Expr.evaluate, ihx, ihy, hfolds]
    show (do return .constant (← sound _) : Outcome Operand) = _
    rw [hc]
    rfl

/-! ## What the code is -/

/-- The code of an expression of the fragment. -/
inductive Shape (S : Site) (folds : Bool) : Expr → Pushed → List Instr → Prop
  | const {e : Expr} {c : Constant} {v : Value} {i : Instr} (h : Means S e c) (hc : c.Yields v)
    (hpush : i.pushed? S.program.consts = some v) : Shape S folds e (.const c v) [i]
  | var {name : String} {id index : Nat} {d : Var} {scope : Scope}
    (h : VarAt S name id d scope index) :
    Shape S folds (.ident name) (.value d.ty) [.loadVar scope index]
  | binary {op : Operator} {x y : Expr} {p q : Pushed} {kx ky : OperandKind} {r : Resolution}
    {is₁ is₂ is₃ is₄ : List Instr} (hx : Code S x p is₁) (hy : Code S y q is₃)
    (hfold : ¬(folds = true ∧ p.isConst = true ∧ q.isConst = true))
    (hkx : p.operandKind? = some kx) (hky : q.operandKind? = some ky)
    (hr : op.settle kx ky = .ok r) (hp : p.Coerced r.first is₂) (hq : q.CoercedSecond r.second is₄) :
    Shape S folds (.binary op x y) (.value (.basic r.result))
      (is₁ ++ is₂ ++ (is₃ ++ is₄) ++ [.builtinOp r.operand.nameable (some op)])

theorem shape (h : Setting p base taken S env) {pushed : Pushed} {is : List Instr}
    (he : e.CallFree taken env.blocks.names) (hcode : Code S e pushed is) :
    Shape S S.out.folds e pushed is := by
  have hname {name : String} {x : Symbol} (he : (Expr.ident name).CallFree taken env.blocks.names)
      (hx : S.scopes.find? name = some x) : ∃ id, x = .var id := by
    obtain ⟨id, hid⟩ | ⟨hnone, -⟩ := h.find?_of_callFree he
    · exact ⟨id, Option.some.inj (hx.symm.trans hid)⟩
    · rw [hnone] at hx
      cases hx
  cases hcode with
  | const h hc hpush => exact .const h hc hpush
  | var h => exact .var h
  | binary hx hy hfold hkx hky hr hp hq => exact .binary hx hy hfold hkx hky hr hp hq
  | param hparam =>
    obtain ⟨hfind, hfunc, -, -⟩ := hparam
    obtain ⟨id, hid⟩ := hname he hfind
    cases hid
  | package hfind =>
    obtain ⟨id, hid⟩ := hname he hfind
    cases hid
  | func hfunc =>
    obtain ⟨id, hid⟩ := hname he hfunc.find
    cases hid
  | native hhost =>
    obtain ⟨hfind, htrue, hfalse, -⟩ | _ := hhost
    · obtain ⟨id, hid⟩ | ⟨-, htruth⟩ := h.find?_of_callFree he
      · rw [hfind] at hid
        cases hid
      · exact absurd htruth (not_or.2 ⟨htrue, hfalse⟩)
    · exact he.elim
  | _ => exact he.elim

theorem wide_result {op : Operator} {kx ky : OperandKind} {r : Resolution}
    (hx : kx.default.Wide) (hy : ky.default.Wide) (hr : op.settle kx ky = .ok r) : WideKinds r := by
  obtain ⟨kx', ky', hr, hdx, hdy⟩ := Operator.resolve_of_settle hr
  exact wideKinds_of_resolve (hdx ▸ hx) (hdy ▸ hy) hr

theorem expected_var (h : Setting p base taken S env) {folds : Bool}
    (hv : VarAt S name id d scope index) : Expected folds e (.value d.ty) := by
  obtain ⟨-, -, -, hd, hfind⟩ := h.varAt hv
  obtain ⟨v, -, hval⟩ := h.value?_of_var hfind
  obtain ⟨hwide, d', hd', hty⟩ := h.types id v hval
  cases hd.symm.trans hd'
  rw [hty]
  exact .value hwide

/-- What is known of the code of an expression. -/
theorem expected (h : Setting p base taken S env) : ∀ {e : Expr} {pushed : Pushed}
    {is : List Instr}, e.CallFree taken env.blocks.names → Code S e pushed is →
      Expected S.out.folds e pushed
  | .lit _, _, _, he, hcode => by
    cases h.shape he hcode with
    | const hm => exact .const (constant_of_means hm)
  | .ident _, _, _, he, hcode => by
    cases h.shape he hcode with
    | const hm => exact .const (constant_of_means hm)
    | var hv => exact h.expected_var hv
  | .binary op x y, _, _, he, hcode => by
    cases h.shape he hcode with
    | const hm => exact .const (constant_of_means hm)
    | binary hx hy _ hkx hky hr =>
      have hwx := (h.expected he.1 hx).wide hkx
      have hwy := (h.expected he.2 hy).wide hky
      exact .value (wide_result hwx hwy hr).2.2
  | .call .., _, _, he, _ | .select .., _, _, he, _ | .funcLit .., _, _, he, _
  | .addrOf _, _, _, he, _ | .deref _, _, _, he, _ => he.elim

end Setting

/-! ## Operands brought to their kinds -/

section Coerced

variable {m : Machine} {call : Caller} {ctx : Nat} {s : Thread} {w : World} {st : Stack}
  {pushed : Pushed} {x : Operand} {v : Value} {k : Kind} {is : List Instr} {r : Resolution}

theorem coerce_of_bind {c : Constant} (h : c.bind v.kind = .ok v) : c.coerce v.kind = .ok v := by
  cases c with
  | bound u =>
    simp only [Constant.bind] at h
    split at h <;> cases h
    simp only [Constant.coerce, Value.convert, if_true]
  | _ => exact h

/-- The kind of the operand, if it is known, is widened at most. -/
def Widened (pushed : Pushed) (k : Kind) : Prop :=
  ∀ l, pushed.operandKind? = some (.bound l) → l.Widens k

theorem ensures_convert_top (hbasic : k.isBasic = true) (hwiden : v.kind.Widens k)
    (hs : s.At w (st.push v)) : (m.follow call ctx [.convert k.nameable]).Ensures s
      (fun _ s' => ∃ u, v.convert k = some u ∧ s'.At w (st.push u)) fun e _ => e.Limited := by
  obtain ⟨u, hu⟩ := Value.convert_of_widens hwiden
  rw [Kind.nameable_of_isBasic hbasic]
  exact ensures_single hs fun s' hs' => (Machine.ensures_converted hu hs').imp fun _ _ h => ⟨u, hu, h⟩

theorem coerce_of_convert {u : Value} (h : v.convert k = some u) :
    (Constant.bound v).coerce k = .ok u := by
  rw [Constant.coerce, h]

/-- An operand is brought to a kind as the evaluator does it. -/
theorem ensures_coerced (hleaves : Leaves pushed x v) (hcoerced : pushed.Coerced k is)
    (hbasic : k.isBasic = true) (hwiden : Widened pushed k) (hs : s.At w (st.push v)) :
    (m.follow call ctx is).Ensures s
      (fun _ s' => ∃ u, x.known.coerce k = .ok u ∧ s'.At w (st.push u)) fun e _ => e.Limited := by
  cases hcoerced with
  | const hk =>
    cases hleaves with
    | const h =>
      subst hk
      exact ensures_nil ⟨v, coerce_of_bind h, hs⟩
  | convertConst hk =>
    cases hleaves with
    | const h =>
      simp only [Constant.bind] at h
      split at h <;> cases h
      refine (ensures_convert_top hbasic (hwiden _ rfl) hs).imp fun _ _ hconverted => ?_
      obtain ⟨u, hu, hs'⟩ := hconverted
      exact ⟨u, coerce_of_convert hu, hs'⟩
  | value hk =>
    cases hleaves with
    | value h => exact ensures_nil ⟨v, coerce_of_convert (if_pos hk), hs⟩
  | convert hk =>
    cases hleaves with
    | value h =>
      refine (ensures_convert_top hbasic (hwiden _ rfl) hs).imp fun _ _ hconverted => ?_
      obtain ⟨u, hu, hs'⟩ := hconverted
      exact ⟨u, coerce_of_convert hu, hs'⟩

/-- The second operand is brought to what the operator takes. -/
theorem ensures_coercedSecond (hleaves : Leaves pushed x v)
    (hcoerced : pushed.CoercedSecond r.second is)
    (hbasic : ∀ k, r.second = some k → k.isBasic = true)
    (hwiden : ∀ k, r.second = some k → Widened pushed k) (hs : s.At w (st.push v)) :
    (m.follow call ctx is).Ensures s
      (fun _ s' => ∃ u, x.known.coerceSecond r.second = .ok u ∧ s'.At w (st.push u))
      fun e _ => e.Limited := by
  cases hsecond : r.second with
  | some k =>
    rw [hsecond] at hcoerced
    exact ensures_coerced hleaves hcoerced (hbasic k hsecond) (hwiden k hsecond) hs
  | none =>
    rw [hsecond] at hcoerced
    obtain ⟨rfl, hdefault⟩ := hcoerced
    refine ensures_nil ⟨v, ?_, hs⟩
    cases hleaves with
    | const h =>
      have hkind : v.kind = _ := hdefault
      rw [hkind] at h
      exact h
    | value h => exact Constant.bindDefault_bound v

end Coerced

/-! ## The law -/

section

variable {m : Machine} {base : List (String × Symbol)} {taken : List String} {S : Site} {env : Env}
  {call : Caller} {ctx : Nat} {w : World} {vars : Array Value}

theorem evaluate_of_var (h : Setting m.program base taken S env) {name : String} {id index : Nat}
    {d : Var} {scope : Scope} (hv : VarAt S name id d scope index) (folds : Bool) :
    ∃ v, (Expr.ident name).evaluate folds env = .ok (.value v) ∧ env.vars[id]? = some v ∧
      v.kind.Wide ∧ d.ty = .basic v.kind := by
  obtain ⟨-, -, -, hd, hfind⟩ := h.varAt hv
  obtain ⟨v, hvalue, hval⟩ := h.value?_of_var hfind
  obtain ⟨hwide, d', hd', hty⟩ := h.types id v hval
  cases hd.symm.trans hd'
  exact ⟨v, by rw [Expr.evaluate, hvalue], hval, hwide, hty⟩

theorem signless_pushed {consts : Array Value}
    (hpool : ∀ (i : Nat) (v : Value), consts[i]? = some v → v.Signless) {i : Instr} {v : Value}
    (h : i.pushed? consts = some v) : v.Signless := by
  cases i with
  | pushInt k n =>
    cases k with
    | none => cases h
    | some k =>
      cases h
      unfold Value.ofWord
      split <;> trivial
  | pushConst index => exact hpool index v h
  | _ => cases h

theorem combine_eq_compute {folds : Bool} {op : Operator} {p q : Pushed} {x y : Operand}
    {v u : Value} (hx : Leaves p x v) (hy : Leaves q y u)
    (hfold : ¬(folds = true ∧ p.isConst = true ∧ q.isConst = true)) :
    x.combine folds op y = x.compute op y := by
  cases folds with
  | false => rfl
  | true =>
    cases hx with
    | value h => rfl
    | const h =>
      cases hy with
      | value h => rfl
      | const h => exact absurd ⟨rfl, rfl, rfl⟩ hfold

theorem Leaves.operandKind {p : Pushed} {x : Operand} {v : Value} {k : OperandKind}
    (h : Leaves p x v) (hk : p.operandKind? = some k) : x.known.operandKind = k := by
  cases h with
  | const h =>
    cases hk
    rfl
  | value h =>
    cases hk
    rfl

/-- A constant that is brought to a kind of double precision was pushed at one. -/
theorem wide_of_coerced (h : Setting m.program base taken S env) {e : Expr} {pushed : Pushed}
    {is js : List Instr} {k : Kind} (he : e.CallFree taken env.blocks.names)
    (hcode : Code S e pushed is) (hk : k.Wide) (hcoerced : pushed.Coerced k js) :
    ∀ c v, pushed = .const c v → v.kind.Wide := by
  rintro c v rfl
  cases hcoerced with
  | const hv => exact hv ▸ hk
  | @convertConst _ w hv =>
    cases h.shape he hcode with
    | const hm hc =>
      obtain ⟨w', hbind, -⟩ := hc
      have hwide := (Expr.plain_of_constant (Setting.constant_of_means hm)).wide
      simp only [Constant.bind] at hbind
      split at hbind
      · rename_i heq
        exact heq ▸ hwide
      · cases hbind

theorem wide_of_default (h : Setting m.program base taken S env) {e : Expr} {pushed : Pushed}
    {is : List Instr} (he : e.CallFree taken env.blocks.names) (hcode : Code S e pushed is)
    (hdefault : pushed.Default) : ∀ c v, pushed = .const c v → v.kind.Wide := by
  rintro c v rfl
  have hv : v.kind = c.operandKind.default := hdefault
  rw [hv]
  exact (h.expected he hcode).wide rfl

theorem wide_of_coercedSecond (h : Setting m.program base taken S env) {e : Expr}
    {pushed : Pushed} {is js : List Instr} {r : Resolution}
    (he : e.CallFree taken env.blocks.names) (hcode : Code S e pushed is)
    (hk : ∀ k, r.second = some k → k.Wide) (hcoerced : pushed.CoercedSecond r.second js) :
    ∀ c v, pushed = .const c v → v.kind.Wide := by
  cases hsecond : r.second with
  | some k =>
    rw [hsecond] at hcoerced
    exact wide_of_coerced h he hcode (hk k hsecond) hcoerced
  | none =>
    rw [hsecond] at hcoerced
    exact wide_of_default h he hcode hcoerced.2

/-- The code of an expression does what the evaluator does. -/
theorem mirrors_code (h : Setting m.program base taken S env) (hold : Holds m.program env ctx w vars) :
    ∀ {e : Expr} {pushed : Pushed} {is : List Instr} {s : Thread} {st : Stack},
      e.CallFree taken env.blocks.names → e.Signless S.out.folds → Code S e pushed is →
      (∀ c v, pushed = .const c v → v.kind.Wide) → s.At w st →
        Mirrors (m.follow call ctx is) s (e.evaluate S.out.folds env) fun _ x s' =>
          ∃ v, Leaves pushed x v ∧ s'.At w (st.push v)
  | e, pushed, is, s, st, he, hsign, hcode, hwide, hs => by
    cases h.shape he hcode with
    | @const _ c v i hm hc hpush =>
      have hconst := Setting.constant_of_means hm
      rw [h.program] at hpush
      have hbind := hc.eq (hsign.constant hconst) (Expr.plain_of_constant hconst)
        (hwide c v rfl) (signless_pushed h.pool hpush)
      exact .done (h.evaluate_of_means hm) (ensures_single hs fun s' hs' =>
        (Machine.ensures_pushed hpush hs').imp fun _ _ hs'' => ⟨v, .const hbind (hwide c v rfl), hs''⟩)
    | @var name id index d scope hv =>
      obtain ⟨v, heval, hval, hw, hty⟩ := evaluate_of_var h hv S.out.folds
      obtain ⟨rfl, -, rfl, -, -⟩ := h.varAt hv
      rw [hty]
      exact .done heval (ensures_single hs fun s' hs' =>
        (Machine.ensures_loadVar hold.frame (hold.values _ _ hval) hs').imp
          fun _ _ hs'' => ⟨v, .value hw, hs''⟩)
    | @binary op x y p q kx ky r is₁ is₂ is₃ is₄ hx hy hfold hkx hky hr hp hq =>
      obtain ⟨hfirst, hsecond, hresult⟩ := Setting.wide_result ((h.expected he.1 hx).wide hkx)
        ((h.expected he.2 hy).wide hky) hr
      obtain ⟨kx', ky', hresolve, -, -⟩ := Operator.resolve_of_settle hr
      obtain ⟨hoperand, hbasic, hpromised⟩ := Operator.operand_of_resolve hresolve
      have hwx : Widened p r.first := fun l hl => by
        cases hkx.symm.trans hl
        exact Operator.widens_first hr
      have hwy (k : Kind) (hk : r.second = some k) : Widened q k := fun l hl => by
        cases hky.symm.trans hl
        exact Operator.widens_second hr hk
      rw [Kind.nameable_of_isBasic hbasic, Expr.evaluate]
      simp only [Machine.follow_append, bind_assoc]
      refine (mirrors_code h hold he.1 hsign.2.1 hx (wide_of_coerced h he.1 hx hfirst hp) hs).bind
        fun _ a s₁ ⟨v, ha, hs₁⟩ => ?_
      refine .code (ensures_coerced ha hp (hoperand ▸ hbasic) hwx hs₁) fun _ s₂ ⟨v', hv', hs₂⟩ => ?_
      refine (mirrors_code h hold he.2 hsign.2.2 hy
        (wide_of_coercedSecond h he.2 hy hsecond hq) hs₂).bind fun _ b s₃ ⟨u, hb, hs₃⟩ => ?_
      refine .code (ensures_coercedSecond hb hq
        (fun k hk => Operator.isBasic_second_of_resolve hresolve hk) hwy hs₃)
        fun _ s₄ ⟨u', hu', hs₄⟩ => ?_
      rw [combine_eq_compute ha hb hfold, Operand.compute, ha.operandKind hkx, hb.operandKind hky]
      refine .outcome (b := r) (by rw [hr]; rfl) ?_
      refine .outcome (b := v') (by rw [hv']; rfl) ?_
      refine .outcome (b := u') (by rw [hu']; rfl) ?_
      have hop : Mirrors (m.follow call ctx [.builtinOp (some r.operand) (some op)] >>= pure) s₄
          (do return .value (← evaluated (op.eval r.operand v' u'))) fun _ x s' =>
            ∃ v, Leaves (.value (.basic r.result)) x v ∧ s'.At w (st.push v) := by
        refine (mirrors_single hs₄ fun s' hs' => mirrors_builtinOp hs').bind
          fun _ v s₅ ⟨hv, hs₅⟩ => ?_
        have hkind : v.kind = r.result := (Operator.kind_of_eval hv).trans hpromised.symm
        rw [← hkind] at hresult ⊢
        exact .pure ⟨v, .value hresult, hs₅⟩
      rwa [bind_pure] at hop

end

end Direct

end StackScript
