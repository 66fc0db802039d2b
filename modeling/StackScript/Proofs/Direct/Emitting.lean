import StackScript.Proofs.Direct.Clean

/-!
# Expressions and targets keep states clean

The look-ahead leaves a clean state clean (`after_infer`), and so does the code of an expression whose
constants have no negative zero (`after_emit`). A definition adds a name to the innermost block and a
variable to the main body, which has room for it (`after_defineName`).
-/

namespace StackScript

namespace Direct

open Compile CompileState

variable {env : CompileEnv} {base : List (String × Symbol)} {ns : Names} {most : Nat}
  {P : Constant.Trait} {taken : List String}

/-! ## Expressions -/

/-- The entry stands for an expression. -/
def Stands (folds : Bool) (e : Expr) : Inferred → Prop
  | .const c _ => e.constant? folds = some c
  | .value t => t.kind.Wide
  | _ => False

theorem Stands.wide {folds : Bool} {e : Expr} {i : Inferred} {k : OperandKind}
    (h : Stands folds e i) (hk : i.operandKind? = some k) : k.default.Wide := by
  cases i with
  | const c slot =>
    cases hk
    exact (Expr.plain_of_constant h).wide
  | value t =>
    cases hk
    exact h
  | _ => exact h.elim

theorem after_operandKind {x : Expr} {e : Inferred}
    (he : ∀ k, e.operandKind? = some k → k.default.Wide) :
    After env (Clean P most base ns) (operandKind x e) fun k s =>
      Clean P most base ns s ∧ k.default.Wide := by
  unfold operandKind
  split
  · exact .pure fun _ h => ⟨h, he _ ‹_›⟩
  · exact After.fail
  · exact After.fail

/-- The kinds that operands are brought to. -/
def WideKinds (r : Resolution) : Prop :=
  r.first.Wide ∧ (∀ k, r.second = some k → k.Wide) ∧ r.result.Wide

theorem wideKinds_of_resolve {op : Operator} {x y : OperandKind} {r : Resolution}
    (hx : x.default.Wide) (hy : y.default.Wide) (h : op.resolve x y = .ok r) : WideKinds r := by
  obtain ⟨hfirst, hsecond⟩ := Operator.wide_resolve hx hy h
  refine ⟨hfirst, hsecond, ?_⟩
  have hresult (k : Kind) (hk : k.Wide) : (op.resultKind k).Wide := by
    unfold Operator.resultKind
    split
    · trivial
    · exact hk
  cases hop : op.isShift with
  | true =>
    obtain ⟨-, second, -, rfl⟩ := Operator.resolve_eq_ok_of_shift hop h
    exact hresult _ hfirst
  | false =>
    obtain ⟨k, -, rfl⟩ := Operator.resolve_eq_ok hop h
    exact hresult _ hfirst

theorem after_combine {op : Operator} {x y : Expr} {ex ey : Inferred}
    (hx : Stands env.folds x ex) (hy : Stands env.folds y ey) :
    After env (Clean P most base ns) (combine op x y ex ey) fun c s => Clean P most base ns s ∧
      match c with
      | .folded c => (Expr.binary op x y).constant? env.folds = some c
      | .applied r => WideKinds r := by
  unfold combine
  refine (after_operandKind fun _ => hx.wide).andThen fun kx hkx => ?_
  refine (after_operandKind fun _ => hy.wide).andThen fun ky hky => ?_
  have happly {kx ky : OperandKind} (hkx : kx.default.Wide) (hky : ky.default.Wide) :
      After env (Clean P most base ns)
        (return .applied (← ofOperands (op.resolve kx ky)) : Compile Combined) fun c s =>
          Clean P most base ns s ∧ match c with
            | .folded c => (Expr.binary op x y).constant? env.folds = some c
            | .applied r => WideKinds r :=
    (After.ofOperands fun r hr => wideKinds_of_resolve hkx hky hr).andThen fun r hr =>
      .pure fun _ h => ⟨h, hr⟩
  split
  · refine .read ?_
    cases hfolds : env.folds with
    | true =>
      refine (After.ofFolded fun c hc => ?_).andThen fun c hc => .pure fun _ h => ⟨h, hc⟩
      rw [hfolds] at hx hy
      exact Expr.constant?_binary hx hy hc
    | false =>
      rw [hfolds] at happly
      simp only [Bool.false_eq_true, if_false]
      split
      · exact happly hkx hky
      · exact @happly (.bound kx.default) (.bound ky.default) hkx hky
  · exact happly hkx hky

/-- The look-ahead leaves a clean state clean. -/
theorem after_infer (hbase : Packages base taken) : ∀ {e : Expr}, e.CallFree taken ns →
    After env (Clean P most base ns) (infer e) fun i s =>
      Clean P most base ns s ∧ Stands env.folds e i
  | .ident name, h => by
    unfold infer
    refine (after_resolveName hbase h).andThen fun n hn => ?_
    obtain ⟨id, ty, rfl, hty⟩ | ⟨b, rfl, rfl⟩ := hn
    · exact .pure fun _ h => ⟨h, hty⟩
    · exact .pure fun _ h => ⟨h, Expr.folded?_truth b⟩
  | .lit l, h => by
    unfold infer
    refine (After.ofConstant fun c hc => ?_).andThen fun c hc => .pure fun _ h => ⟨h, hc⟩
    show l.constant.toOption = some c
    rw [hc]
    rfl
  | .binary op x y, h => by
    unfold infer
    refine (after_infer hbase h.1).andThen fun ex hx => ?_
    refine (after_infer hbase h.2).andThen fun ey hy => ?_
    refine (after_combine hx hy).andThen fun c hc => ?_
    split
    · exact .pure fun _ h => ⟨h, hc⟩
    · exact .pure fun _ h => ⟨h, hc.2.2⟩
  | .call .., h | .select .., h | .funcLit .., h | .addrOf _, h | .deref _, h =>
    h.elim

/-- The code of an expression keeps the pool clean. -/
theorem after_emit (hbase : Packages base taken) : ∀ {e : Expr}, e.CallFree taken ns →
    e.Signless env.folds → Keeps env (Clean .signless most base ns) (emit e)
  | .ident name, h, hs => by
    unfold emit
    refine (after_resolveName hbase h).andThen fun n hn => ?_
    refine after_emitNamed (hn.imp id fun htruth => ?_)
    obtain ⟨b, hb, -⟩ := htruth
    exact ⟨b, hb⟩
  | .lit l, h, hs => by
    unfold emit
    refine (After.ofConstant fun c hc => hc).andThen fun c hc => ?_
    have hc : (Expr.lit l).constant? env.folds = some c := by
      show l.constant.toOption = some c
      rw [hc]
      rfl
    exact after_pushConstant (Expr.plain_of_constant hc) (hs.constant hc)
  | .binary op x y, h, hs => by
    unfold emit
    refine (after_infer hbase h.1).andThen fun ex hx => ?_
    refine (after_infer hbase h.2).andThen fun ey hy => ?_
    refine (after_combine hx hy).andThen fun c hc => ?_
    split
    · exact after_pushConstant (Expr.plain_of_constant hc) (hs.constant hc)
    · refine (after_emit hbase h.1 hs.2.1).bind fun _ => ?_
      refine (after_coerceTop hc.1).bind fun _ => ?_
      refine (after_emit hbase h.2 hs.2.2).bind fun _ => ?_
      refine (after_coerceSecond hc.2.1).bind fun _ => ?_
      refine after_word.bind fun _ => after_replace fun e he => ?_
      obtain rfl := List.mem_singleton.1 he
      exact hc.2.2
  | .call .., h, _ | .select .., h, _ | .funcLit .., h, _ | .addrOf _, h, _ | .deref _, h, _ =>
    h.elim

/-! ## Targets -/

theorem after_definedType {e : Inferred} (he : e.Clean P) :
    After env (Clean P most base ns) (definedType e) fun t s =>
      Clean P most base ns s ∧ t.kind.Wide := by
  unfold definedType
  split
  · exact .pure fun _ h => ⟨h, he.1.wide⟩
  · exact .pure fun _ h => ⟨h, he⟩
  · exact After.fail

/-- The assembly with one more variable of the main body. -/
def withVar (a : Assembly) (name : String) (ty : Ty) (block : Bool) : Assembly :=
  { a with
    mainVars := a.mainVars.push a.vars.size
    vars := a.vars.push ⟨.named name, ty, some ⟨0, Assembly.narrow a.mainVars.size⟩, block⟩ }

theorem clean_withVar {a : Assembly} (h : a.Clean P most) {name : String} {ty : Ty} {block : Bool}
    (hty : ty.kind.Wide) : (withVar a name ty block).Clean P (most + 1) where
  pool := h.pool
  vars id v hv := by
    simp only [withVar, Array.getElem?_push] at hv
    split at hv
    · cases hv
      exact hty
    · exact h.vars id v hv
  few := by
    have := h.few
    simp only [withVar, Array.size_push]
    omega

/-- The last variable of the main body, which is the variable `id`, got the slot of its place. -/
def LastSlot (id : Nat) (s : CompileState) : Prop :=
  ∃ v, s.asm.vars[id]? = some v ∧ v.addr = some ⟨0, Assembly.narrow (s.asm.mainVars.size - 1)⟩

theorem after_newVar {name : String} {ty : Ty} (hty : ty.kind.Wide) :
    After env (Clean P most base ns) (newVar name ty) fun id s =>
      Clean P (most + 1) base ns s ∧ LastSlot id s := by
  unfold newVar
  refine (After.get (Q := fun s' s => s' = s ∧ Clean P most base ns s) fun _ h => ⟨rfl, h⟩).bind
    fun s => ?_
  rintro _ ⟨rfl, hs⟩
  have hfunc : s.body.func = none := by rw [hs.body]; rfl
  have hexec : (asm (Assembly.defineVar none (.new (.named name) ty s.names.inInner)) env).exec s =
      (.ok s.asm.vars.size, { s with asm := withVar s.asm name ty s.names.inInner }) :=
    exec_asm_ok (exec_defineGlobal rfl)
  have hvar : (withVar s.asm name ty s.names.inInner).Clean P (most + 1) := clean_withVar hs.asm hty
  rw [hfunc, Task.Ensures, hexec]
  refine ⟨⟨hvar, hs.shadow, hs.names, hs.body⟩, _, Array.getElem?_push_size, ?_⟩
  simp [withVar]

theorem after_declare {name : String} {id : Nat} :
    After env (fun s => Clean P most base ns s ∧ LastSlot id s) (declare name (.var id)) fun _ s =>
      Clean P most base (ns.add name) s ∧ LastSlot id s := by
  unfold declare
  refine (After.get (Q := fun s s₁ => s₁ = s ∧ Clean P most base ns s ∧ LastSlot id s)
    fun _ h => ⟨rfl, h⟩).bind fun s => ?_
  split
  · exact After.fail
  · rename_i hfresh
    rintro s₁ ⟨rfl, hs, hlast⟩
    obtain ⟨bs, hne, hscopes, hnames⟩ := hs.names.blocks
    have hsound := hs.names.sound
    refine ⟨⟨hs.asm, hs.shadow, ⟨NameTable.sound_declare hsound (by simpa using hfresh),
      NameTable.floor_declare.trans hs.names.floor, bs.declare name id,
      bs.declare_ne_nil name id, ?_, ?_⟩, hs.body⟩, hlast⟩
    · rw [← Blocks.declare_shown hne, ← hscopes]
      exact NameTable.scopes_declare hsound
    · rw [Blocks.names_declare, hnames]

theorem after_lastOperand {id : Nat} :
    After env (fun s => Clean P most base ns s ∧ LastSlot id s) (varOperand id) fun r s =>
      Clean P most base ns s ∧ r.2 = Assembly.narrow (s.asm.mainVars.size - 1) := by
  unfold varOperand
  refine After.bind (Q := fun v s => Clean P most base ns s ∧
    v.addr = some ⟨0, Assembly.narrow (s.asm.mainVars.size - 1)⟩) (.asm fun s ⟨hs, v, hv, haddr⟩ => ?_)
    fun v => ?_
  · refine Task.ensures_bind.2 (Task.ensures_get.2 (Task.ensures_expect.2
      ⟨fun w hw => ?_, fun _ => trivial⟩))
    cases hv.symm.trans hw
    exact ⟨hs, haddr⟩
  · split
    · exact After.fail
    · rename_i a ha
      refine (After.get (Q := fun _ s => Clean P most base ns s ∧
        v.addr = some ⟨0, Assembly.narrow (s.asm.mainVars.size - 1)⟩) fun _ h => h).bind fun s => ?_
      dsimp only
      split
      · refine .pure fun s ⟨hs, haddr⟩ => ⟨hs, ?_⟩
        cases ha.symm.trans haddr
        rfl
      · intro s ⟨hs, haddr⟩
        cases ha.symm.trans haddr
        exact absurd rfl ‹¬_ = 0›

/-- A variable that is stored into has a small slot. -/
theorem after_emitStore {id : Nat} :
    After env (fun s => Clean P (Word.slotRange + 1) base ns s ∧ LastSlot id s) (emitStore id)
      fun _ => Clean P Word.slotRange base ns := by
  unfold emitStore
  refine after_lastOperand.bind fun r => .asm fun s ⟨hs, hr⟩ => ?_
  unfold Assembly.storeVar Assembly.emitChecked
  cases hw : Word.makeVar .storeVar r.1 r.2 with
  | error f => trivial
  | ok w =>
    have hlt := Word.lt_of_makeVar hw
    have hfew : s.asm.mainVars.size ≤ Word.slotRange + 1 := hs.asm.few
    have hrange : Word.slotRange + 1 < 1 <<< 32 := by decide
    rw [hr, Assembly.narrow, Nat.mod_eq_of_lt (by omega)] at hlt
    have hsize : s.asm.mainVars.size ≤ Word.slotRange := by omega
    exact ⟨⟨hs.asm.pool, hs.asm.vars, hsize⟩, hs.shadow, hs.names, hs.body⟩

theorem after_defineName {name : String} :
    After env (Clean P Word.slotRange base ns) (defineName name) fun _ =>
      Clean P Word.slotRange base (ns.target (.ident name)) := by
  unfold defineName
  show After env _ _ fun _ => Clean P Word.slotRange base (if name = "_" then ns else ns.add name)
  by_cases hname : name = "_"
  · rw [if_pos hname, if_pos hname]
    exact after_discardTop
  · rw [if_neg hname, if_neg hname]
    refine (After.get (Q := fun _ => Clean P Word.slotRange base ns) fun _ h => h).bind fun s => ?_
    dsimp only
    split
    · exact After.fail
    · refine after_bindDefaultTop.bind fun _ => ?_
      refine after_pop.andThen fun e he => ?_
      refine (after_definedType he).andThen fun t ht => ?_
      exact (after_newVar ht).bind fun id => after_declare.bind fun _ => after_emitStore

theorem after_stored {id : Nat} :
    Keeps env (Clean P most base ns) (emitStore id) :=
  after_varOperand.bind fun _ => after_word

theorem after_assignName (hbase : Packages base taken) {name : String} :
    Keeps env (Clean P most base ns) (assignName name) := by
  unfold assignName
  split
  · exact after_discardTop
  · refine (after_assignable hbase).andThen fun x hx => ?_
    obtain ⟨id, rfl⟩ := hx
    refine after_var.andThen fun v hv => ?_
    refine (after_fitTop hv).bind fun _ => ?_
    exact (after_pop.imp fun _ _ h => h.1).discard.bind fun _ => after_stored

/-- The names behind targets of a definition or an assignment. -/
def targetNames (defines : Bool) (ns : Names) (targets : List Expr) : Names :=
  if defines then targets.foldl Names.target ns else ns

theorem after_targets (hbase : Packages base taken) {defines : Bool} {targets : List Expr}
    (h : ∀ t ∈ targets, isName t = true) :
    After env (Clean P Word.slotRange base ns) (targets.forM (assignTo defines)) fun _ =>
      Clean P Word.slotRange base (targetNames defines ns targets) := by
  induction targets generalizing ns with
  | nil =>
    unfold targetNames
    rw [List.foldl_nil, ite_self]
    exact .pure fun _ h => h
  | cons t ts ih =>
    have hts : ∀ t ∈ ts, isName t = true := fun t ht => h t (by simp [ht])
    obtain ⟨name, rfl⟩ : ∃ name, t = .ident name := by
      have ht := h t (by simp)
      cases t with
      | ident name => exact ⟨name, rfl⟩
      | _ => cases ht
    cases defines with
    | true => exact after_defineName.bind fun _ => ih hts
    | false => exact (after_assignName hbase).bind fun _ => ih hts

end Direct

end StackScript
