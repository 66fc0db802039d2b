import StackScript.Proofs.Translation.Files
import StackScript.Proofs.Foretelling.Asking

/-!
# What the look-ahead foretells

From any state of the compiler: where code of an expression is emitted, looking ahead at the
expression would have succeeded, and the one entry that the code leaves on the shadow stack is the
one that was found (`Compile.infer_of_emit`). Only a function is found as a function and left as a
value, and a constant gets a slot. Emitting takes nothing off the shadow stack that it has not put
there (`CompileState.Holds`).
-/

namespace StackScript

open CompileState

/-! ## Entries -/

/-- An entry of the look-ahead, and the one that code leaves for it. -/
inductive Inferred.Foretells : Inferred → Inferred → Prop
  | const (c : Constant) (slot slot' : ConstSlot) : Foretells (.const c slot) (.const c slot')
  | value (t : Ty) : Foretells (.value t) (.value t)
  | results (ts : List Ty) : Foretells (.results ts) (.results ts)
  | func (f : FuncRef) (sig : Signature) : Foretells (.func f sig) (.value (.func sig))
  | package (path name : String) : Foretells (.package path name) (.package path name)

namespace Inferred

theorem foretells_self {i : Inferred} (h : ∀ f sig, i ≠ .func f sig) : i.Foretells i := by
  cases i with
  | const c slot => exact .const c slot slot
  | value t => exact .value t
  | results ts => exact .results ts
  | func f sig => exact absurd rfl (h f sig)
  | package path name => exact .package path name

theorem Foretells.operandKind? {i i' : Inferred} (h : i.Foretells i') :
    i'.operandKind? = i.operandKind? := by
  cases h <;> rfl

theorem Foretells.width {i i' : Inferred} (h : i.Foretells i') : i'.width = i.width := by
  cases h <;> rfl

end Inferred

theorem Compile.foretells_resultEntry (sig : Signature) :
    (resultEntry sig).Foretells (resultEntry sig) :=
  Inferred.foretells_self fun f sig' h => by
    unfold resultEntry at h
    split at h <;> cases h

/-! ## The height of the shadow stack -/

/-- There are `n` entries above those of `base`. -/
def CompileState.Holds (base : Shadow) (n : Nat) (s : CompileState) : Prop :=
  ∃ es : Shadow, es.length = n ∧ s.shadow = es ++ base

/-- There are some entries above those of `base`. -/
def CompileState.Above (base : Shadow) (s : CompileState) : Prop := ∃ n, s.Holds base n

namespace Compile

variable {α : Type} {env : CompileEnv} {base : Shadow} {n : Nat}

theorem holds_of_eq {s : CompileState} (h : s.shadow = base) : s.Holds base 0 := ⟨[], rfl, h⟩

theorem eq_of_holds {s : CompileState} (h : s.Holds base 0) : s.shadow = base := by
  obtain ⟨es, hlen, hs⟩ := h
  rw [hs, List.eq_nil_of_length_eq_zero hlen, List.nil_append]

/-- What is so of every height is so above `base`. -/
theorem After.above {t : Compile α} {Q : α → CompileState → Prop}
    (h : ∀ n, After env (Holds base n) t Q) : After env (Above base) t Q :=
  fun s ⟨n, hs⟩ => h n s hs

theorem Asks.keeps {t : Compile α} (h : Asks env t) : Keeps env (Holds base n) t :=
  fun s ⟨es, hlen, hs⟩ => Task.Ensures.of_exec
    (fun a s' hexec => ⟨es, hlen, (h s a s' hexec).1.shadow.trans hs⟩) fun _ _ _ => trivial

/-! ### Single steps -/

theorem holds_asm (t : Asm α) : Keeps env (Holds base n) (asm t) :=
  .asm fun _ hs => Task.Ensures.of_exec (fun _ _ _ => hs) fun _ _ _ => trivial

theorem holds_push (e : Inferred) :
    After env (Holds base n) (push e) fun _ => Holds base (n + 1) :=
  .modify fun s ⟨es, hlen, hs⟩ =>
    ⟨e :: es, by rw [List.length_cons, hlen], by rw [hs, List.cons_append]⟩

theorem leaves_push (e : Inferred) :
    After env (Holds base 0) (push e) fun _ s => s.shadow = e :: base :=
  .modify fun s hs => by rw [eq_of_holds hs]

theorem holds_pop : After env (Holds base (n + 1)) pop fun _ => Holds base n := by
  unfold pop
  refine (After.get (Q := fun s' s => s' = s ∧ Holds base (n + 1) s) fun _ h => ⟨rfl, h⟩).bind
    fun s => ?_
  rintro _ ⟨rfl, es, hlen, hs⟩
  obtain ⟨e, es, rfl⟩ := List.exists_cons_of_length_eq_add_one hlen
  rw [hs]
  exact ⟨es, Nat.succ.inj hlen, rfl⟩

theorem holds_top : Keeps env (Holds base n) top := by
  intro s hs
  show Task.Ensures (Task.ofChecked s.shadow.top?) s _ _
  exact Task.ensures_ofChecked.2 ⟨fun _ _ => hs, fun _ _ => trivial⟩

/-- The two operands give way to the result. -/
theorem leaves_replace (e : Inferred) :
    After env (Holds base 2) (replace 2 [e]) fun _ s => s.shadow = e :: base := by
  rintro s ⟨es, hlen, hs⟩
  have hle : 2 ≤ s.shadow.length := by
    rw [hs, List.length_append, hlen]
    omega
  show Task.Ensures (do
    let shadow ← Task.ofChecked (s.shadow.replace? 2 [e])
    modify fun s => { s with shadow }) s _ _
  rw [Shadow.replace?, if_pos hle, hs, ← hlen, List.drop_left]
  rfl

theorem holds_cutTo : After env (Above base) (cutTo base.length) fun _ => Holds base 0 := by
  rintro s ⟨n, es, hlen, hs⟩
  have hle : base.length ≤ s.shadow.length := by
    rw [hs, List.length_append]
    omega
  show Task.Ensures (do
    let shadow ← Task.ofChecked (s.shadow.cutTo? base.length)
    modify fun s => { s with shadow }) s _ _
  rw [Shadow.cutTo?, if_pos hle, hs, List.length_append, Nat.add_sub_cancel, List.drop_left]
  exact holds_of_eq rfl

/-! ### Coercions -/

theorem holds_fillSlot (offset : Nat) (v : Value) : Keeps env (Holds base n) (fillSlot offset v) :=
  (holds_asm _).bind fun _ => holds_asm _

theorem leaves_pushConstant (c : Constant) : After env (Holds base 0) (pushConstant c) fun _ s =>
    ∃ slot, s.shadow = .const c slot :: base := by
  unfold pushConstant
  split
  · exact (holds_asm _).discard.bind fun _ => (leaves_push _).imp fun _ _ h => ⟨_, h⟩
  · exact (holds_asm _).bind fun _ => (leaves_push _).imp fun _ _ h => ⟨_, h⟩

theorem holds_coerceTop (k : Kind) : Keeps env (Holds base (n + 1)) (coerceTop k) := by
  have hconvert : After env (Holds base n) (do
      asm (Assembly.convert k)
      push (.value (.basic k))) fun _ => Holds base (n + 1) :=
    (holds_asm _).bind fun _ => holds_push _
  unfold coerceTop
  refine holds_pop.bind fun e => ?_
  split
  · exact (Asks.ofConstant _).keeps.bind fun v => (holds_fillSlot _ v).bind fun _ => holds_push _
  · split
    · exact holds_push _
    · split
      · exact After.fail
      · exact hconvert
  · split
    · exact holds_push _
    · exact hconvert
  · exact holds_push _

theorem holds_bindDefaultTop : Keeps env (Holds base (n + 1)) bindDefaultTop := by
  unfold bindDefaultTop
  refine holds_top.bind fun e => ?_
  split
  · exact holds_coerceTop _
  · exact After.pure fun _ hs => hs

theorem holds_coerceSecond (r : Resolution) : Keeps env (Holds base (n + 1)) (coerceSecond r) := by
  unfold coerceSecond
  split
  · exact holds_coerceTop _
  · exact holds_bindDefaultTop

theorem holds_checkAssignable (t target : Ty) (context : String) :
    Keeps env (Holds base n) (checkAssignable t target context) := by
  unfold checkAssignable
  split
  · exact After.pure fun _ hs => hs
  · exact After.fail

theorem holds_fitConstant (c : Constant) (slot : ConstSlot) (target : Ty) (context : String) :
    Keeps env (Holds base n) (fitConstant c slot target context) := by
  have hkind : Keeps env (Holds base n) (constantKind c target context) := by
    unfold constantKind
    split
    · exact After.pure fun _ hs => hs
    · split
      · exact After.pure fun _ hs => hs
      · exact After.fail
  refine hkind.bind fun k => ?_
  split
  · exact (Asks.ofConstant _).keeps.bind fun v => holds_fillSlot _ v
  · split
    · exact After.pure fun _ hs => hs
    · exact After.fail
  · exact After.pure fun _ hs => hs

theorem holds_fitTop (target : Ty) (context : String) :
    Keeps env (Holds base (n + 1)) (fitTop target context) := by
  unfold fitTop
  refine holds_pop.bind fun e => ?_
  split
  · exact (holds_fitConstant _ _ _ _).bind fun _ => holds_push _
  · exact (holds_checkAssignable _ _ _).bind fun _ => holds_push _
  all_goals exact After.fail.bind (Q := fun _ _ => False) fun _ _ h => h.elim

/-! ### Calls -/

theorem above_fitResults (types targets : List Ty) (context : String) :
    Keeps env (Above base) (fitResults types targets context) :=
  After.forM fun _ _ => .above fun _ => (holds_checkAssignable _ _ _).bind fun _ =>
    (holds_push _).imp fun _ _ h => ⟨_, h⟩

theorem keeps_checkCount {I : CompileState → Prop} (sig : Signature) (skip k : Nat) (shown : String) :
    Keeps env I (checkCount sig skip k shown) := by
  have hcheck {c : Prop} [Decidable c] {e : CompileError} :
      Keeps env I (if c then fail e else pure ()) := by
    split
    · exact After.fail
    · exact After.pure fun _ hs => hs
  exact hcheck

theorem above_passArgs (sig : Signature) (skip : Nat) (shown : String) (k : Nat) (spread : Bool)
    {sole : Compile (Option (List Ty))} {each : String → List Ty → Compile Unit}
    (hsole : Keeps env (Above base) sole)
    (heach : ∀ context types, Keeps env (Above base) (each context types)) :
    Keeps env (Above base) (passArgs sig skip shown k spread sole each) := by
  have hreturn (arity : Arity) : Keeps env (Above base) (pure arity) := After.pure fun _ hs => hs
  have hcheck {c : Prop} [Decidable c] {e : CompileError} {t : Compile Arity}
      (ht : Keeps env (Above base) t) : Keeps env (Above base)
        (if c then (do Compile.fail (α := PUnit) e; t) else t) := by
    split
    · exact After.fail.bind (Q := fun _ _ => False) fun _ _ h => h.elim
    · exact ht
  unfold passArgs
  split
  · exact hcheck (hcheck ((heach _ _).bind fun _ => hreturn _))
  · refine hsole.bind fun r => ?_
    split
    · exact (keeps_checkCount _ _ _ _).bind fun _ => (above_fitResults _ _ _).bind fun _ => hreturn _
    · exact (keeps_checkCount _ _ _ _).bind fun _ => (heach _ _).bind fun _ => hreturn _

theorem above_emitCall (sig : Signature) (arity : Arity) (ref : FuncRef) :
    Keeps env (Above base) (emitCall sig arity ref) := by
  have hasm {β : Type} (t : Asm β) : Keeps env (Above base) (asm t) :=
    .above fun _ => (holds_asm t).imp fun _ _ h => ⟨_, h⟩
  unfold emitCall
  split
  · exact (hasm _).bind fun _ => hasm _
  · split <;> exact hasm _
  · exact hasm _
  · exact hasm _

/-! ## What is found, and what is left -/

/-- Where the step `u` goes through, `t` does, and `u` leaves one entry: the one that `t` gives. -/
def Foretold (env : CompileEnv) (base : Shadow) (t : Compile Inferred) (u : Compile Unit) : Prop :=
  ∀ s s', s.shadow = base → (u env).exec s = (.ok ⟨⟩, s') →
    ∃ i i' s₁, (t env).exec s = (.ok i, s₁) ∧ i.Foretells i' ∧ s'.shadow = i' :: base

namespace Foretold

variable {t : Compile Inferred} {u : Compile Unit}

/-- Both begin with the same question. -/
theorem bind {q : Compile α} {t : α → Compile Inferred} {u : α → Compile Unit} (hq : Asks env q)
    (h : ∀ a, Foretold env base (t a) (u a)) : Foretold env base (q >>= t) (q >>= u) := by
  intro s s' hs hexec
  obtain ⟨a, s₁, ha, hu⟩ := exec_bind_eq_ok.1 hexec
  obtain ⟨i, i', s₂, ht, hi, hs'⟩ := h a s₁ s' ((hq s a s₁ ha).1.shadow.trans hs) hu
  exact ⟨i, i', s₂, (exec_bind_ok ha).trans ht, hi, hs'⟩

theorem get {u : CompileState → Compile Unit}
    (h : ∀ s, s.shadow = base → Foretold env base t (u s)) : Foretold env base t (get >>= u) :=
  fun s s' hs hexec => h s hs s s' hs hexec

/-- The code leaves one entry. -/
theorem leaves {i : Inferred} (h : After env (Holds base 0) u fun _ s =>
    ∃ i', i.Foretells i' ∧ s.shadow = i' :: base) : Foretold env base (pure i) u := by
  intro s s' hs hexec
  obtain ⟨i', hi, hs'⟩ := (h s (holds_of_eq hs)).ok hexec
  exact ⟨i, i', s, rfl, hi, hs'⟩

theorem leaves_value {ty : Ty}
    (h : After env (Holds base 0) u fun _ s => s.shadow = .value ty :: base) :
    Foretold env base (pure (.value ty)) u :=
  .leaves (h.imp fun _ _ hs => ⟨_, .value ty, hs⟩)

theorem leaves_func {f : FuncRef} {sig : Signature}
    (h : After env (Holds base 0) u fun _ s => s.shadow = .value (.func sig) :: base) :
    Foretold env base (pure (.func f sig)) u :=
  .leaves (h.imp fun _ _ hs => ⟨_, .func f sig, hs⟩)

theorem holds (h : ∀ base, Foretold env base t u) :
    After env (Holds base n) u fun _ => Holds base (n + 1) := by
  rintro s ⟨es, hlen, hs⟩
  refine Task.Ensures.of_exec (fun _ s' hexec => ?_) fun _ _ _ => trivial
  obtain ⟨i, i', s₁, -, -, hs'⟩ := h s.shadow s s' rfl hexec
  exact ⟨i' :: es, by rw [List.length_cons, hlen], by rw [hs', hs, List.cons_append]⟩

theorem above (h : ∀ base, Foretold env base t u) : Keeps env (Above base) u :=
  .above fun _ => (holds h).imp fun _ _ hs => ⟨_, hs⟩

end Foretold

/-! ### Names -/

theorem holds_varOperand (id : Nat) : Keeps env (Holds base n) (varOperand id) := by
  unfold varOperand
  refine (holds_asm _).bind fun v => ?_
  dsimp only
  split
  · exact After.fail
  · refine (After.get (Q := fun _ => Holds base n) fun _ hs => hs).bind fun s => ?_
    split
    · exact After.pure fun _ hs => hs
    · split
      · exact After.fail
      · split
        · exact After.fail
        · exact After.pure fun _ hs => hs

theorem foretold_constant (c : Constant) :
    Foretold env base (pure (.const c .pending)) (pushConstant c) :=
  .leaves ((leaves_pushConstant c).imp fun _ _ ⟨slot, hs⟩ => ⟨_, .const c _ slot, hs⟩)

theorem leaves_emitClosure (id : Nat) (sig : Signature) :
    After env (Holds base 0) (emitClosure id sig) fun _ s => s.shadow = .value (.func sig) :: base :=
  (holds_asm _).bind fun _ => leaves_push _

theorem foretold_native (x : NativeSymbol) : Foretold env base (nativeEntry x) (emitNative x) := by
  rw [← bind_pure (nativeEntry x)]
  refine .bind (asks_nativeEntry x) fun i => ?_
  split
  · exact .leaves_func ((holds_asm _).bind fun _ => leaves_push _)
  · exact .leaves_func ((holds_asm _).bind fun _ => leaves_push _)
  · rename_i hfunc
    refine .leaves ((holds_asm _).bind fun _ => (leaves_push _).imp fun _ _ hs => ⟨_, ?_, hs⟩)
    exact Inferred.foretells_self hfunc

theorem foretold_named (n : Named) : Foretold env base (namedEntry n) (emitNamed n) := by
  cases n with
  | var id ty =>
    exact .leaves_value ((holds_varOperand id).bind fun _ => (holds_asm _).bind fun _ => leaves_push _)
  | param below ty => exact .leaves_value ((holds_asm _).bind fun _ => leaves_push _)
  | package path name =>
    exact .leaves ((leaves_push _).imp fun _ _ hs => ⟨_, .package path name, hs⟩)
  | func id sig => exact .leaves_func (leaves_emitClosure id sig)
  | native x => exact foretold_native x
  | truth b => exact foretold_constant _

/-! ### Expressions -/

theorem holds_forM {β : Type} {f : β → Compile PUnit} (l : List β)
    (h : ∀ b, Keeps env (Holds base n) (f b)) : Keeps env (Holds base n) (l.forM f) :=
  After.forM fun b _ => h b

mutual

/-- What is known of an expression ahead is what is left of it. -/
theorem foretold_emit (e : Expr) (base : Shadow) : Foretold env base (infer e) (emit e) := by
  cases e with
  | ident name => exact .bind (asks_resolveName name) foretold_named
  | lit l => exact .bind (.ofConstant _) foretold_constant
  | binary op x y =>
    refine .bind (asks_infer x) fun ex => .bind (asks_infer y) fun ey =>
      .bind (.of_reads fun _ => reads_combine) fun c => ?_
    cases c with
    | folded c => exact foretold_constant c
    | applied r =>
      exact .leaves_value <| (Foretold.holds (foretold_emit x)).bind fun _ =>
        (holds_coerceTop _).bind fun _ => (Foretold.holds (foretold_emit y)).bind fun _ =>
          (holds_coerceSecond r).bind fun _ => (holds_asm _).bind fun _ => leaves_replace _
  | call f args spread =>
    refine .get fun s hs => .bind (asks_infer f) fun e =>
      .bind (.of_reads fun _ => reads_callee) fun ⟨ref?, sig⟩ => .leaves ?_
    have hleaves : After env (Above base) (do
        cutTo s.shadow.length
        push (resultEntry sig)) fun _ s => ∃ i', (resultEntry sig).Foretells i' ∧
          s.shadow = i' :: base := by
      rw [hs]
      exact holds_cutTo.bind fun _ =>
        (leaves_push _).imp fun _ _ hs => ⟨_, foretells_resultEntry sig, hs⟩
    have hpass (skip : Nat) : Keeps env (Above base)
        (passArgs sig skip f.shown args.length spread (emitSole args) (emitEach args)) :=
      above_passArgs sig skip f.shown args.length spread (above_emitSole args base)
        (above_emitEach args base)
    have hbegin {t : Compile Unit} {Q : Unit → CompileState → Prop} (h : After env (Above base) t Q) :
        After env (Holds base 0) t Q := fun s hs => h s ⟨0, hs⟩
    refine hbegin ?_
    cases ref? with
    | some ref =>
      exact (above_emitReceiver f base sig ref).bind fun skip => (hpass skip).bind fun arity =>
        (above_emitCall _ _ _).bind fun _ => hleaves
    | none =>
      exact (hpass 0).bind fun arity => (Foretold.above (foretold_emit f)).bind fun _ =>
        (After.above fun _ => (holds_asm _).imp fun _ _ h => ⟨_, h⟩).bind fun _ => hleaves
  | select x name =>
    refine .bind (asks_infer x) fun e => .bind (.of_reads fun _ => reads_resolveMember) fun m => ?_
    cases m with
    | native x => exact foretold_native x
    | field ptrs index ty =>
      exact .leaves_value <| (Foretold.holds (foretold_emit x)).bind fun _ =>
        holds_pop.discard.bind fun _ => (holds_forM _ fun _ => holds_asm _).bind fun _ =>
          (holds_asm _).bind fun _ => leaves_push _
    | method f sig => exact .leaves After.fail
  | funcLit label ty body =>
    exact .bind (asks_literalFunc label ty body) fun id => .bind (asks_signatureOf id) fun sig =>
      .leaves_func (leaves_emitClosure id sig)
  | addrOf x =>
    exact .bind (asks_addressed x) fun ⟨id, ty⟩ => .leaves_value <|
      (holds_varOperand id).bind fun _ => (holds_asm _).bind fun _ => leaves_push _
  | deref p =>
    exact .bind (asks_infer p) fun i => .bind (.of_reads fun _ => reads_pointee) fun elem =>
      .leaves_value <| (Foretold.holds (foretold_emit p)).bind fun _ =>
        holds_pop.discard.bind fun _ => (holds_asm _).bind fun _ => leaves_push _
termination_by structural e

theorem above_emitReceiver (f : Expr) (base : Shadow) (sig : Signature) (ref : FuncRef) :
    Keeps env (Above base) (emitReceiver f sig ref) := by
  cases f with
  | select x name =>
    cases ref with
    | script id literal => exact After.pure fun _ hs => hs
    | native addr variadic method =>
      cases method with
      | false => exact After.pure fun _ hs => hs
      | true =>
        have hreceiver (shown : String) : Asks env (receiverType sig shown) := by
          unfold receiverType
          split
          · exact .pure _
          · exact .fail _
        exact .above fun n => (hreceiver _).keeps.bind fun recv =>
          (Foretold.holds (foretold_emit x)).bind fun _ => (holds_fitTop recv _).bind fun _ =>
            After.pure (Q := fun _ => Above base) fun _ hs => ⟨n + 1, hs⟩
  | _ =>
    unfold emitReceiver
    split
    · contradiction
    · exact After.fail
    · exact After.pure fun _ hs => hs
termination_by structural f

theorem above_emitSole (args : List Expr) (base : Shadow) :
    Keeps env (Above base) (emitSole args) := by
  cases args with
  | nil => exact After.pure fun _ hs => hs
  | cons e es =>
    cases es with
    | cons => exact After.pure fun _ hs => hs
    | nil =>
      refine .above fun n => (asks_infer e).keeps.bind fun i => ?_
      split
      · refine (Foretold.holds (foretold_emit e)).bind fun _ => holds_pop.bind fun i => ?_
        split
        · exact After.pure fun _ hs => ⟨_, hs⟩
        · exact After.fail
      · exact After.pure fun _ hs => ⟨_, hs⟩
termination_by structural args

theorem above_emitEach (args : List Expr) (base : Shadow) (context : String) (types : List Ty) :
    Keeps env (Above base) (emitEach args context types) := by
  cases args with
  | nil => exact After.pure fun _ hs => hs
  | cons e es =>
    cases types with
    | nil => exact After.pure fun _ hs => hs
    | cons t ts =>
      exact .above fun n => (Foretold.holds (foretold_emit e)).bind fun _ =>
        (holds_fitTop t context).bind fun _ s hs => above_emitEach es base context ts s ⟨_, hs⟩
termination_by structural args

end

/-- Where code of an expression is emitted, looking ahead from the same state goes through. It adds
literals and changes nothing else, asked again it gives the same and adds nothing, and its answer is
the one entry that the code leaves. -/
theorem infer_of_emit {e : Expr} {s s' : CompileState}
    (h : ((emit e) env).exec s = (.ok ⟨⟩, s')) :
    ∃ i i' s₁, ((infer e) env).exec s = (.ok i, s₁) ∧
      s.AddsLiterals s₁ ∧
      s₁ = { s with
        asm := { s.asm with funcs := s₁.asm.funcs }, queue := s₁.queue, literals := s₁.literals } ∧
      ((infer e) env).exec s₁ = (.ok i, s₁) ∧
      s'.shadow = i' :: s.shadow ∧ i.Foretells i' ∧ i'.operandKind? = i.operandKind? := by
  obtain ⟨i, i', s₁, hinfer, hi, hs'⟩ := foretold_emit e s.shadow s s' rfl h
  obtain ⟨hadds, hset⟩ := asks_infer e s i s₁ hinfer
  exact ⟨i, i', s₁, hinfer, hadds, hadds.eq, hset.exec, hs', hi, hi.operandKind?⟩

/-- The result of a literal that is called, and two more. -/
def callingLiteral : Expr :=
  .binary .add (.call (.funcLit 0 ⟨[], false, [⟨none, .name "int"⟩]⟩ [.ret [.lit ⟨.int, "1"⟩]]) [] false)
    (.lit ⟨.int, "2"⟩)

/-- The literal is entered once, and the sum is foretold. -/
theorem infer_of_emit_callingLiteral : ∃ s' i i' s₁,
    ((emit callingLiteral) ⟨.empty, true⟩).exec .initial = (.ok ⟨⟩, s') ∧
    ((infer callingLiteral) ⟨.empty, true⟩).exec .initial = (.ok i, s₁) ∧
    ((infer callingLiteral) ⟨.empty, true⟩).exec s₁ = (.ok i, s₁) ∧
    s'.shadow = [i'] ∧ i.Foretells i' := by
  have hemit : ∃ s', ((emit callingLiteral) ⟨.empty, true⟩).exec .initial = (.ok ⟨⟩, s') :=
    ⟨_, rfl⟩
  obtain ⟨s', hemit⟩ := hemit
  obtain ⟨i, i', s₁, hinfer, -, -, hagain, hs', hi, -⟩ := infer_of_emit hemit
  exact ⟨s', i, i', s₁, hemit, hinfer, hagain, hs', hi⟩

end Compile

end StackScript
