import StackScript.Proofs.Translation.Reading

/-!
# What looking ahead changes

Whatever state the compiler is in, looking ahead at an expression adds functions of literals that
are met for the first time, and changes nothing else (`CompileState.AddsLiterals`). Its answer is
settled: asked again from there or from a later state of the same place, it is the same, and then
nothing is added (`Compile.asks_infer`).
-/

namespace StackScript

open CompileState

/-! ## Functions of literals -/

/-- The function of a literal, as it is when the literal is met for the first time. -/
def CompileState.literalInfo (s : CompileState) (sig : Signature) : FuncInfo :=
  let number := s.literals.length + 1
  .declared s!"func·{number}" (s.body.depth + 1) sig

/-- The body of a literal that is met for the first time. -/
def CompileState.literalBody (s : CompileState) (sig : Signature) (ty : FuncTypeExpr)
    (stmts : List Stmt) : WaitingBody :=
  ⟨s.asm.funcs.size, sig, ty, stmts, s.names.path, s.names.horizonsHere⟩

/-- All that happened between the states is that literals were met for the first time: each has a
function now, and its body waits. -/
inductive CompileState.AddsLiterals (s : CompileState) : CompileState → Prop
  | refl : AddsLiterals s s
  | literal {s' : CompileState} (h : AddsLiterals s s') (label : Nat) (ty : FuncTypeExpr)
    (stmts : List Stmt) (sig : Signature) (hnew : s'.literals.lookup label = none) :
    AddsLiterals s (s'.withLiteral label (s'.literalInfo sig) (s'.literalBody sig ty stmts))

namespace CompileState.AddsLiterals

variable {s s' s'' : CompileState}

theorem trans (h : s.AddsLiterals s') (h' : s'.AddsLiterals s'') : s.AddsLiterals s'' := by
  induction h' with
  | refl => exact h
  | literal _ label ty stmts sig hnew ih => exact ih.literal label ty stmts sig hnew

theorem later (h : s.AddsLiterals s') : Later s s' := by
  induction h with
  | refl => exact .refl s
  | literal _ label ty stmts sig hnew ih => exact ih.trans (later_withLiteral hnew)

/-- Functions, the queue and the numbers of literals apart, the states are the same. -/
theorem eq (h : s.AddsLiterals s') : s' = { s with
    asm := { s.asm with funcs := s'.asm.funcs }, queue := s'.queue, literals := s'.literals } := by
  induction h with
  | refl => rfl
  | @literal s' _ label ty stmts sig hnew ih =>
    generalize hs' : s' = t at ih ⊢
    rw [ih]
    rfl

theorem shadow (h : s.AddsLiterals s') : s'.shadow = s.shadow := by rw [h.eq]

end CompileState.AddsLiterals

/-! ## Steps that ask -/

namespace Compile

variable {α β : Type} {env : CompileEnv} {t : Compile α}

/-- The step adds no more than literals, and its answer is settled. -/
def Asks (env : CompileEnv) (t : Compile α) : Prop :=
  ∀ s a s', (t env).exec s = (.ok a, s') → s.AddsLiterals s' ∧ Settled env s' t a

namespace Asks

theorem bind {f : α → Compile β} (h : Asks env t) (hf : ∀ a, Asks env (f a)) :
    Asks env (t >>= f) := by
  intro s b s'' hexec
  obtain ⟨a, s', ht, hb⟩ := exec_bind_eq_ok.1 hexec
  obtain ⟨hadds, hset⟩ := h s a s' ht
  obtain ⟨hadds', hset'⟩ := hf a s' b s'' hb
  exact ⟨hadds.trans hadds', (hset.later hadds'.later).bind hset'⟩

/-- A step that depends on nothing but the registry and the place. -/
theorem of_settled (h : ∀ s a s', (t env).exec s = (.ok a, s') → s' = s ∧ Settled env s t a) :
    Asks env t := fun s a s' hexec => by
  obtain ⟨rfl, hset⟩ := h s a s' hexec
  exact ⟨.refl, hset⟩

theorem of_reads {P : CompileState → α → Prop} (h : ∀ s, Reads env s t (P s)) : Asks env t :=
  .of_settled fun s _ _ hexec => by
    obtain ⟨rfl, hset, -⟩ := (h s).of_exec hexec
    exact ⟨rfl, hset⟩

theorem pure (a : α) : Asks env (pure a) := .of_reads (P := fun _ _ => True) fun _ => .pure trivial

theorem fail (e : CompileError) : Asks env (fail e : Compile α) := fun _ _ _ h => nomatch h

theorem ofExcept (r : Except CompileError α) : Asks env (ofExcept r) := by
  cases r with
  | ok a => exact .pure a
  | error e => exact .fail e

theorem ofConstant (r : Except ConstantError α) : Asks env (ofConstant r) := .ofExcept _

theorem read : Asks env read := .of_reads (P := fun _ _ => True) fun _ => ⟨rfl, fun _ _ => rfl, trivial⟩

end Asks

/-! ## Names and members -/

theorem asks_find? (name : String) : Asks env (find? name) :=
  .of_settled fun s a s' h => by
    cases h
    exact ⟨rfl, fun s'' hs => by rw [← hs.names]; rfl⟩

/-- An entry of a table of the assembly. -/
theorem exec_expect_eq_ok {entry : Assembly → Option α} {s s' : CompileState} {a : α} :
    ((asm (do Task.expect (entry (← get)))) env).exec s = (.ok a, s') ↔
      s' = s ∧ entry s.asm = some a := by
  have hexec : (do Task.expect (entry (← get)) : Asm α).exec s.asm =
      (Task.expect (entry s.asm)).exec s.asm := rfl
  rw [exec_asm, hexec]
  cases entry s.asm with
  | none => exact ⟨fun h => (nomatch h), fun h => nomatch h.2⟩
  | some b =>
    show (Except.ok b, s) = _ ↔ _
    simp only [Prod.mk.injEq, Except.ok.injEq, Option.some.injEq]
    exact ⟨fun h => ⟨h.2.symm, h.1⟩, fun h => ⟨h.2, h.1.symm⟩⟩

theorem asks_var (id : Nat) : Asks env (asm (Assembly.var id)) :=
  .of_settled fun s v s' h => by
    obtain ⟨rfl, hv⟩ := exec_expect_eq_ok.1 h
    exact ⟨rfl, fun s'' hs => exec_expect_eq_ok.2 ⟨rfl, hs.grows.vars _ _ hv⟩⟩

theorem exec_signatureOf_eq_ok {id : Nat} {s s' : CompileState} {sig : Signature} :
    ((signatureOf id) env).exec s = (.ok sig, s') ↔
      s' = s ∧ ∃ f : FuncInfo, s.asm.funcs[id]? = some f ∧ f.sig = some sig := by
  unfold signatureOf
  constructor
  · intro hexec
    obtain ⟨f, s₁, hread, h⟩ := exec_bind_eq_ok.1 hexec
    obtain ⟨rfl, hf⟩ := exec_expect_eq_ok.1 hread
    cases hsig : f.sig with
    | none =>
      rw [hsig] at h
      cases h
    | some sig' =>
      rw [hsig] at h
      cases h
      exact ⟨rfl, f, hf, hsig⟩
  · rintro ⟨rfl, f, hf, hsig⟩
    rw [exec_bind_ok (exec_asm_ok (Assembly.exec_func hf)), hsig]
    rfl

theorem asks_signatureOf (id : Nat) : Asks env (signatureOf id) :=
  .of_settled fun s sig s' h => by
    obtain ⟨rfl, f, hf, hsig⟩ := exec_signatureOf_eq_ok.1 h
    refine ⟨rfl, fun s'' hs => ?_⟩
    obtain ⟨g, hg, hbecomes⟩ := hs.grows.funcs _ _ hf
    exact exec_signatureOf_eq_ok.2 ⟨rfl, g, hg, hbecomes.sig.trans hsig⟩

theorem asks_nativeSignature (addr : Nat) (variadic : Bool) :
    Asks env (nativeSignature addr variadic) := by
  unfold nativeSignature
  refine .bind .read fun e => ?_
  cases variadic <;>
  · simp only [Bool.false_eq_true, if_true, if_false]
    split
    · exact .pure _
    · exact .fail _

theorem asks_nativeEntry (x : NativeSymbol) : Asks env (nativeEntry x) := by
  unfold nativeEntry
  split
  · refine .bind .read fun e => ?_
    split
    · exact .pure _
    · exact .fail _
  · exact .bind (asks_nativeSignature _ _) fun _ => .pure _
  · exact .bind (asks_nativeSignature _ _) fun _ => .pure _

theorem asks_resolveName (name : String) : Asks env (resolveName name) := by
  refine .bind (asks_find? name) fun x => ?_
  split
  · exact .bind (asks_var _) fun _ => .pure _
  · exact .bind (.of_reads fun _ => reads_paramBelow) fun _ => .pure _
  · exact .pure _
  · exact .bind (asks_signatureOf _) fun _ => .pure _
  · unfold resolveUndeclared
    split
    · exact .pure _
    · split
      · exact .pure _
      · refine .bind .read fun e => ?_
        split
        · exact .pure _
        · exact .fail _

theorem asks_namedEntry (n : Named) : Asks env (namedEntry n) := by
  cases n with
  | native x => exact asks_nativeEntry x
  | _ => exact .pure _

theorem asks_memberEntry (m : Member) : Asks env (memberEntry m) := by
  cases m with
  | native x => exact asks_nativeEntry x
  | _ => exact .pure _

theorem asks_addressed (x : Expr) : Asks env (addressed x) := by
  unfold addressed
  split
  · refine .bind (asks_find? _) fun y => ?_
    split
    · exact .bind (asks_var _) fun _ => .pure _
    all_goals exact .fail _
  · exact .fail _

/-! ## Literals -/

theorem exec_resolveSignature_eq_ok {ty : FuncTypeExpr} {s s' : CompileState} {sig : Signature}
    (h : ((resolveSignature ty) env).exec s = (.ok sig, s')) : s' = s := by
  have hexec : ((resolveSignature ty) env).exec s =
      ((ty.resolve env.registry s.names.find?).mapError .error, s) :=
    Task.exec_ofExcept _ s
  rw [hexec] at h
  exact (Prod.mk.inj h).2.symm

/-- A literal has one function, which it gets when it is first met. -/
theorem asks_literalFunc (label : Nat) (ty : FuncTypeExpr) (stmts : List Stmt) :
    Asks env (literalFunc label ty stmts) := by
  intro s id s' h
  have hknown {s : CompileState} {id : Nat} (hid : s.literals.lookup label = some id) :
      ((literalFunc label ty stmts) env).exec s = (.ok id, s) := by
    unfold literalFunc
    rw [exec_bind_ok (t := get) (a := s) rfl, hid]
    rfl
  have hset {s : CompileState} {id : Nat} (hid : s.literals.lookup label = some id) :
      Settled env s (literalFunc label ty stmts) id :=
    fun s'' hs => hknown (hs.grows.literals _ _ hid)
  cases hlookup : s.literals.lookup label with
  | some id' =>
    rw [hknown hlookup] at h
    cases h
    exact ⟨.refl, hset hlookup⟩
  | none =>
    unfold literalFunc at h
    rw [exec_bind_ok (t := get) (a := s) rfl, hlookup] at h
    obtain ⟨sig, s₁, hsig, h⟩ := exec_bind_eq_ok.1 h
    obtain rfl := exec_resolveSignature_eq_ok hsig
    rw [exec_bind_ok exec_newFunc] at h
    cases h
    exact ⟨.literal .refl label ty stmts sig hlookup, hset lookup_withLiteral⟩

/-! ## Expressions -/

/-- Looking ahead at an expression adds no more than literals, and its answer is settled. -/
theorem asks_infer : ∀ e : Expr, Asks env (infer e)
  | .ident name => .bind (asks_resolveName name) asks_namedEntry
  | .lit _ => .bind (.ofConstant _) fun _ => .pure _
  | .binary op x y => by
    refine .bind (asks_infer x) fun ex => .bind (asks_infer y) fun ey =>
      .bind (.of_reads fun _ => reads_combine) fun c => ?_
    cases c <;> exact .pure _
  | .call f args spread =>
    .bind (asks_infer f) fun _ => .bind (.of_reads fun _ => reads_callee) fun _ => .pure _
  | .select x name =>
    .bind (asks_infer x) fun _ => .bind (.of_reads fun _ => reads_resolveMember) asks_memberEntry
  | .funcLit label ty body =>
    .bind (asks_literalFunc label ty body) fun id => .bind (asks_signatureOf id) fun _ => .pure _
  | .addrOf x => .bind (asks_addressed x) fun _ => .pure _
  | .deref p => .bind (asks_infer p) fun _ => .bind (.of_reads fun _ => reads_pointee) fun _ => .pure _
termination_by structural e => e

end Compile

end StackScript
