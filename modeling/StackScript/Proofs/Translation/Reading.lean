import StackScript.Proofs.Translation.LookAhead

/-!
# Steps that only read

Names, members and operators are read off the state. Such a step gives the same answer again from
every later state of the same place (`Settled`), and changes nothing.
-/

namespace StackScript

open CompileState

/-! ## Settled answers -/

/-- From every later state at this place the step gives the same answer and changes nothing. -/
def Settled {α : Type} (env : CompileEnv) (s : CompileState) (t : Compile α) (a : α) : Prop :=
  ∀ s', Later s s' → (t env).exec s' = (.ok a, s')

namespace Settled

variable {α β : Type} {env : CompileEnv} {s s' : CompileState} {t : Compile α} {a b : α}

theorem later (h : Settled env s t a) (hs : Later s s') : Settled env s' t a :=
  fun s'' hs' => h s'' (hs.trans hs')

theorem exec (h : Settled env s t a) : (t env).exec s = (.ok a, s) := h s (.refl s)

theorem unique (h : Settled env s t a) (h' : Settled env s t b) : a = b := by
  have heq := h.exec.symm.trans h'.exec
  cases heq
  rfl

theorem pure (a : α) : Settled env s (pure a) a := fun _ _ => rfl

theorem bind {f : α → Compile β} {c : β} (h : Settled env s t a) (h' : Settled env s (f a) c) :
    Settled env s (t >>= f) c := fun s' hs => by
  rw [Compile.exec_bind_ok (h s' hs)]
  exact h' s' hs

end Settled

namespace Compile

variable {α β : Type} {L : Layout} {home : Home} {env : CompileEnv} {s : CompileState}

/-- The step reads the state, and its answer is settled. -/
def Reads (env : CompileEnv) (s : CompileState) (t : Compile α) (P : α → Prop) : Prop :=
  Ensures env t s fun a s' => s' = s ∧ Settled env s t a ∧ P a

namespace Reads

variable {t : Compile α} {P P' : α → Prop}

theorem imp (h : Reads env s t P) (hP : ∀ a, P a → P' a) : Reads env s t P' :=
  Ensures.imp h fun a _ ⟨hs, hset, ha⟩ => ⟨hs, hset, hP a ha⟩

theorem pure {a : α} (h : P a) : Reads env s (pure a) P := ⟨rfl, .pure a, h⟩

theorem fail {e : CompileError} (h : Stops env (.error e)) :
    Reads env s (fail e : Compile α) P := h

theorem bind {f : α → Compile β} {R : β → Prop} (h : Reads env s t P)
    (hf : ∀ a, P a → Reads env s (f a) R) : Reads env s (t >>= f) R := by
  refine Ensures.bind h fun a s' ⟨hs, hset, ha⟩ => ?_
  subst hs
  exact Ensures.imp (hf a ha) fun b _ ⟨hs', hset', hb⟩ => ⟨hs', hset.bind hset', hb⟩

/-- What follows a step that reads goes on from the same state. -/
theorem andThen {f : α → Compile β} {Q : β → CompileState → Prop} (h : Reads env s t P)
    (hf : ∀ a, Settled env s t a → P a → Ensures env (f a) s Q) : Ensures env (t >>= f) s Q :=
  Ensures.bind h fun a s' ⟨hs, hset, ha⟩ => by
    subst hs
    exact hf a hset ha

theorem ofExcept {r : Except CompileError α} (hok : ∀ a, r = .ok a → P a)
    (herror : ∀ e, r = .error e → Stops env (.error e)) :
    Reads env s (ofExcept r) P := by
  cases r with
  | ok a => exact ⟨rfl, fun _ _ => rfl, hok a rfl⟩
  | error e => exact herror e rfl

theorem ofConstant {r : Except ConstantError α} (hr : ∀ e, r = .error e → e.OfFile)
    (h : ∀ a, r = .ok a → P a) : Reads env s (ofConstant r) P := by
  cases r with
  | ok a => exact ⟨rfl, fun _ _ => rfl, h a rfl⟩
  | error e => exact stops_ofConstant (hr e rfl)

theorem ofOperands {r : Except OperandError α} (h : ∀ a, r = .ok a → P a) :
    Reads env s (ofOperands r) P := by
  cases r with
  | ok a => exact ⟨rfl, fun _ _ => rfl, h a rfl⟩
  | error e => trivial

theorem read : Reads env s read (· = env) := ⟨rfl, fun _ _ => rfl, rfl⟩

end Reads

/-! ## Names -/

theorem reads_find? {name : String} (h : s.names.Sound) :
    Reads env s (find? name) (· = s.scopes.find? name) :=
  ⟨rfl, fun s' hs => by rw [← hs.names]; rfl, NameTable.find?_eq_scopes h name⟩

theorem reads_var {id : Nat} (h : id < s.asm.vars.size) :
    Reads env s (asm (Assembly.var id)) fun v => s.asm.vars[id]? = some v := by
  obtain ⟨v, hv⟩ : ∃ v, s.asm.vars[id]? = some v := ⟨_, Array.getElem?_eq_getElem h⟩
  have hexec {a : Assembly} (ha : a.vars[id]? = some v) : (Assembly.var id).exec a = (.ok v, a) := by
    show (Task.expect a.vars[id]?).exec a = _
    rw [ha]
    rfl
  refine Task.Ensures.of_exec (fun v' s' h' => ?_) fun e s' h' => ?_
  · rw [exec_asm_ok (hexec hv)] at h'
    cases h'
    exact ⟨rfl, fun s' hs => exec_asm_ok (hexec (hs.grows.vars _ _ hv)), hv⟩
  · rw [exec_asm_ok (hexec hv)] at h'
    cases h'

theorem reads_signatureOf {id : Nat} (h : InOrder L home s) (hid : id < s.asm.funcs.size) :
    Reads env s (signatureOf id) fun sig => ∃ f, s.asm.funcs[id]? = some f ∧ f.Signed sig := by
  obtain ⟨f, hf⟩ : ∃ f, s.asm.funcs[id]? = some f := ⟨_, Array.getElem?_eq_getElem hid⟩
  obtain ⟨sig, hsig, -⟩ := h.declared.signed id f hf
  have hexec {s' : CompileState} {g : FuncInfo} (hg : s'.asm.funcs[id]? = some g)
      (hgsig : g.sig = some sig) : ((signatureOf id) env).exec s' = (.ok sig, s') := by
    unfold signatureOf
    rw [exec_bind_ok (exec_asm_ok (Assembly.exec_func hg)), hgsig]
    rfl
  refine Task.Ensures.of_exec (fun a s' h' => ?_) fun e s' h' => ?_
  · rw [hexec hf hsig.declares] at h'
    cases h'
    refine ⟨rfl, fun s' hs => ?_, f, hf, hsig⟩
    obtain ⟨g, hg, hbecomes⟩ := hs.grows.funcs _ _ hf
    exact hexec hg (hbecomes.sig.trans hsig.declares)
  · rw [hexec hf hsig.declares] at h'
    cases h'

theorem reads_paramBelow {name : String} {func index : Nat} :
    Reads env s (paramBelow name func index) fun below =>
      s.body.func = some func ∧ below = s.body.numParams - index := by
  by_cases hfunc : s.body.func = some func
  · have hexec {s' : CompileState} (hs : s'.body = s.body) :
        ((paramBelow name func index) env).exec s' = (.ok (s.body.numParams - index), s') := by
      show ((if s'.body.func ≠ some func then Compile.fail (.captureParameter name) >>= fun _ =>
        pure (s'.body.numParams - index) else pure (s'.body.numParams - index)) env).exec s' = _
      rw [hs, if_neg (by simpa using hfunc)]
      rfl
    refine Task.Ensures.of_exec (fun a s' h' => ?_) fun e s' h' => ?_
    · rw [hexec rfl] at h'
      cases h'
      exact ⟨rfl, fun s' hs => hexec hs.body, hfunc, rfl⟩
    · rw [hexec rfl] at h'
      cases h'
  · show Ensures env (if s.body.func ≠ some func then Compile.fail (.captureParameter name) >>=
      fun _ => pure (s.body.numParams - index) else pure (s.body.numParams - index)) s _
    rw [if_pos hfunc]
    trivial

/-- What is known of the state where a name was resolved. -/
def Stands (env : CompileEnv) (s : CompileState) (name : String) : Named → Prop
  | .var id ty => s.scopes.find? name = some (.var id) ∧ ∃ v, s.asm.vars[id]? = some v ∧ v.ty = ty
  | .param below ty => ∃ func index, s.scopes.find? name = some (.param func index ty) ∧
    s.body.func = some func ∧ below = s.body.numParams - index
  | .package path shown => shown = name ∧ s.scopes.find? name = some (.package path)
  | .func id sig => s.scopes.find? name = some (.func id) ∧
    ∃ f, s.asm.funcs[id]? = some f ∧ f.Signed sig
  | .native x => s.scopes.find? name = none ∧ name ≠ "true" ∧ name ≠ "false" ∧
    env.registry.find? Universe.path name = some x
  | .truth b => s.scopes.find? name = none ∧ name = toString b

theorem reads_resolveUndeclared {name : String} (hfind : s.scopes.find? name = none) :
    Reads env s (resolveUndeclared name) (Stands env s name) := by
  unfold resolveUndeclared
  split
  · exact .pure ⟨hfind, ‹_›⟩
  · split
    · exact .pure ⟨hfind, ‹_›⟩
    · refine .bind .read fun e he => ?_
      subst he
      split
      · exact .pure ⟨hfind, ‹_›, ‹_›, ‹_›⟩
      · exact .fail trivial

theorem reads_resolveName {name : String} (h : InOrder L home s) :
    Reads env s (resolveName name) (Stands env s name) := by
  unfold resolveName
  refine .bind (reads_find? h.declared.names) fun x hx => ?_
  subst hx
  split
  · rename_i id hfind
    have hid : id < s.asm.vars.size := (h.declared.scopes.known hfind).var_lt
    refine .bind (reads_var hid) fun v hv => .pure ⟨hfind, v, hv, rfl⟩
  · rename_i func index ty hfind
    refine .bind reads_paramBelow fun below ⟨hfunc, hbelow⟩ => .pure ⟨func, index, hfind, hfunc, hbelow⟩
  · rename_i path hfind
    exact .pure ⟨rfl, hfind⟩
  · rename_i id hfind
    have hid : id < s.asm.funcs.size := h.declared.scopes.known hfind
    exact .bind (reads_signatureOf h hid) fun sig hsig => .pure ⟨hfind, hsig⟩
  · exact reads_resolveUndeclared ‹_›

/-- What the look-ahead takes a host symbol for. -/
inductive NativeEntry (r : Registry) : NativeSymbol → Inferred → Prop
  | var {addr : Nat} {v : NativeVar} (h : r.natives.vars[addr]? = some v) :
    NativeEntry r ⟨addr, .var⟩ (.value v.ty)
  | func {addr : Nat} {f : NativeFunc} (h : r.natives.funcs[addr]? = some f) :
    NativeEntry r ⟨addr, .func⟩ (.func (.native addr false false) f.func.sig)
  | funcv {addr : Nat} {f : NativeFunc} (h : r.natives.funcvs[addr]? = some f) :
    NativeEntry r ⟨addr, .funcv⟩ (.func (.native addr true false) f.func.sig)

theorem reads_nativeSignature {addr : Nat} {variadic : Bool}
    (hentry : env.registry.Complete → addr < (if variadic then env.registry.natives.funcvs
      else env.registry.natives.funcs).size) :
    Reads env s (nativeSignature addr variadic) fun sig => ∃ f,
      (if variadic then env.registry.natives.funcvs else env.registry.natives.funcs)[addr]? =
        some f ∧ sig = f.func.sig := by
  unfold nativeSignature
  refine .bind .read fun e he => ?_
  subst he
  cases variadic <;>
  · simp only [Bool.false_eq_true, if_true, if_false] at hentry ⊢
    split
    · exact .pure ⟨_, ‹_›, rfl⟩
    · rename_i hnone
      refine .fail (.incomplete fun hc => ?_)
      rw [Array.getElem?_eq_getElem (hentry hc)] at hnone
      cases hnone

theorem reads_nativeEntry {x : NativeSymbol} {path name : String}
    (hx : env.registry.find? path name = some x) :
    Reads env s (nativeEntry x) (NativeEntry env.registry x) := by
  have hentry (hc : env.registry.Complete) := hc.entry _ _ _ hx
  obtain ⟨addr, kind⟩ := x
  cases kind with
  | var =>
    refine .bind .read fun e he => ?_
    subst he
    split
    · exact .pure (.var ‹_›)
    · rename_i hnone
      refine .fail (.incomplete fun hc => ?_)
      rw [Array.getElem?_eq_getElem (hentry hc)] at hnone
      cases hnone
  | func =>
    refine .bind (reads_nativeSignature hentry) fun sig ⟨f, hf, hsig⟩ => .pure ?_
    subst hsig
    exact .func hf
  | funcv =>
    refine .bind (reads_nativeSignature hentry) fun sig ⟨f, hf, hsig⟩ => .pure ?_
    subst hsig
    exact .funcv hf

theorem reads_namedEntry {name : String} {n : Named} (hn : Stands env s name n) :
    Reads env s (namedEntry n) fun i => match n with
      | .var _ ty | .param _ ty => i = .value ty
      | .package path name => i = .package path name
      | .func id sig => i = .func (.script id false) sig
      | .native x => NativeEntry env.registry x i
      | .truth b => i = .const (.bound (.bool b)) .pending := by
  cases n with
  | native x => exact reads_nativeEntry hn.2.2.2
  | _ => exact .pure rfl

/-! ## Members -/

/-- A method that was found, with the function it is. -/
inductive MethodOf (r : Registry) (t : Ty) (name : String) : Member → Prop
  | mk {addr : Nat} {variadic : Bool} {sig : Signature} (h : Method r t name addr variadic sig) :
    MethodOf r t name (.method (.native addr variadic true) sig)

theorem reads_method? {t : Ty} {name : String} :
    Reads env s (method? t name) fun m => ∀ x, m = some x → MethodOf env.registry t name x := by
  unfold method?
  split
  · rename_i ptrs path type u hstrip
    refine .bind .read fun e he => ?_
    subst he
    split
    · rename_i addr hfind
      refine .bind (reads_nativeSignature fun hc => hc.entry _ _ _ hfind) fun sig ⟨f, hf, hsig⟩ =>
        .pure fun x hx => ?_
      cases hx
      subst hsig
      exact .mk ⟨hstrip, hfind, .fixed hf⟩
    · rename_i addr hfind
      refine .bind (reads_nativeSignature fun hc => hc.entry _ _ _ hfind) fun sig ⟨f, hf, hsig⟩ =>
        .pure fun x hx => ?_
      cases hx
      subst hsig
      exact .mk ⟨hstrip, hfind, .variadic hf⟩
    · exact .pure fun x hx => nomatch hx
  · exact .pure fun x hx => nomatch hx

/-- What a selector stands for, by the rules of the translation. -/
inductive MemberOf (r : Registry) (name : String) : Inferred → Member → Prop
  | native {path shown : String} {x : NativeSymbol} (h : r.find? path name = some x) :
    MemberOf r name (.package path shown) (.native x)
  | field {t base ty : Ty} {ptrs index : Nat} (hstrip : t.stripPtrs = (ptrs, base))
    (hfield : base.field? name = some (index, ty)) :
    MemberOf r name (.value t) (.field ptrs index ty)
  | method {t : Ty} {m : Member} (h : MethodOf r t name m) : MemberOf r name (.value t) m

theorem reads_resolveMember {i : Inferred} {name : String} :
    Reads env s (resolveMember i name) (MemberOf env.registry name i) := by
  unfold resolveMember
  split
  · refine .bind .read fun e he => ?_
    subst he
    split
    · exact .pure (.native ‹_›)
    · exact .fail trivial
  · rename_i t
    simp only
    split
    · exact .pure (.field rfl ‹_›)
    · refine .bind reads_method? fun m hm => ?_
      split
      · exact .pure (.method (hm _ rfl))
      · exact .fail trivial
  · exact .fail trivial

/-! ## Operators -/

theorem mapError_ne_fault {ε : Type} {r : Except ε α} {f : Fault} :
    r.mapError Stop.error ≠ .error (.fault f) := by
  cases r <;> exact fun h => nomatch h

theorem fault_of_checked {op : Operator} {n : Int} {f : Fault} :
    Constant.checked op n ≠ .error (.fault f) := by
  unfold Constant.checked
  split <;> exact fun h => nomatch h

theorem fault_of_foldInt {op : Operator} {a b : Int} {f : Fault}
    (h : Constant.foldInt op a b = .error (.fault f)) : f = .outOfRange := by
  have divided {n : Int} (h : Constant.divided a b n = .error (.fault f)) : f = .outOfRange := by
    unfold Constant.divided at h
    split at h <;> cases h
    rfl
  unfold Constant.foldInt at h
  split at h
  · exact (fault_of_checked h).elim
  · exact (fault_of_checked h).elim
  · exact (fault_of_checked h).elim
  · split at h
    · cases h
    · exact divided h
  · split at h
    · cases h
    · exact divided h
  all_goals try cases h
  split at h <;> cases h

theorem fault_of_foldFloat {op : Operator} {x y : Binary .double} {f : Fault} :
    Constant.foldFloat op x y ≠ .error (.fault f) := by
  have finite {z : Binary .double} : Constant.finite op z ≠ .error (.fault f) := by
    unfold Constant.finite
    split <;> exact fun h => nomatch h
  intro h
  unfold Constant.foldFloat at h
  split at h
  · exact finite h
  · exact finite h
  · exact finite h
  · split at h
    · cases h
    · exact finite h
  · split at h <;> cases h

theorem fault_of_foldComplex {op : Operator} {x y : Complex .double} {f : Fault} :
    Constant.foldComplex op x y ≠ .error (.fault f) := by
  intro h
  unfold Constant.foldComplex at h
  split at h <;> try cases h
  split at h <;> cases h

theorem fault_of_foldShift {op : Operator} {x y : Constant} {f : Fault} :
    Constant.foldShift op x y ≠ .error (.fault f) := by
  intro h
  unfold Constant.foldShift at h
  obtain h | ⟨a, -, h⟩ := bind_eq_error h
  · exact mapError_ne_fault h
  obtain h | ⟨count, -, h⟩ := bind_eq_error h
  · exact mapError_ne_fault h
  split at h
  · cases h
  · unfold Constant.shifted at h
    split at h
    · split at h
      · exact fault_of_checked h
      · split at h <;> cases h
    · cases h

/-- The one fault of folding is a division of the least integer. -/
theorem fault_of_fold {op : Operator} {x y : Constant} {f : Fault}
    (h : Constant.fold op x y = .error (.fault f)) : f = .outOfRange := by
  unfold Constant.fold at h
  split at h
  · exact (mapError_ne_fault h).elim
  · split at h
    · exact (fault_of_foldShift h).elim
    · split at h
      · exact (fault_of_foldComplex h).elim
      · exact (fault_of_foldComplex h).elim
      · exact (fault_of_foldFloat h).elim
      · exact (fault_of_foldFloat h).elim
      · obtain h | ⟨a, -, h⟩ := bind_eq_error h
        · exact (mapError_ne_fault h).elim
        obtain h | ⟨b, -, h⟩ := bind_eq_error h
        · exact (mapError_ne_fault h).elim
        exact fault_of_foldInt h

theorem reads_operandKind {x : Expr} {i : Inferred} :
    Reads env s (operandKind x i) fun k => i.operandKind? = some k := by
  unfold operandKind
  split
  · exact .pure ‹_›
  · exact .fail trivial
  · exact .fail trivial

/-- How two operands are combined. -/
inductive CombinedBy (env : CompileEnv) (op : Operator) (i j : Inferred) : Combined → Prop
  | folded {a b c : Constant} {slot slot' : ConstSlot} (hfolds : env.folds = true)
    (hi : i = .const a slot) (hj : j = .const b slot') (h : Constant.fold op a b = .ok c) :
    CombinedBy env op i j (.folded c)
  | applied {kx ky : OperandKind} {r : Resolution}
    (hopen : ¬(env.folds = true ∧ (∃ a slot, i = .const a slot) ∧ ∃ b slot, j = .const b slot))
    (hkx : i.operandKind? = some kx) (hky : j.operandKind? = some ky)
    (h : op.settle kx ky = .ok r) : CombinedBy env op i j (.applied r)

theorem settle_of_bound {op : Operator} {kx ky : OperandKind}
    (h : kx.isBound = true ∨ ky.isBound = true) : op.settle kx ky = op.resolve kx ky := by
  unfold Operator.settle
  rw [if_pos]
  obtain h | h := h <;> simp [h]

/-- Only constants have open kinds. -/
theorem isBound_of_operandKind? {i : Inferred} {k : OperandKind} (h : i.operandKind? = some k)
    (hi : ∀ c slot, i ≠ .const c slot) : k.isBound = true := by
  cases i with
  | const c slot => exact absurd rfl (hi c slot)
  | value t =>
    cases h
    rfl
  | func f sig =>
    cases h
    rfl
  | results ts => cases h
  | package path name => cases h

/-- What folding reports is a mistake in the file, or comes of the operator. -/
theorem stops_ofFolded {op : Operator} {a b : Constant} {e : ConstantError} (hfolds : env.folds = true)
    (h : Constant.fold op a b = .error (.error e)) : Stops env (.error (.ofConstant e)) := by
  cases e with
  | evaluation err => exact .inl ⟨hfolds, op, a, b, err, h, rfl⟩
  | _ => trivial

theorem reads_combine {op : Operator} {x y : Expr} {i j : Inferred} :
    Reads env s (combine op x y i j) (CombinedBy env op i j) := by
  unfold combine
  refine .bind reads_operandKind fun kx hkx => .bind reads_operandKind fun ky hky => ?_
  split
  · rename_i a slot b slot'
    refine .bind .read fun e he => ?_
    subst he
    split
    · rename_i hfolds
      cases hfold : Constant.fold op a b with
      | ok c => exact .bind (.pure (P := (· = c)) rfl) fun _ h => .pure (h ▸ .folded hfolds rfl rfl hfold)
      | error stop =>
        cases stop with
        | error err => exact stops_ofFolded hfolds hfold
        | fault f => exact .inr ⟨hfolds, fault_of_fold hfold⟩
    · rename_i hfolds
      have hopen : ¬(e.folds = true ∧ (∃ c slot'', Inferred.const a slot = .const c slot'') ∧
          ∃ c slot'', Inferred.const b slot' = .const c slot'') := fun h => hfolds h.1
      split
      · rename_i hbound
        refine .bind (.ofOperands fun r hr => (hr : _ = Except.ok r)) fun r hr => .pure ?_
        exact .applied hopen hkx hky (by rw [Operator.settle, if_pos hbound, hr])
      · rename_i hbound
        refine .bind (.ofOperands fun r hr => (hr : _ = Except.ok r)) fun r hr => .pure ?_
        exact .applied hopen hkx hky (by rw [Operator.settle, if_neg hbound, hr])
  · rename_i hconst
    have hopen : ¬(env.folds = true ∧ (∃ a slot, i = .const a slot) ∧ ∃ b slot, j = .const b slot) :=
      fun ⟨_, ⟨a, slot, hi⟩, b, slot', hj⟩ => hconst a slot b slot' hi hj
    have hbound : kx.isBound = true ∨ ky.isBound = true := by
      by_cases hi : ∃ c slot, i = .const c slot
      · refine .inr (isBound_of_operandKind? hky fun b slot' hj => ?_)
        obtain ⟨a, slot, hi⟩ := hi
        exact hconst a slot b slot' hi hj
      · exact .inl (isBound_of_operandKind? hkx fun a slot h => hi ⟨a, slot, h⟩)
    refine .bind (.ofOperands fun r hr => (hr : _ = Except.ok r)) fun r hr => .pure ?_
    exact .applied hopen hkx hky (by rw [settle_of_bound hbound, hr])

/-! ## Calls -/

/-- The function that a call names, or the type of the value that is called. -/
inductive CalledBy : Inferred → Option FuncRef × Signature → Prop
  | func (ref : FuncRef) (sig : Signature) : CalledBy (.func ref sig) (some ref, sig)
  | value {t : Ty} {sig : Signature} (h : t.signature? = some sig) :
    CalledBy (.value t) (none, sig)

theorem reads_callee {f : Expr} {i : Inferred} : Reads env s (callee f i) (CalledBy i) := by
  unfold callee
  split
  · exact .pure (.func _ _)
  · split
    · exact .pure (.value ‹_›)
    · exact .fail trivial
  · exact .fail trivial

theorem reads_pointee {x : Expr} {i : Inferred} :
    Reads env s (pointee x i) fun elem => ∃ t, i = .value t ∧ PointsTo t elem := by
  unfold pointee
  split
  · split
    · exact .pure ⟨_, rfl, ‹_›, ‹_›⟩
    · exact .fail trivial
  · exact .fail trivial

theorem reads_addressed {x : Expr} (h : InOrder L home s) :
    Reads env s (addressed x) fun (id, ty) => ∃ name v, x = .ident name ∧
      s.scopes.find? name = some (.var id) ∧ s.asm.vars[id]? = some v ∧ v.ty = ty := by
  unfold addressed
  split
  · rename_i name
    refine .bind (reads_find? h.declared.names) fun y hy => ?_
    subst hy
    split
    · rename_i id hfind
      have hid : id < s.asm.vars.size := (h.declared.scopes.known hfind).var_lt
      exact .bind (reads_var hid) fun v hv => .pure ⟨name, v, rfl, hfind, hv, rfl⟩
    all_goals exact .fail trivial
  · exact .fail trivial

end Compile

end StackScript
