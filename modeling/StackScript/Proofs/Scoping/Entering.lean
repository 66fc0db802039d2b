import StackScript.Proofs.Translation.Statements

/-!
# What compiling an expression enters

Looking ahead and emitting code leave the name table and the variables alone, whatever they end in.
All that they enter are functions of literals: when a literal is first met, its body joins the queue
and takes along the place where the compiler is (`CompileState.Enters`). `entering_infer`,
`entering_emit` and the lemmas around them say so of every step below a definition or a block.
-/

namespace StackScript

/-! ## Literals -/

/-- The type and the statements of a function literal. -/
abbrev Literal.Func := FuncTypeExpr × List Stmt

mutual

/-- The function literals of an expression, without those in their bodies. -/
def Expr.literals : Expr → List Literal.Func
  | .ident _ | .lit _ => []
  | .binary _ x y => x.literals ++ y.literals
  | .call f args _ => f.literals ++ literalsOf args
  | .select x _ | .addrOf x | .deref x => x.literals
  | .funcLit _ ty body => [(ty, body)]
termination_by structural e => e

def literalsOf : List Expr → List Literal.Func
  | [] => []
  | e :: es => e.literals ++ literalsOf es
termination_by structural es => es

end

theorem literals_subset_of_mem {e : Expr} {es : List Expr} (h : e ∈ es) :
    e.literals ⊆ literalsOf es := by
  induction es with
  | nil => cases h
  | cons x es ih =>
    rw [literalsOf]
    obtain rfl | h := List.mem_cons.1 h
    · exact List.subset_append_left _ _
    · exact List.Subset.trans (ih h) (List.subset_append_right _ _)

/-- The function literals of a statement, without those in inner blocks and bodies. -/
def Stmt.literals : Stmt → List Literal.Func
  | .expr e | .increment e | .decrement e => e.literals
  | .assign _ targets values => literalsOf targets ++ literalsOf values
  | .ret values => literalsOf values
  | .block _ => []

/-! ## Bodies that join the queue -/

/-- The body of one of some literals, at the place where a table looks names up. -/
structure WaitingBody.Of (t : NameTable) (ls : List Literal.Func) (b : WaitingBody) : Prop where
  path : b.path = t.path
  horizons : b.horizons = t.horizonsHere
  literal : (b.ty, b.stmts) ∈ ls

/-- No function has come to its end between the states. -/
def FuncsRun (xs ys : Array FuncInfo) : Prop :=
  ∀ (id : Nat) (g : FuncInfo), ys[id]? = some g → g.stop.isSome →
    ∃ f : FuncInfo, xs[id]? = some f ∧ f.stop.isSome

/-- Bodies have joined the queue, those of the functions that are new. -/
structure CompileState.Joined (s s' : CompileState) (new : List WaitingBody) : Prop where
  queue : s'.queue = s.queue ++ new
  size : s'.asm.funcs.size = s.asm.funcs.size + new.length
  ids : new.map (·.func) = List.range' s.asm.funcs.size new.length
  run : FuncsRun s.asm.funcs s'.asm.funcs

theorem FuncsRun.refl (xs : Array FuncInfo) : FuncsRun xs xs := fun _ f h hstop => ⟨f, h, hstop⟩

theorem FuncsRun.trans {xs ys zs : Array FuncInfo} (h : FuncsRun xs ys) (h' : FuncsRun ys zs) :
    FuncsRun xs zs := fun id g hg hstop =>
  have ⟨f, hf, hstop'⟩ := h' id g hg hstop
  h id f hf hstop'

namespace CompileState.Joined

variable {s s' s'' : CompileState} {new new' : List WaitingBody}

theorem refl (s : CompileState) : s.Joined s [] := ⟨(List.append_nil _).symm, rfl, rfl, .refl _⟩

theorem trans (h : s.Joined s' new) (h' : s'.Joined s'' new') : s.Joined s'' (new ++ new') where
  queue := by rw [h'.queue, h.queue, List.append_assoc]
  size := by rw [h'.size, h.size, List.length_append, Nat.add_assoc]
  ids := by rw [List.map_append, h.ids, h'.ids, h.size, List.length_append, List.range'_append_1]
  run := h.run.trans h'.run

end CompileState.Joined

/-- Between the states, nothing was declared, and all that was entered are functions of some
literals. -/
structure CompileState.Enters (ls : List Literal.Func) (s s' : CompileState) : Prop where
  names : s'.names = s.names
  body : s'.body = s.body
  vars : s'.asm.vars = s.asm.vars
  mainVars : s'.asm.mainVars = s.asm.mainVars
  joined : ∃ new, s.Joined s' new ∧ ∀ b ∈ new, b.Of s.names ls

namespace CompileState.Enters

variable {ls ls' : List Literal.Func} {s s' s'' : CompileState}

theorem refl (s : CompileState) : s.Enters ls s :=
  ⟨rfl, rfl, rfl, rfl, [], .refl s, fun _ hb => nomatch hb⟩

theorem trans (h : s.Enters ls s') (h' : s'.Enters ls s'') : s.Enters ls s'' := by
  obtain ⟨new, hnew, hof⟩ := h.joined
  obtain ⟨new', hnew', hof'⟩ := h'.joined
  refine ⟨h'.names.trans h.names, h'.body.trans h.body, h'.vars.trans h.vars,
    h'.mainVars.trans h.mainVars, new ++ new', hnew.trans hnew', fun b hb => ?_⟩
  obtain hb | hb := List.mem_append.1 hb
  · exact hof b hb
  · exact h.names ▸ hof' b hb

theorem mono (h : s.Enters ls s') (hls : ls ⊆ ls') : s.Enters ls' s' := by
  obtain ⟨new, hnew, hof⟩ := h.joined
  exact ⟨h.names, h.body, h.vars, h.mainVars, new, hnew,
    fun b hb => ⟨(hof b hb).path, (hof b hb).horizons, hls (hof b hb).literal⟩⟩

instance : IsPreorder CompileState (CompileState.Enters ls) where
  refl := refl
  trans _ _ _ := trans

end CompileState.Enters

/-! ## Assembling -/

/-- The task keeps the functions and the variables. -/
structure Assembly.SameFuncs (a a' : Assembly) : Prop where
  vars : a'.vars = a.vars
  mainVars : a'.mainVars = a.mainVars
  funcs : a'.funcs = a.funcs

instance : IsPreorder Assembly Assembly.SameFuncs where
  refl _ := ⟨rfl, rfl, rfl⟩
  trans _ _ _ h h' :=
    ⟨h'.vars.trans h.vars, h'.mainVars.trans h.mainVars, h'.funcs.trans h.funcs⟩

namespace Assembly

theorem sameFuncs_func (id : Nat) : (func id).Relates SameFuncs := .bind .get fun _ => .expect _

theorem sameFuncs_var (id : Nat) : (var id).Relates SameFuncs := .bind .get fun _ => .expect _

theorem sameFuncs_emit (w : Word) : (emit w).Relates SameFuncs := ⟨fun _ => ⟨rfl, rfl, rfl⟩⟩

theorem sameFuncs_emitChecked (w : Except Fault Word) : (emitChecked w).Relates SameFuncs :=
  .bind (.ofChecked w) fun w => .discard (sameFuncs_emit w)

theorem sameFuncs_emitRef (w : Except Fault Word) (id : Nat) : (emitRef w id).Relates SameFuncs :=
  .bind (.ofChecked w) fun w => .bind (sameFuncs_emit w) fun _ =>
    .bind (.discard (sameFuncs_func id)) fun _ => .modify fun _ => ⟨rfl, rfl, rfl⟩

theorem sameFuncs_reserve : reserve.Relates SameFuncs :=
  .bind (.ofChecked _) fun w => .bind (sameFuncs_emit w) fun _ =>
    .bind (.modify fun _ => ⟨rfl, rfl, rfl⟩) fun _ => .pure _

theorem sameFuncs_patch (offset : Nat) (w : Word) : (patch offset w).Relates SameFuncs := by
  unfold patch
  refine .bind .get fun a => ?_
  split
  · exact .modify fun _ => ⟨rfl, rfl, rfl⟩
  · exact .stop _

theorem sameFuncs_poolIndex (v : Value) : (poolIndex v).Relates SameFuncs :=
  ⟨fun a => by
    unfold poolIndex
    rw [Task.exec_bind, Task.exec_get]
    dsimp only
    split <;> exact ⟨rfl, rfl, rfl⟩⟩

theorem sameFuncs_valueWord (v : Value) : (valueWord v).Relates SameFuncs := by
  unfold valueWord
  split
  · split
    · exact .ofChecked _
    · exact .bind (sameFuncs_poolIndex _) fun _ => .ofChecked _
  · exact .bind (sameFuncs_poolIndex _) fun _ => .ofChecked _

theorem sameFuncs_pushValue (v : Value) : (pushValue v).Relates SameFuncs :=
  .bind (sameFuncs_valueWord v) fun w => sameFuncs_emit w

theorem sameFuncs_pop (n : Nat) : (pop n).Relates SameFuncs := by
  unfold pop
  split
  · exact sameFuncs_emitChecked _
  · exact .pure _

theorem sameFuncs_arityField (arity : Arity) : (arityField arity).Relates SameFuncs := by
  cases arity with
  | spread => exact .pure _
  | count n =>
    unfold arityField
    dsimp only
    split
    · exact .bind (.discard (sameFuncs_pushValue _)) fun _ => .pure _
    · exact .pure _

theorem sameFuncs_callFuncv (id : Nat) (arity : Arity) : (callFuncv id arity).Relates SameFuncs :=
  .bind (sameFuncs_arityField arity) fun _ => sameFuncs_emitRef _ id

theorem sameFuncs_callNativev (addr : Nat) (arity : Arity) :
    (callNativev addr arity).Relates SameFuncs :=
  .bind (sameFuncs_arityField arity) fun _ => sameFuncs_emitChecked _

end Assembly

namespace Compile

variable {α β : Type} {ls ls' : List Literal.Func}

/-- However the step ends, it enters functions of some literals only. -/
abbrev Entering (ls : List Literal.Func) (t : Compile α) : Prop :=
  ∀ env, (t env).Relates (CompileState.Enters ls)

namespace Entering

theorem mono {t : Compile α} (h : Entering ls t) (hls : ls ⊆ ls') : Entering ls' t :=
  fun env => ⟨fun s => ((h env).related s).mono hls⟩

theorem pure (a : α) : Entering ls (Pure.pure a : Compile α) := fun _ => .pure a

theorem bind {t : Compile α} {f : α → Compile β} (h : Entering ls t)
    (hf : ∀ a, Entering ls (f a)) : Entering ls (t >>= f) :=
  fun env => (h env).bind fun a => hf a env

theorem discard {t : Compile α} (h : Entering ls t) : Entering ls (discard t) :=
  fun env => (h env).discard

theorem fail (e : CompileError) : Entering ls (Compile.fail e : Compile α) := fun _ => .stop _

/-- A check that may fail comes before a step. -/
theorem check {c : Prop} [Decidable c] {e : CompileError} {t : Compile α} (h : Entering ls t) :
    Entering ls (if c then (do Compile.fail (α := PUnit) e; t) else t) := by
  split
  · exact bind (fail e) fun _ => h
  · exact h

theorem get : Entering ls (MonadState.get : Compile CompileState) := fun _ => .get

theorem read : Entering ls (MonadReader.read : Compile CompileEnv) := fun env => .pure env

/-- The shadow stack is none of what compiling enters. -/
theorem shadow {f : CompileState → Shadow} :
    Entering ls (modify fun s => { s with shadow := f s } : Compile PUnit) := fun _ =>
  .modify fun _ =>
    ⟨rfl, rfl, rfl, rfl, [], ⟨(List.append_nil _).symm, rfl, rfl, .refl _⟩, fun _ hb => nomatch hb⟩

theorem asm {t : Asm α} (h : t.Relates Assembly.SameFuncs) : Entering ls (Compile.asm t) := fun _ =>
  .zoom CompileError.build h fun _ _ ⟨hvars, hmain, hfuncs⟩ =>
    ⟨rfl, rfl, hvars, hmain, [], ⟨(List.append_nil _).symm, congrArg Array.size hfuncs, rfl,
      (hfuncs ▸ .refl _ : FuncsRun _ _)⟩, fun _ hb => nomatch hb⟩

theorem ofExcept (r : Except CompileError α) : Entering ls (Compile.ofExcept r) :=
  fun _ => .ofExcept r

theorem ofChecked (r : Except Fault α) : Entering ls (Compile.ofChecked r) := fun _ => .ofChecked r

theorem ofConstant (r : Except ConstantError α) : Entering ls (Compile.ofConstant r) := ofExcept _

theorem ofOperands (r : Except OperandError α) : Entering ls (Compile.ofOperands r) := ofExcept _

theorem ofFolded (r : Except (Stop ConstantError) α) : Entering ls (Compile.ofFolded r) := by
  rcases r with (e | f) | a
  · exact fail _
  · exact fun _ => .stop _
  · exact pure a

theorem forM {f : α → Compile PUnit} {l : List α} (h : ∀ a ∈ l, Entering ls (f a)) :
    Entering ls (l.forM f) := fun env => by
  induction l with
  | nil => exact .pure _
  | cons a l ih =>
    exact (h a List.mem_cons_self env).bind fun _ => ih fun b hb => h b (List.mem_cons_of_mem a hb)

end Entering

/-! ## The shadow stack -/

theorem entering_push (e : Inferred) : Entering ls (push e) := .shadow

theorem entering_pop : Entering ls pop :=
  .bind .get fun _ => .bind (.ofChecked _) fun _ => .bind .shadow fun _ => .pure _

theorem entering_top : Entering ls top := .bind .get fun _ => .ofChecked _

theorem entering_replace (n : Nat) (es : List Inferred) : Entering ls (replace n es) :=
  .bind .get fun _ => .bind (.ofChecked _) fun _ => .shadow

theorem entering_cutTo (n : Nat) : Entering ls (cutTo n) :=
  .bind .get fun _ => .bind (.ofChecked _) fun _ => .shadow

/-! ## Constants -/

theorem entering_pushConstant (c : Constant) : Entering ls (pushConstant c) := by
  unfold pushConstant
  split
  · exact .bind (.discard (.asm (Assembly.sameFuncs_pushValue _))) fun _ => entering_push _
  · exact .bind (.asm Assembly.sameFuncs_reserve) fun _ => entering_push _

theorem entering_fillSlot (offset : Nat) (v : Value) : Entering ls (fillSlot offset v) :=
  .bind (.asm (Assembly.sameFuncs_valueWord v)) fun _ => .asm (Assembly.sameFuncs_patch _ _)

/-- An instruction adds a word. -/
theorem entering_word (w : Except Fault Word) : Entering ls (asm (Assembly.emitChecked w)) :=
  .asm (Assembly.sameFuncs_emitChecked w)

theorem entering_coerceTop (k : Kind) : Entering ls (coerceTop k) := by
  unfold coerceTop
  refine .bind entering_pop fun e => ?_
  split
  · exact .bind (.ofConstant _) fun _ => .bind (entering_fillSlot _ _) fun _ => entering_push _
  · split
    · exact entering_push _
    · exact .check (.bind (entering_word _) fun _ => entering_push _)
  · split
    · exact entering_push _
    · exact .bind (entering_word _) fun _ => entering_push _
  · exact entering_push _

theorem entering_bindDefaultTop : Entering ls bindDefaultTop := by
  unfold bindDefaultTop
  refine .bind entering_top fun e => ?_
  split
  · exact entering_coerceTop _
  · exact .pure _

theorem entering_constantKind (c : Constant) (target : Ty) (context : String) :
    Entering ls (constantKind c target context) := by
  unfold constantKind
  split
  · exact .pure _
  · split
    · exact .pure _
    · exact .fail _

theorem entering_fitConstant (c : Constant) (slot : ConstSlot) (target : Ty) (context : String) :
    Entering ls (fitConstant c slot target context) := by
  unfold fitConstant
  refine .bind (entering_constantKind _ _ _) fun k => ?_
  split
  · exact .bind (.ofConstant _) fun _ => entering_fillSlot _ _
  · split
    · exact .pure _
    · exact .fail _
  · exact .pure _

theorem entering_checkAssignable (t target : Ty) (context : String) :
    Entering ls (checkAssignable t target context) := by
  unfold checkAssignable
  split
  · exact .pure _
  · exact .fail _

theorem entering_fitTop (target : Ty) (context : String) : Entering ls (fitTop target context) := by
  unfold fitTop
  refine .bind entering_pop fun e => ?_
  dsimp only
  split
  · exact .bind (entering_fitConstant _ _ _ _) fun _ => entering_push _
  · exact .bind (entering_checkAssignable _ _ _) fun _ => entering_push _
  all_goals exact .bind (.fail _) fun _ => entering_push _

theorem entering_discardTop : Entering ls discardTop :=
  .bind entering_bindDefaultTop fun _ => .bind (.discard entering_pop) fun _ =>
    .asm (Assembly.sameFuncs_pop 1)

theorem entering_coerceSecond (r : Resolution) : Entering ls (coerceSecond r) := by
  unfold coerceSecond
  split
  · exact entering_coerceTop _
  · exact entering_bindDefaultTop

/-! ## Names -/

theorem entering_find? (name : String) : Entering ls (find? name) := .bind .get fun _ => .pure _

theorem entering_var (id : Nat) : Entering ls (asm (Assembly.var id)) :=
  .asm (Assembly.sameFuncs_var id)

theorem entering_varOperand (id : Nat) : Entering ls (varOperand id) := by
  unfold varOperand
  refine .bind (entering_var id) fun v => ?_
  dsimp only
  split
  · exact .fail _
  · refine .bind .get fun s => ?_
    split
    · exact .pure _
    · split
      · exact .fail _
      · split
        · exact .fail _
        · exact .pure _

theorem entering_paramBelow (name : String) (func index : Nat) :
    Entering ls (paramBelow name func index) := by
  unfold paramBelow
  exact .bind .get fun s => .check (.pure _)

theorem entering_signatureOf (id : Nat) : Entering ls (signatureOf id) := by
  unfold signatureOf
  refine .bind (.asm (Assembly.sameFuncs_func id)) fun f => ?_
  split
  · exact .pure _
  · exact .fail _

theorem entering_nativeSignature (addr : Nat) (variadic : Bool) :
    Entering ls (nativeSignature addr variadic) := by
  unfold nativeSignature
  refine .bind .read fun env => ?_
  dsimp only
  split
  · exact .pure _
  · exact .fail _

theorem entering_nativeEntry (s : NativeSymbol) : Entering ls (nativeEntry s) := by
  unfold nativeEntry
  split
  · refine .bind .read fun env => ?_
    split
    · exact .pure _
    · exact .fail _
  · exact .bind (entering_nativeSignature _ _) fun _ => .pure _
  · exact .bind (entering_nativeSignature _ _) fun _ => .pure _

theorem entering_emitNative (s : NativeSymbol) : Entering ls (emitNative s) := by
  unfold emitNative
  refine .bind (entering_nativeEntry s) fun e => ?_
  split <;> exact .bind (entering_word _) fun _ => entering_push _

theorem entering_resolveName (name : String) : Entering ls (resolveName name) := by
  unfold resolveName
  refine .bind (entering_find? name) fun x => ?_
  split
  · exact .bind (entering_var _) fun _ => .pure _
  · exact .bind (entering_paramBelow _ _ _) fun _ => .pure _
  · exact .pure _
  · exact .bind (entering_signatureOf _) fun _ => .pure _
  · unfold resolveUndeclared
    split
    · exact .pure _
    · split
      · exact .pure _
      · refine .bind .read fun env => ?_
        split
        · exact .pure _
        · exact .fail _

theorem entering_namedEntry (n : Named) : Entering ls (namedEntry n) := by
  unfold namedEntry
  split
  case h_5 => exact entering_nativeEntry _
  all_goals exact .pure _

theorem entering_emitClosure (id : Nat) (sig : Signature) : Entering ls (emitClosure id sig) :=
  .bind (.asm (Assembly.sameFuncs_emitRef _ id)) fun _ => entering_push _

theorem entering_emitNamed (n : Named) : Entering ls (emitNamed n) := by
  unfold emitNamed
  split
  · exact .bind (entering_varOperand _) fun _ => .bind (entering_word _) fun _ => entering_push _
  · exact .bind (entering_word _) fun _ => entering_push _
  · exact entering_push _
  · exact entering_emitClosure _ _
  · exact entering_emitNative _
  · exact entering_pushConstant _

theorem entering_emitStore (id : Nat) : Entering ls (emitStore id) :=
  .bind (entering_varOperand id) fun _ => entering_word _

theorem entering_addressed (x : Expr) : Entering ls (addressed x) := by
  unfold addressed
  split
  · refine .bind (entering_find? _) fun y => ?_
    split
    · exact .bind (entering_var _) fun _ => .pure _
    all_goals exact .fail _
  · exact .fail _

theorem entering_emitAddress (x : Expr) : Entering ls (emitAddress x) :=
  .bind (entering_addressed x) fun _ => .bind (entering_varOperand _) fun _ =>
    .bind (entering_word _) fun _ => entering_push _

theorem entering_pointee (x : Expr) (e : Inferred) : Entering ls (pointee x e) := by
  unfold pointee
  split
  · split
    · exact .pure _
    · exact .fail _
  · exact .fail _

theorem entering_method? (t : Ty) (name : String) : Entering ls (method? t name) := by
  unfold method?
  split
  · refine .bind .read fun env => ?_
    split
    · exact .bind (entering_nativeSignature _ _) fun _ => .pure _
    · exact .bind (entering_nativeSignature _ _) fun _ => .pure _
    · exact .pure _
  · exact .pure _

theorem entering_resolveMember (e : Inferred) (name : String) :
    Entering ls (resolveMember e name) := by
  unfold resolveMember
  split
  · refine .bind .read fun env => ?_
    split
    · exact .pure _
    · exact .fail _
  · dsimp only
    split
    · exact .pure _
    · refine .bind (entering_method? _ _) fun m => ?_
      split
      · exact .pure _
      · exact .fail _
  · exact .fail _

theorem entering_memberEntry (m : Member) : Entering ls (memberEntry m) := by
  cases m with
  | native s => exact entering_nativeEntry s
  | _ => exact .pure _

/-! ## Operators and calls -/

theorem entering_operandKind (x : Expr) (e : Inferred) : Entering ls (operandKind x e) := by
  unfold operandKind
  split
  · exact .pure _
  all_goals exact .fail _

theorem entering_combine (op : Operator) (x y : Expr) (ex ey : Inferred) :
    Entering ls (combine op x y ex ey) := by
  unfold combine
  refine .bind (entering_operandKind _ _) fun kx => .bind (entering_operandKind _ _) fun ky => ?_
  split
  · refine .bind .read fun env => ?_
    split
    · exact .bind (.ofFolded _) fun _ => .pure _
    · split
      · exact .bind (.ofOperands _) fun _ => .pure _
      · exact .bind (.ofOperands _) fun _ => .pure _
  · exact .bind (.ofOperands _) fun _ => .pure _

theorem entering_callee (f : Expr) (e : Inferred) : Entering ls (callee f e) := by
  unfold callee
  split
  · exact .pure _
  · split
    · exact .pure _
    · exact .fail _
  · exact .fail _

theorem entering_checkCount (sig : Signature) (skip n : Nat) (shown : String) :
    Entering ls (checkCount sig skip n shown) := by
  unfold checkCount
  dsimp only
  split
  · split
    · exact .fail _
    · exact .pure _
  · split
    · exact .fail _
    · exact .pure _

theorem entering_fitResults (types targets : List Ty) (context : String) :
    Entering ls (fitResults types targets context) :=
  .forM fun _ _ => .bind (entering_checkAssignable _ _ _) fun _ => entering_push _

theorem entering_passArgs {sig : Signature} {skip n : Nat} {shown : String} {spread : Bool}
    {sole : Compile (Option (List Ty))} {each : String → List Ty → Compile Unit}
    (hsole : Entering ls sole) (heach : ∀ context types, Entering ls (each context types)) :
    Entering ls (passArgs sig skip shown n spread sole each) := by
  unfold passArgs
  dsimp only
  split
  · exact .check (.check (.bind (heach _ _) fun _ => .pure _))
  · refine .bind hsole fun types? => ?_
    split
    · exact .bind (entering_checkCount _ _ _ _) fun _ => .bind (entering_fitResults _ _ _)
        fun _ => .pure _
    · exact .bind (entering_checkCount _ _ _ _) fun _ => .bind (heach _ _) fun _ => .pure _

theorem entering_emitCall (sig : Signature) (arity : Arity) (ref : FuncRef) :
    Entering ls (emitCall sig arity ref) := by
  unfold emitCall
  split
  · exact .bind (.asm (Assembly.sameFuncs_emitRef _ _)) fun _ => entering_word _
  · split
    · exact .asm (Assembly.sameFuncs_callFuncv _ _)
    · exact .asm (Assembly.sameFuncs_emitRef _ _)
  · exact .asm (Assembly.sameFuncs_callNativev _ _)
  · exact entering_word _

theorem entering_receiverType (sig : Signature) (shown : String) :
    Entering ls (receiverType sig shown) := by
  unfold receiverType
  split
  · exact .pure _
  · exact .fail _

/-! ## Expressions -/

theorem exec_resolveSignature (ty : FuncTypeExpr) (env : CompileEnv) (s : CompileState) :
    (resolveSignature ty env).exec s =
      ((ty.resolve env.registry s.names.find?).mapError .error, s) :=
  Task.exec_ofExcept _ s

/-- A new function has no end. -/
theorem funcsRun_push {xs : Array FuncInfo} {f : FuncInfo} (hf : f.stop = none) :
    FuncsRun xs (xs.push f) := fun id g hg hstop => by
  rw [Array.getElem?_push] at hg
  split at hg
  · cases hg
    rw [hf] at hstop
    cases hstop
  · exact ⟨g, hg, hstop⟩

/-- Entering the function of a literal leaves the name table alone. -/
theorem enters_withLiteral {s : CompileState} {label : Nat} {f : FuncInfo} {b : WaitingBody}
    (hf : f.stop = none) (hid : b.func = s.asm.funcs.size) (hb : b.Of s.names ls) :
    s.Enters ls (s.withLiteral label f b) where
  names := rfl
  body := rfl
  vars := rfl
  mainVars := rfl
  joined := ⟨[b], ⟨rfl, Array.size_push _, by rw [List.map_singleton, hid]; rfl, funcsRun_push hf⟩,
    fun b' hb' => List.mem_singleton.1 hb' ▸ hb⟩

/-- The body of a literal joins the queue when the literal is first met. -/
theorem entering_literalFunc {label : Nat} {ty : FuncTypeExpr} {stmts : List Stmt}
    (h : (ty, stmts) ∈ ls) : Entering ls (literalFunc label ty stmts) := fun env => by
  constructor
  intro s
  obtain ⟨result, s', hexec⟩ : ∃ r s', (literalFunc label ty stmts env).exec s = (r, s') :=
    ⟨_, _, rfl⟩
  rw [hexec]
  unfold literalFunc at hexec
  rw [exec_bind_ok (Task.exec_get s)] at hexec
  cases hlookup : s.literals.lookup label with
  | some id =>
    rw [hlookup] at hexec
    cases hexec
    exact .refl s
  | none =>
    rw [hlookup] at hexec
    dsimp only at hexec
    have hresolve := exec_resolveSignature ty env s
    cases hsig : ty.resolve env.registry s.names.find? with
    | error e =>
      rw [hsig] at hresolve
      rw [exec_bind_error hresolve] at hexec
      cases hexec
      exact .refl s
    | ok sig =>
      rw [hsig] at hresolve
      rw [exec_bind_ok hresolve, exec_bind_ok exec_newFunc] at hexec
      cases hexec
      exact enters_withLiteral rfl rfl ⟨rfl, rfl, h⟩

/-! ## Expressions -/

/-- Looking ahead at an expression enters functions of its literals. -/
theorem entering_infer : ∀ e : Expr, Entering e.literals (infer e)
  | .ident name => .bind (entering_resolveName name) fun n => entering_namedEntry n
  | .lit _ => .bind (.ofConstant _) fun _ => .pure _
  | .binary op x y => by
    refine .bind ((entering_infer x).mono (List.subset_append_left ..)) fun ex =>
      .bind ((entering_infer y).mono (List.subset_append_right ..)) fun ey =>
        .bind (entering_combine _ _ _ _ _) fun c => ?_
    cases c <;> exact .pure _
  | .call f args spread =>
    .bind ((entering_infer f).mono (List.subset_append_left ..)) fun e =>
      .bind (entering_callee f e) fun _ => .pure _
  | .select x name => .bind (entering_infer x) fun e =>
    .bind (entering_resolveMember e name) fun m => entering_memberEntry m
  | .funcLit label ty body => .bind (entering_literalFunc (List.mem_singleton_self _)) fun id =>
    .bind (entering_signatureOf id) fun _ => .pure _
  | .addrOf x => .bind (entering_addressed x) fun _ => .pure _
  | .deref p => .bind (entering_infer p) fun e => .bind (entering_pointee p e) fun _ => .pure _
termination_by structural e => e

mutual

/-- So does emitting its code. -/
theorem entering_emit : ∀ e : Expr, Entering e.literals (emit e)
  | .ident name => .bind (entering_resolveName name) fun n => entering_emitNamed n
  | .lit _ => .bind (.ofConstant _) fun _ => entering_pushConstant _
  | .binary op x y => by
    have hx : x.literals ⊆ (Expr.binary op x y).literals := List.subset_append_left ..
    have hy : y.literals ⊆ (Expr.binary op x y).literals := List.subset_append_right ..
    refine .bind ((entering_infer x).mono hx) fun ex => .bind ((entering_infer y).mono hy) fun ey =>
      .bind (entering_combine _ _ _ _ _) fun c => ?_
    cases c with
    | folded c => exact entering_pushConstant c
    | applied r =>
      exact .bind ((entering_emit x).mono hx) fun _ => .bind (entering_coerceTop _) fun _ =>
        .bind ((entering_emit y).mono hy) fun _ => .bind (entering_coerceSecond r) fun _ =>
          .bind (entering_word _) fun _ => entering_replace _ _
  | .call f args spread => by
    have hf : f.literals ⊆ (Expr.call f args spread).literals := List.subset_append_left ..
    have hargs : literalsOf args ⊆ (Expr.call f args spread).literals :=
      List.subset_append_right ..
    refine .bind .get fun s => .bind ((entering_infer f).mono hf) fun e =>
      .bind (entering_callee f e) fun ⟨ref?, sig⟩ => ?_
    have hpass (skip : Nat) : Entering (Expr.call f args spread).literals
        (passArgs sig skip f.shown args.length spread (emitSole args) (emitEach args)) :=
      entering_passArgs ((entering_emitSole args).mono hargs) fun context types =>
        (entering_emitEach args context types).mono hargs
    cases ref? with
    | some ref =>
      exact .bind ((entering_emitReceiver f sig ref).mono hf) fun skip => .bind (hpass skip)
        fun arity => .bind (entering_emitCall _ _ _) fun _ => .bind (entering_cutTo _) fun _ =>
          entering_push _
    | none =>
      exact .bind (hpass 0) fun arity => .bind ((entering_emit f).mono hf) fun _ =>
        .bind (entering_word _) fun _ => .bind (entering_cutTo _) fun _ => entering_push _
  | .select x name => by
    refine .bind (entering_infer x) fun e => .bind (entering_resolveMember e name) fun m => ?_
    cases m with
    | native s => exact entering_emitNative s
    | field ptrs index ty =>
      exact .bind (entering_emit x) fun _ => .bind (.discard entering_pop) fun _ =>
        .bind (.forM fun _ _ => entering_word _) fun _ =>
          .bind (entering_word _) fun _ => entering_push _
    | method => exact .fail _
  | .funcLit label ty body => .bind (entering_literalFunc (List.mem_singleton_self _)) fun id =>
    .bind (entering_signatureOf id) fun _ => entering_emitClosure _ _
  | .addrOf x => (entering_emitAddress x).mono (List.nil_subset _)
  | .deref p => .bind (entering_infer p) fun e => .bind (entering_pointee p e) fun elem =>
    .bind (entering_emit p) fun _ => .bind (.discard entering_pop) fun _ =>
      .bind (entering_word _) fun _ => entering_push _
termination_by structural e => e

theorem entering_emitReceiver : ∀ (f : Expr) (sig : Signature) (ref : FuncRef),
    Entering f.literals (emitReceiver f sig ref)
  | .select x name, sig, .native _ _ true =>
    .bind (entering_receiverType _ _) fun _ => .bind (entering_emit x) fun _ =>
      .bind (entering_fitTop _ _) fun _ => .pure _
  | .select _ _, _, .native _ _ false | .select _ _, _, .script _ _ => .pure _
  | .ident _, _, ref | .lit _, _, ref | .binary _ _ _, _, ref | .call _ _ _, _, ref
  | .funcLit _ _ _, _, ref | .addrOf _, _, ref | .deref _, _, ref => by
    unfold emitReceiver
    split
    · contradiction
    · exact .fail _
    · exact .pure _
termination_by structural f => f

theorem entering_emitSole : ∀ args : List Expr, Entering (literalsOf args) (emitSole args)
  | [e] => by
    have he : e.literals ⊆ literalsOf [e] := List.subset_append_left ..
    unfold emitSole
    refine .bind ((entering_infer e).mono he) fun i => ?_
    split
    · refine .bind ((entering_emit e).mono he) fun _ => .bind entering_pop fun i => ?_
      split
      · exact .pure _
      · exact .fail _
    · exact .pure _
  | [] | _ :: _ :: _ => .pure _
termination_by structural args => args

theorem entering_emitEach : ∀ (es : List Expr) (context : String) (types : List Ty),
    Entering (literalsOf es) (emitEach es context types)
  | e :: es, context, t :: ts =>
    .bind ((entering_emit e).mono (List.subset_append_left ..)) fun _ =>
      .bind (entering_fitTop t context) fun _ =>
        (entering_emitEach es context ts).mono (List.subset_append_right ..)
  | [], _, _ | _ :: _, _, [] => .pure _
termination_by structural es => es

end

end Compile

end StackScript
