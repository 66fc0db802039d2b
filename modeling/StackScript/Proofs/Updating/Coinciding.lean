import StackScript.Proofs.Updating.Placing

/-!
# Two codes for one effect

An update combines the value of a place with its operand through the address, or in the slot of a
parameter; the assignment loads, combines and stores. Code of the two comes out or fails for the same
operands, and where it comes out it runs alike (`Compile.Located.coincide`).
-/

namespace StackScript

open CompileState Machine

namespace Compile

open Word (Spell)

/-- Wherever one of two steps fails the other does, and otherwise the codes that they add agree. -/
def Coincide (env : CompileEnv) (s : CompileState) (t t' : Compile Unit) (cs : Array Value) : Prop :=
  (Denies env s t cs [] ∧ Denies env s t' cs []) ∨
  ∃ ws ws' is is' cs₁ cs₂, Appends env s t cs [] ws cs₁ [] ∧ Appends env s t' cs [] ws' cs₂ [] ∧
    Spell ws is ∧ Spell ws' is' ∧ ∀ (m : Machine) (call : Caller) (ctx : Nat) (u : Thread), m.Hosts ctx u →
      Extends cs₁ m.program.consts → Extends cs₂ m.program.consts →
      Run.Matches ((m.follow call ctx is).exec u) ((m.follow call ctx is').exec u)

variable {env : CompileEnv} {s : CompileState} {cs : Array Value} {es : Shadow} {k l : Kind} {x v : Expr}
  {t : Compile Unit} {op : Operator}

/-! ## Steps of an assignment -/

theorem appends_coerceTop :
    Appends env s (coerceTop k) cs (.value (.basic k) :: es) [] cs (.value (.basic k) :: es) := by
  refine .pop ?_
  dsimp only
  rw [if_pos (show (Ty.basic k).kind = k from rfl)]
  exact appends_push _

/-- A value is one value. -/
theorem appends_checkSingle {u : Ty} {ws : List Word} {cs' : Array Value} {es' : Shadow}
    (h : Appends env s t cs (.value u :: es) ws cs' es') :
    Appends env s (do checkSingle v (← top); t) cs (.value u :: es) ws cs' es' := h

theorem exists_builtinOp (k : Kind) (hk : k.isBasic = true) (op : Operator) :
    ∃ w, Word.makeOperator k op = .ok w ∧ w.decode? = some (.builtinOp (some k) (some op)) := by
  obtain ⟨w, hw⟩ := Word.exists_makeOperator k op
  refine ⟨w, hw, ?_⟩
  rw [Word.decode?_of_makeOperator hw, Kind.nameable_of_isBasic hk]

/-! ## At an address -/

/-- Code that follows the value of a place: it is combined with what a step leaves, and assigned. -/
def assignCombined (t : Compile Unit) (op : Operator) (r : Resolution) (x v : Expr) : Compile Unit := do
  coerceTop r.first
  t
  asm (Assembly.builtinOp r.operand op)
  replace 2 [.value (.basic r.result)]
  checkSingle v (← top)
  assignTo false x

section

variable {second : Option Kind} {f : Unit → Compile Unit} {w : Word} {ws wss : List Word} {e : Inferred}
  {cs' : Array Value}

theorem denies_coerceTop (h : Denies env s (f ()) cs [.value (.basic k)]) :
    Denies env s (coerceTop k >>= f) cs [.value (.basic k)] := appends_coerceTop.denies h

theorem denies_assignCombined (h : Denies env s t cs []) :
    Denies env s (assignCombined t op ⟨k, k, second, k⟩ x v) cs [.value (.basic k)] :=
  denies_coerceTop (h.frame [.value (.basic k)]).bind

theorem appends_assignCombined (h : Appends env s t cs [] ws cs' [e]) (hw : Word.makeOperator k op = .ok w)
    (hx : ∀ cs, Appends env s (assignTo false x) cs [.value (.basic k)] wss cs []) :
    Appends env s (assignCombined t op ⟨k, k, second, k⟩ x v) cs [.value (.basic k)]
      (ws ++ ([w] ++ wss)) cs' [] := by
  have hsingle := appends_checkSingle (v := v) (hx cs')
  have hreplace : Appends env s (do
      replace 2 [.value (.basic k)]
      checkSingle v (← top)
      assignTo false x) cs' [e, .value (.basic k)] wss cs' [] := appends_replace.bind hsingle
  exact appends_coerceTop.bind ((h.frame [.value (.basic k)]).bind ((appends_word hw).bind hreplace))

end

/-- Code that combines a target with what a step leaves. -/
def combineOn (x : Expr) (op : Operator) (r : Resolution) (t : Compile Unit) : Target → Compile Unit
  | .addr ty => do
    t
    discard pop
    emitAtAddress x ty.kind (.update op)
  | .param below _ => do
    asm (Assembly.loadArg below)
    t
    discard pop
    asm (Assembly.builtinOp r.operand op)
    asm (Assembly.storeArg below)

/-- An update at an address, and the assignment. -/
theorem coincide_address (hx : HasAddress env s k x) (hk : k.isBasic = true)
    (ht : ∀ cs, Uniform env s t cs [] OneDone) (hop : op.hasUpdateForm = true) {second : Option Kind} :
    Coincide env s (combineOn x op ⟨k, k, second, k⟩ t (.addr (.basic k))) (do
      emit x
      assignCombined t op ⟨k, k, second, k⟩ x v) cs := by
  obtain hnone | ⟨A, L, S, was, wls, wss, hcode⟩ := placeCode_cases hk hx
  · refine .inl ⟨(ht cs).denies fun ws cs' es hdone => ?_, (hnone.emits cs).bind⟩
    obtain ⟨e, -, rfl, -⟩ := hdone
    exact (hnone.applies cs' _).discard_pop
  obtain hdenies | ⟨ws, cs', es, happends, e, -, rfl, E, hE, hspell⟩ := ht cs
  · exact .inl ⟨hdenies.bind, (hcode.emits cs).denies (denies_assignCombined hdenies)⟩
  obtain ⟨w, hw, hupdate⟩ := exists_addrOp k hk (.update op) (if_pos hop)
  obtain ⟨w', hw', hoperator⟩ := exists_builtinOp k hk op
  refine .inr ⟨ws ++ (was ++ [w]), wls ++ (ws ++ ([w'] ++ wss)),
    E ++ A ++ [.addrOp (some k) (some (.update op))],
    L ++ E ++ [.builtinOp (some k) (some op)] ++ S, cs', cs', ?_, ?_, ?_, ?_, fun m call ctx u hu _ _ => ?_⟩
  · exact happends.bind (hcode.applies cs' _ w hw).discard_pop
  · exact (hcode.emits cs).bind (appends_assignCombined happends hw' hcode.assigns)
  · simpa only [List.append_assoc] using hspell.append (hcode.address.append (Word.spell_one hupdate))
  · simpa only [List.append_assoc] using
      hcode.load.append (hspell.append ((Word.spell_one hoperator).append hcode.store))
  · exact agree_update hu hcode.locates hE op

/-! ## At a parameter -/

/-- An argument is loaded and stored by one word each, or there is no word for either. -/
theorem argWords_cases (below : Nat) :
    (∃ w w', Word.make .loadArg below = .ok w ∧ Word.make .storeArg below = .ok w' ∧
      w.decode? = some (.loadArg below) ∧ w'.decode? = some (.storeArg below)) ∨
    ∃ x x', Word.make .loadArg below = .error x ∧ Word.make .storeArg below = .error x' := by
  by_cases hb : below < Word.operandRange
  · have hl : Word.make .loadArg below = .ok _ := if_pos hb
    have hs : Word.make .storeArg below = .ok _ := if_pos hb
    exact .inl ⟨_, _, hl, hs, Word.decode?_of_make hl fun w h => by rw [Instr.ofOpcode, h],
      Word.decode?_of_make hs fun w h => by rw [Instr.ofOpcode, h]⟩
  · exact .inr ⟨_, _, if_neg hb, if_neg hb⟩

/-- An update of a parameter is the very code of the assignment. -/
theorem coincide_param {name : String} {func index : Nat} (hname : name ≠ "_")
    (hfind : s.names.find? name = some (.param func index (.basic k))) (hfunc : s.body.func = some func)
    (hk : k.isBasic = true) (ht : ∀ cs, Uniform env s t cs [] OneDone) {second : Option Kind} :
    Coincide env s (combineOn (.ident name) op ⟨k, k, second, k⟩ t
      (.param (s.body.numParams - index) (.basic k))) (do
      emit (.ident name)
      assignCombined t op ⟨k, k, second, k⟩ (.ident name) v) cs := by
  have hresolve : Settled env s (resolveName name) (.param (s.body.numParams - index) (.basic k)) :=
    settled_resolveParam hfind hfunc
  have hassignable : Settled env s (assignable name) (.inr (s.body.numParams - index, .basic k)) :=
    settled_assignableParam hfind hfunc
  obtain ⟨w, w', hload, hstore, hw, hw'⟩ | ⟨x, x', hload, hstore⟩ := argWords_cases (s.body.numParams - index)
  · have hemit (cs : Array Value) : Appends env s (emit (.ident name)) cs [] [w] cs [.value (.basic k)] :=
      .read hresolve ((appends_word hload).bind (appends_push _))
    have hassign (cs : Array Value) :
        Appends env s (assignTo false (.ident name)) cs [.value (.basic k)] [w'] cs [] := by
      show Appends env s (assignName name) cs _ _ cs _
      unfold assignName
      rw [if_neg hname]
      exact .read hassignable (appends_fitTop.bind (.discard_pop (appends_word hstore)))
    obtain hdenies | ⟨ws, cs', es, happends, e, -, rfl, E, -, hspell⟩ := ht cs
    · exact .inl ⟨(appends_word hload).denies hdenies.bind, (hemit cs).denies (denies_assignCombined hdenies)⟩
    obtain ⟨wo, hwo, hoperator⟩ := exists_builtinOp k hk op
    have hshort : Appends env s (do
        t
        discard pop
        asm (Assembly.builtinOp k op)
        asm (Assembly.storeArg (s.body.numParams - index))) cs [] (ws ++ ([wo] ++ [w'])) cs' [] :=
      happends.bind (.discard_pop ((appends_word hwo).bind (appends_word hstore)))
    have hspell : Spell ([w] ++ (ws ++ ([wo] ++ [w'])))
        ([.loadArg (s.body.numParams - index)] ++ (E ++ ([.builtinOp (some k) (some op)] ++
          [.storeArg (s.body.numParams - index)]))) :=
      (Word.spell_one hw).append (hspell.append ((Word.spell_one hoperator).append (Word.spell_one hw')))
    exact .inr ⟨_, _, _, _, cs', cs', (appends_word hload).bind hshort,
      (hemit cs).bind (appends_assignCombined happends hwo hassign), hspell, hspell,
      fun _ _ _ _ _ _ _ => .refl _⟩
  · exact .inl ⟨(denies_word hload).bind, .bind (.read hresolve (.bind (denies_word hload)))⟩

/-! ## At any place -/

/-- A place as it is known where its code is emitted, and the target that it is. -/
inductive Located (env : CompileEnv) (s : CompileState) (k : Kind) : Expr → Target → Prop
  | addr {x : Expr} (h : HasAddress env s k x) : Located env s k x (.addr (.basic k))
  | param {name : String} {func index : Nat} (hname : name ≠ "_")
    (hfind : s.names.find? name = some (.param func index (.basic k))) (hfunc : s.body.func = some func) :
    Located env s k (.ident name) (.param (s.body.numParams - index) (.basic k))

theorem HasAddress.later {s' : CompileState} (h : HasAddress env s k x) (hs : Later s s') :
    HasAddress env s' k x := by
  cases h with
  | var hname hfind hvar hty => exact .var hname (hs.names ▸ hfind) (hs.vars ▸ hvar) hty
  | pointee hcall hinfer hpoints => exact .pointee hcall (hinfer.later hs) hpoints

theorem Located.later {s' : CompileState} {target : Target} (h : Located env s k x target) (hs : Later s s') :
    Located env s' k x target := by
  cases h with
  | addr h => exact .addr (h.later hs)
  | param hname hfind hfunc => exact hs.body ▸ .param hname (hs.names ▸ hfind) (hs.body ▸ hfunc)

/-- Looking ahead at a place finds the target and the type. -/
theorem IsPlace.located (h : IsPlace env s k x) : ∃ s' t, s.AddsLiterals s' ∧
    ((target x) env).exec s = (.ok t, s') ∧ ((infer x) env).exec s = (.ok (.value (.basic k)), s') ∧
    Located env s' k x t := by
  cases h with
  | @var name id v hname hfind hvar hty =>
    have htarget : Settled env s (target (.ident name)) (.addr (.basic k)) :=
      hty ▸ (settled_assignableVar hfind).bind ((settled_var hvar).bind (.pure _))
    have hinfer : Settled env s (infer (.ident name)) (.value (.basic k)) :=
      (settled_resolveVar hfind hvar hty).bind (.pure _)
    exact ⟨s, _, .refl, htarget.exec, hinfer.exec, .addr (.var hname hfind hvar hty)⟩
  | @param name func index hname hfind hfunc =>
    have htarget : Settled env s (target (.ident name)) (.param (s.body.numParams - index) (.basic k)) :=
      (settled_assignableParam hfind hfunc).bind (.pure _)
    have hinfer : Settled env s (infer (.ident name)) (.value (.basic k)) :=
      (settled_resolveParam hfind hfunc).bind (.pure _)
    exact ⟨s, _, .refl, htarget.exec, hinfer.exec, .param hname hfind hfunc⟩
  | @pointee p t s' hcall hinfer hpoints =>
    obtain ⟨hadds, hset⟩ := asks_infer p s _ s' hinfer
    have hpointee : Settled env s' (Compile.pointee p (.value t)) (.basic k) := settled_pointee hpoints
    refine ⟨s', .addr (.basic k), hadds, ?_, ?_, .addr (.pointee hcall hset hpoints)⟩
    · exact (exec_bind_ok hinfer).trans (exec_bind_ok hpointee.exec)
    · exact (exec_bind_ok hinfer).trans (exec_bind_ok hpointee.exec)

/-- A value of another type is not assigned to a place. -/
theorem Located.denies_assign {target : Target} (h : Located env s k x target) (hl : l ≠ k) :
    Denies env s (assignTo false x) cs [.value (.basic l)] := by
  cases h with
  | addr h =>
    cases h with
    | @var name id v hname hfind hvar hty =>
      show Denies env s (assignName name) cs _
      unfold assignName
      rw [if_neg hname]
      refine .read (settled_assignableVar hfind) (.read (settled_var hvar) ?_)
      rw [hty]
      exact (denies_fitTop hl).bind
    | @pointee p t hcall hinfer hpoints =>
      exact .read hinfer (.read (settled_pointee hpoints) (denies_fitTop hl).bind)
  | @param name func index hname hfind hfunc =>
    show Denies env s (assignName name) cs _
    unfold assignName
    rw [if_neg hname]
    exact .read (settled_assignableParam hfind hfunc) (denies_fitTop hl).bind

/-! ## Kinds -/

/-- A value of a kind is brought to another one. -/
theorem exists_appends_coerceTop (env : CompileEnv) (s : CompileState) (k l : Kind) : ∃ ws, ∀ cs,
    Appends env s (coerceTop l) cs [.value (.basic k)] ws cs [.value (.basic l)] := by
  by_cases hk : k = l
  · subst hk
    exact ⟨[], fun cs => appends_coerceTop⟩
  · have hcode := l.code_lt
    obtain ⟨w, hw⟩ : ∃ w, Word.make .convert l.code = .ok w :=
      ⟨_, if_pos (by rw [Word.operandRange_eq]; omega)⟩
    refine ⟨[w], fun cs => .pop ?_⟩
    dsimp only
    rw [if_neg (show ¬(Ty.basic k).kind = l from hk)]
    exact (appends_word hw).bind (appends_push _)

/-- A result of another kind than that of the place is not assigned. -/
theorem Located.denies_assignCombined {target : Target} {r : Resolution} (h : Located env s k x target)
    (ht : ∀ cs, Uniform env s t cs [] OneDone) (hr : r.result ≠ k) :
    Denies env s (assignCombined t op r x v) cs [.value (.basic k)] := by
  obtain ⟨ws, hcoerce⟩ := exists_appends_coerceTop env s k r.first
  refine (hcoerce cs).denies ?_
  obtain hdenies | ⟨ws, cs', es, happends, e, -, rfl, -⟩ := ht cs
  · exact (hdenies.frame [.value (.basic r.first)]).bind
  obtain ⟨w, hw⟩ := Word.exists_makeOperator r.operand op
  refine (happends.frame [.value (.basic r.first)]).denies ((appends_word hw).denies ?_)
  exact appends_replace.denies (h.denies_assign hr)

/-- An update has the kind of its operands for its result. -/
theorem eq_of_resolve {r : Resolution} {kx ky : OperandKind} (hop : op.hasUpdateForm = true)
    (h : op.resolve kx ky = .ok r) : r = ⟨r.first, r.first, r.second, r.first⟩ := by
  obtain ⟨hfirst, -, hresult⟩ := Operator.operand_of_resolve h
  have hcompares : op.isComparison = false := by
    cases op <;> first | rfl | cases hop
  rw [Operator.resultKind, hcompares, if_neg Bool.false_ne_true] at hresult
  obtain ⟨operand, first, second, result⟩ := r
  cases hfirst
  cases hresult
  rfl

/-- The code of a place finds its value, or there is none. -/
theorem Located.steady_emit {target : Target} (h : Located env s k x target) :
    Steady env s (emit x) [] (Leaves (.value (.basic k))) := by
  cases h with
  | addr h =>
    cases h with
    | var hname hfind hvar hty =>
      exact Compile.steady_emit rfl nofun ((settled_resolveVar hfind hvar hty).bind (.pure _))
    | pointee hcall hinfer hpoints =>
      exact Compile.steady_emit hcall nofun (hinfer.bind ((settled_pointee hpoints).bind (.pure _)))
  | param hname hfind hfunc =>
    exact Compile.steady_emit rfl nofun ((settled_resolveParam hfind hfunc).bind (.pure _))

/-- An update of a place, and the assignment. -/
theorem Located.coincide {target : Target} {ky : OperandKind} {r : Resolution} (h : Located env s k x target)
    (v : Expr) (err : CompileError) (cs : Array Value) (hop : op.hasUpdateForm = true)
    (hr : op.resolve (.bound k) ky = .ok r)
    (ht : ∀ cs, Uniform env s t cs [] OneDone) : Coincide env s (do
      if r.first ≠ k then fail err
      combineOn x op r t target) (do
      emit x
      assignCombined t op r x v) cs := by
  obtain ⟨hoperand, hbasic, -⟩ := Operator.operand_of_resolve hr
  have heq := eq_of_resolve hop hr
  by_cases hk : r.first = k
  · rw [if_neg (not_not_intro hk), heq, hk]
    rw [hoperand, hk] at hbasic
    cases h with
    | addr h => exact coincide_address h hbasic ht hop
    | param hname hfind hfunc => exact coincide_param hname hfind hfunc hbasic ht
  · have hresult : r.result ≠ k := by rwa [heq]
    rw [if_pos hk]
    refine .inl ⟨denies_fail.bind, ?_⟩
    obtain hdenies | ⟨ws, es, happends, rfl, -⟩ := h.steady_emit
    · exact (hdenies cs).bind
    · exact (happends cs).denies (h.denies_assignCombined ht hresult)

end Compile

end StackScript
