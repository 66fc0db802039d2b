import StackScript.Proofs.Updating.Looking
import StackScript.Proofs.Updating.Rewriting

/-!
# Code for a place

Where an update may write, to a variable or through a pointer, the compiler has three kinds of code: to
load the value, to apply an operator at the address, and to store a value. Wherever one of them comes out
the others do, and they are for one place (`Compile.placeCode_cases`).
-/

namespace StackScript

open CompileState Machine

/-! ## Words that fit -/

namespace Word

/-- Whether the address of a variable fits does not depend on what is done with it. -/
theorem makeVar_cases (scope index : Nat) :
    (∀ o, ∃ w, makeVar o scope index = .ok w) ∨ ∀ o, ∃ x, makeVar o scope index = .error x := by
  unfold makeVar
  cases makeAddress scope index with
  | error x => exact .inr fun o => ⟨x, rfl⟩
  | ok n =>
    by_cases hn : n < operandRange
    · exact .inl fun o => ⟨_, if_pos hn⟩
    · exact .inr fun o => ⟨_, if_neg hn⟩

theorem exists_makeAddressOperator (k : Kind) (op : AddressOperator) :
    ∃ w, makeAddressOperator k op = .ok w := by
  have hk := k.code_lt
  have hop := op.code_lt
  exact ⟨_, if_pos (by rw [operandRange_eq]; omega)⟩

theorem exists_makeOperator (k : Kind) (op : Operator) : ∃ w, makeOperator k op = .ok w := by
  have hk := k.code_lt
  have hop := op.code_lt
  exact ⟨_, if_pos (by rw [operandRange_eq]; omega)⟩

end Word

namespace Compile

open Word (Spell)

variable {env : CompileEnv} {s : CompileState} {cs : Array Value} {es : Shadow} {k : Kind} {x : Expr}

/-! ## Places -/

/-- What an update may write to: a variable, a parameter of the running function, or what a pointer that is
found without calls points to. Values there are of the basic type of the kind. -/
inductive IsPlace (env : CompileEnv) (s : CompileState) (k : Kind) : Expr → Prop
  | var {name : String} {id : Nat} {v : Var} (hname : name ≠ "_")
    (hfind : s.names.find? name = some (.var id)) (hvar : s.asm.vars[id]? = some v) (hty : v.ty = .basic k) :
    IsPlace env s k (.ident name)
  | param {name : String} {func index : Nat} (hname : name ≠ "_")
    (hfind : s.names.find? name = some (.param func index (.basic k))) (hfunc : s.body.func = some func) :
    IsPlace env s k (.ident name)
  | pointee {p : Expr} {t : Ty} {s' : CompileState} (hcall : p.hasCall = false)
    (hinfer : ((infer p) env).exec s = (.ok (.value t), s')) (hpoints : PointsTo t (.basic k)) :
    IsPlace env s k (.deref p)

/-- A place with an address, as it is known where its code is emitted. -/
inductive HasAddress (env : CompileEnv) (s : CompileState) (k : Kind) : Expr → Prop
  | var {name : String} {id : Nat} {v : Var} (hname : name ≠ "_")
    (hfind : s.names.find? name = some (.var id)) (hvar : s.asm.vars[id]? = some v) (hty : v.ty = .basic k) :
    HasAddress env s k (.ident name)
  | pointee {p : Expr} {t : Ty} (hcall : p.hasCall = false) (hinfer : Settled env s (infer p) (.value t))
    (hpoints : PointsTo t (.basic k)) : HasAddress env s k (.deref p)

/-- The words that load from a place, those for its address and those that store to it. -/
structure PlaceCode (env : CompileEnv) (s : CompileState) (k : Kind) (x : Expr)
    (A L S : List Instr) (was wls wss : List Word) : Prop where
  locates : Locates k A L S
  address : Spell was A
  load : Spell wls L
  store : Spell wss S
  emits : ∀ cs, Appends env s (emit x) cs [] wls cs [.value (.basic k)]
  applies : ∀ cs op w, Word.makeAddressOperator k op = .ok w →
    Appends env s (emitAtAddress x k op) cs [] (was ++ [w]) cs []
  assigns : ∀ cs, Appends env s (assignTo false x) cs [.value (.basic k)] wss cs []

/-- There is no code for the place. -/
structure NoCode (env : CompileEnv) (s : CompileState) (k : Kind) (x : Expr) : Prop where
  emits : ∀ cs, Denies env s (emit x) cs []
  applies : ∀ cs op, Denies env s (emitAtAddress x k op) cs []
  assigns : ∀ cs, Denies env s (assignTo false x) cs [.value (.basic k)]

/-! ### Answers at a place -/

theorem settled_find? {name : String} {y : Option Symbol} (h : s.names.find? name = y) :
    Settled env s (find? name) y := fun u hu => by
  rw [← h, ← hu.names]
  rfl

theorem settled_var {id : Nat} {v : Var} (h : s.asm.vars[id]? = some v) :
    Settled env s (asm (Assembly.var id)) v := fun u hu => by
  rw [← hu.vars] at h
  exact exec_expect_eq_ok.2 ⟨rfl, h⟩

section

variable {name : String} {id func index : Nat} {v : Var}

theorem settled_resolveVar (hfind : s.names.find? name = some (.var id)) (hvar : s.asm.vars[id]? = some v)
    (hty : v.ty = .basic k) : Settled env s (resolveName name) (.var id (.basic k)) :=
  hty ▸ (settled_find? hfind).bind ((settled_var hvar).bind (.pure _))

theorem settled_assignableVar (hfind : s.names.find? name = some (.var id)) :
    Settled env s (assignable name) (.inl id) :=
  (settled_find? hfind).bind (.pure _)

theorem settled_paramBelow (hfunc : s.body.func = some func) :
    Settled env s (paramBelow name func index) (s.body.numParams - index) := fun u hu => by
  show ((if u.body.func ≠ some func then fail (.captureParameter name) >>= fun _ =>
    pure (u.body.numParams - index) else pure (u.body.numParams - index)) env).exec u = _
  rw [hu.body, if_neg (not_not_intro hfunc)]
  rfl

theorem settled_resolveParam (hfind : s.names.find? name = some (.param func index (.basic k)))
    (hfunc : s.body.func = some func) :
    Settled env s (resolveName name) (.param (s.body.numParams - index) (.basic k)) :=
  (settled_find? hfind).bind ((settled_paramBelow hfunc).bind (.pure _))

theorem settled_assignableParam (hfind : s.names.find? name = some (.param func index (.basic k)))
    (hfunc : s.body.func = some func) :
    Settled env s (assignable name) (.inr (s.body.numParams - index, .basic k)) :=
  (settled_find? hfind).bind ((settled_paramBelow hfunc).bind (.pure _))

theorem settled_pointee {p : Expr} {t elem : Ty} (h : PointsTo t elem) :
    Settled env s (pointee p (.value t)) elem := fun u _ => by
  simp only [pointee, h.kind, h.elem]
  rfl

end

/-- A value goes where its type is declared. -/
theorem appends_fitTop {t : Ty} {context : String} :
    Appends env s (fitTop t context) cs [.value t] [] cs [.value t] := by
  have hfits : t.assignable t = true := by
    unfold Ty.assignable
    split
    · rfl
    · exact Ty.same_refl t
  refine .pop ?_
  have hcheck : checkAssignable t t context = pure () := if_pos hfits
  show Appends env s (checkAssignable t t context >>= fun _ => push (.value t)) cs [] [] cs [.value t]
  rw [hcheck]
  exact appends_push (.value t)

/-- A value of another basic type does not. -/
theorem denies_fitTop {l : Kind} (h : l ≠ k) {context : String} :
    Denies env s (fitTop (.basic k) context) cs [.value (.basic l)] := by
  have hfits : ¬(Ty.basic l).assignable (.basic k) = true := fun hsame => h (eq_of_beq hsame)
  have hcheck : checkAssignable (.basic l) (.basic k) context =
      fail (.typeMismatch (Ty.basic k).text (Ty.basic l).text context) := if_neg hfits
  refine .pop ?_
  show Denies env s (do
    checkAssignable (.basic l) (.basic k) context
    push (.value (.basic k))) cs []
  rw [hcheck]
  exact .bind denies_fail

/-! ### The code of a place -/

theorem exists_addrOp (k : Kind) (hk : k.isBasic = true) (op : AddressOperator)
    (hop : op.nameable = some op) :
    ∃ w, Word.makeAddressOperator k op = .ok w ∧ w.decode? = some (.addrOp (some k) (some op)) := by
  obtain ⟨w, hw⟩ := Word.exists_makeAddressOperator k op
  refine ⟨w, hw, ?_⟩
  rw [Word.decode?_of_makeAddressOperator hw, Kind.nameable_of_isBasic hk, hop]

/-- A variable is loaded, its address taken and a value stored to it by one word each. -/
theorem placeCode_var {name : String} {id : Nat} {v : Var} (hname : name ≠ "_")
    (hfind : s.names.find? name = some (.var id)) (hvar : s.asm.vars[id]? = some v) (hty : v.ty = .basic k) :
    NoCode env s k (.ident name) ∨
      ∃ A L S was wls wss, PlaceCode env s k (.ident name) A L S was wls wss := by
  have hresolve : Settled env s (resolveName name) (.var id (.basic k)) := settled_resolveVar hfind hvar hty
  have hassignable : Settled env s (assignable name) (.inl id) := settled_assignableVar hfind
  have hvar : Settled env s (asm (Assembly.var id)) v := settled_var hvar
  have haddressed : Settled env s (addressed (.ident name)) (id, .basic k) :=
    hty ▸ (settled_find? hfind).bind (hvar.bind (.pure _))
  obtain ⟨scope, index, hoperand⟩ | hdenies := varOperand_cases env s id
  · obtain hw | hx := Word.makeVar_cases scope index
    · obtain ⟨wa, ha⟩ := hw .addrVar
      obtain ⟨wl, hl⟩ := hw .loadVar
      obtain ⟨ws, hs⟩ := hw .storeVar
      refine .inr ⟨_, _, _, [wa], [wl], [ws], .var (.ofField scope) index,
        Word.spell_one (Word.decode?_of_makeVar ha fun w h => by rw [Instr.ofOpcode, h]),
        Word.spell_one (Word.decode?_of_makeVar hl fun w h => by rw [Instr.ofOpcode, h]),
        Word.spell_one (Word.decode?_of_makeVar hs fun w h => by rw [Instr.ofOpcode, h]), fun cs => ?_,
        fun cs op w hw => ?_, fun cs => ?_⟩
      · exact .read hresolve (.read hoperand ((appends_word hl).bind (appends_push _)))
      · refine (Appends.read haddressed (.read hoperand ((appends_word ha).bind (appends_push _)))).bind ?_
        exact .discard_pop (appends_word hw)
      · show Appends env s (assignName name) cs _ _ cs _
        unfold assignName
        rw [if_neg hname]
        refine .read hassignable (.read hvar ?_)
        rw [hty]
        exact appends_fitTop.bind (.discard_pop (.read hoperand (appends_word hs)))
    · refine .inl ⟨fun cs => ?_, fun cs op => ?_, fun cs => ?_⟩
      · obtain ⟨x, hx⟩ := hx .loadVar
        exact .read hresolve (.read hoperand (.bind (denies_word hx)))
      · obtain ⟨x, hx⟩ := hx .addrVar
        exact .bind (.read haddressed (.read hoperand (.bind (denies_word hx))))
      · obtain ⟨x, hx⟩ := hx .storeVar
        show Denies env s (assignName name) cs _
        unfold assignName
        rw [if_neg hname]
        refine .read hassignable (.read hvar ?_)
        rw [hty]
        exact appends_fitTop.denies (.discard_pop (.read hoperand (denies_word hx)))
  · refine .inl ⟨fun cs => ?_, fun cs op => ?_, fun cs => ?_⟩
    · exact .read hresolve (hdenies _ cs [])
    · exact .bind (.read haddressed (hdenies _ cs []))
    · show Denies env s (assignName name) cs _
      unfold assignName
      rw [if_neg hname]
      refine .read hassignable (.read hvar ?_)
      rw [hty]
      exact appends_fitTop.denies (.discard_pop (hdenies _ cs []))

/-- Code for a place comes out in all three ways or in none. -/
theorem placeCode_cases (hk : k.isBasic = true) (h : HasAddress env s k x) :
    NoCode env s k x ∨ ∃ A L S was wls wss, PlaceCode env s k x A L S was wls wss := by
  cases h with
  | var hname hfind hvar hty => exact placeCode_var hname hfind hvar hty
  | @pointee p t hcall hinfer hpoints =>
    have hpointee : Settled env s (pointee p (.value t)) (.basic k) := settled_pointee hpoints
    have hp : ∀ op x y, p ≠ .binary op x y := by
      rintro op x y rfl
      obtain ⟨l, rfl⟩ := basic_of_binary hinfer
      cases hpoints.elem
    obtain hdenies | ⟨was, es, happends, rfl, A, hA, hspell⟩ := steady_emit hcall hp hinfer
    · refine .inl ⟨fun cs => ?_, fun cs op => ?_, fun cs => ?_⟩
      · exact .read hinfer (.read hpointee (.bind (hdenies cs)))
      · exact .bind (hdenies cs)
      · refine .read hinfer (.read hpointee (appends_fitTop.denies ?_))
        exact .discard_pop (.bind (hdenies cs))
    · obtain ⟨w, hw, hload⟩ := exists_addrOp k hk .load rfl
      obtain ⟨w', hw', hstore⟩ := exists_addrOp k hk .store rfl
      refine .inr ⟨A, _, _, was, was ++ [w], was ++ [w'], .pointee hA, hspell,
        hspell.append (Word.spell_one hload), hspell.append (Word.spell_one hstore), fun cs => ?_,
        fun cs op w hw => ?_, fun cs => ?_⟩
      · refine .read hinfer (.read hpointee ((happends cs).bind (.discard_pop ?_)))
        exact (appends_word hw).bind (appends_push _)
      · exact (happends cs).bind (.discard_pop (appends_word hw))
      · refine .read hinfer (.read hpointee (appends_fitTop.bind (.discard_pop ?_)))
        exact (happends cs).bind (.discard_pop (appends_word hw'))

end Compile

end StackScript
