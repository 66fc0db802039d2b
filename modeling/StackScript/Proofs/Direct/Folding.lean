import StackScript.Proofs.Direct.Files

/-!
# Folding keeps values

A variable defined by a tree of literals gets the same value whether the compiler folds the
operators of the tree or leaves them to the machine (`File.folding_keeps_value`). Folded, the tree is
one constant, and no other is in the pool; left alone, it is run as the evaluator says.
-/

namespace StackScript

/-! ## Trees -/

/-- No sign is written in front of the token. -/
def Literal.Unsigned (l : Literal) : Prop :=
  ∀ c ∈ (withoutUnderscores l.text).head?, c ≠ '-' ∧ c ≠ '+'

instance (l : Literal) : Decidable l.Unsigned :=
  inferInstanceAs (Decidable (∀ c ∈ (Literal.withoutUnderscores l.text).head?, c ≠ '-' ∧ c ≠ '+'))

/-- An expression of literals without signs, truth values and operators. -/
def Expr.Tree : Expr → Prop
  | .lit l => l.Unsigned
  | .ident name => name = toString true ∨ name = toString false
  | .binary _ x y => x.Tree ∧ y.Tree
  | _ => False
termination_by structural e => e

def Expr.decideTree : (e : Expr) → Decidable e.Tree
  | .lit l => inferInstanceAs (Decidable l.Unsigned)
  | .ident name => inferInstanceAs (Decidable (name = toString true ∨ name = toString false))
  | .binary _ x y =>
    have := x.decideTree
    have := y.decideTree
    inferInstanceAs (Decidable (x.Tree ∧ y.Tree))
  | .call .. | .select .. | .funcLit .. | .addrOf _ | .deref _ => isFalse id
termination_by structural e => e

instance : DecidablePred Expr.Tree := Expr.decideTree

/-- A main body that defines one variable. -/
def File.defining (name : String) (e : Expr) : File :=
  ⟨[], [], [.assign .define [.ident name] [e]]⟩

/-- What the variables of the main body hold when a run of the compiled file has ended well. -/
def File.finalVars (f : File) (r : Registry) (folds : Bool) (limits : Limits) (natives : Natives)
    (w : World) : Option (Array Value) := do
  let p ← (f.compile r folds).toOption
  let m ← (Machine.link p limits natives).toOption
  let frame ← (m.run.exec w).1.toOption
  let fr ← (m.run.exec w).2.store.frames[frame]?
  return fr.vars

/-- Some run of the compiled file ends well, and leaves these values in the variables of the main
body. -/
def File.RunsTo (f : File) (r : Registry) (folds : Bool) (vars : Array Value) : Prop :=
  ∃ limits natives w, f.finalVars r folds limits natives w = some vars

theorem File.RunsTo.exists_run {f : File} {r : Registry} {folds : Bool} {vars : Array Value}
    (h : f.RunsTo r folds vars) : ∃ limits natives p m frame, ∃ w w' : World,
      f.compile r folds = .ok p ∧ Machine.link p limits natives = .ok m ∧
      m.run.exec w = (.ok frame, w') ∧ (w'.store.frames[frame]?).map (·.vars) = some vars := by
  obtain ⟨limits, natives, w, h⟩ := h
  obtain ⟨p, hp, h⟩ := Option.bind_eq_some_iff.1 h
  obtain ⟨m, hm, h⟩ := Option.bind_eq_some_iff.1 h
  obtain ⟨frame, hframe, h⟩ := Option.bind_eq_some_iff.1 h
  obtain ⟨fr, hfr, h⟩ := Option.bind_eq_some_iff.1 h
  refine ⟨limits, natives, p, m, frame, w, _, Expr.toOption_eq_some hp, Expr.toOption_eq_some hm,
    Prod.ext (Expr.toOption_eq_some hframe) rfl, ?_⟩
  rw [hfr]
  exact h

open Direct

namespace Direct

variable {e : Expr} {c : Constant} {name : String}

theorem callFree_of_tree : ∀ {e : Expr}, e.Tree → e.CallFree [] [[]]
  | .lit _, _ => trivial
  | .ident _, h => .inr ⟨h, List.not_mem_nil⟩
  | .binary .., h => ⟨callFree_of_tree h.1, callFree_of_tree h.2⟩
  | .call .., h | .select .., h | .funcLit .., h | .addrOf _, h | .deref _, h => h.elim

theorem callFree_defining (he : e.Tree) : (File.defining name e).CallFree where
  funcs := rfl
  stmts := ⟨⟨fun t ht => by rw [List.mem_singleton.1 ht]; rfl,
    fun e' he' => by rw [List.mem_singleton.1 he']; exact callFree_of_tree he⟩, trivial⟩

/-! ## Left to the machine -/

theorem Decimal.nearest_le (p : Precision) (d : Decimal) : d.nearest p ≤ p.infinity := by
  unfold Decimal.nearest
  dsimp only
  split
  · exact Nat.zero_le _
  · split
    · exact Nat.le_refl _
    · split <;> exact Binary.nearest_le ..

theorem negative_of_readDecimal {cs : List Char} {d : SignedDecimal}
    (h : readDecimal? cs = some d) : d.negative = (splitSign cs).1 := by
  unfold readDecimal? at h
  obtain ⟨n, -, h⟩ := Option.bind_eq_some_iff.1 h
  obtain ⟨k, -, h⟩ := Option.bind_eq_some_iff.1 h
  cases h
  rfl

theorem splitSign_of_head {cs : List Char} (h : ∀ c ∈ cs.head?, c ≠ '-' ∧ c ≠ '+') :
    (splitSign cs).1 = false := by
  unfold splitSign
  split
  · exact absurd rfl (h _ rfl).1
  · rfl
  · rfl

theorem signless_readFloat {s : String} {x : Binary .double}
    (hs : ∀ c ∈ (Literal.withoutUnderscores s).head?, c ≠ '-' ∧ c ≠ '+')
    (h : Literal.readFloat s = some x) : x.Signless := by
  obtain ⟨hread, -⟩ := Option.filter_eq_some_iff.1 h
  unfold Binary.read? at hread
  obtain ⟨d, hd, rfl⟩ := Option.map_eq_some_iff.1 hread
  have hneg : d.negative = false := (negative_of_readDecimal hd).trans (splitSign_of_head hs)
  rw [hneg]
  intro hzero
  rw [Binary.negative_ofMagnitude (Decimal.nearest_le ..)] at hzero
  cases hzero.2

/-- The suffix of an imaginary token does not come first. -/
theorem head_withoutUnderscores {s : String} {c : Char}
    (h : c ∈ (Literal.withoutUnderscores (String.ofList s.toList.dropLast)).head?) :
    c ∈ (Literal.withoutUnderscores s).head? := by
  unfold Literal.withoutUnderscores at *
  rw [String.toList_ofList] at h
  obtain ⟨rest, hrest⟩ := (List.dropLast_prefix s.toList).filter (· != '_')
  rw [← hrest, List.head?_append, Option.mem_def.1 h]
  rfl

/-- A token without a sign stands for no negative zero. -/
theorem signless_literal {l : Literal} (hl : l.Unsigned) (h : l.constant = .ok c) : c.Signless := by
  unfold Literal.constant at h
  replace h := mapError_eq_ok h
  split at h
  · split at h <;> cases h
    trivial
  · split at h <;> cases h
    exact signless_readFloat hl ‹_›
  · obtain ⟨x, hx, rfl⟩ := map_eq_ok h
    refine ⟨Binary.signless_zero, ?_⟩
    unfold Literal.readImag at hx
    split at hx
    · simp only at hx
      split at hx
      · cases hx
        refine signless_readFloat (fun ch hch => hl ch (head_withoutUnderscores ?_)) ‹_›
        exact hch
      · split at hx <;> cases hx
        exact Binary.signless_ofInt _
    · cases hx
  · obtain ⟨ch, -, rfl⟩ := map_eq_ok h
    trivial
  · obtain ⟨t, -, rfl⟩ := map_eq_ok h
    trivial

theorem signless_of_tree : ∀ {e : Expr}, e.Tree → e.Signless false
  | .lit _, h => fun _ hc => signless_literal h (Expr.toOption_eq_some hc)
  | .ident name, _ => fun c hc => by
    replace hc : (Expr.ident name).folded? = some c := hc
    rw [Expr.folded?] at hc
    split at hc
    · cases hc
      trivial
    · split at hc <;> cases hc
      trivial
  | .binary .., h => ⟨fun _ hc => (nomatch hc), signless_of_tree h.1, signless_of_tree h.2⟩
  | .call .., h | .select .., h | .funcLit .., h | .addrOf _, h | .deref _, h => h.elim

theorem known_of_compute {op : Operator} {a b x : Operand} (h : Operand.compute op a b = .ok x) :
    ∃ r u, op.settle a.known.operandKind b.known.operandKind = .ok r ∧
      Constant.Works op r a.known b.known u ∧ x = .value u := by
  have hsound {α ε : Type} {r : Except ε α} {y : α} (h : sound r = .ok y) : r = .ok y :=
    mapError_eq_ok h
  unfold Operand.compute at h
  obtain ⟨r, hr, h⟩ := bind_eq_ok h
  obtain ⟨v, hv, h⟩ := bind_eq_ok h
  obtain ⟨w, hw, h⟩ := bind_eq_ok h
  obtain ⟨u, hu, h⟩ := bind_eq_ok h
  cases h
  exact ⟨r, u, hsound hr, ⟨hsound hv, hsound hw, mapError_eq_ok hu⟩, rfl⟩

/-- What the evaluator finds for a tree is what the tree comes to. -/
theorem computes_of_evaluate : ∀ {e : Expr} {x : Operand}, e.Tree →
    e.evaluate false .initial = .ok x → e.Computes x.known
  | .lit l, x, _, h => by
    obtain ⟨c, hc, rfl⟩ := map_eq_ok h
    exact .lit (mapError_eq_ok hc)
  | .ident name, x, h, hx => by
    obtain rfl | rfl := h
    · cases hx
      exact .truth true
    · cases hx
      exact .truth false
  | .binary op y z, x, h, hx => by
    rw [Expr.evaluate] at hx
    obtain ⟨a, ha, hx⟩ := bind_eq_ok hx
    obtain ⟨b, hb, hx⟩ := bind_eq_ok hx
    obtain ⟨r, u, hr, hworks, rfl⟩ := known_of_compute hx
    exact .binary (computes_of_evaluate h.1 ha) (computes_of_evaluate h.2 hb) hr hworks
  | .call .., _, h, _ | .select .., _, h, _ | .funcLit .., _, h, _ | .addrOf _, _, h, _
  | .deref _, _, h, _ => h.elim

/-- Left to the machine, the variable gets the value that the tree comes to. -/
theorem vars_of_run {r : Registry} {vars : Array Value} (he : e.Tree) (hname : name ≠ "_")
    (h : (File.defining name e).RunsTo r false vars) :
    ∃ d v, e.Computes d ∧ d.bindDefault = .ok v ∧ vars = #[v] := by
  obtain ⟨limits, natives, p, m, frame, w, w', hp, hm, hrun, hvars⟩ := h.exists_run
  have hsign : (File.defining name e).Signless false :=
    ⟨fun e' he' => List.mem_singleton.1 he' ▸ signless_of_tree he, trivial⟩
  have hends := File.endsAs_of_link hp (callFree_defining he) hsign hm w
  rw [hrun] at hends
  generalize hout : evaluateStmts false .initial (File.defining name e).stmts = out at hends
  cases hends with
  | done hframe =>
    rw [hvars] at hframe
    obtain ⟨env, henv, hout⟩ := bind_eq_ok hout
    cases hout
    obtain ⟨xs, hxs, henv⟩ := bind_eq_ok henv
    cases mapM_eq_ok_iff.1 hxs with
    | cons hx hnil =>
      cases hnil
      obtain ⟨env', hgive, hnil⟩ := bind_eq_ok henv
      cases hnil
      rw [give, if_neg hname, if_pos rfl] at hgive
      obtain ⟨v, hv, hgive⟩ := bind_eq_ok hgive
      cases hgive
      cases hframe
      exact ⟨_, v, computes_of_evaluate he hx, mapError_eq_ok hv, rfl⟩

/-! ## Folded -/

/-- The constant is what a tree folds to, or that brought to a kind. -/
def folded (e : Expr) : Constant.Trait where
  holds d := ∀ c, e.folded? = some c → d = c ∨ ∃ v, d = .bound v ∧ c.bind v.kind = .ok v
  bind := by
    intro d k v _ hd _ hv c hc
    obtain rfl | ⟨u, rfl, hu⟩ := hd c hc
    · exact .inr ⟨v, rfl, by rwa [Constant.kind_of_bind hv]⟩
    · simp only [Constant.bind] at hv
      split at hv <;> cases hv
      exact .inr ⟨_, rfl, hu⟩

section Compiling

open Compile CompileState

variable {env : CompileEnv} {most : Nat} {P : Constant.Trait}

theorem not_declare (name : String) : ¬Names.Declare [[]] name := fun h => by
  simp [Names.Declare] at h

/-- Where nothing is declared, a truth value has its usual name. -/
theorem after_resolveTruth (hname : name = toString true ∨ name = toString false) :
    After env (Clean P most [] [[]]) (resolveName name) fun n s => Clean P most [] [[]] s ∧
      ∃ b, n = .truth b ∧ name = toString b := by
  unfold resolveName
  refine after_find?.andThen fun x ⟨bs, hne, hnames, hx⟩ => ?_
  have hid : bs.find? name = none := by
    by_contra hsome
    refine not_declare name (hnames ▸ Blocks.declare_names.2 ?_)
    exact Option.isSome_iff_ne_none.2 hsome
  obtain rfl : x = none := by rw [hx, hid]; rfl
  unfold resolveUndeclared
  obtain rfl | rfl := hname
  · exact .pure fun _ h => ⟨h, true, rfl, rfl⟩
  · exact .pure fun _ h => ⟨h, false, rfl, rfl⟩

theorem after_combine_constants (hfolds : env.folds = true) {op : Operator} {x y : Expr}
    {a b : Constant} {s₁ s₂ : ConstSlot} (ha : x.folded? = some a) (hb : y.folded? = some b) :
    After env (Clean P most [] [[]]) (combine op x y (.const a s₁) (.const b s₂)) fun r s =>
      Clean P most [] [[]] s ∧ ∃ c, r = .folded c ∧ (Expr.binary op x y).folded? = some c := by
  have hkind (x : Expr) (c : Constant) (slot : ConstSlot) :
      operandKind x (.const c slot) = pure c.operandKind := rfl
  unfold combine
  simp only [hkind, pure_bind]
  refine After.read ?_
  rw [if_pos hfolds]
  refine (After.ofFolded fun c hc => hc).andThen fun c hc => .pure fun _ h => ⟨h, c, rfl, ?_⟩
  rw [Expr.folded?, ha, hb]
  show (Constant.fold op a b).toOption = some c
  rw [hc]
  rfl

/-- The compiler folds a tree as it looks ahead. -/
theorem after_infer_tree (hfolds : env.folds = true) : ∀ {e : Expr}, e.Tree →
    After env (Clean P most [] [[]]) (infer e) fun i s => Clean P most [] [[]] s ∧
      ∃ c slot, i = .const c slot ∧ e.folded? = some c
  | .ident name, h => by
    unfold infer
    refine (after_resolveTruth h).andThen fun n hn => ?_
    obtain ⟨b, rfl, rfl⟩ := hn
    exact .pure fun _ h => ⟨h, _, _, rfl, Expr.folded?_truth b⟩
  | .lit l, h => by
    unfold infer
    refine (After.ofConstant fun c hc => hc).andThen fun c hc => .pure fun _ h => ⟨h, c, _, rfl, ?_⟩
    rw [Expr.folded?, hc]
    rfl
  | .binary op x y, h => by
    unfold infer
    refine (after_infer_tree hfolds h.1).andThen fun ex hx => ?_
    refine (after_infer_tree hfolds h.2).andThen fun ey hy => ?_
    obtain ⟨a, s₁, rfl, ha⟩ := hx
    obtain ⟨b, s₂, rfl, hb⟩ := hy
    refine (after_combine_constants hfolds ha hb).andThen fun r hr => ?_
    obtain ⟨c, rfl, hc⟩ := hr
    exact .pure fun _ h => ⟨h, c, _, rfl, hc⟩
  | .call .., h | .select .., h | .funcLit .., h | .addrOf _, h | .deref _, h => h.elim

/-- All that is emitted for a tree is the constant that it folds to. -/
theorem after_emit_tree (hfolds : env.folds = true) {e : Expr} (he : e.Tree)
    (hP : ∀ c, e.folded? = some c → P.holds c) : Keeps env (Clean P most [] [[]]) (emit e) := by
  cases e with
  | ident name =>
    unfold emit
    refine (after_resolveTruth he).andThen fun n hn => ?_
    obtain ⟨b, rfl, rfl⟩ := hn
    exact after_pushConstant (Constant.plain_truth b) (hP _ (Expr.folded?_truth b))
  | lit l =>
    unfold emit
    refine (After.ofConstant fun c hc => hc).andThen fun c hc => ?_
    refine after_pushConstant (Literal.plain_constant hc) (hP c ?_)
    rw [Expr.folded?, hc]
    rfl
  | binary op x y =>
    unfold emit
    refine (after_infer_tree hfolds he.1).andThen fun ex hx => ?_
    refine (after_infer_tree hfolds he.2).andThen fun ey hy => ?_
    obtain ⟨a, s₁, rfl, ha⟩ := hx
    obtain ⟨b, s₂, rfl, hb⟩ := hy
    refine (after_combine_constants hfolds ha hb).andThen fun r hr => ?_
    obtain ⟨c, rfl, hc⟩ := hr
    exact after_pushConstant (Expr.plain_of_folded hc) (hP c hc)
  | _ => exact he.elim

/-- All constants of the program are the one that the tree folds to. -/
theorem after_defining (hfolds : env.folds = true) {e : Expr} (he : e.Tree) {name : String} :
    After env (Clean (folded e) Word.slotRange [] [[]]) (emitStmts (File.defining name e).stmts)
      fun _ s => ∃ ns, Clean (folded e) Word.slotRange [] ns s := by
  have hholds (c : Constant) (hc : e.folded? = some c) : (folded e).holds c := fun d hd =>
    .inl (Option.some.inj (hc.symm.trans hd))
  have hpackages : Packages [] [] := ⟨fun _ _ h => (nomatch h), fun _ _ h => (nomatch h)⟩
  have hemit : ∀ e' ∈ [e], Keeps env (Clean (folded e) Word.slotRange [] [[]]) (emit e') :=
    fun e' he' => by rw [List.mem_singleton.1 he']; exact after_emit_tree hfolds he hholds
  have hassign : After env (Clean (folded e) Word.slotRange [] [[]])
      (emitAssign true [.ident name] [e]) fun _ s =>
        ∃ ns, Clean (folded e) Word.slotRange [] ns s := by
    unfold emitAssign
    refine (after_emitValues hemit).bind fun _ => ?_
    refine (after_targets hpackages ?_).imp fun _ s h => ⟨_, h⟩
    exact fun t ht => by rw [List.mem_singleton.1 ht]; rfl
  unfold File.defining emitStmts emitStmt
  refine hassign.bind fun _ => ?_
  rintro s ⟨ns, hs⟩
  have hrest : After env (Clean (folded e) Word.slotRange [] ns) (do
      atRest
      emitStmts []) fun _ s => ∃ ns, Clean (folded e) Word.slotRange [] ns s :=
    after_atRest.bind fun _ => .pure fun s hs => ⟨ns, hs⟩
  exact hrest s hs

end Compiling

section Running

variable {o : Output} {S S' : Site} {is : List Instr}

/-- Folded, the code of a tree pushes a constant. -/
theorem const_of_tree (hfolds : S.out.folds = true) (hfind : ∀ name, S.scopes.find? name = none) :
    ∀ {e : Expr} {p : Pushed} {is : List Instr}, e.Tree → Code S e p is →
      ∃ c v i, p = .const c v ∧ is = [i] ∧ Means S e c ∧ c.Yields v ∧
        i.pushed? S.program.consts = some v
  | .lit l, _, _, _, hcode => by
    cases hcode with
    | const hm hc hpush => exact ⟨_, _, _, rfl, rfl, hm, hc, hpush⟩
    | native hhost => cases hhost
  | .ident name, _, _, he, hcode => by
    cases hcode with
    | const hm hc hpush => exact ⟨_, _, _, rfl, rfl, hm, hc, hpush⟩
    | var h => cases (hfind name).symm.trans h.find
    | param h =>
      cases h with
      | mk h => cases (hfind name).symm.trans h
    | package h => cases (hfind name).symm.trans h
    | func h => cases (hfind name).symm.trans h.find
    | native hhost =>
      obtain ⟨-, htrue, hfalse, -⟩ := hhost
      exact (he.elim htrue hfalse).elim
  | .binary op x y, _, _, he, hcode => by
    cases hcode with
    | const hm hc hpush => exact ⟨_, _, _, rfl, rfl, hm, hc, hpush⟩
    | native hhost => cases hhost
    | binary hx hy hfold =>
      obtain ⟨a, v, i, rfl, -⟩ := const_of_tree hfolds hfind he.1 hx
      obtain ⟨b, w, j, rfl, -⟩ := const_of_tree hfolds hfind he.2 hy
      exact absurd ⟨hfolds, rfl, rfl⟩ hfold
  | .call .., _, _, h, _ | .select .., _, _, h, _ | .funcLit .., _, _, h, _
  | .addrOf _, _, _, h, _ | .deref _, _, _, h, _ => h.elim

/-- A constant that is all there is in the pool is pushed as it is. -/
theorem bind_of_pushed {consts : Array Value} {i : Instr} {v : Value} (hc : c.Plain)
    (hyields : c.Yields v) (hpush : i.pushed? consts = some v)
    (hpool : ∀ (n : Nat) (v : Value), consts[n]? = some v →
      Constant.bound v = c ∨ ∃ u, Constant.bound v = .bound u ∧ c.bind u.kind = .ok u) :
    c.bind v.kind = .ok v := by
  cases i with
  | pushInt k n =>
    cases k with
    | none => cases hpush
    | some k =>
      cases hpush
      obtain ⟨j, m, hint⟩ : ∃ j m, Value.ofWord .int k n = .scalar (.int j m) := by
        unfold Value.ofWord
        split <;> exact ⟨_, _, rfl⟩
      rw [hint] at hyields ⊢
      obtain ⟨w, hw, halike⟩ := hyields
      have hwide : (Value.scalar (.int j m)).kind.Wide := trivial
      have hwplain : w.Plain := hc.bind hwide hw
      cases hwplain with
      | @scalar t _ =>
        have hsign : t.Signless := by
          cases t with
          | int => trivial
          | _ => cases Constant.kind_of_bind hw
        rwa [Value.eq_of_alike halike hsign trivial] at hw ⊢
  | pushConst index =>
    obtain h | ⟨u, hu, h⟩ := hpool index v hpush
    · exact h ▸ if_pos rfl
    · cases hu
      exact h
  | _ => cases hpush

/-- The only variable of a main body is in its first slot. -/
theorem operand_of_first {scopes : Scopes} {scope : Scope} {n index : Nat}
    (hids : o.program.mainVars.toList = List.range 1)
    (h : Site.varAt ⟨o, .main, scopes, n⟩ scope index = some 0) : scope = .global ∧ index = 0 := by
  cases scope with
  | global =>
    have h : o.program.mainVars[index]? = some 0 := h
    rw [← Array.getElem?_toList, hids, List.getElem?_eq_some_iff] at h
    exact ⟨rfl, Nat.lt_one_iff.1 h.1⟩
  | up n => cases h

/-- The code of a definition: it pushes a constant, which it stores into the only variable. -/
theorem code_of_defining (he : e.Tree) (hname : name ≠ "_") (hfolds : o.folds = true)
    (hids : o.program.mainVars.toList = List.range S'.next)
    (h : StmtsCode ⟨o, .main, [[]], 0⟩ (File.defining name e).stmts is S') :
    ∃ c v i, e.folded? = some c ∧ c.Yields v ∧ i.pushed? o.program.consts = some v ∧
      v.kind = c.operandKind.default ∧ is = [i, .storeVar .global 0] ∧ S'.next = 1 := by
  have hfind (name : String) : Scopes.find? [[]] name = none := rfl
  cases h with
  | cons h hnil =>
    cases hnil
    cases h with
    | assign hmode hvalues htargets =>
      cases hvalues with
      | sole hcode =>
        obtain ⟨c, v, i, hconst, -⟩ := const_of_tree hfolds hfind he hcode
        cases hconst
      | each _ hs =>
        cases hs with
        | cons hcode _ hs =>
          cases hs
          obtain ⟨c, v, i, rfl, rfl, hm, hyields, hpush⟩ := const_of_tree hfolds hfind he hcode
          have hfold : e.folded? = some c :=
            Expr.folded?_of_constant (Setting.constant_of_means hm)
          cases htargets with
          | cons hgiven hnil =>
            cases hnil
            cases hgiven with
            | blank => exact absurd rfl hname
            | define _ _ hvar _ hdefault =>
              obtain ⟨rfl, rfl⟩ := operand_of_first hids hvar.slot
              exact ⟨c, v, i, hfold, hyields, hpush, hdefault, rfl, rfl⟩
            | var => cases hmode
            | param => cases hmode

/-- Pushing a value and storing it into the only variable. -/
theorem vars_of_store {m : Machine} {v : Value} {i : Instr} {frame : Nat} {w w' : World}
    {vars : Array Value} (hpush : i.pushed? m.program.consts = some v) (hsize : m.globals.size = 1)
    (hreads : m.program.Reads 0 [i, .storeVar .global 0]) (hend : m.program.mainEnd = 2)
    (hrun : m.run.exec w = (.ok frame, w'))
    (hvars : (w'.store.frames[frame]?).map (·.vars) = some vars) : vars = #[v] := by
  have hi : Balance.isReturn i = false := by cases i <;> first | rfl | cases hpush
  have hreturn : ∀ j ∈ [i, Instr.storeVar .global 0], Balance.isReturn j = false := by
    intro j hj
    obtain rfl | hj := List.mem_cons.1 hj
    · exact hi
    · rw [List.mem_singleton.1 hj]
      rfl
  have hstart : Thread.At ⟨m.entered w, #[], 0, 0⟩ (m.entered w) #[] := ⟨rfl, rfl⟩
  have hmain : Machine.MainFrame (m.entered w) w.store.frames.size m.globals :=
    ⟨_, Array.getElem?_push_size, rfl, rfl, rfl⟩
  have hfollow : (m.follow m.callTop w.store.frames.size [i, .storeVar .global 0]).Ensures
      ⟨m.entered w, #[], 0, 0⟩ (fun _ s' => Machine.MainFrame s'.world w.store.frames.size #[v])
      fun e _ => e.Limited := by
    refine (m.ensures_tick hstart).bind fun _ s₁ h₁ => ?_
    refine (Machine.ensures_pushed hpush h₁).bind fun _ s₂ h₂ => ?_
    refine ensures_single h₂ fun s₃ h₃ => ?_
    refine (Machine.ensures_storeVar hmain (by omega) h₃).imp fun _ s₄ h => ?_
    obtain ⟨w₄, hs₄, hmain'⟩ := h
    obtain ⟨g, hg⟩ := Array.size_eq_one_iff.1 hsize
    rw [hs₄.world]
    rwa [hg] at hmain'
  rw [Machine.exec_run_eq_follow hreads hreturn hend, Prod.mk.injEq] at hrun
  obtain ⟨hok, rfl⟩ := hrun
  obtain ⟨u, hu, rfl⟩ := map_eq_ok hok
  obtain ⟨fr, hfr, -, -, hfr'⟩ := hfollow.ok (Prod.ext hu rfl)
  rw [hfr, Option.map_some, hfr'] at hvars
  exact (Option.some.inj hvars).symm

/-- Folded, the variable gets the constant that the tree folds to. -/
theorem vars_of_folded_run {r : Registry} {vars : Array Value} (he : e.Tree) (hname : name ≠ "_")
    (h : (File.defining name e).RunsTo r true vars) :
    ∃ c v, e.folded? = some c ∧ c.bindDefault = .ok v ∧ vars = #[v] := by
  obtain ⟨limits, natives, p, m, frame, w, w', hp, hm, hrun, hvars⟩ := h.exists_run
  have hf : (File.defining name e).CallFree := callFree_defining he
  obtain ⟨hpool, hsmall⟩ := File.clean_of_emit (P := folded e) hp hf (after_defining rfl he)
  obtain ⟨o, rfl, hfolds, rfl, hcode⟩ := File.code_of_compile hp hsmall
  rw [hf.labelled] at hcode
  obtain ⟨S', is, hend, hreads, hstmts, hids⟩ := hcode.main
  obtain ⟨hbuilds, -⟩ := Machine.link_eq_ok.1 hm
  obtain ⟨c, v, i, hc, hyields, hpush, hkind, rfl, hnext⟩ :=
    code_of_defining he hname hfolds hids hstmts
  have hsize : m.globals.size = 1 := by
    have hlength := List.Forall₂.length_eq hbuilds.globals
    rw [hids, hnext] at hlength
    simpa using hlength.symm
  have hprogram := hbuilds.program
  refine ⟨c, v, hc, ?_, vars_of_store (i := i) ?_ hsize ?_ ?_ hrun hvars⟩
  · rw [Constant.bindDefault, ← hkind]
    exact bind_of_pushed (Expr.plain_of_folded hc) hyields hpush fun n u hu => hpool n u hu c hc
  · rwa [hprogram]
  · rwa [hprogram]
  · rw [hprogram, hend]
    rfl

end Running

end Direct

/-- A variable that a tree of literals defines gets the same value whether operators on constants
are folded or not, if the compound operands that fold to integers of open kind fold to such that
`int` holds. -/
theorem File.folding_keeps_value {r : Registry} {name : String} {e : Expr}
    {vars vars' : Array Value} (hname : name ≠ "_") (he : e.Tree)
    (hfits : ∀ op x y n, (Expr.binary op x y).ProperPart e →
      (Expr.binary op x y).folded? = some (.int n) → IntKind.int.Holds n)
    (hfolded : (File.defining name e).RunsTo r true vars)
    (hrun : (File.defining name e).RunsTo r false vars') : ∃ v, vars = #[v] ∧ vars' = #[v] := by
  obtain ⟨c, v, hc, hv, rfl⟩ := vars_of_folded_run he hname hfolded
  obtain ⟨d, v', hd, hv', rfl⟩ := vars_of_run he hname hrun
  have hints : e.FoldsToInts := by
    intro op x y n hpart hn
    cases hpart with
    | self =>
      cases hc.symm.trans hn
      exact (Constant.bindDefault_int hv).1
    | left h => exact hfits op x y n (.inl h) hn
    | right h => exact hfits op x y n (.inr h) hn
  obtain ⟨-, hstands⟩ := Expr.stands_of_folded hc hd hints
  obtain rfl | ⟨u, hu, rfl⟩ := hstands
  · cases hv.symm.trans hv'
    exact ⟨v, rfl, rfl⟩
  · cases hv.symm.trans hu
    cases (Constant.bindDefault_bound v).symm.trans hv'
    exact ⟨v, rfl, rfl⟩

/-- The product of a sum, which both ways make nine. -/
def Direct.nine : Expr :=
  .binary .mul (.binary .add (.lit ⟨.int, "1"⟩) (.lit ⟨.int, "2"⟩)) (.lit ⟨.int, "3"⟩)

theorem File.folding_keeps_nine : ∃ vars vars', "x" ≠ "_" ∧ nine.Tree ∧
    (∀ op x y n, (Expr.binary op x y).ProperPart nine →
      (Expr.binary op x y).folded? = some (.int n) → IntKind.int.Holds n) ∧
    (defining "x" nine).RunsTo .empty true vars ∧ (defining "x" nine).RunsTo .empty false vars' ∧
    ∃ v, vars = #[v] ∧ vars' = #[v] := by
  have hruns (folds : Bool) : ∃ vars, (defining "x" nine).RunsTo .empty folds vars := by
    have hsome : ((defining "x" nine).finalVars .empty folds {} .empty default).isSome = true := by
      cases folds <;> decide +kernel
    obtain ⟨vars, hvars⟩ := Option.isSome_iff_exists.1 hsome
    exact ⟨vars, _, _, _, hvars⟩
  have hname : "x" ≠ "_" := by decide
  have hdigit (text : String) (c : Char) (htext : Literal.withoutUnderscores text = [c])
      (hc : c ≠ '-' ∧ c ≠ '+') : (Expr.lit ⟨.int, text⟩).Tree := by
    intro d hd
    have hd : d ∈ (Literal.withoutUnderscores text).head? := hd
    rw [htext] at hd
    obtain rfl : c = d := Option.some.inj hd
    exact hc
  have htree : nine.Tree :=
    ⟨⟨hdigit "1" '1' (by simp [Literal.withoutUnderscores]) (by decide),
      hdigit "2" '2' (by simp [Literal.withoutUnderscores]) (by decide)⟩,
      hdigit "3" '3' (by simp [Literal.withoutUnderscores]) (by decide)⟩
  have hfits : ∀ op x y n, (Expr.binary op x y).ProperPart nine →
      (Expr.binary op x y).folded? = some (.int n) → IntKind.int.Holds n := by
    intro op x y n hpart hn
    have hsum : ((Expr.binary .add (.lit ⟨.int, "1"⟩) (.lit ⟨.int, "2"⟩)).folded?.all
        fun c => Constant.casesOn (motive := fun _ => Bool) c (fun _ => true)
          (fun n => decide (IntKind.int.Holds n)) (fun _ => true) fun _ => true) = true := by
      decide +kernel
    obtain hpart | hpart := hpart
    · cases hpart with
      | self =>
        rw [hn] at hsum
        exact of_decide_eq_true hsum
      | left h => cases h
      | right h => cases h
    · cases hpart
  obtain ⟨vars, hfolded⟩ := hruns true
  obtain ⟨vars', hrun⟩ := hruns false
  exact ⟨vars, vars', hname, htree, hfits, hfolded, hrun,
    File.folding_keeps_value hname htree hfits hfolded hrun⟩

end StackScript
