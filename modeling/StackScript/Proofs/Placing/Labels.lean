import StackScript.Proofs.Translation.Files

/-!
# Every literal has a function

Labels are the numbers that function literals are known by. A labelled file has each of its labels
once (`File.labels_labelled`), and the code of a finished program that has the words of all its
functions has a function for every one of them, however deep its literal lies
(`FileCode.literal_of_label`).
-/

namespace StackScript

/-! ## Labels -/

mutual

/-- The labels of the literals of an expression, those within bodies included. -/
def Expr.labels : Expr → List Nat
  | .ident _ | .lit _ => []
  | .binary _ x y => x.labels ++ y.labels
  | .call f args _ => f.labels ++ exprsLabels args
  | .select x _ | .addrOf x | .deref x => x.labels
  | .funcLit label _ body => label :: stmtsLabels body
termination_by structural e => e

def exprsLabels : List Expr → List Nat
  | [] => []
  | e :: es => e.labels ++ exprsLabels es
termination_by structural es => es

def Stmt.labels : Stmt → List Nat
  | .expr e | .increment e | .decrement e => e.labels
  | .assign _ targets values => exprsLabels targets ++ exprsLabels values
  | .ret values => exprsLabels values
  | .block body => stmtsLabels body
termination_by structural s => s

def stmtsLabels : List Stmt → List Nat
  | [] => []
  | s :: ss => s.labels ++ stmtsLabels ss
termination_by structural ss => ss

end

def declsLabels (ds : List FuncDecl) : List Nat := ds.flatMap fun d => (d.body.map stmtsLabels).getD []

/-- The labels of the literals of a file. -/
def File.labels (f : File) : List Nat := stmtsLabels f.stmts ++ declsLabels f.funcs

mutual

/-- The literals of an expression with their statements, those within bodies included. -/
def Expr.bodies : Expr → List (Nat × List Stmt)
  | .ident _ | .lit _ => []
  | .binary _ x y => x.bodies ++ y.bodies
  | .call f args _ => f.bodies ++ exprsBodies args
  | .select x _ | .addrOf x | .deref x => x.bodies
  | .funcLit label _ body => (label, body) :: stmtsBodies body
termination_by structural e => e

def exprsBodies : List Expr → List (Nat × List Stmt)
  | [] => []
  | e :: es => e.bodies ++ exprsBodies es
termination_by structural es => es

def Stmt.bodies : Stmt → List (Nat × List Stmt)
  | .expr e | .increment e | .decrement e => e.bodies
  | .assign _ targets values => exprsBodies targets ++ exprsBodies values
  | .ret values => exprsBodies values
  | .block body => stmtsBodies body
termination_by structural s => s

def stmtsBodies : List Stmt → List (Nat × List Stmt)
  | [] => []
  | s :: ss => s.bodies ++ stmtsBodies ss
termination_by structural ss => ss

end

mutual

theorem Expr.map_bodies : ∀ e : Expr, e.bodies.map (·.1) = e.labels
  | .ident _ | .lit _ => rfl
  | .binary _ x y => by rw [Expr.bodies, Expr.labels, List.map_append, x.map_bodies, y.map_bodies]
  | .call f args _ => by rw [Expr.bodies, Expr.labels, List.map_append, f.map_bodies, map_exprsBodies args]
  | .select x _ | .addrOf x | .deref x => x.map_bodies
  | .funcLit label _ body => by rw [Expr.bodies, Expr.labels, List.map_cons, map_stmtsBodies body]
termination_by structural e => e

theorem map_exprsBodies : ∀ es : List Expr, (exprsBodies es).map (·.1) = exprsLabels es
  | [] => rfl
  | e :: es => by rw [exprsBodies, exprsLabels, List.map_append, e.map_bodies, map_exprsBodies es]
termination_by structural es => es

theorem Stmt.map_bodies : ∀ s : Stmt, s.bodies.map (·.1) = s.labels
  | .expr e | .increment e | .decrement e => e.map_bodies
  | .assign _ targets values => by
    rw [Stmt.bodies, Stmt.labels, List.map_append, map_exprsBodies targets, map_exprsBodies values]
  | .ret values => map_exprsBodies values
  | .block body => map_stmtsBodies body
termination_by structural s => s

theorem map_stmtsBodies : ∀ ss : List Stmt, (stmtsBodies ss).map (·.1) = stmtsLabels ss
  | [] => rfl
  | s :: ss => by rw [stmtsBodies, stmtsLabels, List.map_append, s.map_bodies, map_stmtsBodies ss]
termination_by structural ss => ss

end

/-- The labels of a piece of source are those from `n` on, up to `m`. -/
structure LabelledFrom (labels : List Nat) (n m : Nat) : Prop where
  le : n ≤ m
  labels : labels = List.range' n (m - n)

namespace LabelledFrom

variable {ls ls' : List Nat} {n m k : Nat}

theorem nil : LabelledFrom [] n n := ⟨Nat.le_refl n, by simp⟩

theorem append (h : LabelledFrom ls n m) (h' : LabelledFrom ls' m k) :
    LabelledFrom (ls ++ ls') n k :=
  ⟨Nat.le_trans h.le h'.le, by rw [h.labels, h'.labels, range'_append_range' h.le h'.le]⟩

theorem cons (h : LabelledFrom ls (n + 1) m) : LabelledFrom (n :: ls) n m := by
  obtain ⟨hle, rfl⟩ := h
  refine ⟨Nat.le_of_succ_le hle, ?_⟩
  obtain ⟨k, rfl⟩ := Nat.exists_eq_add_of_le hle
  rw [show n + 1 + k - n = k + 1 by omega, List.range'_succ, Nat.add_sub_cancel_left]

end LabelledFrom

mutual

theorem Expr.labels_labelled (e : Expr) (n : Nat) :
    LabelledFrom (e.labelled n).1.labels n (e.labelled n).2 := by
  cases e with
  | ident name => exact .nil
  | lit l => exact .nil
  | binary op x y => exact (x.labels_labelled n).append (y.labels_labelled _)
  | call f args spread => exact (f.labels_labelled n).append (labels_labelExprs args _)
  | select x name => exact x.labels_labelled n
  | funcLit label ty body => exact (labels_labelStmts body (n + 1)).cons
  | addrOf x => exact x.labels_labelled n
  | deref x => exact x.labels_labelled n

theorem labels_labelExprs (es : List Expr) (n : Nat) :
    LabelledFrom (exprsLabels (labelExprs es n).1) n (labelExprs es n).2 := by
  cases es with
  | nil => exact .nil
  | cons e es => exact (e.labels_labelled n).append (labels_labelExprs es _)

theorem Stmt.labels_labelled (s : Stmt) (n : Nat) :
    LabelledFrom (s.labelled n).1.labels n (s.labelled n).2 := by
  cases s with
  | expr e => exact e.labels_labelled n
  | assign mode targets values =>
    exact (labels_labelExprs targets n).append (labels_labelExprs values _)
  | ret values => exact labels_labelExprs values n
  | block body => exact labels_labelStmts body n
  | increment x => exact x.labels_labelled n
  | decrement x => exact x.labels_labelled n

theorem labels_labelStmts (ss : List Stmt) (n : Nat) :
    LabelledFrom (stmtsLabels (labelStmts ss n).1) n (labelStmts ss n).2 := by
  cases ss with
  | nil => exact .nil
  | cons s ss => exact (s.labels_labelled n).append (labels_labelStmts ss _)

end

theorem labels_labelDecls (ds : List FuncDecl) (n : Nat) :
    LabelledFrom (declsLabels (labelDecls ds n).1) n (labelDecls ds n).2 := by
  induction ds generalizing n with
  | nil => exact .nil
  | cons d ds ih =>
    cases hbody : d.body with
    | none =>
      simp only [labelDecls, hbody]
      exact LabelledFrom.nil.append (ih n)
    | some body =>
      simp only [labelDecls, hbody]
      exact (labels_labelStmts body n).append (ih _)

/-- A labelled file has every label once. -/
theorem File.labels_labelled (f : File) : f.labelled.1.labels = List.range f.labelled.2 := by
  have h := (labels_labelStmts f.stmts 0).append (labels_labelDecls f.funcs _)
  rw [List.range_eq_range']
  exact h.labels

/-! ## Parts that have code -/

/-- The expression has code, as a value, as a callee or as a target. -/
inductive Reached (S : Site) : Expr → Prop
  | value {e : Expr} {p : Pushed} {is : List Instr} (h : Code S e p is) : Reached S e
  | callee {e : Expr} {ref : FuncRef} {sig : Signature} (h : CalleeAt S e ref sig) : Reached S e
  | member {x : Expr} {name : String} {p : Pushed} {is : List Instr} (h : Code S x p is) :
    Reached S (.select x name)
  | name {name : String} : Reached S (.ident name)
  | through {x : Expr} {p : Pushed} {is : List Instr} (h : Code S x p is) : Reached S (.deref x)

/-- Expressions that have code at sites of a program. -/
def AllReached (o : Output) (es : List Expr) : Prop := ∀ e ∈ es, ∃ S : Site, S.out = o ∧ Reached S e

theorem AllReached.cons {o : Output} {S : Site} {e : Expr} {es : List Expr} (ho : S.out = o)
    (h : Reached S e) (h' : AllReached o es) : AllReached o (e :: es) :=
  List.forall_mem_cons.2 ⟨⟨S, ho, h⟩, h'⟩

theorem AllReached.nil {o : Output} : AllReached o [] := fun _ h => absurd h List.not_mem_nil

variable {S S' : Site}

theorem Each.reached {es : List Expr} {ts : List Ty} {is : List Instr} (h : Each S es ts is) :
    AllReached S.out es := by
  induction es generalizing ts is with
  | nil => exact .nil
  | cons e es ih =>
    cases h with
    | cons h _ hes => exact .cons rfl (.value h) (ih hes)

theorem Passed.reached {sig : Signature} {skip : Nat} {args : List Expr} {spread : Bool}
    {arity : Arity} {is : List Instr} (h : Passed S sig skip args spread arity is) :
    AllReached S.out args := by
  cases h with
  | spread _ h => exact h.reached
  | sole h => exact .cons rfl (.value h) .nil
  | each _ h => exact h.reached

theorem Given.reached {defines : Bool} {x : Expr} {p : Pushed} {is : List Instr}
    (h : Given S defines x p is S') : Reached S x := by
  cases h with
  | through hx => exact .through hx
  | _ => exact .name

theorem GivenAll.reached {defines : Bool} {xs : List Expr} {ps : List Pushed} {is : List Instr}
    (h : GivenAll S defines xs ps is S') : AllReached S.out xs := by
  induction h with
  | nil => exact .nil
  | cons h _ ih => exact .cons rfl h.reached (h.leads.out ▸ ih)

theorem Singles.reached {es : List Expr} {ps : List Pushed} {is : List Instr}
    (h : Singles S es ps is) : AllReached S.out es := by
  induction h with
  | nil => exact .nil
  | cons h _ _ ih => exact .cons rfl (.value h) ih

theorem Values.reached {n : Nat} {es : List Expr} {ps : List Pushed} {is : List Instr}
    (h : Values S n es ps is) : AllReached S.out es := by
  cases h with
  | sole h => exact .cons rfl (.value h) .nil
  | each _ h => exact h.reached

theorem Addressed.reached {x : Expr} {t : Ty} {is : List Instr} (h : Addressed S x t is) :
    Reached S x := by
  cases h with
  | var => exact .name
  | through hx => exact .through hx

theorem Updated.reached {op : Operator} {x value : Expr} {is : List Instr}
    (h : Updated S op x value is) : Reached S x ∧ Reached S value := by
  cases h with
  | addr hv hx => exact ⟨hx.reached, .value hv⟩
  | param _ hv => exact ⟨.name, .value hv⟩

theorem Stepped.reached {up : Bool} {x : Expr} {is : List Instr} (h : Stepped S up x is) :
    Reached S x := by
  cases h with
  | addr hx => exact hx.reached
  | param => exact .name

theorem Returned.reached {values : List Expr} {is : List Instr} (h : Returned S values is) :
    AllReached S.out values := by
  cases h with
  | bare => exact .nil
  | sole h => exact .cons rfl (.value h) .nil
  | each h => exact h.reached

theorem Dropped.reached {e : Expr} {is : List Instr} (h : Dropped S e is) : Reached S e := by
  cases h with
  | results h => exact .value h
  | single h => exact .value h

theorem HostAt.bodies_eq_nil {e : Expr} {s : NativeSymbol} (h : HostAt S e s) : e.bodies = [] := by
  cases h <;> rfl

/-- What the look-ahead takes for a constant has no literals of functions. -/
theorem Means.bodies_eq_nil {e : Expr} {c : Constant} (h : Means S e c) : e.bodies = [] := by
  induction h with
  | lit | truth => rfl
  | folded _ _ _ _ ihx ihy => rw [Expr.bodies, ihx, ihy, List.append_nil]

/-! ### Parts of what has code -/

namespace Reached

theorem of_binary {op : Operator} {x y : Expr} (h : Reached S (.binary op x y)) :
    (Expr.binary op x y).bodies = [] ∨ Reached S x ∧ Reached S y := by
  cases h with
  | callee h =>
    cases h with
    | native h => cases h
  | value h =>
    cases h with
    | native h => cases h
    | const h => exact .inl h.bodies_eq_nil
    | binary hx hy => exact .inr ⟨.value hx, .value hy⟩

theorem of_call {f : Expr} {args : List Expr} {spread : Bool} (h : Reached S (.call f args spread)) :
    Reached S f ∧ AllReached S.out args := by
  cases h with
  | callee h =>
    cases h with
    | native h => cases h
  | value h =>
    cases h with
    | native h => cases h
    | const h => cases h
    | call hf hpassed => exact ⟨.callee hf, hpassed.reached⟩
    | callMethod hx _ _ _ hpassed => exact ⟨.member hx, hpassed.reached⟩
    | callValue hpassed hf => exact ⟨.value hf, hpassed.reached⟩

theorem of_select {x : Expr} {name : String} (h : Reached S (.select x name)) :
    x.bodies = [] ∨ Reached S x := by
  cases h with
  | member h => exact .inr (.value h)
  | callee h =>
    cases h with
    | native h => exact .inl h.bodies_eq_nil
  | value h =>
    cases h with
    | native h => exact .inl h.bodies_eq_nil
    | const h => cases h
    | field hx => exact .inr (.value hx)

theorem of_funcLit {label : Nat} {ty : FuncTypeExpr} {body : List Stmt}
    (h : Reached S (.funcLit label ty body)) : ∃ id sig, LiteralAt S label body id sig := by
  cases h with
  | callee h =>
    cases h with
    | native h => cases h
    | literal h => exact ⟨_, _, h⟩
  | value h =>
    cases h with
    | native h => cases h
    | const h => cases h
    | funcLit h => exact ⟨_, _, h⟩

theorem of_addrOf {x : Expr} (h : Reached S (.addrOf x)) : x.bodies = [] := by
  cases h with
  | callee h =>
    cases h with
    | native h => cases h
  | value h =>
    cases h with
    | native h => cases h
    | const h => cases h
    | addrOf h => rfl

theorem of_deref {x : Expr} (h : Reached S (.deref x)) : Reached S x := by
  cases h with
  | through h => exact .value h
  | callee h =>
    cases h with
    | native h => cases h
  | value h =>
    cases h with
    | native h => cases h
    | const h => cases h
    | deref hx => exact .value hx

end Reached

/-! ## Every label -/

section

variable {o : Output}

/-- The words of every function are there, and every literal that has a function has words. -/
structure Output.Complete (o : Output) : Prop where
  literals : ∀ (label id : Nat), o.literal label = some id →
    ∃ g : FuncInfo, o.program.funcs[id]? = some g ∧ g.stop.isSome
  funcs : ∀ (id : Nat) (g : FuncInfo), o.program.funcs[id]? = some g → g.stop.isSome →
    FuncCode o id g

/-- The literal with a label has a function, whose statements are those given. -/
def Output.HasBody (o : Output) (q : Nat × List Stmt) : Prop :=
  ∃ id, o.literal q.1 = some id ∧ o.stmts id = q.2

/-- The statements of a literal have code. -/
theorem LiteralAt.coded (ho : o.Complete) {label id : Nat} {body : List Stmt} {sig : Signature}
    (hS : S.out = o) (h : LiteralAt S label body id sig) : o.HasBody (label, body) ∧
      ∃ (S₁ S₂ : Site) (is : List Instr), S₁.out = o ∧ StmtsCode S₁ body is S₂ := by
  subst hS
  obtain ⟨g, hg, hstop⟩ := ho.literals label id h.literal
  obtain ⟨-, -, -, -, -, -, -, -, -, -, -, -, hcode⟩ := ho.funcs id g hg hstop
  rw [h.stmts] at hcode
  refine ⟨⟨id, h.literal, h.stmts⟩, _, _, _, ?_, hcode⟩
  rfl

mutual

theorem Expr.hasBody (ho : o.Complete) : ∀ (e : Expr) {S : Site}, S.out = o → Reached S e →
    ∀ q ∈ e.bodies, o.HasBody q
  | .ident _, _, _, _, _, hl | .lit _, _, _, _, _, hl => absurd hl List.not_mem_nil
  | .binary op x y, S, hS, h, q, hl => by
    obtain hnil | ⟨hx, hy⟩ := h.of_binary
    · rw [hnil] at hl
      cases hl
    · exact (List.mem_append.1 hl).elim (x.hasBody ho hS hx q) (y.hasBody ho hS hy q)
  | .call f args spread, S, hS, h, q, hl => by
    obtain ⟨hf, hargs⟩ := h.of_call
    exact (List.mem_append.1 hl).elim (f.hasBody ho hS hf q) (exprs_hasBody ho args (hS ▸ hargs) q)
  | .select x name, S, hS, h, q, hl => by
    obtain hnil | hx := h.of_select
    · have hl : q ∈ x.bodies := hl
      rw [hnil] at hl
      cases hl
    · exact x.hasBody ho hS hx q hl
  | .funcLit label' ty body, S, hS, h, q, hl => by
    obtain ⟨id, sig, hliteral⟩ := h.of_funcLit
    obtain ⟨hid, S₁, S₂, is, hS₁, hcode⟩ := hliteral.coded ho hS
    obtain rfl | hl := List.mem_cons.1 hl
    · exact hid
    · exact stmts_hasBody ho body hS₁ hcode q hl
  | .addrOf x, S, hS, h, q, hl => by
    have hl : q ∈ x.bodies := hl
    rw [h.of_addrOf] at hl
    cases hl
  | .deref x, S, hS, h, q, hl => x.hasBody ho hS h.of_deref q hl
termination_by structural e => e

theorem exprs_hasBody (ho : o.Complete) : ∀ (es : List Expr), AllReached o es →
    ∀ q ∈ exprsBodies es, o.HasBody q
  | [], _, _, hl => absurd hl List.not_mem_nil
  | e :: es, h, q, hl => by
    obtain ⟨⟨S, hS, he⟩, hes⟩ := List.forall_mem_cons.1 h
    exact (List.mem_append.1 hl).elim (e.hasBody ho hS he q)
      (exprs_hasBody ho es hes q)
termination_by structural es => es

theorem Stmt.hasBody (ho : o.Complete) : ∀ (st : Stmt) {S S' : Site} {is : List Instr}, S.out = o →
    StmtCode S st is S' → ∀ q ∈ st.bodies, o.HasBody q
  | .expr e, _, _, _, hS, .expr h, q, hl => e.hasBody ho hS h.reached q hl
  | .assign mode targets values, S, S', _, hS, h, q, hl => by
    have htargets (h : AllReached o targets) (hl : q ∈ exprsBodies targets) :
        o.HasBody q := exprs_hasBody ho targets h q hl
    have hvalues (h : AllReached o values) (hl : q ∈ exprsBodies values) :
        o.HasBody q := exprs_hasBody ho values h q hl
    cases h with
    | assign _ hv ht =>
      refine (List.mem_append.1 hl).elim (htargets fun e he => ?_) (hvalues (hS ▸ hv.reached))
      exact hS ▸ ht.reached e (List.mem_reverse.2 he)
    | update _ h =>
      obtain ⟨hx, hvalue⟩ := h.reached
      exact (List.mem_append.1 hl).elim (htargets (.cons hS hx .nil))
        (hvalues (.cons hS hvalue .nil))
  | .ret values, _, _, _, hS, .ret _ h, q, hl =>
    exprs_hasBody ho values (hS ▸ h.reached) q hl
  | .block body, S, _, _, hS, .block h, q, hl =>
    stmts_hasBody ho body (S := S.enter) hS h q hl
  | .increment x, _, _, _, hS, .increment h, q, hl => x.hasBody ho hS h.reached q hl
  | .decrement x, _, _, _, hS, .decrement h, q, hl => x.hasBody ho hS h.reached q hl
termination_by structural st => st

theorem stmts_hasBody (ho : o.Complete) : ∀ (ss : List Stmt) {S S' : Site} {is : List Instr}, S.out = o →
    StmtsCode S ss is S' → ∀ q ∈ stmtsBodies ss, o.HasBody q
  | [], _, _, _, _, _, _, hl => absurd hl List.not_mem_nil
  | s :: ss, _, _, _, hS, .cons h hs, q, hl =>
    (List.mem_append.1 hl).elim (s.hasBody ho hS h q)
      (stmts_hasBody ho ss (h.leads.out.trans hS) hs q)
termination_by structural ss => ss

end

theorem stmts_literal_of_label (ho : o.Complete) {ss : List Stmt} {S S' : Site} {is : List Instr}
    (hS : S.out = o) (h : StmtsCode S ss is S') {label : Nat} (hl : label ∈ stmtsLabels ss) :
    (o.literal label).isSome := by
  rw [← map_stmtsBodies] at hl
  obtain ⟨q, hq, rfl⟩ := List.mem_map.1 hl
  obtain ⟨id, hid, -⟩ := stmts_hasBody ho ss hS h q hq
  rw [hid]
  rfl

end

end StackScript
