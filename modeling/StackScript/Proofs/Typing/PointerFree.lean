import StackScript.Proofs.Placing.Ranges

/-!
# Sources without pointer syntax

An expression is pointer-free if it takes no addresses and follows no pointers, its function literals
included (`Expr.PointerFree`). Labels do not matter for that (`File.PointerFree.labelled`), and the
statements of every function of a compiled file are pointer-free if the file is
(`FileCode.pointerFree`).
-/

namespace StackScript

mutual

/-- Nothing in the expression takes an address or follows a pointer by name. -/
def Expr.PointerFree : Expr → Prop
  | .ident _ | .lit _ => True
  | .binary _ x y => x.PointerFree ∧ y.PointerFree
  | .call f args _ => f.PointerFree ∧ exprsPointerFree args
  | .select x _ => x.PointerFree
  | .funcLit _ _ body => stmtsPointerFree body
  | .addrOf _ | .deref _ => False
termination_by structural e => e

def exprsPointerFree : List Expr → Prop
  | [] => True
  | e :: es => e.PointerFree ∧ exprsPointerFree es
termination_by structural es => es

def Stmt.PointerFree : Stmt → Prop
  | .expr e => e.PointerFree
  | .assign _ targets values => exprsPointerFree targets ∧ exprsPointerFree values
  | .ret values => exprsPointerFree values
  | .block body => stmtsPointerFree body
  | .increment x | .decrement x => x.PointerFree
termination_by structural s => s

def stmtsPointerFree : List Stmt → Prop
  | [] => True
  | s :: ss => s.PointerFree ∧ stmtsPointerFree ss
termination_by structural ss => ss

end

theorem exprsPointerFree_iff {es : List Expr} : exprsPointerFree es ↔ ∀ e ∈ es, e.PointerFree := by
  induction es with
  | nil => simp [exprsPointerFree]
  | cons e es ih => simp [exprsPointerFree, ih]

/-- A file whose main body and functions are. -/
def File.PointerFree (f : File) : Prop :=
  (∀ d ∈ f.funcs, ∀ body, d.body = some body → stmtsPointerFree body) ∧ stmtsPointerFree f.stmts

mutual

theorem Expr.PointerFree.labelled {e : Expr} (h : e.PointerFree) (n : Nat) :
    (e.labelled n).1.PointerFree := by
  cases e with
  | ident | lit => trivial
  | binary op x y => exact ⟨Expr.PointerFree.labelled h.1 n, Expr.PointerFree.labelled h.2 _⟩
  | call f args spread => exact ⟨Expr.PointerFree.labelled h.1 n, pointerFree_labelExprs h.2 _⟩
  | select x name => exact Expr.PointerFree.labelled (e := x) h n
  | funcLit label ty body => exact pointerFree_labelStmts (show stmtsPointerFree body from h) (n + 1)
  | addrOf | deref => exact h.elim

theorem pointerFree_labelExprs {es : List Expr} (h : exprsPointerFree es) (n : Nat) :
    exprsPointerFree (labelExprs es n).1 := by
  cases es with
  | nil => trivial
  | cons e es => exact ⟨h.1.labelled n, pointerFree_labelExprs h.2 _⟩

theorem Stmt.PointerFree.labelled {s : Stmt} (h : s.PointerFree) (n : Nat) :
    (s.labelled n).1.PointerFree := by
  cases s with
  | expr e => exact Expr.PointerFree.labelled (e := e) h n
  | assign mode targets values =>
    exact ⟨pointerFree_labelExprs h.1 n, pointerFree_labelExprs h.2 _⟩
  | ret values => exact pointerFree_labelExprs (show exprsPointerFree values from h) n
  | block body => exact pointerFree_labelStmts (show stmtsPointerFree body from h) n
  | increment x | decrement x => exact Expr.PointerFree.labelled (e := x) h n

theorem pointerFree_labelStmts {ss : List Stmt} (h : stmtsPointerFree ss) (n : Nat) :
    stmtsPointerFree (labelStmts ss n).1 := by
  cases ss with
  | nil => trivial
  | cons s ss => exact ⟨h.1.labelled n, pointerFree_labelStmts h.2 _⟩

end

theorem pointerFree_labelDecls {ds : List FuncDecl}
    (h : ∀ d ∈ ds, ∀ body, d.body = some body → stmtsPointerFree body) (n : Nat) :
    ∀ d ∈ (labelDecls ds n).1, ∀ body, d.body = some body → stmtsPointerFree body := by
  induction ds generalizing n with
  | nil => exact fun _ hd => absurd hd List.not_mem_nil
  | cons d ds ih =>
    have htail := fun n => ih (fun d hd => h d (List.mem_cons_of_mem _ hd)) n
    intro d' hd' body hbody'
    cases hbody : d.body with
    | none =>
      simp only [labelDecls, hbody] at hd'
      obtain rfl | hd' := List.mem_cons.1 hd'
      · cases hbody'
      · exact htail _ d' hd' body hbody'
    | some stmts =>
      simp only [labelDecls, hbody] at hd'
      obtain rfl | hd' := List.mem_cons.1 hd'
      · cases hbody'
        exact pointerFree_labelStmts (h d List.mem_cons_self stmts hbody) n
      · exact htail _ d' hd' body hbody'

theorem File.PointerFree.labelled {f : File} (h : f.PointerFree) : f.labelled.1.PointerFree :=
  ⟨pointerFree_labelDecls h.1 _, pointerFree_labelStmts h.2 0⟩

/-! ## Functions -/

mutual

theorem Expr.PointerFree.body : ∀ {e : Expr}, e.PointerFree → ∀ q ∈ e.bodies, stmtsPointerFree q.2
  | .ident _, _, _, hq | .lit _, _, _, hq => absurd hq List.not_mem_nil
  | .binary _ _ _, h, q, hq =>
    (List.mem_append.1 hq).elim (Expr.PointerFree.body h.1 q) (Expr.PointerFree.body h.2 q)
  | .call _ _ _, h, q, hq =>
    (List.mem_append.1 hq).elim (Expr.PointerFree.body h.1 q) (exprsPointerFree_body h.2 q)
  | .select x _, h, q, hq => Expr.PointerFree.body (e := x) h q hq
  | .funcLit _ _ body, h, q, hq => by
    obtain rfl | hq := List.mem_cons.1 hq
    · exact h
    · exact stmtsPointerFree_body (show stmtsPointerFree body from h) q hq
  | .addrOf _, h, _, _ | .deref _, h, _, _ => h.elim
termination_by structural e => e

theorem exprsPointerFree_body : ∀ {es : List Expr}, exprsPointerFree es →
    ∀ q ∈ exprsBodies es, stmtsPointerFree q.2
  | [], _, _, hq => absurd hq List.not_mem_nil
  | _ :: _, h, q, hq => (List.mem_append.1 hq).elim (h.1.body q) (exprsPointerFree_body h.2 q)
termination_by structural es => es

theorem Stmt.PointerFree.body : ∀ {s : Stmt}, s.PointerFree → ∀ q ∈ s.bodies, stmtsPointerFree q.2
  | .expr e, h, q, hq => Expr.PointerFree.body (e := e) h q hq
  | .assign _ _ _, h, q, hq =>
    (List.mem_append.1 hq).elim (exprsPointerFree_body h.1 q) (exprsPointerFree_body h.2 q)
  | .ret values, h, q, hq => exprsPointerFree_body (show exprsPointerFree values from h) q hq
  | .block body, h, q, hq => stmtsPointerFree_body (show stmtsPointerFree body from h) q hq
  | .increment x, h, q, hq | .decrement x, h, q, hq => Expr.PointerFree.body (e := x) h q hq
termination_by structural s => s

theorem stmtsPointerFree_body : ∀ {ss : List Stmt}, stmtsPointerFree ss →
    ∀ q ∈ stmtsBodies ss, stmtsPointerFree q.2
  | [], _, _, hq => absurd hq List.not_mem_nil
  | _ :: _, h, q, hq => (List.mem_append.1 hq).elim (h.1.body q) (stmtsPointerFree_body h.2 q)
termination_by structural ss => ss

end

/-- The statements of a function come from the source. -/
theorem FileCode.pointerFree {o : Output} {f : File} {labels : Nat} (hcode : FileCode o f)
    (ho : o.Complete) (hd : o.Divides f labels) (hlabels : f.labels = List.range labels)
    (hfree : f.PointerFree) {id : Nat} {g : FuncInfo} (hg : o.program.funcs[id]? = some g)
    (hstop : g.stop.isSome) : stmtsPointerFree (o.stmts id) := by
  have literal {ss : List Stmt} {S S' : Site} {is : List Instr} (hS : S.out = o)
      (hss : StmtsCode S ss is S') (hfree : stmtsPointerFree ss) {label : Nat}
      (hl : label ∈ stmtsLabels ss) (hid : o.literal label = some id) :
      stmtsPointerFree (o.stmts id) := by
    rw [← map_stmtsBodies] at hl
    obtain ⟨q, hq, rfl⟩ := List.mem_map.1 hl
    obtain ⟨id', hid', hbody⟩ := stmts_hasBody ho ss hS hss q hq
    cases hid'.symm.trans hid
    rw [hbody]
    exact stmtsPointerFree_body hfree q hq
  have decl {d : FuncDecl} {id : Nat} (hd' : f.funcs[id]? = some d) {ss : List Stmt}
      (hss : d.body = some ss) : o.stmts id = ss ∧ stmtsPointerFree ss :=
    ⟨hcode.decls id d ss hd' hss, hfree.1 d (List.mem_of_getElem? hd') ss hss⟩
  obtain hid | hid := List.mem_append.1 ((hd.ended id g hg).1 hstop)
  · obtain ⟨d, hd', hbody⟩ := Compile.mem_definedFrom.1 hid
    obtain ⟨ss, hss⟩ := Option.isSome_iff_exists.1 hbody
    obtain ⟨hstmts, hss⟩ := decl hd' hss
    rwa [hstmts]
  · obtain ⟨hle, hlt⟩ := List.mem_range'_1.1 hid
    obtain ⟨label, hlabel, hl⟩ := hd.surjective id hle (by omega)
    have hmem : label ∈ f.labels := hlabels ▸ List.mem_range.2 hlabel
    obtain hmem | hmem := List.mem_append.1 hmem
    · obtain ⟨S', is, -, -, hmain, -⟩ := hcode.main
      exact literal rfl hmain hfree.2 hmem hl
    · obtain ⟨d, hd', hmem⟩ := List.mem_flatMap.1 hmem
      obtain ⟨id', hid'⟩ := List.mem_iff_getElem?.1 hd'
      cases hbody : d.body with
      | none =>
        rw [hbody] at hmem
        cases hmem
      | some ss =>
        rw [hbody] at hmem
        have hordered : id' ∈ f.order labels :=
          List.mem_append_left _ (Compile.mem_definedFrom.2 ⟨d, hid', by rw [hbody]; rfl⟩)
        obtain ⟨g', hg', -, hstop'⟩ := hd.laid.stop hordered
        obtain ⟨hstmts, hss⟩ := decl hid' hbody
        obtain ⟨-, -, -, -, -, -, -, -, -, -, -, -, hfunc⟩ := hcode.funcs id' g' hg' hstop'
        rw [hstmts] at hfunc
        exact literal rfl hfunc hss hmem hl

end StackScript
