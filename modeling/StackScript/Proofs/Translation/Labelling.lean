import StackScript.Proofs.Translation.Declared

/-!
# Homes of labelled literals

Labels are given out in order, so a stretch of the source uses a stretch of labels. The homes and
bodies of these can be chosen such that every literal lies where the layout says
(`File.exists_layout`).
-/

namespace StackScript

/-- The labels from `n` up to `m` can be given homes and bodies such that all layouts with these are
as described. -/
def Places (P : Layout → Prop) (n m : Nat) : Prop :=
  n ≤ m ∧ ∃ lits : Nat → Home × List Stmt, ∀ L : Layout,
    (∀ label, n ≤ label → label < m → L.Has label (lits label).1 (lits label).2) → P L

namespace Places

variable {P Q : Layout → Prop} {n m k : Nat}

theorem mono (h : Places P n m) (hPQ : ∀ L, P L → Q L) : Places Q n m := by
  obtain ⟨hle, homes, h⟩ := h
  exact ⟨hle, homes, fun L hL => hPQ L (h L hL)⟩

theorem nil (h : ∀ L, P L) : Places P n n := ⟨Nat.le_refl n, fun _ => (.main, []), fun L _ => h L⟩

/-- Two stretches of labels, one behind the other, do not interfere. -/
theorem and (h : Places P n m) (h' : Places Q m k) : Places (fun L => P L ∧ Q L) n k := by
  obtain ⟨hle, lits, hP⟩ := h
  obtain ⟨hle', lits', hQ⟩ := h'
  refine ⟨Nat.le_trans hle hle', fun label => if label < m then lits label else lits' label,
    fun L hL => ⟨hP L fun label hn hm => ?_, hQ L fun label hm hk => ?_⟩⟩
  · simpa only [if_pos hm] using hL label hn (Nat.lt_of_lt_of_le hm hle')
  · simpa only [if_neg (Nat.not_lt.2 hm)] using hL label (Nat.le_trans hle hm) hk

/-- The first label of a stretch has any home and body. -/
theorem cons (home : Home) (body : List Stmt) (h : Places P (n + 1) m) :
    Places (fun L => L.Has n home body ∧ P L) n m := by
  obtain ⟨hle, lits, hP⟩ := h
  refine ⟨Nat.le_of_succ_le hle, fun label => if label = n then (home, body) else lits label,
    fun L hL => ⟨?_, hP L fun label hn hm => ?_⟩⟩
  · simpa only [if_true] using hL n (Nat.le_refl n) hle
  · simpa only [if_neg (Nat.ne_of_gt hn)] using hL label (Nat.le_of_succ_le hn) hm

end Places

/-! ## Expressions and statements -/

mutual

theorem Expr.places (home : Home) (e : Expr) (n : Nat) :
    Places (fun L => (e.labelled n).1.Placed L home) n (e.labelled n).2 := by
  cases e with
  | ident name => exact .nil fun _ => trivial
  | lit l => exact .nil fun _ => trivial
  | binary op x y => exact (x.places home n).and (y.places home _)
  | call f args spread => exact (f.places home n).and (places_labelExprs home args _)
  | select x name => exact x.places home n
  | funcLit label ty body => exact (places_labelStmts (.literal n) body (n + 1)).cons home _
  | addrOf x => exact x.places home n
  | deref x => exact x.places home n

theorem places_labelExprs (home : Home) (es : List Expr) (n : Nat) :
    Places (fun L => exprsPlaced L home (labelExprs es n).1) n (labelExprs es n).2 := by
  cases es with
  | nil => exact .nil fun _ => trivial
  | cons e es => exact (e.places home n).and (places_labelExprs home es _)

theorem Stmt.places (home : Home) (s : Stmt) (n : Nat) :
    Places (fun L => (s.labelled n).1.Placed L home) n (s.labelled n).2 := by
  cases s with
  | expr e => exact e.places home n
  | assign mode targets values =>
    exact (places_labelExprs home targets n).and (places_labelExprs home values _)
  | ret values => exact places_labelExprs home values n
  | block body => exact places_labelStmts home body n
  | increment x => exact x.places home n
  | decrement x => exact x.places home n

theorem places_labelStmts (home : Home) (ss : List Stmt) (n : Nat) :
    Places (fun L => stmtsPlaced L home (labelStmts ss n).1) n (labelStmts ss n).2 := by
  cases ss with
  | nil => exact .nil fun _ => trivial
  | cons s ss => exact (s.places home n).and (places_labelStmts home ss _)

end

/-! ## Files -/

/-- What the bodies of declarations from number `i` on hold lies each in its own. -/
def declsPlaced (L : Layout) : Nat → List FuncDecl → Prop
  | _, [] => True
  | i, d :: ds => (∀ body, d.body = some body → stmtsPlaced L (.decl i) body) ∧
      declsPlaced L (i + 1) ds

theorem places_labelDecls (ds : List FuncDecl) (i n : Nat) :
    Places (fun L => declsPlaced L i (labelDecls ds n).1) n (labelDecls ds n).2 := by
  induction ds generalizing i n with
  | nil => exact .nil fun _ => trivial
  | cons d ds ih =>
    cases hbody : d.body with
    | none =>
      simp only [labelDecls, hbody]
      refine (ih (i + 1) n).mono fun L hL => ⟨?_, hL⟩
      intro body hb
      cases hb
    | some body =>
      simp only [labelDecls, hbody]
      refine ((places_labelStmts (.decl i) body n).and (ih (i + 1) _)).mono fun L hL => ⟨?_, hL.2⟩
      intro body' hb
      cases hb
      exact hL.1

theorem length_labelDecls (ds : List FuncDecl) (n : Nat) :
    (labelDecls ds n).1.length = ds.length := by
  induction ds generalizing n with
  | nil => rfl
  | cons d ds ih => simp only [labelDecls, List.length_cons, ih]

/-- A layout of a labelled file. -/
structure File.LaidOut (f : File) (L : Layout) : Prop where
  decls : L.decls = f.funcs.length
  stmts : stmtsPlaced L .main f.stmts
  funcs : declsPlaced L 0 f.funcs
  bodies : ∀ (i : Nat) (d : FuncDecl) (body : List Stmt), f.funcs[i]? = some d → d.body = some body →
    L.bodies (.decl i) = body

/-- The statements of a body, given those of literals. -/
def Home.stmts (funcs : List FuncDecl) (literal : Nat → List Stmt) : Home → List Stmt
  | .main => []
  | .decl i => (funcs[i]?.bind (·.body)).getD []
  | .literal label => literal label

/-- A labelled file has a layout. -/
theorem File.exists_layout (env : CompileEnv) (f : File) : ∃ L : Layout, L.env = env ∧
    L.labels = f.labelled.2 ∧ f.labelled.1.LaidOut L := by
  obtain ⟨-, lits, h⟩ :=
    (places_labelStmts .main f.stmts 0).and (places_labelDecls f.funcs 0 (labelStmts f.stmts 0).2)
  let L : Layout := ⟨env, f.funcs.length, f.labelled.2, fun label => (lits label).1,
    Home.stmts f.labelled.1.funcs fun label => (lits label).2⟩
  obtain ⟨hstmts, hfuncs⟩ := h L fun label _ hlt => ⟨hlt, rfl, rfl⟩
  refine ⟨L, rfl, rfl, (length_labelDecls ..).symm, hstmts, hfuncs, fun i d body hd hbody => ?_⟩
  show (f.labelled.1.funcs[i]?.bind (·.body)).getD [] = body
  rw [hd, Option.bind_some, hbody, Option.getD_some]

end StackScript
