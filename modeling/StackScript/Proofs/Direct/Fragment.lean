import StackScript.Compile.Scope
import StackScript.Proofs.Direct.Evaluator

/-!
# Files without calls

A call-free file is a main body of expressions, assignments, updates, steps and blocks over literals,
truth values, variables and operators (`File.CallFree`). The compiler resolves its names in scopes
that show the blocks of the evaluator (`Blocks.shown`).
-/

namespace StackScript

namespace Direct

/-- The names that open blocks declare, the innermost block first. -/
abbrev Names := List (List String)

/-- A block in scope declares the name. -/
def Names.Declare (ns : Names) (name : String) : Prop := ∃ b ∈ ns, name ∈ b

instance (ns : Names) (name : String) : Decidable (ns.Declare name) := by
  unfold Names.Declare
  infer_instance

/-- The names when one more is declared. -/
def Names.add (ns : Names) (name : String) : Names :=
  match ns with
  | b :: outer => (name :: b) :: outer
  | [] => [[name]]

theorem Names.tail_add (ns : Names) (name : String) : (ns.add name).tail = ns.tail := by
  cases ns <;> rfl

/-- The names when a target of a definition is declared. -/
def Names.target (ns : Names) : Expr → Names
  | .ident name => if name = "_" then ns else ns.add name
  | _ => ns

theorem Names.tail_targets (ts : List Expr) (ns : Names) :
    (ts.foldl Names.target ns).tail = ns.tail := by
  induction ts generalizing ns with
  | nil => rfl
  | cons t ts ih =>
    rw [List.foldl_cons, ih]
    unfold Names.target
    split
    · split
      · rfl
      · exact ns.tail_add _
    · rfl

def isName : Expr → Bool
  | .ident _ => true
  | _ => false

end Direct

open Direct

/-! ## The fragment -/

/-- An expression of literals, truth values, variables in scope and operators. Names in `taken`
stand for something else. -/
def Expr.CallFree (taken : List String) (ns : Names) : Expr → Prop
  | .lit _ => True
  | .ident name =>
    ns.Declare name ∨ (name = toString true ∨ name = toString false) ∧ name ∉ taken
  | .binary _ x y => x.CallFree taken ns ∧ y.CallFree taken ns
  | _ => False
termination_by structural e => e

/-- The names in scope behind a statement. -/
def Stmt.names (ns : Names) : Stmt → Names
  | .assign .define targets _ => targets.reverse.foldl Names.target ns
  | _ => ns

/-- A statement declares in the innermost block. -/
theorem Stmt.tail_names (ns : Names) (st : Stmt) : (st.names ns).tail = ns.tail := by
  cases st with
  | assign mode targets values =>
    cases mode with
    | define => exact ns.tail_targets _
    | _ => rfl
  | _ => rfl

mutual

/-- A statement of such expressions that neither calls nor returns. -/
def Stmt.CallFree (taken : List String) (ns : Names) : Stmt → Prop
  | .expr e => e.CallFree taken ns
  | .assign _ targets values =>
    (∀ t ∈ targets, isName t = true) ∧ ∀ e ∈ values, e.CallFree taken ns
  | .block body => CallFreeStmts taken ([] :: ns) body
  | .increment x | .decrement x => isName x = true
  | .ret _ => False
termination_by structural s => s

def CallFreeStmts (taken : List String) (ns : Names) : List Stmt → Prop
  | [] => True
  | s :: ss => s.CallFree taken ns ∧ CallFreeStmts taken (s.names ns) ss
termination_by structural ss => ss

end

/-- A file that is a main body without calls. -/
structure File.CallFree (f : File) : Prop where
  funcs : f.funcs = []
  stmts : CallFreeStmts (f.imports.map Import.localName) [[]] f.stmts

section Decisions

variable (taken : List String)

def Expr.decideCallFree (ns : Names) : (e : Expr) → Decidable (e.CallFree taken ns)
  | .lit _ => isTrue trivial
  | .ident name => inferInstanceAs (Decidable
      (ns.Declare name ∨ (name = toString true ∨ name = toString false) ∧ name ∉ taken))
  | .binary _ x y =>
    have := x.decideCallFree ns
    have := y.decideCallFree ns
    inferInstanceAs (Decidable (x.CallFree taken ns ∧ y.CallFree taken ns))
  | .call .. | .select .. | .funcLit .. | .addrOf _ | .deref _ => isFalse id
termination_by structural e => e

instance (ns : Names) : DecidablePred (Expr.CallFree taken ns) := Expr.decideCallFree taken ns

mutual

def Stmt.decideCallFree (ns : Names) : (s : Stmt) → Decidable (s.CallFree taken ns)
  | .expr e => inferInstanceAs (Decidable (e.CallFree taken ns))
  | .assign _ targets values => inferInstanceAs (Decidable
      ((∀ t ∈ targets, isName t = true) ∧ ∀ e ∈ values, e.CallFree taken ns))
  | .block body => decideCallFreeStmts ([] :: ns) body
  | .increment x | .decrement x => inferInstanceAs (Decidable (isName x = true))
  | .ret _ => isFalse id
termination_by structural s => s

def decideCallFreeStmts (ns : Names) : (ss : List Stmt) → Decidable (CallFreeStmts taken ns ss)
  | [] => isTrue trivial
  | s :: ss =>
    have := s.decideCallFree ns
    have := decideCallFreeStmts (s.names ns) ss
    inferInstanceAs (Decidable (s.CallFree taken ns ∧ CallFreeStmts taken (s.names ns) ss))
termination_by structural ss => ss

end

instance (f : File) : Decidable f.CallFree :=
  have := decideCallFreeStmts (f.imports.map Import.localName) [[]] f.stmts
  decidable_of_iff
    (f.funcs.isEmpty = true ∧ CallFreeStmts (f.imports.map Import.localName) [[]] f.stmts)
    ⟨fun h => ⟨List.isEmpty_iff.1 h.1, h.2⟩, fun h => ⟨List.isEmpty_iff.2 h.1, h.2⟩⟩

end Decisions

/-! ## Labels -/

section Labels

variable {taken : List String} {ns : Names}

theorem Expr.labelled_of_callFree : ∀ {e : Expr}, e.CallFree taken ns → ∀ n, e.labelled n = (e, n)
  | .lit _, _, _ | .ident _, _, _ => rfl
  | .binary op x y, h, n => by
    simp only [Expr.labelled, labelled_of_callFree h.1, labelled_of_callFree h.2]
  | .call .., h, _ | .select .., h, _ | .funcLit .., h, _ | .addrOf _, h, _ | .deref _, h, _ =>
    h.elim

theorem labelExprs_eq_self {es : List Expr} (h : ∀ e ∈ es, ∀ n, e.labelled n = (e, n)) (n : Nat) :
    labelExprs es n = (es, n) := by
  induction es with
  | nil => rfl
  | cons e es ih =>
    simp only [labelExprs, h e (by simp), ih fun e' he' => h e' (by simp [he'])]

theorem Expr.labelled_of_isName : ∀ {e : Expr}, isName e = true → ∀ n, e.labelled n = (e, n)
  | .ident _, _, _ => rfl

mutual

theorem Stmt.labelled_of_callFree {ns : Names} :
    ∀ {s : Stmt}, s.CallFree taken ns → ∀ n, s.labelled n = (s, n)
  | .expr e, h, n => by
    simp only [Stmt.labelled, Expr.labelled_of_callFree h]
  | .assign mode targets values, h, n => by
    simp only [Stmt.labelled,
      labelExprs_eq_self fun t ht => Expr.labelled_of_isName (h.1 t ht),
      labelExprs_eq_self fun e he => Expr.labelled_of_callFree (h.2 e he)]
  | .block body, h, n => by
    simp only [Stmt.labelled, labelStmts_of_callFree h]
  | .increment x, h, n | .decrement x, h, n => by
    simp only [Stmt.labelled, Expr.labelled_of_isName h]
  | .ret _, h, _ => h.elim

theorem labelStmts_of_callFree {ns : Names} :
    ∀ {ss : List Stmt}, CallFreeStmts taken ns ss → ∀ n, labelStmts ss n = (ss, n)
  | [], _, _ => rfl
  | s :: ss, h, n => by
    simp only [labelStmts, Stmt.labelled_of_callFree h.1, labelStmts_of_callFree h.2]

end

/-- A call-free file has no function literals. -/
theorem File.CallFree.labelled {f : File} (h : f.CallFree) : f.labelled = (f, 0) := by
  obtain ⟨imports, funcs, stmts⟩ := f
  obtain ⟨rfl, hstmts⟩ : funcs = [] ∧ _ := ⟨h.funcs, h.stmts⟩
  simp only [File.labelled, labelStmts_of_callFree hstmts, labelDecls]

end Labels

/-! ## Scopes -/

namespace Direct.Blocks

variable {base : List (String × Symbol)} {bs : Blocks} {name : String}

/-- A block as the compiler keeps it. -/
def symbols (b : List (String × Nat)) : List (String × Symbol) := b.map fun (n, id) => (n, .var id)

/-- The blocks as the compiler keeps them; the outermost one has some declarations before. -/
def shown (base : List (String × Symbol)) : Blocks → Scopes
  | [] => []
  | [b] => [symbols b ++ base]
  | b :: bs => symbols b :: shown base bs

/-- The names that the blocks declare. -/
def names (bs : Blocks) : Names := bs.map (·.map (·.1))

theorem lookup_symbols (b : List (String × Nat)) :
    (symbols b).lookup name = (b.lookup name).map .var := by
  induction b with
  | nil => rfl
  | cons entry b ih =>
    obtain ⟨n, id⟩ := entry
    simp only [symbols, List.map_cons, List.lookup_cons]
    cases hn : name == n with
    | true => rfl
    | false => exact ih

/-- A name stands for its innermost variable, and else for what was declared before. -/
theorem find?_shown (hbs : bs ≠ []) :
    (bs.shown base).find? name = ((bs.find? name).map .var).or (base.lookup name) := by
  induction bs with
  | nil => exact absurd rfl hbs
  | cons b bs ih =>
    cases bs with
    | nil =>
      simp [shown, Scopes.find?, find?, List.lookup_append, lookup_symbols]
    | cons b' bs =>
      have ih := ih (by simp)
      simp only [shown, Scopes.find?, find?, List.findSome?_cons, lookup_symbols] at ih ⊢
      cases hb : b.lookup name with
      | some id => rfl
      | none => simpa using ih

theorem declare_shown (hbs : bs ≠ []) (id : Nat) :
    (bs.shown base).declare name (.var id) = (bs.declare name id).shown base := by
  cases bs with
  | nil => exact absurd rfl hbs
  | cons b bs =>
    cases bs with
    | nil => rfl
    | cons b' bs => rfl

theorem enter_shown (hbs : bs ≠ []) : [] :: bs.shown base = shown base ([] :: bs) := by
  cases bs with
  | nil => exact absurd rfl hbs
  | cons b bs => rfl

theorem names_tail (bs : Blocks) : bs.names.tail = names bs.tail := (List.map_tail ..).symm

theorem shown_tail (hbs : bs.tail ≠ []) : (bs.shown base).tail = shown base bs.tail := by
  cases bs with
  | nil => exact absurd rfl hbs
  | cons b bs =>
    cases bs with
    | nil => exact absurd rfl hbs
    | cons b' bs => rfl

theorem declares_of_shown (hbs : bs ≠ []) (h : (bs.shown base).declares name = false) :
    bs.declares name = false := by
  cases bs with
  | nil => exact absurd rfl hbs
  | cons b bs =>
    cases bs with
    | nil =>
      simp only [shown, Scopes.declares, declares, List.head?_cons, Option.bind_some, List.lookup_append,
        lookup_symbols] at h ⊢
      cases hb : b.lookup name with
      | none => rfl
      | some id =>
        rw [hb] at h
        cases h
    | cons b' bs =>
      simpa [shown, Scopes.declares, declares, lookup_symbols] using h

theorem declare_names : bs.names.Declare name ↔ (bs.find? name).isSome := by
  simp only [Names.Declare, names, find?, List.mem_map, exists_exists_and_eq_and,
    List.findSome?_isSome_iff, List.lookup_isSome_iff, beq_iff_eq, eq_comm (a := name)]

theorem names_declare (bs : Blocks) (name : String) (id : Nat) :
    (bs.declare name id).names = bs.names.add name := by
  cases bs <;> rfl

/-- A new variable hides those of its name. -/
theorem find?_declare (bs : Blocks) (name name' : String) (id : Nat) :
    (bs.declare name id).find? name' = if name' = name then some id else bs.find? name' := by
  by_cases hname : name' = name
  · cases bs <;> simp [declare, find?, hname]
  · have hbeq : (name' == name) = false := beq_false_of_ne hname
    cases bs <;> simp [declare, find?, List.findSome?_cons, List.lookup_cons, hbeq, hname]

theorem declare_ne_nil (bs : Blocks) (name : String) (id : Nat) : bs.declare name id ≠ [] := by
  cases bs <;> simp [declare]

end Direct.Blocks

end StackScript
