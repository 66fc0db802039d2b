import StackScript.Proofs.Placing.Ranges

/-!
# Where statements lie

Each statement of a compiled file has its code in the stretch of its body, one statement behind the
other (`Output.Lays`), and none is left out (`FileCode.exists_lays`). At such a place the names of
variables and parameters tell these apart (`Site.Distinct`).
-/

namespace StackScript

/-! ## Names -/

/-- No variable and no parameter has two names at the site, and none is that of the next variable. -/
structure Site.Distinct (S : Site) : Prop where
  apart : S.scopes.Apart
  lt : ∀ name id, S.scopes.find? name = some (.var id) → id < S.next

namespace Site.Distinct

variable {S S' : Site}

theorem declare (h : S.Distinct) (name : String) : (S.declare name).Distinct where
  apart := h.apart.declare fun _ name' hfind => Nat.lt_irrefl _ (h.lt name' S.next hfind)
  lt name' id hfind := by
    rw [Site.declare, Scopes.find?_declare] at hfind
    split at hfind
    · cases hfind
      exact Nat.lt_succ_self _
    · exact Nat.lt_succ_of_lt (h.lt name' id hfind)

theorem enter (h : S.Distinct) : S.enter.Distinct := ⟨h.apart, h.lt⟩

theorem leave (h : S.Distinct) (hle : S.next ≤ S'.next) : (S.leave S').Distinct where
  apart := h.apart
  lt name id hfind := Nat.lt_of_lt_of_le (h.lt name id hfind) hle

/-- Names of functions and packages are no names of variables. -/
theorem main {o : Output} {f : File} : Site.Distinct ⟨o, .main, [f.funcNames ++ f.importNames], 0⟩ := by
  have noSlot {name : String} {x : Symbol}
      (hfind : Scopes.find? [f.funcNames ++ f.importNames] name = some x) : ¬x.IsSlot := by
    rw [Scopes.find?_single] at hfind
    obtain hmem | hmem := List.mem_append.1 (lookup_mem hfind)
    · obtain ⟨i, hi, heq⟩ := List.mem_mapIdx.1 (List.mem_reverse.1 hmem)
      cases heq
      exact id
    · obtain ⟨i, -, heq⟩ := List.mem_map.1 (List.mem_reverse.1 hmem)
      cases heq
      exact id
  exact ⟨fun _ _ _ hfind _ hslot => absurd hslot (noSlot hfind),
    fun _ _ hfind => absurd trivial (noSlot hfind)⟩

end Site.Distinct

section

variable {S S' : Site} {is : List Instr}

theorem Given.distinct {defines : Bool} {x : Expr} {p : Pushed} (h : Given S defines x p is S')
    (hS : S.Distinct) : S'.Distinct := by
  cases h with
  | define => exact hS.declare _
  | _ => exact hS

theorem GivenAll.distinct {defines : Bool} {xs : List Expr} {ps : List Pushed}
    (h : GivenAll S defines xs ps is S') (hS : S.Distinct) : S'.Distinct := by
  induction h with
  | nil => exact hS
  | cons h _ ih => exact ih (h.distinct hS)

/-- A block is left with the names that were there before. -/
theorem StmtCode.distinct {s : Stmt} (h : StmtCode S s is S') (hS : S.Distinct) : S'.Distinct := by
  cases h with
  | assign _ _ htargets => exact htargets.distinct hS
  | block h => exact hS.leave h.leads.next
  | _ => exact hS

end

/-! ## Statements -/

/-- The site is in the main body of a program or in one of its functions. -/
structure Site.In (S : Site) (o : Output) : Prop where
  out : S.out = o
  body : S.body = .main ∨ ∃ id sig, S.body.Of id sig ∧ o.program.sig? id = some sig

theorem Site.In.of_leads {o : Output} {S S' : Site} (h : S.In o) (hs : S.Leads S') : S'.In o :=
  ⟨hs.out.trans h.out, hs.body ▸ h.body⟩

/-- The statements of the main body or of a function. -/
def Output.bodyOf (o : Output) (f : File) : Option Nat → List Stmt
  | none => f.stmts
  | some id => o.stmts id

/-- The statements are what is left of a body, or of a block in it, behind some statement. -/
inductive Stmt.Rest (body : List Stmt) : List Stmt → Prop
  | all : Rest body body
  | behind {s : Stmt} {ss : List Stmt} (h : Rest body (s :: ss)) : Rest body ss
  | block {inner ss : List Stmt} (h : Rest body (.block inner :: ss)) : Rest body inner

/-- In the program of a file the statements come next at a site: `is` is their code, which lies from an
offset on, and behind them is another site. -/
inductive Output.Lays (o : Output) (f : File) : Site → List Stmt → List Instr → Site → Nat → Prop
  | main {S' : Site} {is : List Instr}
    (hcode : StmtsCode ⟨o, .main, [f.funcNames ++ f.importNames], 0⟩ f.stmts is S')
    (hend : o.program.mainEnd = is.length) (hreads : o.program.Reads 0 is) :
    Lays o f ⟨o, .main, [f.funcNames ++ f.importNames], 0⟩ f.stmts is S' 0
  | func {id entry next : Nat} {g : FuncInfo} {sig : Signature} {body : Body} {scopes : Scopes}
    {S' : Site} {is : List Instr} (hg : o.program.funcs[id]? = some g) (hentry : g.entry = some entry)
    (hstop : g.stop = some (entry + is.length)) (hsig : o.program.sig? id = some sig)
    (hbody : body.Of id sig) (hdistinct : Site.Distinct ⟨o, body, scopes, next⟩)
    (hcode : StmtsCode ⟨o, body, scopes, next⟩ (o.stmts id) is S') (hreads : o.program.Reads entry is) :
    Lays o f ⟨o, body, scopes, next⟩ (o.stmts id) is S' entry
  | behind {S S' S'' : Site} {s : Stmt} {ss : List Stmt} {is₁ is₂ : List Instr} {offset : Nat}
    (h : Lays o f S (s :: ss) (is₁ ++ is₂) S'' offset) (hs : StmtCode S s is₁ S')
    (hss : StmtsCode S' ss is₂ S'') : Lays o f S' ss is₂ S'' (offset + is₁.length)
  | block {S S' S'' : Site} {inner ss : List Stmt} {is₁ is₂ : List Instr} {offset : Nat}
    (h : Lays o f S (.block inner :: ss) (is₁ ++ is₂) S'' offset) (hinner : StmtsCode S.enter inner is₁ S')
    (hss : StmtsCode (S.leave S') ss is₂ S'') : Lays o f S.enter inner is₁ S' offset

namespace Output.Lays

variable {o : Output} {f : File} {S S' : Site} {ss : List Stmt} {is : List Instr} {offset : Nat}

theorem code (h : o.Lays f S ss is S' offset) : StmtsCode S ss is S' := by
  cases h with
  | main hcode | func _ _ _ _ _ _ hcode => exact hcode
  | behind _ _ hss => exact hss
  | block _ hinner => exact hinner

theorem reads (h : o.Lays f S ss is S' offset) : o.program.Reads offset is := by
  induction h with
  | main _ _ hreads | func _ _ _ _ _ _ _ hreads => exact hreads
  | behind _ _ _ ih => exact (Program.reads_append.1 ih).2
  | block _ _ _ ih => exact (Program.reads_append.1 ih).1

theorem inside (h : o.Lays f S ss is S' offset) : S.In o := by
  induction h with
  | main => exact ⟨rfl, .inl rfl⟩
  | func _ _ _ hsig hbody => exact ⟨rfl, .inr ⟨_, _, hbody, hsig⟩⟩
  | behind _ hs _ ih => exact ih.of_leads hs.leads
  | block _ _ _ ih => exact ⟨ih.out, ih.body⟩

theorem distinct (h : o.Lays f S ss is S' offset) : S.Distinct := by
  induction h with
  | main => exact .main
  | func _ _ _ _ _ hdistinct => exact hdistinct
  | behind _ hs _ ih => exact hs.distinct ih
  | block _ _ _ ih => exact ih.enter

/-- The code lies in the stretch of the body. -/
theorem covers (h : o.Lays f S ss is S' offset) : ∃ first stop,
    o.program.Covers S.body.func first stop ∧ first ≤ offset ∧ offset + is.length ≤ stop := by
  induction h with
  | main _ hend => exact ⟨0, _, .main, Nat.le_refl _, by omega⟩
  | @func id entry next g sig body scopes S' is hg hentry hstop _ hbody =>
    exact ⟨entry, _, hbody.func ▸ .func hg hentry hstop, Nat.le_refl _, Nat.le_refl _⟩
  | behind _ hs _ ih =>
    obtain ⟨first, stop, hcovers, hle, hend⟩ := ih
    rw [List.length_append] at hend
    exact ⟨first, stop, hs.leads.body ▸ hcovers, by omega, by omega⟩
  | block _ _ _ ih =>
    obtain ⟨first, stop, hcovers, hle, hend⟩ := ih
    rw [List.length_append] at hend
    exact ⟨first, stop, hcovers, hle, by omega⟩

/-- Statements that are left of laid ones are laid. -/
theorem of_rest (h : o.Lays f S ss is S' offset) {rest : List Stmt} (hrest : Stmt.Rest ss rest) :
    ∃ T T' js offset', T.body = S.body ∧ o.Lays f T rest js T' offset' := by
  induction hrest with
  | all => exact ⟨S, S', is, offset, rfl, h⟩
  | behind _ ih =>
    obtain ⟨T, T', js, offset', hbody, hlays⟩ := ih
    cases hlays.code with
    | cons hs hss => exact ⟨_, _, _, _, hs.leads.body.trans hbody, hlays.behind hs hss⟩
  | block _ ih =>
    obtain ⟨T, T', js, offset', hbody, hlays⟩ := ih
    cases hlays.code with
    | cons hs hss =>
      cases hs with
      | block hinner => exact ⟨T.enter, _, _, _, hbody, hlays.block hinner hss⟩

end Output.Lays

/-- All statements of a compiled file are laid. -/
theorem FileCode.exists_lays {o : Output} {f : File} (h : FileCode o f) {func : Option Nat}
    {first stop : Nat} (hcovers : o.program.Covers func first stop) {ss : List Stmt}
    (hrest : Stmt.Rest (o.bodyOf f func) ss) :
    ∃ S S' is offset, S.body.func = func ∧ o.Lays f S ss is S' offset := by
  suffices hbody : ∃ S S' is offset, S.body.func = func ∧ o.Lays f S (o.bodyOf f func) is S' offset by
    obtain ⟨S, S', is, offset, hfunc, hlays⟩ := hbody
    obtain ⟨T, T', js, offset', heq, hlays'⟩ := hlays.of_rest hrest
    exact ⟨T, T', js, offset', by rw [heq, hfunc], hlays'⟩
  cases hcovers with
  | main =>
    obtain ⟨S', is, hend, hreads, hcode, -⟩ := h.main
    exact ⟨_, S', is, 0, rfl, .main hcode hend hreads⟩
  | @func id entry stop g hg hentry hstop =>
    obtain @⟨sig, body, scopes, S', is, entry', first, -, hsigned, -, -, -, -, hbody, -, -, hentry', hstop',
      hreads, hcode, hscopes, hapart⟩ := h.funcs id g hg (by rw [hstop]; rfl)
    exact ⟨_, S', is, _, hbody.func, .func hg hentry' hstop' (hsigned.sig? hg) hbody ⟨hapart, hscopes⟩ hcode hreads⟩

end StackScript
