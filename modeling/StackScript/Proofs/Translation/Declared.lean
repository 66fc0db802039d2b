import StackScript.Proofs.Translation.BodyCode
import StackScript.Proofs.Translation.Coercing

/-!
# What the compiler has declared

`Declared` is the invariant of functions, variables, scopes and waiting bodies. Where a variable or
a function lies in the finished program is said of every program that completes the state, so the
statements stay true while the state grows.
-/

namespace StackScript

open CompileState

/-! ## Homes of literals -/

mutual

/-- The literals in an expression lie where the layout says, those in bodies included. -/
def Expr.Placed (L : Layout) (home : Home) : Expr → Prop
  | .ident _ | .lit _ => True
  | .binary _ x y => x.Placed L home ∧ y.Placed L home
  | .call f args _ => f.Placed L home ∧ exprsPlaced L home args
  | .select x _ | .addrOf x | .deref x => x.Placed L home
  | .funcLit label _ body => L.Has label home body ∧ stmtsPlaced L (.literal label) body
termination_by structural e => e

def exprsPlaced (L : Layout) (home : Home) : List Expr → Prop
  | [] => True
  | e :: es => e.Placed L home ∧ exprsPlaced L home es
termination_by structural es => es

def Stmt.Placed (L : Layout) (home : Home) : Stmt → Prop
  | .expr e | .increment e | .decrement e => e.Placed L home
  | .assign _ targets values => exprsPlaced L home targets ∧ exprsPlaced L home values
  | .ret values => exprsPlaced L home values
  | .block body => stmtsPlaced L home body
termination_by structural s => s

def stmtsPlaced (L : Layout) (home : Home) : List Stmt → Prop
  | [] => True
  | s :: ss => s.Placed L home ∧ stmtsPlaced L home ss
termination_by structural ss => ss

end

/-! ## Symbols -/

/-- A variable has a slot in one of the frames around a place of the program. -/
def Output.Sees (o : Output) (chain : List Nat) (id : Nat) : Prop :=
  ∃ v a, o.program.vars[id]? = some v ∧ v.addr = some a ∧
    if a.depth = 0 then o.program.mainVars[a.index]? = some id
    else a.depth ≤ chain.length ∧ ∃ g f, chain[chain.length - a.depth]? = some g ∧
      o.program.funcs[g]? = some f ∧ f.vars[a.index]? = some id

/-- A symbol is right for its name in the body of a function of the finished program. -/
def Output.Valid (o : Output) (owner : Option Nat) (name : String) : Symbol → Prop
  | .var id => o.Sees (o.chain owner) id
  | .param func index ty => ∃ sig, o.program.sig? func = some sig ∧ sig.params[index]? = some ty
  | .package _ => True
  | .func id => o.nest id = [id] ∧ (∃ sig, o.program.sig? id = some sig) ∧
    o.program.name? id = some name ∧ ∀ label, o.literal label ≠ some id

/-- A symbol is one of the state: a variable has its slot, in no frame deeper than `depth`, and a
parameter belongs to a function whose words have begun. -/
def CompileState.Knows (s : CompileState) (depth : Nat) : Symbol → Prop
  | .var id => ∃ v a, s.asm.vars[id]? = some v ∧ v.addr = some a ∧ a.depth ≤ depth
  | .param func _ _ => ∃ f : FuncInfo, s.asm.funcs[func]? = some f ∧ f.entry.isSome
  | .package _ => True
  | .func id => id < s.asm.funcs.size

theorem CompileState.Knows.var_lt {s : CompileState} {depth id : Nat} (h : s.Knows depth (.var id)) :
    id < s.asm.vars.size := by
  obtain ⟨v, -, hv, -⟩ := h
  exact Extends.lt_of_getElem? hv

theorem CompileState.Knows.mono {s : CompileState} {depth depth' : Nat} {x : Symbol}
    (h : s.Knows depth x) (hle : depth ≤ depth') : s.Knows depth' x := by
  cases x with
  | var id =>
    obtain ⟨v, a, hv, ha, hdepth⟩ := h
    exact ⟨v, a, hv, ha, Nat.le_trans hdepth hle⟩
  | _ => exact h

/-- What a scope declares is right for the body of a function at the given depth. -/
structure ScopeValid (L : Layout) (s : CompileState) (owner : Option Nat) (depth : Nat)
    (scopes : Scopes) : Prop where
  known : ∀ {name x}, scopes.find? name = some x → s.Knows depth x
  valid : ∀ {name x}, scopes.find? name = some x → ∀ o, Completes L s o → o.Valid owner name x
  apart : scopes.Apart

/-! ## Functions -/

theorem FuncInfo.Signed.isVariadic {f : FuncInfo} {sig : Signature} (h : f.Signed sig) :
    f.isVariadic = sig.variadic := by
  rw [FuncInfo.isVariadic, h.variadicity]
  cases sig.variadic <;> rfl

/-- A body that waits belongs to a function that has no words yet. -/
structure Waiting (L : Layout) (s : CompileState) (b : WaitingBody) (home : Home) (f : FuncInfo) :
    Prop where
  owner : s.owner? home = some (some b.func)
  info : s.asm.funcs[b.func]? = some f
  entry : f.entry = none
  stop : f.stop = none
  vars : f.vars = #[]
  declares : f.sig = some b.sig
  params : b.ty.params.length = b.sig.params.length
  results : b.ty.results.length = b.sig.results.length
  placed : stmtsPlaced L home b.stmts
  nest : ∀ o, Completes L s o → (o.nest b.func).length = f.depth ∧
    ∃ rest, o.nest b.func = b.func :: rest
  stmts : ∀ o, Completes L s o → o.stmts b.func = b.stmts
  path : s.names.Path b.path
  /-- Without horizons it is the body of a declaration. -/
  outermost : b.horizons = [] → b.path = [0] ∧ b.func < L.decls
  scopes : b.horizons ≠ [] → ScopeValid L s (some b.func) f.depth
    (s.names.seenFrom b.path b.horizons)

/-- The function whose body is compiled. -/
structure Running (L : Layout) (s : CompileState) (id : Nat) (f : FuncInfo) (sig : Signature) :
    Prop where
  info : s.asm.funcs[id]? = some f
  declares : f.sig = some sig
  depth : f.depth = s.body.depth
  entry : f.entry.isSome
  stop : f.stop = none
  numParams : s.body.numParams = sig.params.length
  results : s.body.results = sig.results
  nest : ∀ o, Completes L s o → ∃ rest, o.nest id = id :: rest

/-- Functions are declared or of literals, and each literal has one of its own. -/
structure Labelled (L : Layout) (literals : List (Nat × Nat)) (funcs : Nat) : Prop where
  count : funcs = L.decls + literals.length
  lt : ∀ p ∈ literals, p.1 < L.labels ∧ p.2 < funcs
  labels_nodup : (literals.map (·.1)).Nodup
  funcs_nodup : (literals.map (·.2)).Nodup

/-- Declarations, scopes and waiting bodies are in order at a place of the file. -/
structure Declared (L : Layout) (home : Home) (s : CompileState) : Prop where
  decls : L.decls ≤ s.asm.funcs.size
  owner : s.owner? home = some s.body.func
  signed : ∀ (id : Nat) (f : FuncInfo), s.asm.funcs[id]? = some f → ∃ sig, f.Signed sig ∧
    sig.Resolved L.env.registry
  literals : ∀ label id, s.literals.lookup label = some id → L.decls ≤ id ∧
    id < s.asm.funcs.size ∧ ∃ q, s.owner? (L.homes label) = some q ∧ ∀ j, q = some j → j < id
  labels : Labelled L s.literals s.asm.funcs.size
  depth : ∀ o, Completes L s o → (o.chain s.body.func).length = s.body.depth
  main : s.body.func = none → s.body = .main
  running : ∀ id, s.body.func = some id → ∃ f sig, Running L s id f sig
  opened : s.asm.opened = s.body.func.toList
  names : s.names.Sound
  scopes : ScopeValid L s s.body.func s.body.depth s.scopes
  queue : ∀ b ∈ s.queue, ∃ home f, Waiting L s b home f
  queue_nodup : (s.queue.map (·.func)).Nodup
  /-- Only functions whose words have begun have variables. -/
  idle : ∀ (id : Nat) (f : FuncInfo), s.asm.funcs[id]? = some f → f.stop = none →
    s.body.func = some id ∨ f.vars = #[]
  /-- Functions that have all their words are coded. -/
  coded : ∀ (id : Nat) (f : FuncInfo), s.asm.funcs[id]? = some f → f.stop.isSome →
    ∀ o g, Completes L s o → o.program.funcs[id]? = some g → FuncCode o id g

/-- All that holds between two steps of the compiler within a body. -/
structure InOrder (L : Layout) (home : Home) (s : CompileState) : Prop where
  tidy : s.Tidy
  declared : Declared L home s
  /-- Literals that wait do not see what the body is yet to declare. -/
  covers : ∀ b ∈ s.queue, b.horizons ≠ [] → s.names.Covers b.path b.horizons

/-! ## Growth keeps what is declared -/

variable {L : Layout} {s s' : CompileState} {home : Home}

theorem FuncsGrow.size_le {xs ys : Array FuncInfo} (h : FuncsGrow xs ys) : xs.size ≤ ys.size := by
  by_cases hs : xs.size = 0
  · omega
  · obtain ⟨g, hg, -⟩ := h _ _ (Array.getElem?_eq_getElem (Nat.sub_one_lt hs))
    have := Extends.lt_of_getElem? hg
    omega

theorem Grows.knows (h : Grows s s') {depth : Nat} {x : Symbol} (hx : s.Knows depth x) :
    s'.Knows depth x := by
  cases x with
  | var id =>
    obtain ⟨v, a, hv, hslot⟩ := hx
    exact ⟨v, a, h.vars _ _ hv, hslot⟩
  | param func index ty =>
    obtain ⟨f, hf, hentry⟩ := hx
    obtain ⟨g, hg, hbecomes⟩ := h.funcs _ _ hf
    exact ⟨g, hg, by rw [(hbecomes.begun hentry).1]; exact hentry⟩
  | package path => trivial
  | func id => exact Nat.lt_of_lt_of_le hx h.funcs.size_le

theorem ScopeValid.grow {owner : Option Nat} {depth : Nat} {scopes : Scopes}
    (h : ScopeValid L s owner depth scopes) (hs : Grows s s') : ScopeValid L s' owner depth scopes where
  known hx := hs.knows (h.known hx)
  valid hx o ho := h.valid hx o (ho.mono hs)
  apart := h.apart

theorem Waiting.grow {b : WaitingBody} {f : FuncInfo} (h : Waiting L s b home f)
    (hs : Grows s s') (hinfo : s'.asm.funcs[b.func]? = some f)
    (hsize : s.names.blocks.size ≤ s'.names.blocks.size)
    (hseen : b.horizons ≠ [] →
      s'.names.seenFrom b.path b.horizons = s.names.seenFrom b.path b.horizons) :
    Waiting L s' b home f :=
  { h with
    owner := hs.owner? h.owner
    info := hinfo
    nest := fun o ho => h.nest o (ho.mono hs)
    stmts := fun o ho => h.stmts o (ho.mono hs)
    path := h.path.mono hsize
    scopes := fun hne => by
      rw [hseen hne]
      exact (h.scopes hne).grow hs }

theorem Running.grow {id : Nat} {f : FuncInfo} {sig : Signature} (h : Running L s id f sig)
    (hs : Grows s s') (hbody : s'.body = s.body) (hinfo : s'.asm.funcs[id]? = some f) :
    Running L s' id f sig :=
  { h with
    info := hinfo
    depth := hbody ▸ h.depth
    numParams := hbody ▸ h.numParams
    results := hbody ▸ h.results
    nest := fun o ho => h.nest o (ho.mono hs) }

theorem CompileState.SameDecls.owner? (h : SameDecls s s') (home : Home) : s'.owner? home = s.owner? home := by
  cases home <;> simp only [CompileState.owner?, h.literals]

/-- Steps that add code keep all that is declared. -/
theorem Declared.same (h : Declared L home s) (hs : Grows s s') (hsame : SameDecls s s') :
    Declared L home s' where
  decls := hsame.funcs ▸ h.decls
  owner := by rw [hsame.owner?, hsame.body]; exact h.owner
  signed := hsame.funcs ▸ h.signed
  literals := by
    rw [hsame.literals, hsame.funcs]
    simpa only [hsame.owner?] using h.literals
  labels := by rw [hsame.literals, hsame.funcs]; exact h.labels
  depth := by
    rw [hsame.body]
    exact fun o ho => h.depth o (ho.mono hs)
  main := by rw [hsame.body]; exact h.main
  running := by
    rw [hsame.body]
    intro id hid
    obtain ⟨f, sig, hr⟩ := h.running id hid
    exact ⟨f, sig, hr.grow hs hsame.body (by rw [hsame.funcs]; exact hr.info)⟩
  opened := by rw [hsame.opened, hsame.body]; exact h.opened
  names := hsame.names ▸ h.names
  scopes := by
    rw [CompileState.scopes, hsame.names, hsame.body]
    exact h.scopes.grow hs
  queue := by
    rw [hsame.queue]
    intro b hb
    obtain ⟨hb', f, hw⟩ := h.queue b hb
    exact ⟨hb', f, hw.grow hs (by rw [hsame.funcs]; exact hw.info)
      (Nat.le_of_eq (by rw [hsame.names])) fun _ => by rw [hsame.names]⟩
  queue_nodup := by rw [hsame.queue]; exact h.queue_nodup
  idle := by rw [hsame.funcs, hsame.body]; exact h.idle
  coded := by
    rw [hsame.funcs]
    exact fun id f hf hstop o g ho hg => h.coded id f hf hstop o g (ho.mono hs) hg

theorem InOrder.step {R : Output → List Instr → Prop} (h : InOrder L home s) (hs : Step L s s' R) :
    InOrder L home s' :=
  ⟨hs.tidy, h.declared.same hs.grows hs.same, by
    rw [hs.same.queue, hs.same.names]
    exact h.covers⟩

end StackScript
