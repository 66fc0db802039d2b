import StackScript.Proofs.Ensures
import StackScript.Proofs.Lists
import StackScript.Proofs.Translation.Code

/-!
# How the state of the compiler grows

Compiling only adds to an assembly, apart from filling reserved slots. `Grows` says so, and
`Completes` says that a finished program agrees with what was assembled so far; what completes a
later state completes an earlier one (`Completes.mono`). A claim about emitted code is stated for
every program that completes the state (`Emitted`), so that it never has to be carried along.
-/

namespace StackScript

/-! ## Layouts -/

/-- Where a place of a file lies: in the main body, in the body of a declaration, or in that of a
literal. -/
inductive Home
  | main
  | decl (index : Nat)
  | literal (label : Nat)

/-- What is known of a file before it is compiled: how many functions it declares, how many labels
its literals have and where they lie, and the statements of each body. -/
structure Layout where
  env : CompileEnv
  decls : Nat
  labels : Nat
  homes : Nat → Home
  bodies : Home → List Stmt

/-- The literal with a label lies at a home and has the given body. -/
structure Layout.Has (L : Layout) (label : Nat) (home : Home) (body : List Stmt) : Prop where
  lt : label < L.labels
  home : L.homes label = home
  body : L.bodies (.literal label) = body

namespace CompileState

/-- The function of a home, once it has one; the main body has no number. -/
def owner? (s : CompileState) : Home → Option (Option Nat)
  | .main => some none
  | .decl i => some (some i)
  | .literal label => (s.literals.lookup label).map some

end CompileState

/-! ## Slots -/

/-- The slot that an entry keeps. -/
def Inferred.slot? : Inferred → Option Nat
  | .const _ (.reserved offset) => some offset
  | _ => none

/-- A slot has been filled with a constant. -/
structure Assembly.Filled (a : Assembly) (offset : Nat) (c : Constant) : Prop where
  free : offset ∉ a.reserved
  noRef : ∀ id, (offset, id) ∉ a.refs
  word : ∃ w i v, a.code[offset]? = some w ∧ w.decode? = some i ∧ i.pushed? a.consts = some v ∧
    c.Yields v

/-- A slot waits for a constant or has been filled with it. -/
def CompileState.Slot (s : CompileState) (offset : Nat) (c : Constant) : Prop :=
  .const c (.reserved offset) ∈ s.shadow ∨ s.asm.Filled offset c

/-! ## Growth -/

/-- What later steps keep of the descriptor of a function. -/
structure FuncInfo.Becomes (f g : FuncInfo) : Prop where
  name : g.name = f.name
  depth : g.depth = f.depth
  sig : g.sig = f.sig
  variadicity : g.variadicity = f.variadicity
  vars : Extends f.vars g.vars
  begun : f.entry.isSome → g.entry = f.entry ∧ g.params = f.params ∧ g.numOut = f.numOut
  ended : f.stop.isSome → g.stop = f.stop ∧ g.vars = f.vars

namespace FuncInfo.Becomes

variable {f g h : FuncInfo}

theorem refl (f : FuncInfo) : f.Becomes f :=
  ⟨rfl, rfl, rfl, rfl, .refl _, fun _ => ⟨rfl, rfl, rfl⟩, fun _ => ⟨rfl, rfl⟩⟩

theorem trans (hf : f.Becomes g) (hg : g.Becomes h) : f.Becomes h where
  name := hg.name.trans hf.name
  depth := hg.depth.trans hf.depth
  sig := hg.sig.trans hf.sig
  variadicity := hg.variadicity.trans hf.variadicity
  vars := hf.vars.trans hg.vars
  begun hsome := by
    obtain ⟨he, hp, hn⟩ := hf.begun hsome
    obtain ⟨he', hp', hn'⟩ := hg.begun (he ▸ hsome)
    exact ⟨he'.trans he, hp'.trans hp, hn'.trans hn⟩
  ended hsome := by
    obtain ⟨hs, hv⟩ := hf.ended hsome
    obtain ⟨hs', hv'⟩ := hg.ended (hs ▸ hsome)
    exact ⟨hs'.trans hs, hv'.trans hv⟩

end FuncInfo.Becomes

/-- The second array has the descriptors of the first, or what became of them. -/
def FuncsGrow (xs ys : Array FuncInfo) : Prop :=
  ∀ (id : Nat) (f : FuncInfo), xs[id]? = some f → ∃ g : FuncInfo, ys[id]? = some g ∧ f.Becomes g

theorem FuncsGrow.refl (xs : Array FuncInfo) : FuncsGrow xs xs := fun _ f h => ⟨f, h, .refl f⟩

theorem FuncsGrow.trans {xs ys zs : Array FuncInfo} (h : FuncsGrow xs ys) (h' : FuncsGrow ys zs) :
    FuncsGrow xs zs := by
  intro id f hf
  obtain ⟨g, hg, hfg⟩ := h id f hf
  obtain ⟨k, hk, hgk⟩ := h' id g hg
  exact ⟨k, hk, hfg.trans hgk⟩

theorem FuncsGrow.of_extends {xs ys : Array FuncInfo} (h : Extends xs ys) : FuncsGrow xs ys :=
  fun id f hf => ⟨f, h id f hf, .refl f⟩

/-- What the steps of the compiler keep. -/
structure Grows (s s' : CompileState) : Prop where
  size : s.asm.code.size ≤ s'.asm.code.size
  code : ∀ offset w, s.asm.code[offset]? = some w → offset ∉ s.asm.reserved →
    s'.asm.code[offset]? = some w
  refCode : ∀ offset id w, (offset, id) ∈ s.asm.refs → s.asm.code[offset]? = some w →
    s'.asm.code[offset]? = some w
  reserved : ∀ offset ∈ s'.asm.reserved, offset < s.asm.code.size → offset ∈ s.asm.reserved
  refs : ∀ r ∈ s.asm.refs, r ∈ s'.asm.refs
  oldRefs : ∀ r ∈ s'.asm.refs, r.1 < s.asm.code.size → r ∈ s.asm.refs
  consts : Extends s.asm.consts s'.asm.consts
  funcs : FuncsGrow s.asm.funcs s'.asm.funcs
  vars : Extends s.asm.vars s'.asm.vars
  mainVars : Extends s.asm.mainVars s'.asm.mainVars
  literals : ∀ label id, s.literals.lookup label = some id → s'.literals.lookup label = some id
  slots : ∀ offset c, s.Slot offset c → s'.Slot offset c

namespace Grows

variable {s s' s'' : CompileState}

theorem refl (s : CompileState) : Grows s s where
  size := Nat.le_refl _
  code _ _ h _ := h
  refCode _ _ _ _ h := h
  reserved _ h _ := h
  refs _ h := h
  oldRefs _ h _ := h
  consts := .refl _
  funcs := .refl _
  vars := .refl _
  mainVars := .refl _
  literals _ _ h := h
  slots _ _ h := h

theorem trans (h : Grows s s') (h' : Grows s' s'') : Grows s s'' where
  size := Nat.le_trans h.size h'.size
  code _ _ hw hr :=
    h'.code _ _ (h.code _ _ hw hr) fun hr' => hr (h.reserved _ hr' (Extends.lt_of_getElem? hw))
  refCode _ _ _ hr hw := h'.refCode _ _ _ (h.refs _ hr) (h.refCode _ _ _ hr hw)
  reserved _ hr hlt :=
    h.reserved _ (h'.reserved _ hr (Nat.lt_of_lt_of_le hlt h.size)) hlt
  refs _ hr := h'.refs _ (h.refs _ hr)
  oldRefs _ hr hlt := h.oldRefs _ (h'.oldRefs _ hr (Nat.lt_of_lt_of_le hlt h.size)) hlt
  consts := h.consts.trans h'.consts
  funcs := h.funcs.trans h'.funcs
  vars := h.vars.trans h'.vars
  mainVars := h.mainVars.trans h'.mainVars
  literals _ _ hl := h'.literals _ _ (h.literals _ _ hl)
  slots _ _ hs := h'.slots _ _ (h.slots _ _ hs)

theorem owner? (h : Grows s s') {home : Home} {q : Option Nat} (hq : s.owner? home = some q) :
    s'.owner? home = some q := by
  cases home with
  | main => exact hq
  | decl i => exact hq
  | literal label =>
    simp only [CompileState.owner?, Option.map_eq_some_iff] at hq ⊢
    obtain ⟨id, hid, rfl⟩ := hq
    exact ⟨id, h.literals _ _ hid, rfl⟩

end Grows

/-! ## Finished programs -/

/-- Functions and frames are few enough for their numbers to fit into a word. -/
structure Program.Small (p : Program) : Prop where
  /-- Places of functions stay below the flag of a variadic closure. -/
  funcs : p.funcs.size ≤ Word.closureRange
  mainVars : p.mainVars.size ≤ 1 <<< 32
  vars : ∀ (id : Nat) (f : FuncInfo), p.funcs[id]? = some f → f.vars.size ≤ 1 <<< 32

/-- A finished program agrees with what was assembled so far. -/
structure Completes (L : Layout) (s : CompileState) (o : Output) : Prop where
  registry : o.registry = L.env.registry
  folds : o.folds = L.env.folds
  code : ∀ offset w, s.asm.code[offset]? = some w → offset ∉ s.asm.reserved →
    (∀ id, (offset, id) ∉ s.asm.refs) → o.program.code[offset]? = some w
  refs : ∀ offset id w, (offset, id) ∈ s.asm.refs → s.asm.code[offset]? = some w →
    ∃ f place w', o.program.funcs[id]? = some f ∧
      (o.program.table f.isVariadic)[place]? = some id ∧ place < o.program.funcs.size ∧
      Assembly.pointTo f place w = .ok w' ∧ o.program.code[offset]? = some w'
  consts : Extends s.asm.consts o.program.consts
  funcs : FuncsGrow s.asm.funcs o.program.funcs
  vars : Extends s.asm.vars o.program.vars
  mainVars : Extends s.asm.mainVars o.program.mainVars
  slots : ∀ offset c, .const c (.reserved offset) ∈ s.shadow →
    ∃ i v, o.program.instr? offset = some i ∧ i.pushed? o.program.consts = some v ∧ c.Yields v
  literals : ∀ label id, s.literals.lookup label = some id → o.literal label = some id
  nest : ∀ label id q, s.literals.lookup label = some id → s.owner? (L.homes label) = some q →
    o.nest id = id :: o.chain q
  declNest : ∀ id, id < L.decls → o.nest id = [id]
  declared : ∀ label id, o.literal label = some id → L.decls ≤ id
  bodies : ∀ label id, s.literals.lookup label = some id → o.stmts id = L.bodies (.literal label)
  declBodies : ∀ id, id < L.decls → o.stmts id = L.bodies (.decl id)
  small : o.program.Small

theorem Instr.pushed?_of_extends {xs ys : Array Value} (h : Extends xs ys) {i : Instr} {v : Value}
    (hv : i.pushed? xs = some v) : i.pushed? ys = some v := by
  cases i <;> try cases hv
  · rename_i k n
    cases k <;> exact hv
  · exact h _ _ hv

/-- What completes a later state completes an earlier one. -/
theorem Completes.mono {L : Layout} {s s' : CompileState} {o : Output} (h : Completes L s' o)
    (hs : Grows s s') : Completes L s o where
  registry := h.registry
  folds := h.folds
  code offset w hw hr hrefs := by
    have hlt := Extends.lt_of_getElem? hw
    exact h.code _ _ (hs.code _ _ hw hr) (fun hr' => hr (hs.reserved _ hr' hlt))
      fun id hid => hrefs id (hs.oldRefs _ hid hlt)
  refs offset id w hr hw := h.refs _ _ _ (hs.refs _ hr) (hs.refCode _ _ _ hr hw)
  consts := hs.consts.trans h.consts
  funcs := hs.funcs.trans h.funcs
  vars := hs.vars.trans h.vars
  mainVars := hs.mainVars.trans h.mainVars
  slots offset c hc := by
    obtain hc | hc := hs.slots _ _ (.inl hc)
    · exact h.slots _ _ hc
    · obtain ⟨w, i, v, hw, hi, hv, hyields⟩ := hc.word
      refine ⟨i, v, ?_, Instr.pushed?_of_extends h.consts hv, hyields⟩
      rw [Program.instr?, h.code _ _ hw hc.free hc.noRef]
      exact hi
  literals label id hl := h.literals _ _ (hs.literals _ _ hl)
  nest label id q hl hq := h.nest _ _ _ (hs.literals _ _ hl) (hs.owner? hq)
  declNest := h.declNest
  declared := h.declared
  bodies label id hl := h.bodies _ _ (hs.literals _ _ hl)
  declBodies := h.declBodies
  small := h.small

/-! ## Emitted code -/

theorem Program.reads_append {p : Program} {is js : List Instr} {n : Nat} :
    p.Reads n (is ++ js) ↔ p.Reads n is ∧ p.Reads (n + is.length) js := by
  induction is generalizing n with
  | nil => simp [Program.Reads]
  | cons i is ih =>
    simp only [List.cons_append, Program.Reads, ih, List.length_cons, and_assoc]
    rw [Nat.add_assoc, Nat.add_comm 1]

/-- The code has room for what is read from it. -/
theorem Program.Reads.length_le {p : Program} {n : Nat} {is : List Instr} (h : p.Reads n is) :
    is.length ≤ p.code.size := by
  have hbound : ∀ (is : List Instr) (n : Nat), p.Reads n is → is = [] ∨
      n + is.length ≤ p.code.size := by
    intro is
    induction is with
    | nil => exact fun _ _ => .inl rfl
    | cons i is ih =>
      intro n h
      obtain ⟨w, hw, -⟩ := Option.bind_eq_some_iff.1 h.1
      have hlt := Extends.lt_of_getElem? hw
      obtain rfl | hle := ih (n + 1) h.2
      · exact .inr hlt
      · exact .inr (by rw [List.length_cons]; omega)
  obtain rfl | hle := hbound is n h
  · exact Nat.zero_le _
  · omega

/-- In every program that completes the second state, the words that were added to the first are
instructions as described. -/
def Emitted (L : Layout) (s s' : CompileState) (R : Output → List Instr → Prop) : Prop :=
  ∀ o, Completes L s' o → ∃ is, s'.asm.code.size = s.asm.code.size + is.length ∧
    o.program.Reads s.asm.code.size is ∧ R o is

namespace Emitted

variable {L : Layout} {s s' s'' : CompileState} {R R' : Output → List Instr → Prop}

theorem mono (h : Emitted L s s' R) (hR : ∀ o is, Completes L s' o → R o is → R' o is) :
    Emitted L s s' R' := by
  intro o ho
  obtain ⟨is, hsize, hreads, hr⟩ := h o ho
  exact ⟨is, hsize, hreads, hR o is ho hr⟩

/-- No words were added. -/
theorem nil (h : s'.asm.code.size = s.asm.code.size) : Emitted L s s' fun _ is => is = [] :=
  fun _ _ => ⟨[], h, trivial, rfl⟩

/-- Code that was added in two steps. -/
theorem seq (h : Emitted L s s' R) (h' : Emitted L s' s'' R') (hs : Grows s' s'') :
    Emitted L s s'' fun o is => ∃ is₁ is₂, is = is₁ ++ is₂ ∧ R o is₁ ∧ R' o is₂ := by
  intro o ho
  obtain ⟨is₁, hsize, hreads, hr⟩ := h o (ho.mono hs)
  obtain ⟨is₂, hsize', hreads', hr'⟩ := h' o ho
  refine ⟨is₁ ++ is₂, ?_, Program.reads_append.2 ⟨hreads, ?_⟩, is₁, is₂, rfl, hr, hr'⟩
  · rw [hsize', hsize, List.length_append, Nat.add_assoc]
  · rwa [← hsize]

end Emitted

end StackScript
