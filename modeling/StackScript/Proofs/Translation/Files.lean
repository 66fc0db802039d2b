import Mathlib.Data.List.Perm.Subperm
import StackScript.Proofs.Scoping.MainBody
import StackScript.Proofs.Translation.Labelling
import StackScript.Proofs.Translation.Queue
import StackScript.Proofs.Translation.Resolving

/-!
# Files

A file that compiles gives a program that is its translation (`File.code_of_compile`). One that does
not is refused for a reason of its own: the ways of `Compile.Stops`, or a function that is called and
never defined (`File.stops_of_compile`).
-/

namespace StackScript

open CompileState

variable {L : Layout} {s s' : CompileState} {f : File}

/-! ## Declarations -/

/-- Some imports and the first `n` functions of a file are declared, under the given names. -/
structure Declaring (L : Layout) (names : List (String × Symbol)) (n : Nat) (s : CompileState) :
    Prop where
  asm : s.asm = { Assembly.empty with funcs := s.asm.funcs }
  size : s.asm.funcs.size = n
  shadow : s.shadow = []
  body : s.body = .main
  literals : s.literals = []
  funcs : ∀ (id : Nat) (g : FuncInfo), s.asm.funcs[id]? = some g → ∃ name sig,
    g = .declared name 1 sig ∧ sig.Resolved L.env.registry
  sound : s.names.Sound
  path : s.names.path = [0]
  floor : s.names.floor = 0
  scopes : s.scopes = [names]
  symbols : ∀ p ∈ names, (∃ path, p.2 = .package path) ∨
    ∃ (id : Nat) (g : FuncInfo), p.2 = .func id ∧ s.asm.funcs[id]? = some g ∧ g.name = p.1
  queue : ∀ b ∈ s.queue, ∃ g : FuncInfo, s.asm.funcs[b.func]? = some g ∧ g.sig = some b.sig ∧
    b.path = [0] ∧ b.horizons = [] ∧ b.ty.params.length = b.sig.params.length ∧
    b.ty.results.length = b.sig.results.length ∧ stmtsPlaced L (.decl b.func) b.stmts ∧
    L.bodies (.decl b.func) = b.stmts
  queue_nodup : (s.queue.map (·.func)).Nodup

namespace Declaring

variable {names : List (String × Symbol)} {n : Nat}

theorem initial : Declaring L [] 0 .initial where
  asm := rfl
  size := rfl
  shadow := rfl
  body := rfl
  literals := rfl
  funcs id g hg := by cases hg
  sound := NameTable.sound_initial
  path := rfl
  floor := rfl
  scopes := rfl
  symbols p hp := by cases hp
  queue b hb := by cases hb
  queue_nodup := .nil

/-- Another name is declared. -/
theorem declare {name : String} {x : Symbol} (h : Declaring L names n s)
    (hfresh : s.names.declares name = false)
    (hx : (∃ path, x = .package path) ∨
      ∃ (id : Nat) (g : FuncInfo), x = .func id ∧ s.asm.funcs[id]? = some g ∧ g.name = name) :
    Declaring L ((name, x) :: names) n (s.declaring name x) :=
  { h with
    sound := NameTable.sound_declare h.sound hfresh
    path := NameTable.path_declare.trans h.path
    floor := NameTable.floor_declare.trans h.floor
    scopes := by
      rw [scopes_declaring h.sound, h.scopes]
      rfl
    symbols := fun p hp => by
      obtain rfl | hp := List.mem_cons.1 hp
      · exact hx
      · exact h.symbols p hp }

/-- Another function is declared. -/
theorem withFunc (name : String) {sig : Signature} (h : Declaring L names n s)
    (hresolved : sig.Resolved L.env.registry) :
    Declaring L names (n + 1) (s.withFunc (.declared name 1 sig)) :=
  { h with
    asm := by rw [CompileState.withFunc, h.asm]
    size := by
      show (s.asm.funcs.push _).size = n + 1
      rw [Array.size_push, h.size]
    funcs := fun id g hg => by
      change (s.asm.funcs.push _)[id]? = some g at hg
      rw [Array.getElem?_push] at hg
      split at hg
      · cases hg
        exact ⟨name, sig, rfl, hresolved⟩
      · exact h.funcs id g hg
    symbols := fun p hp => (h.symbols p hp).imp_right
      fun ⟨id, g, hid, hg, hname⟩ => ⟨id, g, hid, Extends.push _ _ _ _ hg, hname⟩
    queue := fun b hb => by
      obtain ⟨g, hg, hrest⟩ := h.queue b hb
      exact ⟨g, Extends.push _ _ _ _ hg, hrest⟩ }

/-- The body of the function declared last waits. -/
theorem enqueue {b : WaitingBody} {g : FuncInfo} (h : Declaring L names (n + 1) s)
    (hfunc : b.func = n) (hnew : ∀ b' ∈ s.queue, b'.func < n)
    (hinfo : s.asm.funcs[n]? = some g) (hsig : g.sig = some b.sig) (hpath : b.path = [0])
    (hhorizons : b.horizons = [])
    (hparams : b.ty.params.length = b.sig.params.length)
    (hresults : b.ty.results.length = b.sig.results.length)
    (hplaced : stmtsPlaced L (.decl n) b.stmts) (hbody : L.bodies (.decl n) = b.stmts) :
    Declaring L names (n + 1) { s with queue := s.queue ++ [b] } :=
  { h with
    queue := fun b' hb' => by
      obtain hb' | hb' := List.mem_append.1 hb'
      · exact h.queue b' hb'
      · cases List.mem_singleton.1 hb'
        subst hfunc
        exact ⟨g, hinfo, hsig, hpath, hhorizons, hparams, hresults, hplaced, hbody⟩
    queue_nodup := by
      show ((s.queue ++ [b]).map _).Nodup
      rw [List.map_append, List.nodup_append]
      refine ⟨h.queue_nodup, by simp, fun id hid id' hid' => ?_⟩
      obtain ⟨b', hb', rfl⟩ := List.mem_map.1 hid
      have := hnew b' hb'
      simp only [List.map_cons, List.map_nil, List.mem_singleton] at hid'
      omega }

theorem queue_lt (h : Declaring L names n s) : ∀ b ∈ s.queue, b.func < n := fun b hb => by
  obtain ⟨g, hg, -⟩ := h.queue b hb
  exact h.size ▸ Extends.lt_of_getElem? hg

/-- What a name stands for when only imports and functions are declared. -/
theorem symbol_of_find? (h : Declaring L names n s) {name : String} {x : Symbol}
    (hx : s.scopes.find? name = some x) : (∃ path, x = .package path) ∨
      ∃ (id : Nat) (g : FuncInfo), x = .func id ∧ s.asm.funcs[id]? = some g ∧ g.name = name := by
  rw [h.scopes, Scopes.find?_single] at hx
  exact h.symbols _ (lookup_mem hx)

theorem scopeValid (h : Declaring L names L.decls s) {owner : Option Nat} {depth : Nat} :
    ScopeValid L s owner depth s.scopes where
  known hx := by
    obtain ⟨path, rfl⟩ | ⟨id, g, rfl, hinfo, rfl⟩ := h.symbol_of_find? hx
    · trivial
    · exact Extends.lt_of_getElem? hinfo
  valid hx o ho := by
    obtain ⟨path, rfl⟩ | ⟨id, g, rfl, hinfo, rfl⟩ := h.symbol_of_find? hx
    · trivial
    · have hlt := Extends.lt_of_getElem? hinfo
      rw [h.size] at hlt
      obtain ⟨_, sig, rfl, -⟩ := h.funcs id g hinfo
      obtain ⟨g, hg, hbecomes⟩ := ho.funcs id _ hinfo
      exact ⟨ho.declNest id hlt, ⟨sig, by rw [Program.sig?, hg, Option.bind_some, hbecomes.sig]; rfl⟩,
        by rw [Program.name?, hg, Option.map_some, hbecomes.name],
        fun label hl => absurd hlt (Nat.not_lt.2 (ho.declared label id hl))⟩
  apart name name' x hx _ hslot := by
    obtain ⟨path, rfl⟩ | ⟨id, g, rfl, -⟩ := h.symbol_of_find? hx
    · exact hslot.elim
    · exact hslot.elim

/-- When all functions are declared, everything is in order for the main body. -/
theorem order (h : Declaring L names L.decls s) : InOrder L .main s := by
  have hfunc : s.body.func = none := by rw [h.body]; rfl
  refine ⟨?_, ?_, fun b hb hne => ?_⟩
  · refine ⟨?_, ?_, ?_, ?_, ?_, ?_, ?_, ?_⟩ <;> (try rw [h.asm]) <;>
      simp [Assembly.empty, h.shadow, AllScalar]
  rotate_left
  · obtain ⟨_, _, _, _, hnil, _⟩ := h.queue b hb
    exact absurd hnil hne
  · exact
      { decls := Nat.le_of_eq h.size.symm
        owner := by rw [hfunc]; rfl
        signed := fun id g hg => by
          obtain ⟨name, sig, rfl, hresolved⟩ := h.funcs id g hg
          exact ⟨sig, ⟨rfl, rfl, hresolved.last⟩, hresolved⟩
        literals := fun label id hid => by
          rw [h.literals] at hid
          cases hid
        labels := by
          rw [h.literals, h.size]
          exact ⟨rfl, fun p hp => (nomatch hp), .nil, .nil⟩
        depth := fun o ho => by rw [h.body]; rfl
        main := fun _ => h.body
        running := fun id hid => by
          rw [hfunc] at hid
          cases hid
        opened := by rw [h.asm, hfunc]; rfl
        names := h.sound
        scopes := h.scopeValid
        queue := fun b hb => by
          have hlt := h.queue_lt b hb
          obtain ⟨g, hg, hsig, hpath, hnil, hparams, hresults, hplaced, hbody⟩ := h.queue b hb
          obtain ⟨name, sig, rfl, -⟩ := h.funcs _ g hg
          exact ⟨.decl b.func, _,
            { owner := rfl
              info := hg
              entry := rfl
              stop := rfl
              vars := rfl
              declares := hsig
              params := hparams
              results := hresults
              placed := hplaced
              nest := fun o ho => ⟨by rw [ho.declNest _ hlt]; rfl, [], ho.declNest _ hlt⟩
              stmts := fun o ho => (ho.declBodies _ hlt).trans hbody
              path := by
                rw [hpath, ← h.path]
                exact h.sound.path
              outermost := fun _ => ⟨hpath, hlt⟩
              scopes := fun hne => absurd hnil hne }⟩
        queue_nodup := h.queue_nodup
        idle := fun id g hg _ => by
          obtain ⟨name, sig, rfl, -⟩ := h.funcs id g hg
          exact .inr rfl
        coded := fun id g hg hstop => by
          obtain ⟨name, sig, rfl, -⟩ := h.funcs id g hg
          cases hstop }

/-- When all functions are declared, the main body has declared nothing. -/
theorem declares (h : Declaring L names n s) : s.Declares [] where
  main := by rw [h.body]; rfl
  sound := h.sound
  floor := h.floor
  mains := by rw [h.asm]; exact .empty
  declared name hname := by cases hname

end Declaring

/-- There are no more functions than declarations and literals. -/
theorem Labelled.size_le {literals : List (Nat × Nat)} {n : Nat} (h : Labelled L literals n) :
    n ≤ L.decls + L.labels := by
  have hsubset : literals.map (·.1) ⊆ List.range L.labels := fun label hmem => by
    obtain ⟨q, hq, rfl⟩ := List.mem_map.1 hmem
    exact List.mem_range.2 (h.lt q hq).1
  have hlen := (List.subperm_of_subset h.labels_nodup hsubset).length_le
  rw [List.length_map, List.length_range] at hlen
  rw [h.count]
  omega

namespace Compile

theorem ensures_declareImports (is : List Import) {names : List (String × Symbol)}
    (h : Declaring L names 0 s) :
    Ensures L.env (is.forM declareImport) s fun _ s' =>
      Declaring L ((is.map fun i => (i.localName, .package i.path)).reverse ++ names) 0 s' := by
  induction is generalizing s names with
  | nil => simpa using h
  | cons i is ih =>
    show Ensures L.env (declareImport i >>= fun _ => is.forM declareImport) s _
    refine Ensures.bind (Q := fun _ s₁ => Declaring L ((i.localName, .package i.path) :: names) 0 s₁)
      ?_ fun _ s₁ h₁ => by simpa using ih h₁
    unfold declareImport
    refine ensures_bind.2 ?_
    simp only [ensures_read]
    split
    · trivial
    · exact ensures_bind.2 (ensures_declare fun hfresh => h.declare hfresh (.inl ⟨i.path, rfl⟩))

/-- The functions with a body among declarations that are numbered from `n` on. -/
def definedFrom (n : Nat) (ds : List FuncDecl) : List Nat :=
  ((ds.zipIdx n).filter (·.1.body.isSome)).map (·.2)

theorem definedFrom_cons (n : Nat) (d : FuncDecl) (ds : List FuncDecl) :
    definedFrom n (d :: ds) = definedFrom n [d] ++ definedFrom (n + 1) ds := by
  simp only [definedFrom, List.zipIdx_cons, List.zipIdx_nil, List.filter_cons, List.filter_nil]
  split <;> rfl

theorem ensures_declareFunc {d : FuncDecl} {names : List (String × Symbol)} {n : Nat}
    (h : Declaring L names n s)
    (hplaced : ∀ body, d.body = some body → stmtsPlaced L (.decl n) body ∧ L.bodies (.decl n) = body) :
    Ensures L.env (declareFunc d) s fun _ s' =>
      Declaring L ((d.name, .func n) :: names) (n + 1) s' ∧
        s'.queue.map (·.func) = s.queue.map (·.func) ++ definedFrom n [d] := by
  unfold declareFunc
  cases d.recv with
  | some recv =>
    refine ensures_bind.2 ?_
    simp only [ensures_read]
    refine ensures_bind.2 ?_
    simp only [ensures_get]
    obtain ⟨name, ty⟩ := recv
    refine ensures_bind.2 (ensures_ofExcept.2 ⟨fun t _ => ?_, fun e he => TypeExpr.stops he⟩)
    refine ensures_fail.2 ?_
    unfold refuseMethod
    split <;> trivial
  | none =>
    refine ensures_bind.2 (ensures_resolveSignature fun sig hparams hresults hresolved => ?_)
    refine ensures_bind_ok exec_newFunc ?_
    refine ensures_bind.2 (ensures_declare fun hfresh => ?_)
    have h₁ := (h.withFunc d.name hresolved).declare hfresh
      (.inr ⟨n, _, rfl, h.size ▸ Array.getElem?_push_size, rfl⟩)
    rw [h.size]
    cases hbody : d.body with
    | none =>
      refine ⟨h₁, ?_⟩
      show s.queue.map (·.func) = _
      simp [definedFrom, hbody]
    | some body =>
      obtain ⟨hstmts, hbodies⟩ := hplaced body hbody
      have hinfo : (s.asm.funcs.push (.declared d.name 1 sig))[n]? =
          some (.declared d.name 1 sig) := h.size ▸ Array.getElem?_push_size
      refine ⟨h₁.enqueue rfl h.queue_lt hinfo rfl rfl rfl hparams hresults hstmts hbodies, ?_⟩
      show (s.queue ++ [(_ : WaitingBody)]).map (·.func) = _
      simp [definedFrom, hbody]

theorem ensures_declareFuncs (ds : List FuncDecl) {names : List (String × Symbol)} {n : Nat}
    (h : Declaring L names n s) (hplaced : declsPlaced L n ds)
    (hbodies : ∀ (i : Nat) (d : FuncDecl) (body : List Stmt), ds[i]? = some d →
      d.body = some body → L.bodies (.decl (n + i)) = body) :
    Ensures L.env (ds.forM declareFunc) s fun _ s' =>
      Declaring L ((ds.mapIdx fun i d => (d.name, .func (n + i))).reverse ++ names)
        (n + ds.length) s' ∧ s'.queue.map (·.func) = s.queue.map (·.func) ++ definedFrom n ds := by
  induction ds generalizing s names n with
  | nil => simpa [definedFrom] using h
  | cons d ds ih =>
    show Ensures L.env (declareFunc d >>= fun _ => ds.forM declareFunc) s _
    refine (ensures_declareFunc h fun body hbody =>
      ⟨hplaced.1 body hbody, hbodies 0 d body rfl hbody⟩).bind fun _ s₁ ⟨h₁, hqueue₁⟩ => ?_
    have hds := ih h₁ hplaced.2 fun i d' body hd hbody => by
      rw [Nat.add_assoc, Nat.add_comm 1]
      exact hbodies (i + 1) d' body hd hbody
    refine hds.imp fun _ s₂ ⟨h₂, hqueue₂⟩ => ⟨?_, ?_⟩
    · simpa [Nat.add_assoc, Nat.add_comm 1, List.mapIdx_cons] using h₂
    · rw [hqueue₂, hqueue₁, List.append_assoc, ← definedFrom_cons]

/-! ## The file -/

/-- What compiling a file comes to: a state in order, and the main body in front of the code. -/
structure Compiles (L : Layout) (f : File) (mainEnd : Nat) (s' : CompileState) : Prop where
  between : Between L s'
  shadow : s'.shadow = []
  main : ∀ o, Completes L s' o → ∃ (S' : Site) (is : List Instr), mainEnd = is.length ∧
    o.program.Reads 0 is ∧
    StmtsCode ⟨o, .main, [f.funcNames ++ f.importNames], 0⟩ f.stmts is S' ∧
    s'.asm.mainVars.toList = List.range S'.next
  mains : Mains s'.asm.vars s'.asm.mainVars (definedIn f.stmts)
  names : ∀ (id : Nat) (d : FuncDecl), f.funcs[id]? = some d →
    ∃ g : FuncInfo, s'.asm.funcs[id]? = some g ∧ g.name = d.name
  queue : s'.queue = []
  /-- Behind the main body lie the functions that have a body, in the order in which they were made. -/
  laid : Laid s'.asm.funcs (definedFrom 0 f.funcs ++
    List.range' L.decls (s'.asm.funcs.size - L.decls)) ⟨mainEnd, s'.asm.mainVars.size⟩ s'.mark
  ended : ∀ (id : Nat) (g : FuncInfo), s'.asm.funcs[id]? = some g → g.stop.isSome →
    id ∈ definedFrom 0 f.funcs ∨ L.decls ≤ id

theorem length_definedFrom_le (n : Nat) (ds : List FuncDecl) :
    (definedFrom n ds).length ≤ ds.length := by
  rw [definedFrom, List.length_map]
  exact Nat.le_trans (List.length_filter_le ..) (Nat.le_of_eq List.length_zipIdx)

section

variable {names : List (String × Symbol)} {n : Nat} {s₁ s₂ s₃ s₄ : CompileState}
  {R : Output → List Instr → Prop}

/-- The variables that there are behind the main body are all its own. -/
theorem mainVars_of_advances (h₂ : Declaring L names n s₂) (hmain : Advances L .main s₂ s₃ R) :
    s₃.asm.mainVars.toList = List.range' 0 s₃.asm.vars.size := by
  have hvars : s₂.asm.vars.size = 0 := by rw [h₂.asm]; rfl
  have hframe : s₂.frame? = some [] := by
    rw [frame?, h₂.body, h₂.asm]
    rfl
  obtain ⟨n, hnext, hframe'⟩ := hmain.frame.frame _ hframe
  rw [frame?, hmain.body, h₂.body, hvars] at hframe'
  rw [hnext, hvars, Nat.zero_add]
  exact Option.some.inj hframe'

/-- The code of the main body stands in front. -/
theorem main_of_advances (h₂ : Declaring L names n s₂)
    (hmain : Advances L .main s₂ s₃ fun o is => StmtsCode (s₂.site o) f.stmts is (s₃.site o))
    {o : Output} (ho : Completes L s₃ o) :
    ∃ (S' : Site) (is : List Instr), s₃.asm.code.size = is.length ∧ o.program.Reads 0 is ∧
      StmtsCode ⟨o, .main, [names], 0⟩ f.stmts is S' ∧ s₃.asm.mainVars.toList = List.range S'.next := by
  have hempty : s₂.asm.code.size = 0 := by rw [h₂.asm]; rfl
  have hvars : s₂.asm.vars.size = 0 := by rw [h₂.asm]; rfl
  obtain ⟨is, hsize, hreads, hcode⟩ := hmain.emitted o ho
  rw [hempty] at hsize hreads
  have hsite : s₂.site o = ⟨o, .main, [names], 0⟩ := by
    rw [CompileState.site, h₂.body, hvars, h₂.scopes]
  rw [hsite] at hcode
  refine ⟨s₃.site o, is, by rw [hsize, Nat.zero_add], hreads, hcode, ?_⟩
  rw [List.range_eq_range']
  exact mainVars_of_advances h₂ hmain

/-- A declared function keeps its name. -/
theorem name_of_declaring (h₂ : Declaring L names n s₂) (hgrows : Grows s₂ s₃) {id : Nat} {name : String}
    (hmem : (name, .func id) ∈ names) :
    ∃ g : FuncInfo, s₃.asm.funcs[id]? = some g ∧ g.name = name := by
  obtain ⟨path, hpath⟩ | ⟨id', g, hid, hg, hname⟩ := h₂.symbols _ hmem
  · cases hpath
  · cases hid
    obtain ⟨g', hg', hbecomes⟩ := hgrows.funcs _ _ hg
    exact ⟨g', hg', hbecomes.name.trans hname⟩

/-- What has waited, and what joined it since, is what was compiled and what waits now. -/
theorem queue_of_processes {names' : List (String × Symbol)} {order : List Nat} {new : List WaitingBody}
    (h₁ : Declaring L names 0 s₁) (h₂ : Declaring L names' L.decls s₂)
    (hqueue₂ : s₂.queue.map (·.func) = s₁.queue.map (·.func) ++ definedFrom 0 f.funcs)
    (hjoined : s₂.Joined s₃ new) (horder : Processes s₃ s₄ order) :
    order ++ s₄.queue.map (·.func) =
      definedFrom 0 f.funcs ++ List.range' L.decls (s₄.asm.funcs.size - L.decls) := by
  have hnone : s₁.queue = [] := List.eq_nil_iff_forall_not_mem.2 fun b hb =>
    absurd (h₁.queue_lt b hb) (Nat.not_lt_zero _)
  have hbodies := horder.queue
  rw [hjoined.queue, List.map_append, hjoined.ids, hqueue₂, hnone, List.map_nil, List.nil_append,
    h₂.size, List.append_assoc] at hbodies
  have hsize₃ : s₃.asm.funcs.size = L.decls + new.length := by rw [hjoined.size, h₂.size]
  have hbehind := range'_append_range' (by omega : L.decls ≤ _) horder.size
  rw [show s₃.asm.funcs.size - L.decls = new.length by omega] at hbehind
  rwa [hbehind] at hbodies

/-- As many bodies are taken from the queue as there may be, so that none is left. -/
theorem queue_eq_nil (hf : f.LaidOut L) {order : List Nat}
    (hbodies : order ++ s₄.queue.map (·.func) =
      definedFrom 0 f.funcs ++ List.range' L.decls (s₄.asm.funcs.size - L.decls))
    (hfuncs : s₄.asm.funcs.size ≤ L.decls + L.labels)
    (hdone : order.length = f.funcs.length + L.labels ∨ s₄.queue = []) : s₄.queue = [] := by
  refine hdone.elim (fun hlen => ?_) fun h => h
  have hcount := congrArg List.length hbodies
  have hdefined := length_definedFrom_le 0 f.funcs
  simp only [List.length_append, List.length_map, List.length_range', hlen] at hcount
  rw [hf.decls] at hcount hfuncs
  exact List.length_eq_zero_iff.1 (by omega)

end

theorem ensures_emitFile (hf : f.LaidOut L) :
    Ensures L.env (emitFile f L.labels) .initial (Compiles L f) := by
  unfold emitFile
  refine (ensures_declareImports f.imports .initial).bind fun _ s₁ h₁ => ?_
  refine (ensures_declareFuncs f.funcs h₁ hf.funcs fun i d body hd hbody => ?_).bind ?_
  · rw [Nat.zero_add]
    exact hf.bodies i d body hd hbody
  rintro _ s₂ ⟨h₂, hqueue₂⟩
  rw [Nat.zero_add, ← hf.decls, List.append_nil] at h₂
  simp only [Nat.zero_add] at h₂
  refine (emitsStmts f.stmts hf.stmts s₂ h₂.order h₂.shadow).and_exec.bind ?_
  rintro _ s₃ ⟨⟨hs₃, hmain⟩, hexec⟩
  obtain ⟨new, hjoined⟩ := joined_emitStmts f.stmts hexec
  obtain ⟨hdeclares, -⟩ := declares_emitStmts f.stmts hexec h₂.declares
  refine ensures_bind.2 ?_
  simp only [ensures_get]
  have hbetween : Between L s₃ := ⟨hmain.order.tidy, hmain.order.declared,
    hmain.names.path.trans h₂.path, hmain.names.floor.trans h₂.floor⟩
  refine (ensures_emitQueue _ hbetween hs₃).bind ?_
  rintro _ s₄ ⟨hqueue, order, horder, hdone⟩
  have hglobals := mainVars_of_advances h₂ hmain
  have hbodies := queue_of_processes h₁ h₂ hqueue₂ hjoined horder
  have hqueue₄ := queue_eq_nil hf hbodies hqueue.between.declared.labels.size_le hdone
  rw [hqueue₄, List.map_nil, List.append_nil] at hbodies
  refine ⟨hqueue.between, hqueue.shadow, fun o ho => ?_, ?_, fun id d hd => ?_, hqueue₄, ?_,
    fun id g hg hstop => ?_⟩
  · rw [hqueue.mainVars]
    exact main_of_advances h₂ hmain (ho.mono hqueue.grows)
  · rw [hqueue.mainVars]
    rw [NameTable.outermost, NameTable.inInner, h₂.path, h₂.floor, List.nil_append] at hdeclares
    exact hdeclares.mains.mono hqueue.grows.vars
  · refine name_of_declaring h₂ (hmain.grows.trans hqueue.grows) (List.mem_append_left _ ?_)
    obtain ⟨hlt, heq⟩ := List.getElem?_eq_some_iff.1 hd
    exact List.mem_reverse.2 (List.mem_mapIdx.2 ⟨id, hlt, by rw [heq]⟩)
  · have hsize : s₃.asm.mainVars.size = s₃.asm.vars.size := by
      rw [← Array.length_toList, hglobals, List.length_range']
    have hmark : s₃.mark = ⟨s₃.asm.code.size, s₄.asm.mainVars.size⟩ := by
      rw [hqueue.mainVars, hsize]
      rfl
    rw [← hbodies, ← hmark]
    exact horder.laid
  · obtain hid | ⟨g', hg', hstop'⟩ := horder.run id g hg hstop
    · rw [hbodies, List.mem_append, List.mem_range'_1] at hid
      exact hid.imp (fun h => h) And.left
    · obtain ⟨g₂, hg₂, hstop₂⟩ := hjoined.run id g' hg' hstop'
      obtain ⟨name, sig, rfl, -⟩ := h₂.funcs id g₂ hg₂
      cases hstop₂

end Compile

/-! ## Finished programs -/

section Finish

variable {p : Program} {mainEnd : Nat}

open Classical in
/-- The function around that of a literal, if it is another function's. -/
noncomputable def parent? (L : Layout) (s : CompileState) (id : Nat) : Option Nat :=
  if h : ∃ label, s.literals.lookup label = some id then
    (s.owner? (L.homes h.choose)).join
  else none

/-- A function and those around it. -/
noncomputable def nestOf (L : Layout) (s : CompileState) (id : Nat) : List Nat :=
  match parent? L s id with
  | some j => if j < id then id :: nestOf L s j else [id]
  | none => [id]
termination_by id

theorem label_unique (h : Between L s) {label label' id : Nat}
    (hl : s.literals.lookup label = some id) (hl' : s.literals.lookup label' = some id) :
    label = label' :=
  congrArg Prod.fst
    (List.inj_on_of_nodup_map h.declared.labels.funcs_nodup (lookup_mem hl) (lookup_mem hl') rfl)

theorem nestOf_literal (h : Between L s) {label id : Nat} {q : Option Nat}
    (hid : s.literals.lookup label = some id) (hq : s.owner? (L.homes label) = some q) :
    nestOf L s id = id :: q.elim [] (nestOf L s) := by
  have hex : ∃ label, s.literals.lookup label = some id := ⟨label, hid⟩
  have hparent : parent? L s id = q := by
    rw [parent?, dif_pos hex, label_unique h hex.choose_spec hid, hq, Option.join_some]
  obtain ⟨-, -, q', hq', hlt⟩ := h.declared.literals label id hid
  cases hq.symm.trans hq'
  rw [nestOf, hparent]
  cases q with
  | none => rfl
  | some j => simp only [if_pos (hlt j rfl), Option.elim_some]

theorem nestOf_decl (h : Between L s) {id : Nat} (hid : id < L.decls) :
    nestOf L s id = [id] := by
  have hnone : ¬∃ label, s.literals.lookup label = some id := by
    rintro ⟨label, hl⟩
    have := (h.declared.literals label id hl).1
    omega
  rw [nestOf, parent?, dif_neg hnone]

open Classical in
/-- The statements of a function. -/
noncomputable def stmtsOf (L : Layout) (s : CompileState) (id : Nat) : List Stmt :=
  if h : ∃ label, s.literals.lookup label = some id then L.bodies (.literal h.choose)
  else L.bodies (.decl id)

theorem stmtsOf_literal (h : Between L s) {label id : Nat}
    (hid : s.literals.lookup label = some id) : stmtsOf L s id = L.bodies (.literal label) := by
  have hex : ∃ label, s.literals.lookup label = some id := ⟨label, hid⟩
  rw [stmtsOf, dif_pos hex, label_unique h hex.choose_spec hid]

theorem stmtsOf_decl (h : Between L s) {id : Nat} (hid : id < L.decls) :
    stmtsOf L s id = L.bodies (.decl id) := by
  have hnone : ¬∃ label, s.literals.lookup label = some id := by
    rintro ⟨label, hl⟩
    have := (h.declared.literals label id hl).1
    omega
  rw [stmtsOf, dif_neg hnone]

/-- The program that the compiler finishes in a state. -/
noncomputable def outputOf (L : Layout) (s : CompileState) (p : Program) : Output where
  registry := L.env.registry
  folds := L.env.folds
  program := p
  literal label := s.literals.lookup label
  nest := nestOf L s
  stmts := stmtsOf L s

/-- A resolved program completes the state that it was resolved from. -/
theorem completes_of_resolves (h : Between L s) (hs : s.shadow = [])
    (hp : s.asm.Resolves mainEnd p) (hsmall : p.Small) : Completes L s (outputOf L s p) where
  registry := rfl
  folds := rfl
  code offset w hw _ hrefs := (hp.code.others offset fun j hj => absurd hj (hrefs j)).trans hw
  refs offset id w href hw := by
    have hlt := (h.tidy.ref_lt _ href).2
    obtain ⟨g, place, w', hg, hplace, hpoint, hw'⟩ := hp.code.words offset id w
      (by rwa [Nat.zero_add]) (by rwa [Array.length_toList]) hw
    rw [Nat.zero_add] at hplace
    have hlists := Assembly.lists_tables s.asm.funcs
    obtain ⟨g', hg', hentry⟩ := hlists.place id place hplace
    cases hg.symm.trans hg'
    have hsize := hlists.size g.isVariadic
    have hplace_lt := Extends.lt_of_getElem? hentry
    rw [Array.getElem?_toList] at hg
    refine ⟨g, place, w', ?_, ?_, ?_, hpoint, hw'⟩
    · show p.funcs[id]? = some g
      rw [hp.funcs, hg]
    · show (p.table g.isVariadic)[place]? = some id
      rw [hp.tables, hentry]
    · show place < p.funcs.size
      rw [hp.funcs, ← Array.length_toList]
      omega
  consts := by
    show Extends s.asm.consts p.consts
    rw [hp.consts]
    exact .refl _
  funcs := by
    show FuncsGrow s.asm.funcs p.funcs
    rw [hp.funcs]
    exact .refl _
  vars := by
    show Extends s.asm.vars p.vars
    rw [hp.vars]
    exact .refl _
  mainVars := by
    show Extends s.asm.mainVars p.mainVars
    rw [hp.mainVars]
    exact .refl _
  slots offset c hc := by
    rw [hs] at hc
    cases hc
  literals _ _ hl := hl
  nest label id q hl hq := by
    show nestOf L s id = _
    rw [nestOf_literal h hl hq]
    cases q <;> rfl
  declNest id hid := nestOf_decl h hid
  declared label id hl := (h.declared.literals label id hl).1
  bodies label id hl := stmtsOf_literal h hl
  declBodies id hid := stmtsOf_decl h hid
  small := hsmall

theorem fileCode_of_compiles (hf : f.LaidOut L) (h : Compile.Compiles L f mainEnd s)
    (hp : s.asm.Resolves mainEnd p) (hsmall : p.Small) : FileCode (outputOf L s p) f := by
  have ho := completes_of_resolves h.between h.shadow hp hsmall
  have hfuncs : (outputOf L s p).program.funcs = s.asm.funcs := hp.funcs
  obtain ⟨S', is, hend, hreads, hcode, hframe⟩ := h.main _ ho
  refine ⟨⟨S', is, hp.mainEnd.trans hend, hreads, hcode, ?_⟩, ?_, ?_, ?_, ?_, ?_⟩
  · show p.mainVars.toList = _
    rw [hp.mainVars, hframe]
  · intro id d body hd hbody
    have hlt : id < L.decls := hf.decls ▸ (List.getElem?_eq_some_iff.1 hd).1
    rw [ho.declBodies id hlt, hf.bodies id d body hd hbody]
  · intro id g hg hstop
    exact h.between.declared.coded id g (hfuncs ▸ hg) hstop _ g ho hg
  · intro id sig hsig
    obtain ⟨g, hg, hsig⟩ := Option.bind_eq_some_iff.1 hsig
    obtain ⟨sig', hsigned, hresolved⟩ := h.between.declared.signed id g (hfuncs ▸ hg)
    cases hsig.symm.trans hsigned.declares
    exact hresolved
  · intro id g hg hstop
    obtain hid | hvars := h.between.declared.idle id g (hfuncs ▸ hg) hstop
    · rw [← Option.some.inj h.between.declared.owner] at hid
      cases hid
    · exact hvars
  · intro variadic place id hid
    obtain ⟨g, hg, hdefined, hvariadic⟩ := (Assembly.lists_tables s.asm.funcs).entry variadic place id
      ((hp.tables variadic) ▸ hid)
    rw [FuncInfo.isDefined, Bool.and_eq_true] at hdefined
    exact ⟨g, by rw [hfuncs, ← Array.getElem?_toList, hg], hvariadic, hdefined.2⟩

end Finish

/-! ## Compiling -/

/-- A program as the compiler hands it out. -/
def ofResolved : Except (Stop BuildError) Program → Except (Stop CompileError) Program
  | .ok p => .ok p
  | .error (.error e) => .error (.error (.build e))
  | .error (.fault x) => .error (.fault x)

/-- Compiling is emitting and resolving. -/
theorem File.compile_of_emit {r : Registry} {folds : Bool} {f : File}
    {mainEnd? : Except (Stop CompileError) Nat} {s : CompileState}
    (h : (Compile.emitFile f.labelled.1 f.labelled.2 ⟨r, folds⟩).exec .initial = (mainEnd?, s)) :
    f.compile r folds = (do ofResolved (s.asm.resolve (← mainEnd?))) := by
  have hrun : ((Compile.emitFile f.labelled.1 f.labelled.2).run ⟨r, folds⟩).exec .initial =
      (mainEnd?, s) := h
  unfold File.compile
  simp only [hrun]
  cases mainEnd? with
  | error e => rfl
  | ok mainEnd =>
    rcases hresolved : s.asm.resolve mainEnd with (_ | _) | _ <;>
      simp [ofResolved, bind, Except.bind, hresolved]

/-- What compiling a file comes to. -/
def File.CompilesTo (r : Registry) (folds : Bool) (f : File) :
    Except (Stop CompileError) Program → Prop
  | .ok p => ∃ (L : Layout) (s : CompileState) (mainEnd : Nat), L.env = ⟨r, folds⟩ ∧
    L.labels = f.labelled.2 ∧ f.labelled.1.LaidOut L ∧
    (Compile.emitFile f.labelled.1 f.labelled.2 ⟨r, folds⟩).exec .initial = (.ok mainEnd, s) ∧
    Compile.Compiles L f.labelled.1 mainEnd s ∧ s.asm.Resolves mainEnd p
  | .error e => Compile.Stops ⟨r, folds⟩ e ∨ ∃ name, e = .error (.build (.undefined name))

/-- How compiling a file comes out: from a state in order and a resolved program, or as a refusal. -/
theorem File.compile_spec (r : Registry) (folds : Bool) (f : File) :
    f.CompilesTo r folds (f.compile r folds) := by
  obtain ⟨L, henv, hlabels, hf⟩ := f.exists_layout ⟨r, folds⟩
  have hemit := Compile.ensures_emitFile hf
  rw [henv, hlabels] at hemit
  unfold Compile.Ensures Task.Ensures at hemit
  cases hresult : (Compile.emitFile f.labelled.1 f.labelled.2 ⟨r, folds⟩).exec .initial with
  | mk mainEnd? s =>
  rw [hresult] at hemit
  rw [File.compile_of_emit hresult]
  obtain e | mainEnd := mainEnd?
  · exact .inl hemit
  · have hresolve := Assembly.resolve_spec mainEnd (a := s.asm)
      (by rw [hemit.between.declared.opened, ← Option.some.inj hemit.between.declared.owner]; rfl)
      (by rw [hemit.between.tidy.reserved, hemit.shadow]; rfl)
      hemit.between.tidy.ref_nodup fun r hr => (hemit.between.tidy.ref_lt r hr).1
    show f.CompilesTo r folds (ofResolved (s.asm.resolve mainEnd))
    generalize s.asm.resolve mainEnd = resolved at *
    obtain (e | x) | p := resolved
    · cases e with
      | undefined name => exact .inr ⟨name, rfl⟩
      | _ => exact hresolve.elim
    · exact .inl (.inl hresolve)
    · exact ⟨L, s, mainEnd, henv, hlabels, hf, hresult, hemit, hresolve⟩

/-- A file that compiles gives its translation. -/
theorem File.code_of_compile {r : Registry} {folds : Bool} {f : File} {p : Program}
    (h : f.compile r folds = .ok p) (hsmall : p.Small) : ∃ o : Output, o.registry = r ∧
      o.folds = folds ∧ o.program = p ∧ FileCode o f.labelled.1 := by
  have hspec := f.compile_spec r folds
  rw [h] at hspec
  obtain ⟨L, s, mainEnd, henv, -, hf, -, hcompiles, hp⟩ := hspec
  exact ⟨outputOf L s p, by rw [outputOf, henv], by rw [outputOf, henv], rfl,
    fileCode_of_compiles hf hcompiles hp hsmall⟩

/-- The constants of a program are scalars. -/
theorem File.allScalar_of_compile {r : Registry} {folds : Bool} {f : File} {p : Program}
    (h : f.compile r folds = .ok p) : AllScalar p.consts := by
  have hspec := f.compile_spec r folds
  rw [h] at hspec
  obtain ⟨L, s, mainEnd, -, -, hf, -, hcompiles, hp⟩ := hspec
  rw [hp.consts]
  exact hcompiles.between.tidy.scalars

/-- The compiler stops in the ways of `Compile.Stops`, or because a function was never defined. -/
theorem File.stops_of_compile {r : Registry} {folds : Bool} {f : File} {e : Stop CompileError}
    (h : f.compile r folds = .error e) :
    Compile.Stops ⟨r, folds⟩ e ∨ ∃ name, e = .error (.build (.undefined name)) := by
  have hspec := f.compile_spec r folds
  rwa [h] at hspec

theorem File.refuses_of_compile {r : Registry} {folds : Bool} {f : File} {e : Stop CompileError}
    (h : f.compile r folds = .error e) :
    Compile.Refuses folds e ∨ ∃ name, e = .error (.build (.undefined name)) :=
  (File.stops_of_compile h).imp_left Compile.Stops.refuses

/-- A program has the functions that the file declares and those of its literals. -/
theorem File.size_funcs_of_compile {r : Registry} {folds : Bool} {f : File} {p : Program}
    (h : f.compile r folds = .ok p) : p.funcs.size ≤ f.funcs.length + f.labelled.2 := by
  have hspec := f.compile_spec r folds
  rw [h] at hspec
  obtain ⟨L, s, mainEnd, -, hlabels, hf, -, hcompiles, hp⟩ := hspec
  have hsize := hcompiles.between.declared.labels.size_le
  have hdecls : f.labelled.1.funcs.length = f.funcs.length := length_labelDecls ..
  rwa [hf.decls, hdecls, hlabels, ← hp.funcs] at hsize

end StackScript
