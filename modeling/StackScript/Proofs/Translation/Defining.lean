import StackScript.Proofs.Translation.Expressions

/-!
# New variables and names

Statements also declare names. `Advances` is for a stretch of the compilation that may change the
names in scope; a new variable comes to the end of the frame of the body that is compiled.
-/

namespace StackScript

open CompileState

variable {L : Layout} {home : Home} {s s' s'' : CompileState} {R R' : Output → List Instr → Prop}

/-! ## Frames -/

/-- New variables come to the end of the frame of the body that is compiled. -/
structure FrameGrows (s s' : CompileState) : Prop where
  mainVars : s.body.func.isSome → s'.asm.mainVars = s.asm.mainVars
  frame : ∀ ids, s.frame? = some ids → ∃ n, s'.asm.vars.size = s.asm.vars.size + n ∧
    s'.frame? = some (ids ++ List.range' s.asm.vars.size n)

namespace FrameGrows

theorem of_frame (hvars : s'.asm.vars = s.asm.vars) (hmain : s'.asm.mainVars = s.asm.mainVars)
    (hframe : ∀ ids, s.frame? = some ids → s'.frame? = some ids) : FrameGrows s s' :=
  ⟨fun _ => hmain, fun ids hids => ⟨0, congrArg Array.size hvars, by simpa using hframe ids hids⟩⟩

theorem refl (s : CompileState) : FrameGrows s s := .of_frame rfl rfl fun _ h => h

theorem trans (h : FrameGrows s s') (hbody : s'.body = s.body) (h' : FrameGrows s' s'') :
    FrameGrows s s'' where
  mainVars hsome := (h'.mainVars (hbody ▸ hsome)).trans (h.mainVars hsome)
  frame ids hids := by
    obtain ⟨n, hsize, hframe⟩ := h.frame ids hids
    obtain ⟨n', hsize', hframe'⟩ := h'.frame _ hframe
    refine ⟨n + n', by rw [hsize', hsize, Nat.add_assoc], hframe'.trans ?_⟩
    rw [hsize, List.append_assoc, ← List.range'_append_1]

end FrameGrows

theorem Later.frameGrows (h : Later s s') : FrameGrows s s' :=
  .of_frame h.vars h.mainVars h.frame

/-! ## Stretches with declarations -/

/-- From the one state to the other, code as described was added in one body. -/
structure Advances (L : Layout) (home : Home) (s s' : CompileState)
    (R : Output → List Instr → Prop) : Prop where
  grows : Grows s s'
  names : s.names.Grows s'.names
  body : s'.body = s.body
  frame : FrameGrows s s'
  order : InOrder L home s'
  emitted : Emitted L s s' R

namespace Advances

theorem mono (h : Advances L home s s' R) (hR : ∀ o is, Completes L s' o → R o is → R' o is) :
    Advances L home s s' R' :=
  { h with emitted := h.emitted.mono hR }

theorem seq (h : Advances L home s s' R) (h' : Advances L home s' s'' R') :
    Advances L home s s'' fun o is => ∃ is₁ is₂, is = is₁ ++ is₂ ∧ R o is₁ ∧ R' o is₂ where
  grows := h.grows.trans h'.grows
  names := h.names.trans h'.names
  body := h'.body.trans h.body
  frame := h.frame.trans h.body h'.frame
  order := h'.order
  emitted := h.emitted.seq h'.emitted h'.grows

theorem refl (h : InOrder L home s) : Advances L home s s fun _ is => is = [] :=
  ⟨.refl s, .refl _, rfl, .refl s, h, .nil rfl⟩

/-- What declares alone adds nothing to the code. -/
theorem nil_then (h : Advances L home s s' fun _ is => is = []) (h' : Advances L home s' s'' R) :
    Advances L home s s'' R :=
  (h.seq h').mono fun o is _ ⟨is₁, is₂, his, hnil, hr⟩ => by
    subst his hnil
    exact hr

end Advances

theorem Moves.advances (h : Moves L home s s' R) : Advances L home s s' R :=
  ⟨h.later.grows, h.later.names ▸ .refl _, h.later.body, h.later.frameGrows, h.order, h.emitted⟩

/-! ## Scopes -/

theorem Scopes.find?_declare (scopes : Scopes) (name name' : String) (x : Symbol) :
    (scopes.declare name x).find? name' =
      if name' = name then some x else scopes.find? name' := by
  by_cases h : name' = name
  · subst h
    rw [if_pos rfl]
    cases scopes <;> simp [Scopes.declare, Scopes.find?]
  · rw [if_neg h]
    have hne : (name' == name) = false := by simpa using h
    cases scopes <;>
      simp [Scopes.declare, Scopes.find?, List.findSome?_cons, List.lookup_cons, hne]

theorem Scopes.find?_single (names : List (String × Symbol)) (name : String) :
    Scopes.find? [names] name = names.lookup name := by
  unfold Scopes.find?
  rw [List.findSome?_cons]
  cases names.lookup name <;> rfl

theorem Scopes.find?_open (scopes : Scopes) (name : String) :
    Scopes.find? ([] :: scopes) name = scopes.find? name := rfl

/-- A symbol that was not found before is found under one name. -/
theorem Scopes.Apart.declare {scopes : Scopes} {name : String} {x : Symbol} (h : scopes.Apart)
    (hnew : x.IsSlot → ∀ name', scopes.find? name' ≠ some x) : (scopes.declare name x).Apart := by
  intro name₁ name₂ y h₁ h₂ hslot
  rw [find?_declare] at h₁ h₂
  split at h₁
  · cases h₁
    split at h₂
    · exact ‹name₁ = name›.trans ‹name₂ = name›.symm
    · exact absurd h₂ (hnew hslot name₂)
  · split at h₂
    · cases h₂
      exact absurd h₁ (hnew hslot name₁)
    · exact h name₁ name₂ y h₁ h₂ hslot

/-- The state with another name table. -/
def CompileState.withNames (s : CompileState) (t : NameTable) : CompileState := { s with names := t }

theorem grows_withNames {t : NameTable} : Grows s (s.withNames t) :=
  { Grows.refl s with
    slots := fun _ _ h => h }

theorem frameGrows_withNames {t : NameTable} : FrameGrows s (s.withNames t) :=
  .of_frame rfl rfl fun _ h => h

/-- A table with valid names that bodies in the queue see as before. -/
theorem Declared.withNames {t : NameTable} (h : Declared L home s) (hsound : t.Sound)
    (hscopes : ScopeValid L s s.body.func s.body.depth t.scopes) (hsize : s.names.blocks.size ≤ t.blocks.size)
    (hseen : ∀ b ∈ s.queue, b.horizons ≠ [] →
      t.seenFrom b.path b.horizons = s.names.seenFrom b.path b.horizons) :
    Declared L home (s.withNames t) where
  decls := h.decls
  owner := h.owner
  signed := h.signed
  literals := h.literals
  labels := h.labels
  depth o ho := h.depth o (ho.mono grows_withNames)
  main := h.main
  running id hid := by
    obtain ⟨f, sig, hr⟩ := h.running id hid
    exact ⟨f, sig, hr.grow grows_withNames rfl hr.info⟩
  opened := h.opened
  names := hsound
  scopes := hscopes.grow grows_withNames
  queue b hb := by
    obtain ⟨hb', f, hw⟩ := h.queue b hb
    exact ⟨hb', f, hw.grow grows_withNames hw.info hsize (hseen b hb)⟩
  queue_nodup := h.queue_nodup
  idle := h.idle
  coded id f hf hstop o g ho hg := h.coded id f hf hstop o g (ho.mono grows_withNames) hg

theorem ScopeValid.declare {owner : Option Nat} {depth : Nat} {scopes : Scopes} {name : String}
    {x : Symbol} (h : ScopeValid L s owner depth scopes) (hknows : s.Knows depth x)
    (hnew : x.IsSlot → ∀ name', scopes.find? name' ≠ some x)
    (hx : ∀ o, Completes L s o → o.Valid owner name x) :
    ScopeValid L s owner depth (scopes.declare name x) := by
  refine ⟨fun hy => ?_, fun hy => ?_, h.apart.declare hnew⟩
  · rw [Scopes.find?_declare] at hy
    split at hy
    · cases hy
      exact hknows
    · exact h.known hy
  · rw [Scopes.find?_declare] at hy
    split at hy
    · rename_i heq
      cases hy
      exact heq ▸ hx
    · exact h.valid hy

/-- A new block sees what is around it. -/
theorem ScopeValid.inner {owner : Option Nat} {depth : Nat} {scopes : Scopes}
    (h : ScopeValid L s owner depth scopes) : ScopeValid L s owner depth ([] :: scopes) :=
  ⟨h.known, h.valid, h.apart⟩

/-- The state after a name was declared. -/
def CompileState.declaring (s : CompileState) (name : String) (x : Symbol) : CompileState :=
  s.withNames (s.names.declare name x)

section Declaring

variable {name : String} {x : Symbol}

theorem scopes_declaring (h : s.names.Sound) :
    (s.declaring name x).scopes = s.scopes.declare name x := NameTable.scopes_declare h

/-- A new name is seen in its body, and not from literals that stand before it. -/
theorem order_declaring (h : InOrder L home s) (hfresh : s.names.declares name = false)
    (hknows : s.Knows s.body.depth x) (hnew : x.IsSlot → ∀ name', s.scopes.find? name' ≠ some x)
    (hvalid : ∀ o, Completes L s o → o.Valid s.body.func name x) :
    InOrder L home (s.declaring name x) := by
  have hsound := h.declared.names
  refine ⟨{ h.tidy with }, h.declared.withNames (NameTable.sound_declare hsound hfresh) ?_
    (Nat.le_of_eq NameTable.size_declare.symm)
    fun b hb hne => NameTable.seenFrom_declare hsound (h.covers b hb hne),
    fun b hb hne => (h.covers b hb hne).mono NameTable.floor_declare ?_⟩
  · rw [NameTable.scopes_declare hsound]
    exact h.declared.scopes.declare hknows hnew hvalid
  · exact (NameTable.Grows.declare hsound).count

theorem advances_declaring (h : InOrder L home s) (h' : InOrder L home (s.declaring name x)) :
    Advances L home s (s.declaring name x) fun _ is => is = [] :=
  ⟨grows_withNames, .declare h.declared.names, rfl, frameGrows_withNames, h', .nil rfl⟩

end Declaring

namespace Compile

/-- A name is declared once in a block. -/
theorem ensures_declare {name : String} {x : Symbol} {Q : PUnit → CompileState → Prop}
    (h : s.names.declares name = false → Q ⟨⟩ (s.declaring name x)) :
    Ensures L.env (declare name x) s Q := by
  unfold declare
  refine ensures_bind.2 ?_
  simp only [ensures_get]
  split
  · trivial
  · rename_i hdeclares
    exact h (by simpa using hdeclares)

end Compile

/-! ## New variables -/

/-- The variable with its address. -/
def Var.placed (v : Var) (depth index : Nat) : Var :=
  { v with addr := some ⟨depth, Assembly.narrow index⟩ }

/-- The state with another variable of the main body. -/
def CompileState.withGlobal (s : CompileState) (v : Var) : CompileState :=
  { s with asm := { s.asm with
    mainVars := s.asm.mainVars.push s.asm.vars.size
    vars := s.asm.vars.push (v.placed 0 s.asm.mainVars.size) } }

/-- The state with another variable of a function. -/
def CompileState.withLocal (s : CompileState) (id : Nat) (f : FuncInfo) (v : Var) : CompileState :=
  { s with asm := { s.asm with
    funcs := s.asm.funcs.setIfInBounds id { f with vars := f.vars.push s.asm.vars.size }
    vars := s.asm.vars.push (v.placed f.depth f.vars.size) } }

theorem Assembly.exec_setFunc {a : Assembly} {id : Nat} {f : FuncInfo} :
    (Assembly.setFunc id f).exec a = (.ok ⟨⟩, { a with funcs := a.funcs.setIfInBounds id f }) := rfl

theorem exec_defineGlobal {a : Assembly} {v : Var} (hv : v.addr = none) :
    (Assembly.defineVar none v).exec a = (.ok a.vars.size, { a with
      mainVars := a.mainVars.push a.vars.size
      vars := a.vars.push (v.placed 0 a.mainVars.size) }) := by
  have haddr : v.setAddr 0 (Assembly.narrow a.mainVars.size) = .ok (v.placed 0 a.mainVars.size) := by
    rw [Var.setAddr, hv]
    rfl
  unfold Assembly.defineVar
  rw [Task.exec_bind_ok (Task.exec_get a)]
  simp only [pure_bind]
  rw [Task.exec_bind_ok (Task.exec_get a), Task.exec_bind_ok (Task.exec_modify _ a),
    Task.exec_bind_ok (a := v.placed 0 a.mainVars.size)
      (by rw [Task.exec_ofChecked, haddr]; rfl)]
  rfl

theorem exec_defineLocal {a : Assembly} {id : Nat} {f : FuncInfo} {v : Var}
    (hf : a.funcs[id]? = some f) (hv : v.addr = none) :
    (Assembly.defineVar (some id) v).exec a = (.ok a.vars.size, { a with
      funcs := a.funcs.setIfInBounds id { f with vars := f.vars.push a.vars.size }
      vars := a.vars.push (v.placed f.depth f.vars.size) }) := by
  have haddr : v.setAddr f.depth (Assembly.narrow f.vars.size) = .ok (v.placed f.depth f.vars.size) := by
    rw [Var.setAddr, hv]
    rfl
  unfold Assembly.defineVar
  rw [Task.exec_bind_ok (Task.exec_get a)]
  simp only [pure_bind]
  rw [Task.exec_bind_ok (Assembly.exec_func hf), Task.exec_bind_ok (Assembly.exec_setFunc ..),
    Task.exec_bind_ok (a := v.placed f.depth f.vars.size)
      (by rw [Task.exec_ofChecked, haddr]; rfl)]
  rfl

theorem funcsGrow_set {xs : Array FuncInfo} {id : Nat} {f g : FuncInfo} (hf : xs[id]? = some f)
    (hg : f.Becomes g) : FuncsGrow xs (xs.setIfInBounds id g) := by
  intro id' f' hf'
  by_cases h : id = id'
  · subst h
    cases hf.symm.trans hf'
    exact ⟨g, Array.getElem?_setIfInBounds_self_of_lt (Extends.lt_of_getElem? hf), hg⟩
  · exact ⟨f', by rw [Array.getElem?_setIfInBounds_ne h]; exact hf', .refl _⟩

/-- Descriptors keep what has begun and ended, and only those that have begun change. -/
def FuncsKeep (xs ys : Array FuncInfo) : Prop :=
  ∀ (id : Nat) (g : FuncInfo), ys[id]? = some g → ∃ f : FuncInfo, xs[id]? = some f ∧
    f.Becomes g ∧ g.entry = f.entry ∧ g.stop = f.stop ∧ (g = f ∨ f.entry.isSome)

/-- New variables keep all that is declared. -/
theorem Declared.keep (h : Declared L home s) (hs : Grows s s')
    (hfuncs : FuncsKeep s.asm.funcs s'.asm.funcs)
    (hothers : ∀ (id : Nat) (g : FuncInfo), s'.asm.funcs[id]? = some g → s.body.func ≠ some id →
      s.asm.funcs[id]? = some g)
    (hsize : s'.asm.funcs.size = s.asm.funcs.size) (hopened : s'.asm.opened = s.asm.opened)
    (hliterals : s'.literals = s.literals) (hqueue : s'.queue = s.queue)
    (hnames : s'.names = s.names) (hbody : s'.body = s.body) : Declared L home s' where
  decls := hsize ▸ h.decls
  owner := by
    rw [hbody]
    exact hs.owner? h.owner
  signed id g hg := by
    obtain ⟨f, hf, hbecomes, -⟩ := hfuncs id g hg
    obtain ⟨sig, hsig, hresolved⟩ := h.signed id f hf
    exact ⟨sig, hsig.becomes hbecomes, hresolved⟩
  literals label id hid := by
    rw [hliterals] at hid
    obtain ⟨hle, hlt, q, hq, hj⟩ := h.literals label id hid
    exact ⟨hle, hsize ▸ hlt, q, hs.owner? hq, hj⟩
  labels := by rw [hliterals, hsize]; exact h.labels
  depth o ho := by
    rw [hbody]
    exact h.depth o (ho.mono hs)
  main := by rw [hbody]; exact h.main
  running id hid := by
    rw [hbody] at hid
    obtain ⟨f, sig, hr⟩ := h.running id hid
    obtain ⟨g, hg, hbecomes⟩ := hs.funcs id f hr.info
    obtain ⟨f', hf', -, hentry, hstop, -⟩ := hfuncs id g hg
    cases hr.info.symm.trans hf'
    exact ⟨g, sig,
      { info := hg
        declares := hbecomes.sig.trans hr.declares
        depth := by rw [hbecomes.depth, hbody]; exact hr.depth
        entry := hentry ▸ hr.entry
        stop := hstop.trans hr.stop
        numParams := hbody ▸ hr.numParams
        results := hbody ▸ hr.results
        nest := fun o ho => hr.nest o (ho.mono hs) }⟩
  opened := by rw [hopened, hbody]; exact h.opened
  names := hnames ▸ h.names
  scopes := by
    rw [CompileState.scopes, hnames, hbody]
    exact h.scopes.grow hs
  queue b hb := by
    rw [hqueue] at hb
    obtain ⟨hb', f, hw⟩ := h.queue b hb
    obtain ⟨g, hg, -⟩ := hs.funcs _ _ hw.info
    obtain ⟨f', hf', -, -, -, heq | hsome⟩ := hfuncs _ g hg
    · cases hw.info.symm.trans hf'
      exact ⟨hb', f, hw.grow hs (heq ▸ hg) (Nat.le_of_eq (by rw [hnames])) fun _ => by rw [hnames]⟩
    · cases hw.info.symm.trans hf'
      rw [hw.entry] at hsome
      cases hsome
  queue_nodup := by rw [hqueue]; exact h.queue_nodup
  idle id g hg hstop := by
    rw [hbody]
    by_cases hid : s.body.func = some id
    · exact .inl hid
    · exact h.idle id g (hothers id g hg hid) hstop
  coded id g hg hstop o g' ho hg' := by
    obtain ⟨f, hf, -, -, hstop', -⟩ := hfuncs id g hg
    exact h.coded id f hf (hstop' ▸ hstop) o g' (ho.mono hs) hg'

theorem FuncsKeep.refl (xs : Array FuncInfo) : FuncsKeep xs xs :=
  fun _ g hg => ⟨g, hg, .refl g, rfl, rfl, .inl rfl⟩

section NewVar

variable {v : Var} {id : Nat} {f : FuncInfo}

theorem becomes_addVar {n : Nat} (hstop : f.stop = none) :
    f.Becomes { f with vars := f.vars.push n } :=
  { FuncInfo.Becomes.refl f with
    vars := .push _ _
    ended := fun hsome => by
      rw [hstop] at hsome
      cases hsome }

theorem grows_withGlobal : Grows s (s.withGlobal v) :=
  { Grows.refl s with
    vars := .push _ _
    mainVars := .push _ _
    slots := fun _ _ h => h.imp id fun h => ⟨h.free, h.noRef, h.word⟩ }

theorem grows_withLocal (hf : s.asm.funcs[id]? = some f) (hstop : f.stop = none) :
    Grows s (s.withLocal id f v) :=
  { Grows.refl s with
    funcs := funcsGrow_set hf (becomes_addVar hstop)
    vars := .push _ _
    slots := fun _ _ h => h.imp (fun h => h) fun h => ⟨h.free, h.noRef, h.word⟩ }

theorem order_withGlobal (h : InOrder L home s) : InOrder L home (s.withGlobal v) :=
  ⟨{ h.tidy with },
    h.declared.keep grows_withGlobal (.refl _) (fun _ _ h _ => h) rfl rfl rfl rfl rfl rfl, h.covers⟩

theorem frameGrows_withGlobal (hbody : s.body.func = none) : FrameGrows s (s.withGlobal v) where
  mainVars hsome := by
    rw [hbody] at hsome
    cases hsome
  frame ids hids := by
    refine ⟨1, by simp [withGlobal], ?_⟩
    have hbody' : (s.withGlobal v).body.func = none := hbody
    rw [frame?, hbody] at hids
    rw [frame?, hbody']
    cases hids
    simp [withGlobal]

theorem frameGrows_withLocal (hbody : s.body.func = some id) (hf : s.asm.funcs[id]? = some f) :
    FrameGrows s (s.withLocal id f v) where
  mainVars _ := rfl
  frame ids hids := by
    refine ⟨1, by simp [withLocal], ?_⟩
    have hbody' : (s.withLocal id f v).body.func = some id := hbody
    have hinfo : (s.withLocal id f v).asm.funcs[id]? =
        some { f with vars := f.vars.push s.asm.vars.size } :=
      Array.getElem?_setIfInBounds_self_of_lt (Extends.lt_of_getElem? hf)
    simp only [frame?, hbody, hf, Option.map_some, Option.some.injEq] at hids
    simp only [frame?, hbody', hinfo, Option.map_some, ← hids]
    simp

theorem order_withLocal (h : InOrder L home s) (hbody : s.body.func = some id)
    (hf : s.asm.funcs[id]? = some f) (hstop : f.stop = none) (hentry : f.entry.isSome) :
    InOrder L home (s.withLocal id f v) := by
  have hsize : (s.withLocal id f v).asm.funcs.size = s.asm.funcs.size := Array.size_setIfInBounds ..
  refine ⟨{ h.tidy with ref_lt := fun r hr => ?_ },
    h.declared.keep (grows_withLocal hf hstop) (fun id' g hg => ?_) (fun id' g hg hne => ?_)
      hsize rfl rfl rfl rfl rfl, h.covers⟩
  · rw [hsize]
    exact h.tidy.ref_lt r hr
  · obtain ⟨rfl, rfl⟩ | ⟨-, hg⟩ := getElem?_setIfInBounds_of hg
    · exact ⟨f, hf, becomes_addVar hstop, rfl, rfl, .inr hentry⟩
    · exact ⟨g, hg, .refl g, rfl, rfl, .inl rfl⟩
  · obtain ⟨rfl, -⟩ | ⟨-, hg⟩ := getElem?_setIfInBounds_of hg
    · exact absurd hbody hne
    · exact hg

theorem narrow_of_lt {n : Nat} (h : n < 1 <<< 32) : Assembly.narrow n = n := Nat.mod_eq_of_lt h

/-- A new global variable is seen everywhere. -/
theorem sees_withGlobal {o : Output} (ho : Completes L (s.withGlobal v) o) (chain : List Nat) :
    o.Sees chain s.asm.vars.size := by
  have hmain : o.program.mainVars[s.asm.mainVars.size]? = some s.asm.vars.size :=
    ho.mainVars _ _ (by simp [withGlobal])
  have hlt := Nat.lt_of_lt_of_le (Extends.lt_of_getElem? hmain) ho.small.mainVars
  have hvar : o.program.vars[s.asm.vars.size]? = some (v.placed 0 s.asm.mainVars.size) :=
    ho.vars _ _ (by simp [withGlobal])
  refine ⟨_, _, hvar, rfl, ?_⟩
  rw [if_pos rfl, narrow_of_lt hlt]
  exact hmain

/-- A variable in the frame of a function is seen in its body. -/
theorem sees_of_frame {o : Output} {place vid : Nat} (ho : Completes L s o)
    (hf : s.asm.funcs[id]? = some f) (hplace : f.vars[place]? = some vid)
    (hv : s.asm.vars[vid]? = some (v.placed f.depth place)) (hdepth : (o.nest id).length = f.depth)
    (hnest : ∃ rest, o.nest id = id :: rest) : o.Sees (o.nest id) vid := by
  obtain ⟨rest, hnest⟩ := hnest
  obtain ⟨g, hg, hbecomes⟩ := ho.funcs id f hf
  have hvar := hbecomes.vars _ _ hplace
  have hlt := Nat.lt_of_lt_of_le (Extends.lt_of_getElem? hvar) (ho.small.vars id g hg)
  have hpos : f.depth ≠ 0 := by
    rw [← hdepth, hnest]
    exact Nat.succ_ne_zero _
  refine ⟨_, _, ho.vars _ _ hv, rfl, ?_⟩
  show if f.depth = 0 then _ else f.depth ≤ (o.nest id).length ∧ _
  rw [if_neg hpos]
  refine ⟨Nat.le_of_eq hdepth.symm, id, g, ?_, hg, ?_⟩
  · show (o.nest id)[(o.nest id).length - f.depth]? = some id
    rw [hdepth, Nat.sub_self, hnest]
    rfl
  · show g.vars[Assembly.narrow place]? = _
    rw [narrow_of_lt hlt]
    exact hvar

end NewVar

namespace Compile

/-- What is known of a variable that was just added to the frame of the current body. -/
structure NewVar (L : Layout) (home : Home) (s : CompileState) (ty : Ty) (id : Nat)
    (s' : CompileState) : Prop where
  advances : Advances L home s s' fun _ is => is = []
  shadow : s'.shadow = s.shadow
  names : s'.names = s.names
  fresh : id = s.asm.vars.size
  size : s'.asm.vars.size = s.asm.vars.size + 1
  known : s'.Knows s'.body.depth (.var id)
  var : ∃ v, s'.asm.vars[id]? = some v ∧ v.ty = ty
  valid : ∀ o, Completes L s' o → o.Sees (o.chain s'.body.func) id

/-- No name stands for it yet. -/
theorem NewVar.find?_ne {ty : Ty} {id : Nat} (hnew : NewVar L home s ty id s') (h : InOrder L home s)
    (name : String) : s'.scopes.find? name ≠ some (.var id) := fun hfind => by
  rw [CompileState.scopes, hnew.names] at hfind
  have hlt := (h.declared.scopes.known hfind).var_lt
  rw [hnew.fresh] at hlt
  exact Nat.lt_irrefl _ hlt

theorem ensures_newVar {name : String} {ty : Ty} (h : InOrder L home s) :
    Ensures L.env (newVar name ty) s (NewVar L home s ty) := by
  unfold newVar
  refine ensures_bind.2 ?_
  simp only [ensures_get]
  generalize hv : Var.new (.named name) ty s.names.inInner = v
  have haddr : v.addr = none := by rw [← hv]; rfl
  have hty : v.ty = ty := by rw [← hv]; rfl
  cases hfunc : s.body.func with
  | none =>
    refine Task.Ensures.of_exec (fun a s' hexec => ?_) fun e s' hexec => ?_
    · rw [exec_asm_ok (exec_defineGlobal haddr)] at hexec
      cases hexec
      exact
        { advances := ⟨grows_withGlobal, .refl _, rfl, frameGrows_withGlobal hfunc,
            order_withGlobal h, .nil rfl⟩
          shadow := rfl
          names := rfl
          fresh := rfl
          size := by simp
          known := ⟨v.placed 0 s.asm.mainVars.size, _, by simp, rfl, Nat.zero_le _⟩
          var := ⟨v.placed 0 s.asm.mainVars.size, by simp, hty⟩
          valid := fun o ho => sees_withGlobal ho _ }
    · rw [exec_asm_ok (exec_defineGlobal haddr)] at hexec
      cases hexec
  | some id =>
    obtain ⟨f, sig, hr⟩ := h.declared.running id hfunc
    refine Task.Ensures.of_exec (fun a s' hexec => ?_) fun e s' hexec => ?_
    · rw [exec_asm_ok (exec_defineLocal hr.info haddr)] at hexec
      cases hexec
      have hgrows := grows_withLocal (v := v) hr.info hr.stop
      exact
        { advances := ⟨hgrows, .refl _, rfl, frameGrows_withLocal hfunc hr.info,
            order_withLocal h hfunc hr.info hr.stop hr.entry, .nil rfl⟩
          shadow := rfl
          names := rfl
          fresh := rfl
          size := by simp
          known := ⟨v.placed f.depth f.vars.size, _, by simp, rfl, Nat.le_of_eq hr.depth⟩
          var := ⟨v.placed f.depth f.vars.size, by simp, hty⟩
          valid := fun o ho => by
            have hdepth := h.declared.depth o (ho.mono hgrows)
            rw [hfunc] at hdepth
            show o.Sees (o.chain s.body.func) _
            rw [hfunc]
            have hinfo : (s.withLocal id f v).asm.funcs[id]? =
                some { f with vars := f.vars.push s.asm.vars.size } :=
              Array.getElem?_setIfInBounds_self_of_lt (Extends.lt_of_getElem? hr.info)
            have hplace : (f.vars.push s.asm.vars.size)[f.vars.size]? = some s.asm.vars.size := by simp
            have hplaced : (s.withLocal id f v).asm.vars[s.asm.vars.size]? =
                some (v.placed f.depth f.vars.size) := by simp [withLocal]
            exact sees_of_frame ho hinfo hplace hplaced (hdepth.trans hr.depth.symm)
              (hr.nest o (ho.mono hgrows)) }
    · rw [exec_asm_ok (exec_defineLocal hr.info haddr)] at hexec
      cases hexec

end Compile

end StackScript
