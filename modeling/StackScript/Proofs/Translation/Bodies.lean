import Mathlib.Data.List.Nodup
import StackScript.Proofs.Translation.Statements

/-!
# The code of function bodies

A body that has waited gets its frame and its words in one go. `ensures_emitBody`: behind it the
function is coded, and the main body goes on as it was.
-/

namespace StackScript

open CompileState

variable {L : Layout} {home : Home} {s s' s'' : CompileState}

/-! ## Descriptors -/

namespace Assembly

variable {a : Assembly} {id : Nat} {f g : FuncInfo}

/-- The assembly with another descriptor of a function. -/
def put (a : Assembly) (id : Nat) (f : FuncInfo) : Assembly :=
  { a with funcs := a.funcs.setIfInBounds id f }

theorem getElem?_put (h : a.funcs[id]? = some f) : (a.put id g).funcs[id]? = some g :=
  Array.getElem?_setIfInBounds_self_of_lt (Extends.lt_of_getElem? h)

theorem exec_updateFunc_put {change : FuncInfo → Except BuildError FuncInfo}
    (h : a.funcs[id]? = some f) (hg : change f = .ok g) :
    (Assembly.updateFunc id change).exec a = (.ok ⟨⟩, a.put id g) :=
  exec_updateFunc h hg

/-- The parameters of a function that has a signature. -/
theorem exec_setParams {sig : Signature} (h : a.funcs[id]? = some f) (hsig : f.Signed sig) :
    (if sig.variadic then Assembly.setVariadicParams id sig.params
      else Assembly.setParams id sig.params).exec a =
        (.ok ⟨⟩, a.put id { f with params := sig.params }) := by
  have hvariadicity := hsig.variadicity
  cases hv : sig.variadic with
  | true =>
    obtain ⟨t, ht⟩ := hsig.last hv
    rw [hv] at hvariadicity
    refine exec_updateFunc_put h ?_
    simp [FuncInfo.setVariadicParams, ht, FuncInfo.setVariadic, hvariadicity]
  | false =>
    rw [hv] at hvariadicity
    refine exec_updateFunc_put h ?_
    simp [FuncInfo.setParams, FuncInfo.setVariadic, hvariadicity]

/-- The variables of a frame with their addresses, from a place on. -/
def placedAt (depth place : Nat) (vs : List Var) : List Var :=
  vs.mapIdx fun i v => v.placed depth (place + i)

/-- The assembly with more variables in the frame of a function. -/
def withLocals (a : Assembly) (id : Nat) (f : FuncInfo) (vs : List Var) : Assembly :=
  { a.put id { f with vars := f.vars ++ (List.range' a.vars.size vs.length).toArray } with
    vars := a.vars ++ (placedAt f.depth f.vars.size vs).toArray }

theorem placedAt_cons (depth place : Nat) (v : Var) (vs : List Var) :
    placedAt depth place (v :: vs) = v.placed depth place :: placedAt depth (place + 1) vs := by
  simp only [placedAt, List.mapIdx_cons, Nat.add_zero, Nat.add_assoc, Nat.add_comm 1]

theorem exec_defineLocals (vs : List Var) {a : Assembly} {f : FuncInfo}
    (hf : a.funcs[id]? = some f) (hvs : ∀ v ∈ vs, v.addr = none) :
    (vs.mapM (Assembly.defineVar (some id))).exec a =
      (.ok (List.range' a.vars.size vs.length), a.withLocals id f vs) := by
  induction vs generalizing a f with
  | nil =>
    have hset : a.funcs.setIfInBounds id f = a.funcs := setIfInBounds_same hf
    simp [withLocals, put, placedAt, hset]
  | cons v vs ih =>
    rw [List.mapM_cons, Task.exec_bind_ok (exec_defineLocal hf (hvs v (by simp)))]
    have hf₁ : (a.funcs.setIfInBounds id { f with vars := f.vars.push a.vars.size })[id]? =
        some { f with vars := f.vars.push a.vars.size } := getElem?_put hf
    have hstep := ih (a := { a with
      funcs := a.funcs.setIfInBounds id { f with vars := f.vars.push a.vars.size }
      vars := a.vars.push (v.placed f.depth f.vars.size) }) hf₁ fun w hw => hvs w (by simp [hw])
    rw [Task.exec_bind_ok hstep]
    simp only [Task.exec_pure, withLocals, put, placedAt_cons, Array.size_push,
      Array.setIfInBounds_setIfInBounds, push_append_toArray, List.length_cons, List.range'_succ]

theorem exec_results {vs : List Var} (hf : a.funcs[id]? = some f) (hvars : f.vars = #[])
    (hvs : ∀ v ∈ vs, v.addr = none) : (Assembly.results id vs).exec a =
      (.ok (List.range' a.vars.size vs.length), { a.put id { f with
          numOut := vs.length, vars := (List.range' a.vars.size vs.length).toArray } with
        vars := a.vars ++ (placedAt f.depth 0 vs).toArray }) := by
  unfold Assembly.results
  rw [Task.exec_bind_ok (exec_func hf)]
  have hempty : f.vars.isEmpty = true := by simp [hvars]
  rw [hempty]
  simp only [Bool.not_true, Bool.false_eq_true, if_false]
  rw [Task.exec_bind_ok (exec_defineLocals vs hf hvs)]
  have hget : (a.withLocals id f vs).funcs[id]? = some _ := getElem?_put hf
  have hupdate : (Assembly.updateFunc id fun f =>
      .ok { f with numOut := (List.range' a.vars.size vs.length).length }).exec (a.withLocals id f vs) =
        (.ok ⟨⟩, (a.withLocals id f vs).put id _) := exec_updateFunc_put hget rfl
  rw [Task.exec_bind_ok hupdate]
  simp [withLocals, put, hvars]

theorem exec_defineFunc (hf : a.funcs[id]? = some f) (hentry : f.entry = none) :
    (Assembly.defineFunc id).exec a = (.ok ⟨⟩, { a.put id { f with entry := some a.code.size } with
      opened := id :: a.opened }) := by
  unfold Assembly.defineFunc
  rw [Task.exec_bind_ok (exec_func hf), hentry]
  rfl

theorem exec_endFunc {rest : List Nat} (hf : a.funcs[id]? = some f) (ho : a.opened = id :: rest) :
    (Assembly.endFunc id).exec a = (.ok ⟨⟩, { a.put id { f with stop := some a.code.size } with
      opened := rest }) := by
  unfold Assembly.endFunc
  rw [Task.exec_bind_ok (Task.exec_get a), ho]
  simp only [if_true]
  rw [Task.exec_bind_ok (Task.exec_modify _ a), Task.exec_bind_ok (Task.exec_get _)]
  exact exec_updateFunc_put hf rfl

end Assembly

/-! ## Bodies that begin -/

namespace WaitingBody

/-- The result variables of the function. -/
def outs (b : WaitingBody) : List Var := Compile.resultVars b.ty.results b.sig.results

/-- The descriptor of the function when its words begin. -/
def begun (b : WaitingBody) (f : FuncInfo) (s : CompileState) : FuncInfo :=
  { f with
    params := b.sig.params
    numOut := b.outs.length
    vars := (List.range' s.asm.vars.size b.outs.length).toArray
    entry := some s.asm.code.size }

def body (b : WaitingBody) (f : FuncInfo) : Body :=
  ⟨some b.func, f.name, f.depth, b.sig.params.length, b.sig.results,
    b.ty.results.any (·.name.isSome)⟩

end WaitingBody

namespace WaitingBody

/-- What the parameters of a function stand for. -/
def paramSymbols (b : WaitingBody) : List (Option String × Symbol) :=
  ((b.ty.params.zip b.sig.params).zipIdx).map fun ((p, t), i) => (p.name, .param b.func i t)

/-- What the results of a function stand for, whose variables are given. -/
def resultSymbols (b : WaitingBody) (results : List Nat) : List (Option String × Symbol) :=
  (b.ty.results.zip results).map fun (p, id) => (p.name, .var id)

/-- Each parameter and each result has a symbol of its own. -/
theorem nodup_symbols (b : WaitingBody) {results : List Nat} (h : results.Nodup)
    (hle : results.length ≤ b.ty.results.length) :
    ((b.paramSymbols ++ b.resultSymbols results).map (·.2)).Nodup := by
  rw [List.map_append, paramSymbols, resultSymbols, List.map_map, List.map_map]
  refine List.Nodup.append ?_ ?_ fun x hx hx' => ?_
  · have hindices : (((b.ty.params.zip b.sig.params).zipIdx).map (·.2)).Nodup := by
      rw [List.zipIdx_map_snd]
      exact List.nodup_range' ..
    refine List.Nodup.map_on (fun p hp q hq heq => ?_) hindices.of_map
    exact List.inj_on_of_nodup_map hindices hp hq (Symbol.param.inj heq).2.1
  · have hids : ((b.ty.results.zip results).map (·.2)).Nodup := by rwa [List.map_snd_zip hle]
    refine List.Nodup.map_on (fun p hp q hq heq => ?_) hids.of_map
    exact List.inj_on_of_nodup_map hids hp hq (Symbol.var.inj heq)
  · obtain ⟨p, -, rfl⟩ := List.mem_map.1 hx
    obtain ⟨q, -, heq⟩ := List.mem_map.1 hx'
    cases heq

theorem mem_paramSymbols {b : WaitingBody} {p : Option String × Symbol} (hp : p ∈ b.paramSymbols) :
    ∃ (i : Nat) (t : Ty), p.2 = .param b.func i t ∧ b.sig.params[i]? = some t := by
  obtain ⟨⟨⟨q, t⟩, i⟩, hmem, rfl⟩ := List.mem_map.1 hp
  rw [List.mem_zipIdx_iff_getElem?] at hmem
  exact ⟨i, t, rfl, (List.getElem?_zip_eq_some.1 hmem).2⟩

theorem mem_resultSymbols {b : WaitingBody} {first n : Nat} {p : Option String × Symbol}
    (hp : p ∈ b.resultSymbols (List.range' first n)) : ∃ i < n, p.2 = .var (first + i) := by
  obtain ⟨⟨q, id⟩, hmem, rfl⟩ := List.mem_map.1 hp
  obtain ⟨i, hi, rfl⟩ := List.mem_range'.1 (List.of_mem_zip hmem).2
  exact ⟨i, hi, by rw [Nat.one_mul]⟩

end WaitingBody

/-- The assembly when the words of a function begin. -/
def CompileState.begun (s : CompileState) (b : WaitingBody) (f : FuncInfo) : CompileState :=
  { s with asm := { s.asm.put b.func (b.begun f s) with
    vars := s.asm.vars ++ (Assembly.placedAt f.depth 0 b.outs).toArray
    opened := b.func :: s.asm.opened } }

/-- The state when the body of a function is entered. -/
def CompileState.entered (s : CompileState) (b : WaitingBody) (f : FuncInfo) : CompileState :=
  { s.begun b f with names := s.names.enterBody b.path b.horizons, body := b.body f }

/-- The main body is complete, and bodies of functions are yet to be compiled. -/
structure Between (L : Layout) (s : CompileState) : Prop where
  tidy : s.Tidy
  declared : Declared L .main s
  path : s.names.path = [0]
  floor : s.names.floor = 0

section Enter

variable {b : WaitingBody} {f : FuncInfo}

theorem addr_outs : ∀ v ∈ b.outs, v.addr = none := by
  intro v hv
  simp only [WaitingBody.outs, Compile.resultVars, List.mem_map] at hv
  obtain ⟨⟨⟨p, t⟩, i⟩, -, rfl⟩ := hv
  rfl

theorem length_outs (hlen : b.ty.results.length = b.sig.results.length) :
    b.outs.length = b.sig.results.length := by
  simp [WaitingBody.outs, Compile.resultVars, hlen]

theorem ty_outs (hlen : b.ty.results.length = b.sig.results.length) {i : Nat} {t : Ty}
    (ht : b.sig.results[i]? = some t) : ∃ v, b.outs[i]? = some v ∧ v.ty = t := by
  have hi := (List.getElem?_eq_some_iff.1 ht).1
  have hp : b.ty.results[i]? = some (b.ty.results[i]) := List.getElem?_eq_getElem (hlen ▸ hi)
  have hzip : (b.ty.results.zip b.sig.results).zipIdx[i]? = some ((b.ty.results[i], t), i) := by
    simp [List.getElem?_zipIdx, List.getElem?_zip_eq_some, hp, ht]
  exact ⟨_, by rw [WaitingBody.outs, Compile.resultVars, List.getElem?_map, hzip, Option.map_some],
    rfl⟩

theorem becomes_begun (hw : Waiting L s b home f) : f.Becomes (b.begun f s) where
  name := rfl
  depth := rfl
  sig := rfl
  variadicity := rfl
  vars i x hx := by
    rw [hw.vars] at hx
    simp at hx
  begun hsome := by
    rw [hw.entry] at hsome
    cases hsome
  ended hsome := by
    rw [hw.stop] at hsome
    cases hsome

theorem grows_begun (hw : Waiting L s b home f) : Grows s (s.begun b f) :=
  { Grows.refl s with
    funcs := funcsGrow_set hw.info (becomes_begun hw)
    vars := fun i x hx => by
      show (s.asm.vars ++ _)[i]? = _
      rw [Array.getElem?_append_left (Extends.lt_of_getElem? hx)]
      exact hx
    slots := fun _ _ h => h.imp (fun h => h) fun h => ⟨h.free, h.noRef, h.word⟩ }

theorem grows_entered (hw : Waiting L s b home f) : Grows s (s.entered b f) :=
  (grows_begun hw).trans { Grows.refl (s.begun b f) with slots := fun _ _ h => h }

theorem info_entered (hw : Waiting L s b home f) :
    (s.entered b f).asm.funcs[b.func]? = some (b.begun f s) :=
  Assembly.getElem?_put hw.info

theorem getElem?_entered_of_ne {id : Nat} (h : b.func ≠ id) :
    (s.entered b f).asm.funcs[id]? = s.asm.funcs[id]? :=
  Array.getElem?_setIfInBounds_ne h

theorem size_entered : (s.entered b f).asm.funcs.size = s.asm.funcs.size :=
  Array.size_setIfInBounds ..

/-- The result variables lie in the frame. -/
theorem out_entered {i : Nat} {v : Var} (hv : b.outs[i]? = some v) :
    (b.begun f s).vars[i]? = some (s.asm.vars.size + i) ∧
      (s.entered b f).asm.vars[s.asm.vars.size + i]? = some (v.placed f.depth i) := by
  have hi := (List.getElem?_eq_some_iff.1 hv).1
  refine ⟨?_, ?_⟩
  · simp [WaitingBody.begun, hi]
  · show (s.asm.vars ++ (Assembly.placedAt f.depth 0 b.outs).toArray)[s.asm.vars.size + i]? = _
    rw [Array.getElem?_append_right (Nat.le_add_right ..), Nat.add_sub_cancel_left]
    simp [Assembly.placedAt, hv]

/-- What a body sees is right for its function. -/
theorem scopes_entered (h : Between L s) (hw : Waiting L s b home f) :
    ScopeValid L s (some b.func) f.depth (s.names.seenFrom b.path b.horizons) := by
  by_cases hnil : b.horizons = []
  · obtain ⟨hpath, hdecl⟩ := hw.outermost hnil
    rw [hpath, hnil, NameTable.seenFrom_outermost h.path h.floor]
    have hfunc : s.body.func = none := (Option.some.inj h.declared.owner).symm
    have hscopes := h.declared.scopes
    rw [h.declared.main hfunc] at hscopes
    refine ⟨fun hx => (hscopes.known hx).mono (Nat.zero_le _), fun {name x} hx o ho => ?_,
      hscopes.apart⟩
    have hx' := hscopes.valid hx o ho
    cases x with
    | var id =>
      show o.Sees (o.nest b.func) id
      rw [ho.declNest _ hdecl]
      exact sees_cons hx'
    | param func index ty => exact hx'
    | package path => trivial
    | func id => exact hx'
  · exact hw.scopes hnil

theorem funcs_entered (hw : Waiting L s b home f) {id : Nat} {g : FuncInfo}
    (hg : (s.entered b f).asm.funcs[id]? = some g) :
    id = b.func ∧ g = b.begun f s ∨ id ≠ b.func ∧ s.asm.funcs[id]? = some g := by
  by_cases hid : b.func = id
  · subst hid
    exact .inl ⟨rfl, Option.some.inj (hg.symm.trans (info_entered hw))⟩
  · rw [getElem?_entered_of_ne hid] at hg
    exact .inr ⟨Ne.symm hid, hg⟩

theorem running_entered (hw : Waiting L s b home f) :
    Running L (s.entered b f) b.func (b.begun f s) b.sig where
  info := info_entered hw
  declares := hw.declares
  depth := rfl
  entry := rfl
  stop := hw.stop
  numParams := rfl
  results := rfl
  nest o ho := (hw.nest o (ho.mono (grows_entered hw))).2

/-- Bodies other than the one that is entered go on waiting. -/
theorem queue_entered (h : Between L s) (hw : Waiting L s b home f)
    (hnew : b.func ∉ s.queue.map (·.func)) :
    ∀ b' ∈ s.queue, ∃ home' f', Waiting L (s.entered b f) b' home' f' := by
  intro b' hb'
  obtain ⟨home', f', hw'⟩ := h.declared.queue b' hb'
  refine ⟨home', f', hw'.grow (grows_entered hw) ?_
    (by simp [CompileState.entered, NameTable.enterBody])
    fun _ => NameTable.seenFrom_congr fun j _ => NameTable.block_push rfl j⟩
  rw [getElem?_entered_of_ne]
  · exact hw'.info
  · rintro heq
    exact hnew (heq ▸ List.mem_map_of_mem hb')

theorem declared_entered (h : Between L s) (hw : Waiting L s b home f)
    (hnew : b.func ∉ s.queue.map (·.func)) : Declared L home (s.entered b f) := by
  have hgrows := grows_entered hw
  have hsize : (s.entered b f).asm.funcs.size = s.asm.funcs.size := size_entered
  have hfunc : s.body.func = none := (Option.some.inj h.declared.owner).symm
  exact
    { decls := hsize.symm ▸ h.declared.decls
      owner := hgrows.owner? hw.owner
      signed := fun id g hg => by
        obtain ⟨-, rfl⟩ | ⟨-, hg⟩ := funcs_entered hw hg
        · obtain ⟨sig, hsig, hresolved⟩ := h.declared.signed _ f hw.info
          exact ⟨sig, hsig.becomes (becomes_begun hw), hresolved⟩
        · exact h.declared.signed id g hg
      literals := fun label id hid => by
        obtain ⟨hle, hlt, q, hq, hj⟩ := h.declared.literals label id hid
        exact ⟨hle, hsize.symm ▸ hlt, q, hgrows.owner? hq, hj⟩
      labels := hsize.symm ▸ h.declared.labels
      depth := fun o ho => (hw.nest o (ho.mono hgrows)).1
      main := fun hnone => nomatch hnone
      running := fun id hid => by
        cases hid
        exact ⟨_, _, running_entered hw⟩
      opened := by
        show b.func :: s.asm.opened = [b.func]
        rw [h.declared.opened, hfunc]
        rfl
      names := NameTable.sound_enterBody h.declared.names hw.path
      scopes := by
        show ScopeValid L _ (some b.func) f.depth (s.names.enterBody b.path b.horizons).scopes
        rw [NameTable.scopes_enterBody hw.path]
        exact ((scopes_entered h hw).grow hgrows).inner
      queue := queue_entered h hw hnew
      queue_nodup := h.declared.queue_nodup
      idle := fun id g hg hstop => by
        obtain ⟨rfl, -⟩ | ⟨-, hg⟩ := funcs_entered hw hg
        · exact .inl rfl
        · obtain hid | hvars := h.declared.idle id g hg hstop
          · rw [hfunc] at hid
            cases hid
          · exact .inr hvars
      coded := fun id g hg hstop o g' ho hg' => by
        obtain ⟨-, rfl⟩ | ⟨-, hg⟩ := funcs_entered hw hg
        · rw [show (b.begun f s).stop = f.stop from rfl, hw.stop] at hstop
          cases hstop
        · exact h.declared.coded id g hg hstop o g' (ho.mono hgrows) hg' }

theorem order_entered (h : Between L s) (hw : Waiting L s b home f)
    (hnew : b.func ∉ s.queue.map (·.func)) : InOrder L home (s.entered b f) where
  tidy :=
    { h.tidy with
      ref_lt := fun r hr => by
        rw [size_entered]
        exact h.tidy.ref_lt r hr }
  declared := declared_entered h hw hnew
  covers b' hb' _ := by
    obtain ⟨_, _, hw'⟩ := h.declared.queue b' hb'
    exact hw'.path.covers_enterBody

end Enter

namespace Compile

/-! ## Names of parameters and results -/

/-- Names alone were declared. -/
structure Names (L : Layout) (home : Home) (s s' : CompileState) : Prop where
  asm : s'.asm = s.asm
  shadow : s'.shadow = s.shadow
  queue : s'.queue = s.queue
  advances : Advances L home s s' fun _ is => is = []

theorem Names.refl (h : InOrder L home s) : Names L home s s := ⟨rfl, rfl, rfl, .refl h⟩

theorem Names.trans (h : Names L home s s') (h' : Names L home s' s'') : Names L home s s'' :=
  ⟨h'.asm.trans h.asm, h'.shadow.trans h.shadow, h'.queue.trans h.queue,
    h.advances.nil_then h'.advances⟩

/-- A name is declared, unless it is missing or blank. -/
theorem ensures_declareNamed {name : Option String} {x : Symbol} (h : InOrder L home s)
    (hknows : s.Knows s.body.depth x) (hnew : x.IsSlot → ∀ name', s.scopes.find? name' ≠ some x)
    (hvalid : ∀ o, Completes L s o → ∀ name, o.Valid s.body.func name x) :
    Ensures L.env (declareNamed name x) s fun _ s' => Names L home s s' ∧
      ∀ name' y, s'.scopes.find? name' = some y → y = x ∨ s.scopes.find? name' = some y := by
  unfold declareNamed
  split
  · exact ⟨.refl h, fun _ _ => .inr⟩
  · exact ⟨.refl h, fun _ _ => .inr⟩
  · refine ensures_declare fun hfresh => ⟨⟨rfl, rfl, rfl, advances_declaring h
      (order_declaring h hfresh hknows hnew fun o ho => hvalid o ho _)⟩, fun name' y hy => ?_⟩
    rw [scopes_declaring h.declared.names, Scopes.find?_declare] at hy
    split at hy
    · exact .inl (Option.some.inj hy).symm
    · exact .inr hy

/-- Names are declared for symbols that are new and apart. -/
theorem ensures_declareEach (l : List (Option String × Symbol)) {s : CompileState}
    (h : InOrder L home s) (hknows : ∀ p ∈ l, s.Knows s.body.depth p.2)
    (hnew : ∀ p ∈ l, ∀ name, s.scopes.find? name ≠ some p.2) (hnodup : (l.map (·.2)).Nodup)
    (hvalid : ∀ p ∈ l, ∀ o, Completes L s o → ∀ name, o.Valid s.body.func name p.2) :
    Ensures L.env (l.forM fun p => declareNamed p.1 p.2) s fun _ => Names L home s := by
  induction l generalizing s with
  | nil => exact .refl h
  | cons p l ih =>
    obtain ⟨hp, hnodup⟩ := List.nodup_cons.1 hnodup
    rw [List.forall_mem_cons] at hknows hnew hvalid
    show Ensures L.env (declareNamed p.1 p.2 >>= fun _ => l.forM fun p => declareNamed p.1 p.2) s _
    refine (ensures_declareNamed h hknows.1 (fun _ => hnew.1) hvalid.1).bind fun _ s₁ hdone => ?_
    obtain ⟨hnames, hfound⟩ := hdone
    have hgrows := hnames.advances.grows
    refine (ih hnames.advances.order (fun q hq => ?_) (fun q hq name hfind => ?_) hnodup
      fun q hq o ho name => ?_).imp fun _ _ => hnames.trans
    · rw [hnames.advances.body]
      exact hgrows.knows (hknows.2 q hq)
    · obtain heq | hold := hfound name _ hfind
      · exact hp (List.mem_map.2 ⟨q, hq, heq⟩)
      · exact hnew.2 q hq name hold
    · rw [hnames.advances.body]
      exact hvalid.2 q hq o (ho.mono hgrows) name

theorem declareNames_eq (b : WaitingBody) (results : List Nat) :
    declareNames b results = (b.paramSymbols ++ b.resultSymbols results).forM
      fun p => declareNamed p.1 p.2 := by
  unfold declareNames WaitingBody.paramSymbols WaitingBody.resultSymbols
  simp

section Declare

variable {b : WaitingBody} {f : FuncInfo} (hw : Waiting L s b home f)

include hw

theorem ensures_declareNames (h : Between L s) (horder : InOrder L home (s.entered b f)) :
    Ensures L.env (declareNames b (List.range' s.asm.vars.size b.outs.length)) (s.entered b f)
      fun _ => Names L home (s.entered b f) := by
  have hgrows := grows_entered hw
  have hscopes := scopes_entered h hw
  have hfind (name : String) : (s.entered b f).scopes.find? name =
      (s.names.seenFrom b.path b.horizons).find? name := by
    show (s.names.enterBody b.path b.horizons).scopes.find? name = _
    rw [NameTable.scopes_enterBody hw.path, Scopes.find?_open]
  have placed {i : Nat} (hi : i < b.outs.length) :=
    out_entered (s := s) (f := f) (List.getElem?_eq_getElem hi)
  rw [declareNames_eq]
  refine ensures_declareEach _ horder (fun p hp => ?_) (fun p hp name hp' => ?_) ?_ fun p hp o ho name => ?_
  · obtain hp | hp := List.mem_append.1 hp
    · obtain ⟨i, t, heq, -⟩ := WaitingBody.mem_paramSymbols hp
      rw [heq]
      exact ⟨b.begun f s, info_entered hw, rfl⟩
    · obtain ⟨i, hi, heq⟩ := WaitingBody.mem_resultSymbols hp
      rw [heq]
      exact ⟨_, _, (placed hi).2, rfl, Nat.le_refl _⟩
  · rw [hfind] at hp'
    obtain hp | hp := List.mem_append.1 hp
    · obtain ⟨i, t, heq, -⟩ := WaitingBody.mem_paramSymbols hp
      rw [heq] at hp'
      obtain ⟨g, hg, hentry⟩ := hscopes.known hp'
      cases hw.info.symm.trans hg
      rw [hw.entry] at hentry
      cases hentry
    · obtain ⟨i, -, heq⟩ := WaitingBody.mem_resultSymbols hp
      rw [heq] at hp'
      have := (hscopes.known hp').var_lt
      omega
  · refine b.nodup_symbols (List.nodup_range' ..) ?_
    exact Nat.le_of_eq (by rw [List.length_range', length_outs hw.results, hw.results])
  · obtain hp | hp := List.mem_append.1 hp
    · obtain ⟨i, t, heq, ht⟩ := WaitingBody.mem_paramSymbols hp
      rw [heq]
      obtain ⟨g, hg, hbecomes⟩ := (ho.mono hgrows).funcs _ _ hw.info
      exact ⟨b.sig, by rw [Program.sig?, hg, Option.bind_some, hbecomes.sig, hw.declares], ht⟩
    · obtain ⟨i, hi, heq⟩ := WaitingBody.mem_resultSymbols hp
      rw [heq]
      obtain ⟨hplace, hplaced⟩ := placed hi
      obtain ⟨hdepth, hnest⟩ := hw.nest o (ho.mono hgrows)
      exact sees_of_frame ho (info_entered hw) hplace hplaced hdepth hnest

end Declare

/-! ## Bodies that end -/

end Compile

/-- The state when the main body goes on, behind the words of a function. -/
def CompileState.left (s s' : CompileState) (id : Nat) (f : FuncInfo) : CompileState :=
  { s' with
    asm := { s'.asm.put id { f with stop := some s'.asm.code.size } with opened := [] }
    names := s'.names.returnTo s.names
    body := s.body }

section Leave

variable {b : WaitingBody} {f g : FuncInfo}

theorem becomes_ended {n : Nat} (hg : g.stop = none) : g.Becomes { g with stop := some n } :=
  { FuncInfo.Becomes.refl g with
    ended := fun hsome => by
      rw [hg] at hsome
      cases hsome }

theorem grows_left (hg : s'.asm.funcs[b.func]? = some g) (hstop : g.stop = none) :
    Grows s' (s.left s' b.func g) :=
  { Grows.refl s' with
    funcs := funcsGrow_set hg (becomes_ended hstop)
    slots := fun _ _ h => h.imp (fun h => h) fun h => ⟨h.free, h.noRef, h.word⟩ }

theorem funcs_left {id : Nat} {k : FuncInfo} (hk : (s.left s' b.func g).asm.funcs[id]? = some k) :
    id = b.func ∧ k = { g with stop := some s'.asm.code.size } ∨
      b.func ≠ id ∧ s'.asm.funcs[id]? = some k := by
  obtain ⟨rfl, heq⟩ | ⟨hne, hold⟩ := getElem?_setIfInBounds_of hk
  · exact .inl ⟨rfl, heq⟩
  · exact .inr ⟨hne, hold⟩

/-- A body that waits is not the one that is left, whose words had begun. -/
theorem queue_left (h' : InOrder L home s') (hg : s'.asm.funcs[b.func]? = some g) (hstop : g.stop = none)
    (hentry : g.entry.isSome) :
    ∀ b' ∈ s'.queue, ∃ home' f', Waiting L (s.left s' b.func g) b' home' f' := by
  intro b' hb'
  obtain ⟨home', f', hw'⟩ := h'.declared.queue b' hb'
  refine ⟨home', f', hw'.grow (grows_left hg hstop) ?_ (Nat.le_refl _) fun _ => rfl⟩
  have hne : b.func ≠ b'.func := by
    intro heq
    have hinfo := hw'.info
    rw [← heq, hg] at hinfo
    cases hinfo
    rw [hw'.entry] at hentry
    cases hentry
  show (s'.asm.funcs.setIfInBounds b.func _)[b'.func]? = _
  rw [Array.getElem?_setIfInBounds_ne hne]
  exact hw'.info

theorem between_left (h : Between L s) (hs : Grows s s') (h' : InOrder L home s')
    (hnames : (s.names.enterBody b.path b.horizons).Grows s'.names)
    (hbody : s'.body.func = some b.func)
    (hg : s'.asm.funcs[b.func]? = some g) (hstop : g.stop = none)
    (hentry : g.entry.isSome) (hcoded : ∀ o k, Completes L (s.left s' b.func g) o →
      o.program.funcs[b.func]? = some k → FuncCode o b.func k) :
    Between L (s.left s' b.func g) := by
  have hgrows := grows_left (s := s) hg hstop
  have hsize : (s.left s' b.func g).asm.funcs.size = s'.asm.funcs.size := Array.size_setIfInBounds ..
  have hfunc : s.body.func = none := (Option.some.inj h.declared.owner).symm
  refine ⟨{ h'.tidy with ref_lt := fun r hr => ?_ }, ?_, h.path, h.floor⟩
  · rw [hsize]
    exact h'.tidy.ref_lt r hr
  exact
    { decls := hsize.symm ▸ h'.declared.decls
      owner := h.declared.owner
      signed := fun id k hk => by
        obtain ⟨rfl, rfl⟩ | ⟨-, hk⟩ := funcs_left hk
        · obtain ⟨sig, hsig, hresolved⟩ := h'.declared.signed _ g hg
          exact ⟨sig, hsig.becomes (becomes_ended hstop), hresolved⟩
        · exact h'.declared.signed id k hk
      literals := fun label id hid => by
        obtain ⟨hle, hlt, q, hq, hj⟩ := h'.declared.literals label id hid
        exact ⟨hle, hsize.symm ▸ hlt, q, hgrows.owner? hq, hj⟩
      labels := hsize.symm ▸ h'.declared.labels
      depth := fun o ho => h.declared.depth o (ho.mono (hs.trans hgrows))
      main := h.declared.main
      running := fun id hid => by
        rw [show (s.left s' b.func g).body.func = s.body.func from rfl, hfunc] at hid
        cases hid
      opened := by
        show [] = s.body.func.toList
        rw [hfunc]
        rfl
      names := NameTable.sound_returnTo h.declared.names h'.declared.names hnames
      scopes := by
        show ScopeValid L _ s.body.func s.body.depth (s'.names.returnTo s.names).scopes
        rw [NameTable.scopes_returnTo h.declared.names hnames]
        exact h.declared.scopes.grow (hs.trans hgrows)
      queue := queue_left h' hg hstop hentry
      queue_nodup := h'.declared.queue_nodup
      idle := fun id k hk hstop' => by
        obtain ⟨-, rfl⟩ | ⟨hne, hk⟩ := funcs_left hk
        · cases hstop'
        · obtain hid | hvars := h'.declared.idle id k hk hstop'
          · exact absurd (Option.some.inj (hbody.symm.trans hid)) hne
          · exact .inr hvars
      coded := fun id k hk hended o k' ho hk' => by
        obtain ⟨rfl, rfl⟩ | ⟨-, hk⟩ := funcs_left hk
        · exact hcoded o k' ho hk'
        · exact h'.declared.coded id k hk hended o k' (ho.mono hgrows) hk' }

end Leave

namespace Compile

/-- The frame of a function has its results and then the variables of its body. -/
theorem vars_of_emitted {b : WaitingBody} {f g : FuncInfo} {s₁ s₂ : CompileState}
    (hw : Waiting L s b home f) (hnames : Names L home (s.entered b f) s₁)
    (hframe : FrameGrows s₁ s₂) (hbody : s₂.body = s₁.body)
    (hg : s₂.asm.funcs[b.func]? = some g) :
    s₁.asm.vars.size = s.asm.vars.size + b.outs.length ∧
      g.vars.toList = List.range' s.asm.vars.size g.vars.size ∧
        s₂.asm.vars.size = s.asm.vars.size + g.vars.size := by
  have hbody₁ : s₁.body.func = some b.func := by rw [hnames.advances.body]; rfl
  have hsize₁ : s₁.asm.vars.size = s.asm.vars.size + b.outs.length := by
    rw [hnames.asm]
    show (s.asm.vars ++ (Assembly.placedAt f.depth 0 b.outs).toArray).size = _
    simp [Assembly.placedAt]
  have hframe₁ : s₁.frame? = some (List.range' s.asm.vars.size b.outs.length) := by
    rw [frame?, hbody₁, hnames.asm]
    simp only [info_entered hw, Option.map_some]
    rfl
  obtain ⟨n, hsize, hframe₂⟩ := hframe.frame _ hframe₁
  rw [frame?, hbody, hbody₁] at hframe₂
  simp only [hg, Option.map_some, Option.some.injEq, hsize₁, List.range'_append_1] at hframe₂
  have hlen : g.vars.size = b.outs.length + n := by
    rw [← Array.length_toList, hframe₂, List.length_range']
  exact ⟨hsize₁, hlen ▸ hframe₂, by omega⟩

/-- The code of the statements is that of the function. -/
theorem funcCode_of_emitted {b : WaitingBody} {f g : FuncInfo} {s₁ s₂ : CompileState}
    (h : Between L s) (hw : Waiting L s b home f) (hnames : Names L home (s.entered b f) s₁)
    (hcode : Advances L home s₁ s₂ fun o is => StmtsCode (s₁.site o) b.stmts is (s₂.site o))
    (hg : s₂.asm.funcs[b.func]? = some g) (hbecomes : (b.begun f s).Becomes g)
    (hstop : g.stop = none) {o : Output} {k : FuncInfo} (ho : Completes L (s.left s₂ b.func g) o)
    (hk : o.program.funcs[b.func]? = some k) : FuncCode o b.func k := by
  have ho₂ := ho.mono (grows_left (s := s) hg hstop)
  have hleft : (s.left s₂ b.func g).asm.funcs[b.func]? = some { g with stop := some s₂.asm.code.size } :=
    Assembly.getElem?_put hg
  obtain ⟨k', hk', hends⟩ := ho.funcs _ _ hleft
  cases hk.symm.trans hk'
  have hfull : (b.begun f s).Becomes k := (hbecomes.trans (becomes_ended hstop)).trans hends
  obtain ⟨hentry, hparams, hnumOut⟩ := hfull.begun rfl
  obtain ⟨is, hsize, hreads, hstmts⟩ := hcode.emitted o ho₂
  have hstart : s₁.asm.code.size = s.asm.code.size := by rw [hnames.asm]; rfl
  obtain ⟨sig, hsig, -⟩ := h.declared.signed _ f hw.info
  obtain rfl : b.sig = sig := Option.some.inj (hw.declares.symm.trans hsig.declares)
  have hgrows := (grows_entered hw).trans
    (hnames.advances.grows.trans hcode.grows)
  obtain ⟨hlen, hnest⟩ := hw.nest o (ho₂.mono hgrows)
  obtain ⟨hfirst, hvars, hnext⟩ := vars_of_emitted hw hnames hcode.frame hcode.body hg
  have hsame : k.vars = g.vars := (hends.ended rfl).2
  have hsite : s₁.site o =
      ⟨o, b.body f, s₁.scopes, s.asm.vars.size + b.sig.results.length⟩ := by
    rw [CompileState.site, hnames.advances.body, hfirst, length_outs hw.results]
    rfl
  rw [hsite, ← hw.stmts o (ho₂.mono hgrows)] at hstmts
  have hbody : (b.body f).Of b.func b.sig := ⟨rfl, rfl, rfl⟩
  refine .mk hparams ((hsig.becomes (becomes_begun hw)).becomes hfull)
    (hnumOut.trans (length_outs hw.results)) ?_ (hsame ▸ hvars) (hsame ▸ hnext) hbody
    (((becomes_begun hw).trans hfull).depth.trans hlen.symm) hnest hentry ?_ (hstart ▸ hreads) hstmts
    (fun name id hid => ?_) hnames.advances.order.declared.scopes.apart
  · intro i t ht
    obtain ⟨v, hv, hty⟩ := ty_outs hw.results ht
    obtain ⟨hplace, hplaced⟩ := out_entered (s := s) (f := f) hv
    exact ⟨_, _, hfull.vars _ _ hplace,
      (ho₂.mono (hnames.advances.grows.trans hcode.grows)).vars _ _ hplaced, hty⟩
  · rw [(hends.ended rfl).1, hsize, hstart]
  · rw [← length_outs hw.results, ← hfirst]
    exact (hnames.advances.order.declared.scopes.known hid).var_lt

/-- The frame of a function that waits is made, and its words begin. -/
theorem ensures_beginFunc {b : WaitingBody} {f : FuncInfo}
    {Q : List Nat × Body → CompileState → Prop} (h : Between L s) (hw : Waiting L s b home f)
    (hQ : Q (List.range' s.asm.vars.size b.outs.length, b.body f) (s.begun b f)) :
    Ensures L.env (beginFunc b) s Q := by
  obtain ⟨sig, hsig, -⟩ := h.declared.signed _ f hw.info
  obtain rfl : b.sig = sig := Option.some.inj (hw.declares.symm.trans hsig.declares)
  have hput {a : Assembly} {g g' : FuncInfo} (hg : a.funcs[b.func]? = some g) :
      (a.put b.func g').funcs[b.func]? = some g' := Assembly.getElem?_put hg
  have hparams : (s.asm.put b.func { f with params := b.sig.params }).funcs[b.func]? = _ :=
    hput hw.info
  unfold beginFunc
  refine ensures_bind_ok (exec_asm_ok (Assembly.exec_setParams hw.info hsig)) ?_
  refine ensures_bind_ok (exec_asm_ok (Assembly.exec_results hparams hw.vars addr_outs)) ?_
  refine ensures_bind_ok (exec_asm_ok (Assembly.exec_defineFunc (hput hparams) hw.entry)) ?_
  refine ensures_bind_ok (exec_asm_ok (Assembly.exec_func (hput (hput hparams)))) ?_
  simp only [Assembly.put, Array.setIfInBounds_setIfInBounds]
  exact hQ

/-- The main body goes on behind the bodies of functions. -/
structure Returned (L : Layout) (s s' : CompileState) : Prop where
  between : Between L s'
  shadow : s'.shadow = []
  grows : Grows s s'
  mainVars : s'.asm.mainVars = s.asm.mainVars

/-- The words of a function, and its variables, lie behind all others. -/
structure Ends (s s' : CompileState) (id : Nat) (g : FuncInfo) : Prop where
  info : s'.asm.funcs[id]? = some g
  entry : g.entry = some s.asm.code.size
  stop : g.stop = some s'.asm.code.size
  vars : g.vars.toList = List.range' s.asm.vars.size g.vars.size
  size : s'.asm.vars.size = s.asm.vars.size + g.vars.size

/-- The statements of a body were emitted, while the function that they belong to was running. -/
structure Runs (env : CompileEnv) (b : WaitingBody) (s s' : CompileState) : Prop where
  stmts : ∃ s₁ s₂ f g, (emitStmts b.stmts env).exec s₁ = (.ok ⟨⟩, s₂) ∧ s₁.queue = s.queue ∧
    s₁.asm.funcs = s.asm.funcs.setIfInBounds b.func f ∧ f.stop = none ∧ s'.queue = s₂.queue ∧
    s'.asm.funcs = s₂.asm.funcs.setIfInBounds b.func g

/-- The words of a function end where the main body goes on. -/
theorem exec_left (env : CompileEnv) {id : Nat} {g : FuncInfo} (h : InOrder L home s')
    (hbody : s'.body.func = some id) (hg : s'.asm.funcs[id]? = some g) :
    ((asm (Assembly.endFunc id)) env).exec
      { s' with names := s'.names.returnTo s.names, body := s.body } = (.ok ⟨⟩, s.left s' id g) := by
  have hopened : s'.asm.opened = [id] := by
    rw [h.declared.opened, hbody]
    rfl
  exact exec_asm_ok (Assembly.exec_endFunc hg hopened)

/-- A body that has waited is compiled, and the main body goes on. -/
theorem ensures_emitBody {b : WaitingBody} {f : FuncInfo} (h : Between L s)
    (hs : s.shadow = []) (hw : Waiting L s b home f) (hnew : b.func ∉ s.queue.map (·.func)) :
    Ensures L.env (emitBody b) s fun _ s' =>
      Returned L s s' ∧ (∃ g, Ends s s' b.func g) ∧ Runs L.env b s s' := by
  unfold emitBody
  refine ensures_bind.2 (ensures_beginFunc h hw ?_)
  unfold inBody
  have horder := order_entered h hw hnew
  refine ensures_bind.2 (ensures_bind.2 ?_)
  simp only [ensures_get]
  refine ensures_bind.2 ?_
  simp only [ensures_set]
  refine ensures_bind.2 (ensures_bind.2 ?_)
  refine (ensures_declareNames hw h horder).imp fun _ s₁ hnames => ?_
  refine (emitsStmts b.stmts hw.placed s₁ hnames.advances.order
    (hnames.shadow.trans hs)).and_exec.imp fun _ s₂ hdone => ?_
  obtain ⟨⟨hshadow', hcode⟩, hrun⟩ := hdone
  have hgrows₂ := hnames.advances.grows.trans hcode.grows
  have hgrows := (grows_entered hw).trans hgrows₂
  obtain ⟨g, hg, hbecomes⟩ := hgrows₂.funcs _ _ (info_entered hw)
  have hbody₁ : s₁.body.func = some b.func := by
    rw [hnames.advances.body]
    rfl
  have hbody : s₂.body.func = some b.func := by rw [hcode.body, hbody₁]
  have hmain : s₂.asm.mainVars = s.asm.mainVars := by
    rw [hcode.frame.mainVars (by rw [hbody₁]; rfl), hnames.asm]
    rfl
  obtain ⟨g', sig, hr⟩ := hcode.order.declared.running _ hbody
  cases hg.symm.trans hr.info
  have hend := exec_left (s := s) L.env hcode.order hbody hg
  refine ensures_bind.2 ?_
  simp only [ensures_modify, ensures_pure]
  refine Task.Ensures.of_exec (fun a s₃ hexec => ?_) fun e s₃ hexec => ?_
  · cases hend.symm.trans hexec
    have hscopes := hnames.advances.names.trans hcode.names
    obtain ⟨-, hvars, hsize⟩ := vars_of_emitted hw hnames hcode.frame hcode.body hg
    refine ⟨⟨between_left h hgrows hcode.order hscopes hbody hg hr.stop hr.entry fun o k ho hk =>
      funcCode_of_emitted h hw hnames hcode hg hbecomes hr.stop ho hk, hshadow',
      hgrows.trans (grows_left hg hr.stop), hmain⟩, ⟨{ g with stop := some s₂.asm.code.size }, ?_,
      (hbecomes.begun rfl).1, rfl, hvars, hsize⟩, ⟨s₁, s₂, b.begun f s, _, hrun, hnames.queue, ?_,
      hw.stop, rfl, rfl⟩⟩
    · exact Assembly.getElem?_put hg
    · rw [hnames.asm]
      rfl
  · cases hend.symm.trans hexec

end Compile

end StackScript
