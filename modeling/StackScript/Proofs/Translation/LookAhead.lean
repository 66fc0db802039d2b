import StackScript.Proofs.Translation.Declared

/-!
# The look-ahead

`infer` emits nothing and declares nothing but function literals. What it finds of an expression is
settled: from every later state of the same place it finds the same, and then changes nothing
(`Settled`). So the compiler may look ahead again while it emits.
-/

namespace StackScript

open CompileState

/-! ## Types in source form -/

theorem stops_of_packLast {params : List Ty} {e : CompileError} {env : CompileEnv}
    (h : packLast params = .error e) : Compile.Stops env (.error e) := by
  unfold packLast at h
  split at h
  · cases h
  · cases h
    trivial

theorem packLast_eq_ok {params ts : List Ty} (h : packLast params = .ok ts) :
    ts.length = params.length ∧ ∃ t, ts.getLast? = some (.slice t) := by
  unfold packLast at h
  split at h
  · rename_i last hlast
    cases h
    have hne : params ≠ [] := by
      rintro rfl
      cases hlast
    have hpos := List.length_pos_of_ne_nil hne
    refine ⟨?_, last, by simp⟩
    rw [List.length_append, List.length_dropLast, List.length_singleton]
    omega
  · cases h

section Resolve

variable {r : Registry} {find : String → Option Symbol} {env : CompileEnv}

mutual

theorem TypeExpr.stops {t : TypeExpr} {e : CompileError} (h : t.resolve r find = .error e) :
    Compile.Stops env (.error e) := by
  cases t with
  | name name =>
    simp only [TypeExpr.resolve] at h
    split at h <;> cases h
    trivial
  | qualified package name =>
    simp only [TypeExpr.resolve, qualifiedType] at h
    split at h <;> cases h
    trivial
  | slice elem =>
    simp only [TypeExpr.resolve] at h
    obtain h | ⟨_, _, h⟩ := bind_eq_error h
    · exact TypeExpr.stops h
    · cases h
  | ptr elem =>
    simp only [TypeExpr.resolve] at h
    obtain h | ⟨_, _, h⟩ := bind_eq_error h
    · exact TypeExpr.stops h
    · cases h
  | func ty =>
    simp only [TypeExpr.resolve] at h
    obtain h | ⟨_, _, h⟩ := bind_eq_error h
    · exact FuncTypeExpr.stops h
    · cases h

theorem FuncTypeExpr.stops {t : FuncTypeExpr} {e : CompileError}
    (h : t.resolve r find = .error e) : Compile.Stops env (.error e) := by
  obtain ⟨params, variadic, results⟩ := t
  simp only [FuncTypeExpr.resolve] at h
  obtain h | ⟨ps, _, h⟩ := bind_eq_error h
  · exact stops_resolveParams h
  · cases variadic with
    | true =>
      obtain h | ⟨qs, _, h⟩ := bind_eq_error h
      · exact stops_of_packLast h
      · obtain h | ⟨_, _, h⟩ := bind_eq_error h
        · exact stops_resolveParams h
        · cases h
    | false =>
      obtain h | ⟨_, _, h⟩ := bind_eq_error h
      · cases h
      · obtain h | ⟨_, _, h⟩ := bind_eq_error h
        · exact stops_resolveParams h
        · cases h

theorem stops_resolveParams {ps : List Param} {e : CompileError}
    (h : resolveParams r find ps = .error e) : Compile.Stops env (.error e) := by
  cases ps with
  | nil => cases h
  | cons p ps =>
    obtain ⟨name, ty⟩ := p
    simp only [resolveParams, Param.resolve] at h
    obtain h | ⟨_, _, h⟩ := bind_eq_error h
    · exact TypeExpr.stops h
    · obtain h | ⟨_, _, h⟩ := bind_eq_error h
      · exact stops_resolveParams h
      · cases h

end

theorem length_resolveParams {ps : List Param} {ts : List Ty}
    (h : resolveParams r find ps = .ok ts) : ts.length = ps.length := by
  induction ps generalizing ts with
  | nil =>
    cases h
    rfl
  | cons p ps ih =>
    simp only [resolveParams] at h
    obtain ⟨t, _, h⟩ := bind_eq_ok h
    obtain ⟨us, hus, h⟩ := bind_eq_ok h
    cases h
    rw [List.length_cons, List.length_cons, ih hus]

/-- The signature of a function type has a type for each parameter and result, and the last
parameter of a variadic one is a slice. -/
theorem FuncTypeExpr.resolve_eq_ok {t : FuncTypeExpr} {sig : Signature}
    (h : t.resolve r find = .ok sig) : t.params.length = sig.params.length ∧
      t.results.length = sig.results.length ∧
      (sig.variadic = true → ∃ t, sig.params.getLast? = some (.slice t)) := by
  obtain ⟨params, variadic, results⟩ := t
  simp only [FuncTypeExpr.resolve] at h
  obtain ⟨ps, hps, h⟩ := bind_eq_ok h
  have hlen := length_resolveParams hps
  cases variadic with
  | true =>
    obtain ⟨qs, hqs, h⟩ := bind_eq_ok h
    obtain ⟨rs, hrs, h⟩ := bind_eq_ok h
    cases h
    obtain ⟨hqlen, hlast⟩ := packLast_eq_ok hqs
    exact ⟨by rw [hqlen, hlen], (length_resolveParams hrs).symm, fun _ => hlast⟩
  | false =>
    obtain ⟨qs, hqs, h⟩ := bind_eq_ok h
    obtain ⟨rs, hrs, h⟩ := bind_eq_ok h
    cases hqs
    cases h
    exact ⟨hlen.symm, (length_resolveParams hrs).symm, fun hv => nomatch hv⟩

/-- The last parameter of a variadic signature takes a slice. -/
theorem Signature.Resolved.last {sig : Signature} (h : sig.Resolved r) :
    sig.variadic = true → ∃ t, sig.params.getLast? = some (.slice t) := by
  obtain ⟨find, ty, hresolve⟩ := h
  exact (FuncTypeExpr.resolve_eq_ok hresolve).2.2

end Resolve

/-! ## New functions -/

/-- The descriptor of a function that has a signature and no words. -/
def FuncInfo.declared (name : String) (depth : Nat) (sig : Signature) : FuncInfo :=
  ⟨name, depth, [], if sig.variadic then .variadic else .fixed, 0, #[], none, none, some sig⟩

theorem Assembly.exec_func {a : Assembly} {id : Nat} {f : FuncInfo} (h : a.funcs[id]? = some f) :
    (Assembly.func id).exec a = (.ok f, a) := by
  show (Task.expect a.funcs[id]?).exec a = _
  rw [h]
  rfl

theorem Assembly.exec_updateFunc {a : Assembly} {id : Nat} {f g : FuncInfo}
    {change : FuncInfo → Except BuildError FuncInfo} (h : a.funcs[id]? = some f)
    (hg : change f = .ok g) : (Assembly.updateFunc id change).exec a =
      (.ok ⟨⟩, { a with funcs := a.funcs.setIfInBounds id g }) := by
  unfold Assembly.updateFunc
  rw [Task.exec_bind_ok (exec_func h), hg]
  rfl

/-- The state with another function at the end of the table. -/
def CompileState.withFunc (s : CompileState) (f : FuncInfo) : CompileState :=
  { s with asm := { s.asm with funcs := s.asm.funcs.push f } }

namespace Compile

variable {env : CompileEnv} {s : CompileState}

theorem exec_asm_ok {α : Type} {t : Asm α} {a : α} {asm : Assembly}
    (h : t.exec s.asm = (.ok a, asm)) :
    ((Compile.asm t) env).exec s = (.ok a, { s with asm }) := by
  rw [exec_asm, h]

theorem exec_updateLast {f g : FuncInfo} {change : FuncInfo → Except BuildError FuncInfo}
    (hg : change f = .ok g) :
    ((asm (Assembly.updateFunc s.asm.funcs.size change)) env).exec (s.withFunc f) =
      (.ok ⟨⟩, s.withFunc g) := by
  have h : (s.withFunc f).asm.funcs[s.asm.funcs.size]? = some f := Array.getElem?_push_size
  rw [exec_asm_ok (Assembly.exec_updateFunc h hg)]
  simp only [withFunc, setIfInBounds_push]

/-- A new function comes to the end of the table, with its signature. -/
theorem exec_newFunc {name : String} {depth : Nat} {sig : Signature} :
    ((newFunc name depth sig) env).exec s =
      (.ok s.asm.funcs.size, s.withFunc (.declared name depth sig)) := by
  have hnew : ((asm (Assembly.newFunc name depth)) env).exec s =
      (.ok s.asm.funcs.size, s.withFunc (.new name depth)) := exec_asm_ok rfl
  have hvariadic : ((asm (Assembly.setVariadic s.asm.funcs.size sig.variadic)) env).exec
      (s.withFunc (.new name depth)) = (.ok ⟨⟩, s.withFunc { FuncInfo.new name depth with
        variadicity := if sig.variadic then .variadic else .fixed }) := exec_updateLast rfl
  have hsig : ((asm (Assembly.setSignature s.asm.funcs.size sig)) env).exec
      (s.withFunc { FuncInfo.new name depth with
        variadicity := if sig.variadic then .variadic else .fixed }) =
      (.ok ⟨⟩, s.withFunc (.declared name depth sig)) := exec_updateLast rfl
  unfold newFunc
  rw [exec_bind_ok hnew, exec_bind_ok hvariadic, exec_bind_ok hsig]
  rfl

end Compile

/-! ## Looking ahead -/

variable {L : Layout} {home : Home} {s s' s'' : CompileState}

/-- The variables in the frame of the body that is compiled. -/
def CompileState.frame? (s : CompileState) : Option (List Nat) :=
  match s.body.func with
  | none => some s.asm.mainVars.toList
  | some id => s.asm.funcs[id]?.map (·.vars.toList)

/-- A later state at the same place of the file. -/
structure Later (s s' : CompileState) : Prop where
  grows : Grows s s'
  names : s'.names = s.names
  body : s'.body = s.body
  vars : s'.asm.vars = s.asm.vars
  mainVars : s'.asm.mainVars = s.asm.mainVars
  frame : ∀ ids, s.frame? = some ids → s'.frame? = some ids

theorem Later.refl (s : CompileState) : Later s s :=
  ⟨.refl s, rfl, rfl, rfl, rfl, fun _ h => h⟩

theorem Later.trans (h : Later s s') (h' : Later s' s'') : Later s s'' :=
  ⟨h.grows.trans h'.grows, h'.names.trans h.names, h'.body.trans h.body, h'.vars.trans h.vars,
    h'.mainVars.trans h.mainVars, fun ids hids => h'.frame ids (h.frame ids hids)⟩

theorem Later.scopes (h : Later s s') : s'.scopes = s.scopes := by
  rw [CompileState.scopes, h.names, CompileState.scopes]

theorem Step.later {R : Output → List Instr → Prop} (h : Step L s s' R) : Later s s' :=
  ⟨h.grows, h.same.names, h.same.body, h.same.vars, h.same.mainVars,
    fun ids hids => by rwa [frame?, h.same.body, h.same.mainVars, h.same.funcs]⟩

/-- Only function literals were entered. -/
structure LooksAhead (L : Layout) (home : Home) (s s' : CompileState) : Prop where
  later : Later s s'
  order : InOrder L home s'
  shadow : s'.shadow = s.shadow
  code : s'.asm.code = s.asm.code

theorem LooksAhead.refl (h : InOrder L home s) : LooksAhead L home s s :=
  ⟨.refl s, h, rfl, rfl⟩

theorem LooksAhead.trans (h : LooksAhead L home s s') (h' : LooksAhead L home s' s'') :
    LooksAhead L home s s'' :=
  ⟨h.later.trans h'.later, h'.order, h'.shadow.trans h.shadow, h'.code.trans h.code⟩

/-! ## Function literals -/

/-- The state after a function literal was entered. -/
def CompileState.withLiteral (s : CompileState) (label : Nat) (f : FuncInfo) (b : WaitingBody) :
    CompileState :=
  { s.withFunc f with
    queue := s.queue ++ [b], literals := (label, s.asm.funcs.size) :: s.literals }

section Literal

variable {label : Nat} {f : FuncInfo} {b : WaitingBody}

theorem lookup_withLiteral : (s.withLiteral label f b).literals.lookup label =
    some s.asm.funcs.size := by
  simp [withLiteral]

theorem lookup_withLiteral_of_ne {label' : Nat} (h : label' ≠ label) :
    (s.withLiteral label f b).literals.lookup label' = s.literals.lookup label' := by
  have hne : (label' == label) = false := by simpa using h
  simp [withLiteral, List.lookup_cons, hne]

theorem grows_withLiteral (hfresh : s.literals.lookup label = none) :
    Grows s (s.withLiteral label f b) :=
  { Grows.refl s with
    funcs := .of_extends (.push _ _)
    literals := fun label' id hid => by
      rw [lookup_withLiteral_of_ne]
      · exact hid
      · rintro rfl
        rw [hfresh] at hid
        cases hid
    slots := fun _ _ h => h.imp id fun h => ⟨h.free, h.noRef, h.word⟩ }

theorem later_withLiteral (hfresh : s.literals.lookup label = none) :
    Later s (s.withLiteral label f b) where
  grows := grows_withLiteral hfresh
  names := rfl
  body := rfl
  vars := rfl
  mainVars := rfl
  frame ids hids := by
    unfold frame? at hids ⊢
    show (match s.body.func with
      | none => some s.asm.mainVars.toList
      | some id => (s.asm.funcs.push f)[id]?.map (·.vars.toList)) = some ids
    split at hids
    · exact hids
    · obtain ⟨g, hg, rfl⟩ := Option.map_eq_some_iff.1 hids
      exact Option.map_eq_some_iff.2 ⟨g, Extends.push _ _ _ _ hg, rfl⟩

theorem sees_cons {o : Output} {chain : List Nat} {id g : Nat} (h : o.Sees chain id) :
    o.Sees (g :: chain) id := by
  obtain ⟨v, a, hv, ha, h⟩ := h
  refine ⟨v, a, hv, ha, ?_⟩
  split at h
  · rename_i hdepth
    rw [if_pos hdepth]
    exact h
  · rename_i hdepth
    rw [if_neg hdepth]
    obtain ⟨hle, g', f, hg, hf, hvar⟩ := h
    refine ⟨Nat.le_succ_of_le hle, g', f, ?_, hf, hvar⟩
    rw [List.length_cons, Nat.succ_sub hle]
    exact hg

/-- A literal sees what the place sees where it stands. -/
theorem scopeValid_withLiteral (h : InOrder L home s) (hfresh : s.literals.lookup label = none)
    (hhome : L.homes label = home) :
    ScopeValid L (s.withLiteral label f b) (some s.asm.funcs.size) (s.body.depth + 1) s.scopes := by
  have hgrows := grows_withLiteral (f := f) (b := b) hfresh
  refine ⟨fun hx => (hgrows.knows (h.declared.scopes.known hx)).mono (Nat.le_succ _),
    fun {name x} hx o ho => ?_, h.declared.scopes.apart⟩
  have hx' := h.declared.scopes.valid hx o (ho.mono hgrows)
  cases x with
  | var id =>
    have hnest := ho.nest label _ _ lookup_withLiteral
      (hhome ▸ hgrows.owner? h.declared.owner)
    show o.Sees (o.nest s.asm.funcs.size) id
    rw [hnest]
    exact sees_cons hx'
  | param func index ty => exact hx'
  | package path => trivial
  | func id => exact hx'

/-- Another literal has another function. -/
theorem Labelled.cons {literals : List (Nat × Nat)} {n : Nat} (h : Labelled L literals n)
    (hfresh : literals.lookup label = none) (hlt : label < L.labels) :
    Labelled L ((label, n) :: literals) (n + 1) where
  count := by rw [List.length_cons, h.count, Nat.add_assoc]
  lt p hp := by
    obtain rfl | hp := List.mem_cons.1 hp
    · exact ⟨hlt, Nat.lt_succ_self n⟩
    · exact ⟨(h.lt p hp).1, Nat.lt_succ_of_lt (h.lt p hp).2⟩
  labels_nodup := by
    refine List.nodup_cons.2 ⟨fun hmem => ?_, h.labels_nodup⟩
    obtain ⟨p, hp, rfl⟩ := List.mem_map.1 hmem
    exact List.lookup_eq_none_iff.1 hfresh p hp |> fun hne => by simp at hne
  funcs_nodup := by
    refine List.nodup_cons.2 ⟨fun hmem => ?_, h.funcs_nodup⟩
    obtain ⟨p, hp, rfl⟩ := List.mem_map.1 hmem
    exact Nat.lt_irrefl _ (h.lt p hp).2

/-! ### Where a literal was entered -/

theorem funcs_withLiteral {id : Nat} {g : FuncInfo}
    (h : (s.withLiteral label f b).asm.funcs[id]? = some g) : g = f ∨ s.asm.funcs[id]? = some g := by
  change (s.asm.funcs.push f)[id]? = some g at h
  rw [Array.getElem?_push] at h
  split at h
  · cases h
    exact .inl rfl
  · exact .inr h

theorem size_withLiteral : (s.withLiteral label f b).asm.funcs.size = s.asm.funcs.size + 1 :=
  Array.size_push f

theorem literals_withLiteral (h : Declared L home s) (hfresh : s.literals.lookup label = none)
    (hhome : L.homes label = home) {label' id : Nat}
    (hid : (s.withLiteral label f b).literals.lookup label' = some id) :
    L.decls ≤ id ∧ id < (s.withLiteral label f b).asm.funcs.size ∧
      ∃ q, (s.withLiteral label f b).owner? (L.homes label') = some q ∧ ∀ j, q = some j → j < id := by
  have hgrows := grows_withLiteral (f := f) (b := b) hfresh
  rw [size_withLiteral]
  by_cases hlabel : label' = label
  · subst hlabel
    rw [lookup_withLiteral] at hid
    cases hid
    refine ⟨h.decls, Nat.lt_succ_self _, s.body.func, hhome ▸ hgrows.owner? h.owner, fun j hj => ?_⟩
    obtain ⟨g, _, hr⟩ := h.running j hj
    exact Extends.lt_of_getElem? hr.info
  · rw [lookup_withLiteral_of_ne hlabel] at hid
    obtain ⟨hdecls, hlt, q, hq, hj⟩ := h.literals _ _ hid
    exact ⟨hdecls, Nat.lt_succ_of_lt hlt, q, hgrows.owner? hq, hj⟩

theorem queue_nodup_withLiteral (h : Declared L home s) (hb : b.func = s.asm.funcs.size) :
    ((s.withLiteral label f b).queue.map (·.func)).Nodup := by
  show ((s.queue ++ [b]).map _).Nodup
  rw [List.map_append, List.nodup_append]
  refine ⟨h.queue_nodup, by simp, fun id hid id' hid' => ?_⟩
  obtain ⟨b', hb', rfl⟩ := List.mem_map.1 hid
  obtain ⟨_, g, hw⟩ := h.queue b' hb'
  have hlt := Extends.lt_of_getElem? hw.info
  simp only [List.map_cons, List.map_nil, List.mem_singleton] at hid'
  omega

section

variable {name : String} {sig : Signature} {ty : FuncTypeExpr} {stmts : List Stmt}

/-- The body of a literal waits, with the scopes of the place where the literal stands. -/
theorem waiting_withLiteral (h : InOrder L home s) (hfresh : s.literals.lookup label = none)
    (hhome : L.Has label home stmts) (hplaced : stmtsPlaced L (.literal label) stmts)
    (hparams : ty.params.length = sig.params.length)
    (hresults : ty.results.length = sig.results.length)
    (hb : b = ⟨s.asm.funcs.size, sig, ty, stmts, s.names.path, s.names.horizonsHere⟩) :
    Waiting L (s.withLiteral label (.declared name (s.body.depth + 1) sig) b) b (.literal label)
      (.declared name (s.body.depth + 1) sig) := by
  subst hb
  have hgrows := grows_withLiteral (f := .declared name (s.body.depth + 1) sig)
    (b := ⟨s.asm.funcs.size, sig, ty, stmts, s.names.path, s.names.horizonsHere⟩) hfresh
  refine
    { owner := by simp only [CompileState.owner?, lookup_withLiteral, Option.map_some]
      info := Array.getElem?_push_size
      entry := rfl
      stop := rfl
      vars := rfl
      declares := rfl
      params := hparams
      results := hresults
      placed := hplaced
      nest := fun o ho => ?_
      stmts := fun o ho => (ho.bodies _ _ lookup_withLiteral).trans hhome.body
      path := h.declared.names.path
      outermost := fun hnil => by simp [NameTable.horizonsHere] at hnil
      scopes := fun _ => ?_ }
  · have hnest := ho.nest label _ _ lookup_withLiteral
      (hhome.home ▸ hgrows.owner? h.declared.owner)
    refine ⟨?_, _, hnest⟩
    show (o.nest s.asm.funcs.size).length = _
    rw [hnest, List.length_cons, h.declared.depth o (ho.mono hgrows)]
    rfl
  · have hvalid := scopeValid_withLiteral (f := .declared name (s.body.depth + 1) sig)
      (b := ⟨s.asm.funcs.size, sig, ty, stmts, s.names.path, s.names.horizonsHere⟩) h hfresh
      hhome.home
    rwa [CompileState.scopes, ← NameTable.seenFrom_horizonsHere h.declared.names] at hvalid

theorem declared_withLiteral (h : InOrder L home s) (hfresh : s.literals.lookup label = none)
    (hhome : L.Has label home stmts) (hplaced : stmtsPlaced L (.literal label) stmts)
    (hresolved : sig.Resolved L.env.registry)
    (hparams : ty.params.length = sig.params.length)
    (hresults : ty.results.length = sig.results.length)
    (hb : b = ⟨s.asm.funcs.size, sig, ty, stmts, s.names.path, s.names.horizonsHere⟩) :
    Declared L home (s.withLiteral label (.declared name (s.body.depth + 1) sig) b) := by
  have hgrows := grows_withLiteral (f := .declared name (s.body.depth + 1) sig) (b := b) hfresh
  have hinfo {id : Nat} {f : FuncInfo} (hf : s.asm.funcs[id]? = some f) :
      (s.asm.funcs.push (.declared name (s.body.depth + 1) sig))[id]? = some f :=
    Extends.push _ _ _ _ hf
  refine
    { decls := Nat.le_trans h.declared.decls (size_withLiteral ▸ Nat.le_succ _)
      owner := hgrows.owner? h.declared.owner
      signed := fun id f hf => ?_
      literals := fun _ _ => literals_withLiteral h.declared hfresh hhome.home
      labels := size_withLiteral ▸ h.declared.labels.cons hfresh hhome.lt
      depth := fun o ho => h.declared.depth o (ho.mono hgrows)
      main := h.declared.main
      running := fun id hid => ?_
      opened := h.declared.opened
      names := h.declared.names
      scopes := h.declared.scopes.grow hgrows
      queue := fun b' hb' => ?_
      queue_nodup := queue_nodup_withLiteral h.declared (hb ▸ rfl)
      idle := fun id f hf hstop => ?_
      coded := fun id f hf hstop o g ho hg => ?_ }
  · obtain rfl | hf := funcs_withLiteral hf
    · exact ⟨sig, ⟨rfl, rfl, hresolved.last⟩, hresolved⟩
    · exact h.declared.signed id f hf
  · obtain ⟨f, sig', hr⟩ := h.declared.running id hid
    exact ⟨f, sig', hr.grow hgrows rfl (hinfo hr.info)⟩
  · obtain hb' | hb' := List.mem_append.1 hb'
    · obtain ⟨hb', f, hw⟩ := h.declared.queue b' hb'
      exact ⟨hb', f, hw.grow hgrows (hinfo hw.info) (Nat.le_refl _) fun _ => rfl⟩
    · cases List.mem_singleton.1 hb'
      exact ⟨_, _, waiting_withLiteral h hfresh hhome hplaced hparams hresults hb⟩
  · obtain rfl | hf := funcs_withLiteral hf
    · exact .inr rfl
    · exact h.declared.idle id f hf hstop
  · obtain rfl | hf := funcs_withLiteral hf
    · cases hstop
    · exact h.declared.coded id f hf hstop o g (ho.mono hgrows) hg

theorem order_withLiteral (h : InOrder L home s) (hfresh : s.literals.lookup label = none)
    (hhome : L.Has label home stmts) (hplaced : stmtsPlaced L (.literal label) stmts)
    (hresolved : sig.Resolved L.env.registry)
    (hparams : ty.params.length = sig.params.length)
    (hresults : ty.results.length = sig.results.length) :
    InOrder L home (s.withLiteral label (.declared name (s.body.depth + 1) sig)
      ⟨s.asm.funcs.size, sig, ty, stmts, s.names.path, s.names.horizonsHere⟩) where
  tidy := { h.tidy with
    ref_lt := fun r hr => ⟨(h.tidy.ref_lt r hr).1,
      size_withLiteral ▸ Nat.lt_succ_of_lt (h.tidy.ref_lt r hr).2⟩ }
  declared := declared_withLiteral h hfresh hhome hplaced hresolved hparams hresults rfl
  covers b hb hne := by
    obtain hb | hb := List.mem_append.1 hb
    · exact h.covers b hb hne
    · cases List.mem_singleton.1 hb
      exact NameTable.covers_horizonsHere

end

end Literal

namespace Compile

theorem ensures_resolveSignature {env : CompileEnv} {ty : FuncTypeExpr}
    {Q : Signature → CompileState → Prop}
    (h : ∀ sig, ty.params.length = sig.params.length → ty.results.length = sig.results.length →
      sig.Resolved env.registry → Q sig s) :
    Ensures env (resolveSignature ty) s Q := by
  unfold resolveSignature
  refine ensures_bind.2 ?_
  simp only [ensures_read]
  refine ensures_bind.2 ?_
  simp only [ensures_get]
  refine ensures_ofExcept.2 ⟨fun sig hsig => ?_, fun e he => FuncTypeExpr.stops he⟩
  obtain ⟨hparams, hresults, -⟩ := FuncTypeExpr.resolve_eq_ok hsig
  exact h sig hparams hresults ⟨_, ty, hsig⟩

/-- A literal has one function, which it gets when it is first met. -/
theorem ensures_literalFunc {label : Nat} {ty : FuncTypeExpr} {stmts : List Stmt}
    (h : InOrder L home s) (hhome : L.Has label home stmts)
    (hplaced : stmtsPlaced L (.literal label) stmts) :
    Ensures L.env (literalFunc label ty stmts) s fun id s' => LooksAhead L home s s' ∧
      s'.literals.lookup label = some id := by
  unfold literalFunc
  refine ensures_bind.2 ?_
  simp only [ensures_get]
  split
  · rename_i id hid
    exact ⟨.refl h, hid⟩
  · rename_i hfresh
    refine ensures_bind.2 (ensures_resolveSignature fun sig hparams hresults hresolved => ?_)
    refine ensures_bind.2 (Task.Ensures.of_exec (fun id s₁ hnew => ?_) fun e s₁ hnew => ?_)
    · rw [exec_newFunc] at hnew
      cases hnew
      exact ⟨⟨later_withLiteral hfresh,
        order_withLiteral h hfresh hhome hplaced hresolved hparams hresults, rfl, rfl⟩,
        lookup_withLiteral⟩
    · rw [exec_newFunc] at hnew
      cases hnew

end Compile

end StackScript
