import StackScript.Proofs.Translation.Defining

/-!
# The code of assignments

An assignment pushes its values and then gives them to its targets, the last one first. A target
that is defined is a new variable, which is in scope for the targets before it.
-/

namespace StackScript

open CompileState

variable {L : Layout} {home : Home} {s s' s'' : CompileState} {R R' : Output → List Instr → Prop}

/-- One value. -/
def Inferred.isSingle : Inferred → Bool
  | .const .. | .value _ => true
  | _ => false

theorem Inferred.Shows.isSingle {e : Inferred} {o : Output} {p : Pushed} (h : e.Shows o p) :
    p.isSingle = e.isSingle := by
  cases h <;> rfl

namespace Compile

/-! ## Names as targets -/

/-- What a name stands for as a target. -/
def TargetName (s : CompileState) (name : String) : Nat ⊕ Nat × Ty → Prop
  | .inl id => s.scopes.find? name = some (.var id)
  | .inr (below, ty) => ∃ func index, s.scopes.find? name = some (.param func index ty) ∧
    s.body.func = some func ∧ below = s.body.numParams - index

theorem reads_assignable {name : String} {env : CompileEnv} (h : s.names.Sound) :
    Reads env s (assignable name) (TargetName s name) := by
  unfold assignable
  refine .bind (reads_find? h) fun x hx => ?_
  subst hx
  split
  · exact .pure ‹_›
  · exact .bind reads_paramBelow fun below ⟨hfunc, hbelow⟩ => .pure ⟨_, _, ‹_›, hfunc, hbelow⟩
  all_goals exact .fail trivial

theorem ensures_definedType {e : Inferred} {s : CompileState} {Q : Ty → CompileState → Prop}
    (h : ∀ t, declaredType? e = some t → Q t s) : Ensures L.env (definedType e) s Q := by
  unfold definedType
  split
  · exact h _ rfl
  · exact h _ rfl
  · trivial

/-- The value on top was given to a target. -/
def Gives (L : Layout) (home : Home) (s : CompileState) (rest : Shadow) (e : Inferred)
    (defines : Bool) (x : Expr) (s' : CompileState) : Prop :=
  s'.shadow = rest ∧ Advances L home s s' fun o is =>
    ∀ p, e.Shows o p → Given (s.site o) defines x p is (s'.site o)

section Targets

variable {e : Inferred} {rest : Shadow} (h : InOrder L home s) (hs : s.shadow = e :: rest)

include h hs

theorem ensures_discardBlank {defines : Bool} (hsingle : e.isSingle = true) :
    Ensures L.env discardTop s fun _ => Gives L home s rest e defines (.ident "_") := by
  refine (ensures_discardTop (L := L) h.tidy hs).imp fun _ s' ⟨hshadow, hstep⟩ =>
    ⟨hshadow, ((hstep.moves h).advances).mono ?_⟩
  rintro o _ ho ⟨rfl, hdefault⟩ p hp
  rw [hstep.later.site]
  exact .blank (hp.isSingle.trans hsingle) (hdefault p hp)

/-- The top value is brought to a type, and the shadow stack does not show it any more. -/
theorem ensures_fitAndDrop {target : Ty} {context : String} {β : Type} {k : Compile β}
    {Q : β → CompileState → Prop}
    (hk : ∀ s', s'.shadow = rest → Moves L home s s' (fun o is => is = [] ∧
      ∀ p, e.Shows o p → p.Fits target) → Ensures L.env k s' Q) :
    Ensures L.env (do fitTop target context; discard pop; k) s Q := by
  refine (ensures_fitTop (L := L) h.tidy hs).bind fun _ s₁ hfit => ?_
  refine ensures_bind.2 (ensures_discard.2 (ensures_pop hfit.shadow ?_))
  exact hk _ rfl ((hfit.step.moves h).drop hfit.shadow rfl)

theorem ensures_assignName {name : String} (hsingle : e.isSingle = true) :
    Ensures L.env (assignName name) s fun _ => Gives L home s rest e false (.ident name) := by
  unfold assignName
  split
  · rename_i hname
    subst hname
    exact ensures_discardBlank h hs hsingle
  · rename_i hname
    refine Ensures.bind (reads_assignable h.declared.names) fun r s₁ ⟨hs₁, _, hr⟩ => ?_
    subst hs₁
    rcases r with id | ⟨below, ty⟩
    · have hid : id < s₁.asm.vars.size := (h.declared.scopes.known hr).var_lt
      refine (reads_var hid).andThen fun v _ hv => ?_
      refine ensures_fitAndDrop h hs fun s₂ hshadow hfit => ?_
      have hfind : s₂.scopes.find? name = some (.var id) := by rw [hfit.later.scopes]; exact hr
      refine (ensures_emitStore hfit.order hfind).imp fun _ s₃ ⟨hshadow', v', hv', hstep⟩ => ?_
      cases hv'.symm.trans (hfit.later.grows.vars _ _ hv)
      have hmoves := hfit.seq (hstep.moves hfit.order)
      refine ⟨hshadow'.trans hshadow, hmoves.advances.mono ?_⟩
      rintro o _ ho ⟨_, _, rfl, ⟨rfl, hfits⟩, scope, index, hat, rfl⟩ p hp
      rw [hfit.later.site] at hat
      rw [hmoves.later.site]
      exact .var hname hat (hfits p hp)
    · obtain ⟨func, index, hfind, hfunc, hbelow⟩ := hr
      dsimp only
      refine ensures_fitAndDrop h hs fun s₂ hshadow hfit => ?_
      refine (ensures_storeArg (L := L) hfit.order.tidy).imp fun _ s₃ ⟨hshadow', hstep⟩ => ?_
      have hmoves := hfit.seq (hstep.moves hfit.order)
      refine ⟨hshadow'.trans hshadow, hmoves.advances.mono ?_⟩
      rintro o _ ho ⟨_, _, rfl, ⟨rfl, hfits⟩, rfl⟩ p hp
      rw [hmoves.later.site]
      exact .param hname (paramAt_of_completes h (ho.mono hmoves.later.grows) hfind hfunc hbelow)
        (hfits p hp)

theorem ensures_assignThrough {x : Expr} (hplaced : x.Placed L home) :
    Ensures L.env (assignThrough x) s fun _ => Gives L home s rest e false (.deref x) := by
  unfold assignThrough
  refine (ensures_infer x h hplaced).bind fun i s₁ hi => ?_
  refine reads_pointee.andThen fun elem _ ⟨t, ht, hptr⟩ => ?_
  subst ht
  refine ensures_fitAndDrop hi.ahead.order (hi.ahead.shadow.trans hs) fun s₂ hshadow hfit => ?_
  refine (emits x hplaced s₂ hfit.order).bind fun _ s₃ ⟨j, entry, hc⟩ => ?_
  obtain rfl := hc.settled.unique (hi.settled.later (hfit.later.trans hc.moves.later))
  cases hc.agrees
  refine ensures_bind.2 (ensures_discard.2 (ensures_pop hc.shadow ?_))
  have hpop := hc.moves.drop hc.shadow rfl
  refine (ensures_addrOp (L := L) hpop.order.tidy).imp fun _ s₄ ⟨hshadow', hstep⟩ => ?_
  have hmoves := hi.ahead.then (hfit.seq (hpop.seq (hstep.moves hpop.order)))
  refine ⟨hshadow'.trans hshadow, hmoves.advances.mono ?_⟩
  rintro o _ ho ⟨_, _, rfl, ⟨rfl, hfits⟩, is, _, rfl, ⟨p, hp, hcode⟩, rfl⟩ q hq
  cases hp
  rw [hfit.later.site, hi.ahead.later.site] at hcode
  rw [hmoves.later.site]
  exact .through hcode hptr (hfits q hq)

/-! ## Definitions -/

theorem ensures_defineName {name : String} (hsingle : e.isSingle = true) :
    Ensures L.env (defineName name) s fun _ => Gives L home s rest e true (.ident name) := by
  unfold defineName
  split
  · rename_i hname
    subst hname
    exact ensures_discardBlank h hs hsingle
  · rename_i hname
    refine ensures_bind.2 ?_
    simp only [ensures_get]
    split
    · trivial
    · rename_i hdeclares
      refine (ensures_bindDefaultTop (L := L) h.tidy hs).bind fun _ s₁ hdone => ?_
      obtain ⟨e', hbound⟩ := hdone
      refine ensures_bind.2 (ensures_pop hbound.shadow ?_)
      have hpop := (hbound.step.moves h).drop hbound.shadow hbound.slot
      refine ensures_bind.2 (ensures_definedType fun ty hty => ?_)
      refine (ensures_newVar hpop.order).bind fun id s₂ hnew => ?_
      obtain ⟨v, hv, hvty⟩ := hnew.var
      refine ensures_bind.2 (ensures_declare fun hfresh => ?_)
      have hsound := hnew.advances.order.declared.names
      have hdeclared : InOrder L home (s₂.declaring name (.var id)) :=
        order_declaring hnew.advances.order hfresh hnew.known (fun _ => hnew.find?_ne hpop.order) hnew.valid
      have hscope := advances_declaring hnew.advances.order hdeclared
      have hfind : (s₂.declaring name (.var id)).scopes.find? name = some (.var id) := by
        rw [scopes_declaring hsound, Scopes.find?_declare, if_pos rfl]
      refine (ensures_emitStore hdeclared hfind).imp fun _ s₃ hstored => ?_
      obtain ⟨hshadow, v', hv', hstep⟩ := hstored
      cases hv'.symm.trans hv
      have hbefore := (hpop.advances.seq hnew.advances).seq hscope
      have hmoves := hbefore.seq (hstep.moves hdeclared).advances
      have hscopes : s₂.scopes = s.scopes := by
        rw [CompileState.scopes, hnew.names, hpop.later.names, CompileState.scopes]
      refine ⟨hshadow.trans (hnew.shadow.trans rfl), hmoves.mono ?_⟩
      rintro o _ ho
        ⟨_, _, rfl, ⟨_, _, rfl, ⟨_, _, rfl, ⟨rfl, hdefault⟩, rfl⟩, rfl⟩, scope, index, hat, rfl⟩ p hp
      obtain ⟨hdef, hdecl⟩ := hdefault p hp
      have hfresh : id = s.asm.vars.size := hnew.fresh.trans (congrArg Array.size hpop.later.vars)
      have hsite : (s₂.declaring name (.var id)).site o = (s.site o).declare name := by
        have hsize : s₂.asm.vars.size = id + 1 := hnew.fresh.symm ▸ hnew.size
        show (⟨o, s₂.body, (s₂.declaring name (.var id)).scopes, s₂.asm.vars.size⟩ : Site) = _
        have hbody : s₂.body = s.body := hbefore.body
        rw [scopes_declaring hsound, hbody, hscopes, hsize, hfresh]
        rfl
      rw [hsite, hfresh] at hat
      rw [hstep.later.site, hsite]
      exact .define hname (s.names.declares_eq_scopes h.declared.names name ▸ by simpa using hdeclares) hat
        (by rw [hdecl, hty, hvty]) hdef

theorem ensures_assignTo {defines : Bool} {x : Expr} (hplaced : x.Placed L home)
    (hsingle : e.isSingle = true) :
    Ensures L.env (assignTo defines x) s fun _ => Gives L home s rest e defines x := by
  cases x with
  | ident name =>
    cases defines with
    | true => exact ensures_defineName h hs hsingle
    | false => exact ensures_assignName h hs hsingle
  | deref p =>
    cases defines with
    | true => trivial
    | false => exact ensures_assignThrough h hs hplaced
  | _ => trivial

end Targets

theorem exprsPlaced_iff {es : List Expr} :
    exprsPlaced L home es ↔ ∀ e ∈ es, e.Placed L home := by
  induction es with
  | nil => simp [exprsPlaced]
  | cons e es ih => simp [exprsPlaced, ih]

/-- Values on top are given to targets in turn. -/
theorem ensures_assignAll {defines : Bool} (xs : List Expr) {s : CompileState} {entries rest : Shadow}
    (h : InOrder L home s) (hplaced : ∀ x ∈ xs, x.Placed L home) (hs : s.shadow = entries ++ rest)
    (hlen : entries.length = xs.length) (hsingle : ∀ e ∈ entries, e.isSingle = true) :
    Ensures L.env (xs.forM (assignTo defines)) s fun _ s' => s'.shadow = rest ∧
      Advances L home s s' fun o is => ∀ ps, List.Forall₂ (Inferred.Shows o) entries ps →
        GivenAll (s.site o) defines xs ps is (s'.site o) := by
  induction xs generalizing s entries with
  | nil =>
    obtain rfl : entries = [] := List.length_eq_zero_iff.1 hlen
    refine ⟨hs, (Advances.refl h).mono ?_⟩
    rintro o _ ho rfl ps hps
    cases hps
    exact .nil
  | cons x xs ih =>
    cases entries with
    | nil => cases hlen
    | cons e entries =>
      show Ensures L.env (assignTo defines x >>= fun _ => xs.forM (assignTo defines)) s _
      refine (ensures_assignTo h hs (hplaced x (by simp)) (hsingle e (by simp))).bind
        fun _ s₁ ⟨hshadow, hx⟩ => ?_
      refine (ih hx.order (fun y hy => hplaced y (by simp [hy])) hshadow (Nat.succ.inj hlen)
        fun e' he' => hsingle e' (by simp [he'])).imp fun _ s₂ ⟨hshadow', hxs⟩ => ?_
      refine ⟨hshadow', (hx.seq hxs).mono ?_⟩
      rintro o _ ho ⟨is₁, is₂, rfl, hgiven, hall⟩ ps hps
      cases hps with
      | cons hp hps =>
        exact .cons (hgiven _ hp) (hall _ hps)

/-! ## Values -/

theorem ensures_checkSingle {x : Expr} {e : Inferred} {Q : PUnit → CompileState → Prop}
    (he : e.Lies) (h : e.isSingle = true → Q ⟨⟩ s) : Ensures L.env (checkSingle x e) s Q := by
  cases he with
  | slot => exact h rfl
  | emitted => exact h rfl
  | value => exact h rfl
  | results ts => cases ts <;> trivial
  | package => trivial

/-- Values were pushed, with one entry for each. -/
structure Heaps (L : Layout) (home : Home) (s : CompileState) (entries : Shadow) (s' : CompileState)
    (R : Output → List Pushed → List Instr → Prop) : Prop where
  shadow : s'.shadow = entries ++ s.shadow
  single : ∀ e ∈ entries, e.isSingle = true
  moves : Moves L home s s' fun o is =>
    ∃ ps, List.Forall₂ (Inferred.Shows o) entries ps ∧ R o ps is

theorem ensures_emitSingle {x : Expr} (h : InOrder L home s) (hplaced : x.Placed L home) :
    Ensures L.env (do emit x; checkSingle x (← top)) s fun _ s' => ∃ e,
      Heaps L home s [e] s' fun o ps is =>
        ∃ p, ps = [p] ∧ p.isSingle = true ∧ Code (s.site o) x p is := by
  refine (emits x hplaced s h).bind fun _ s₁ ⟨i, e, hc⟩ => ?_
  refine ensures_bind.2 (ensures_top hc.shadow ?_)
  refine ensures_checkSingle hc.agrees.lies fun hsingle => ?_
  refine ⟨e, hc.shadow, by simpa using hsingle, hc.moves.mono ?_⟩
  rintro o is ho ⟨p, hp, hcode⟩
  exact ⟨[p], .cons hp .nil, p, rfl, hp.isSingle.trans hsingle, hcode⟩

theorem ensures_emitSingles (xs : List Expr) {s : CompileState} (h : InOrder L home s)
    (hplaced : exprsPlaced L home xs) :
    Ensures L.env (xs.forM fun x => do emit x; checkSingle x (← top)) s fun _ s' => ∃ entries,
      entries.length = xs.length ∧
        Heaps L home s entries s' fun o ps is => Singles (s.site o) xs ps is := by
  induction xs generalizing s with
  | nil =>
    refine ⟨[], rfl, rfl, by simp, (Moves.refl h).mono ?_⟩
    rintro o _ ho rfl
    exact ⟨[], .nil, .nil⟩
  | cons x xs ih =>
    show Ensures L.env ((do emit x; checkSingle x (← top)) >>= fun _ => xs.forM _) s _
    refine (ensures_emitSingle h hplaced.1).bind fun _ s₁ ⟨e, hx⟩ => ?_
    refine (ih hx.moves.order hplaced.2).imp fun _ s₂ ⟨entries, hlen, hxs⟩ => ?_
    refine ⟨entries ++ [e], by simp [hlen], by rw [hxs.shadow, hx.shadow, List.append_assoc],
      fun e' he' => (List.mem_append.1 he').elim (hxs.single e') (hx.single e'),
      (hx.moves.seq hxs.moves).mono ?_⟩
    rintro o _ ho ⟨is₁, is₂, rfl, ⟨_, hp, p, rfl, hsingle, hcode⟩, ps, hps, hsingles⟩
    rw [hx.moves.later.site] at hsingles
    exact ⟨ps ++ [p], List.rel_append hps hp, .cons hcode hsingle hsingles⟩

theorem forall₂_shows_values (o : Output) (types : List Ty) :
    List.Forall₂ (Inferred.Shows o) (types.map .value) (types.map .value) := by
  induction types with
  | nil => exact .nil
  | cons t types ih => exact .cons (.value t) ih

/-- The results of a sole call stand for all values. -/
theorem ensures_emitResults {n : Nat} {x : Expr} {Q : PUnit → CompileState → Prop}
    (h : InOrder L home s) (hplaced : x.Placed L home)
    (hQ : ∀ s' entries, entries.length = n → Heaps L home s entries s' (fun o ps is =>
      Values (s.site o) n [x] ps is) → Q ⟨⟩ s') :
    Ensures L.env (do
      emit x
      match ← pop with
      | .results types =>
        if types.length = n then replace 0 (types.map .value)
        else fail (.valueCount n types.length)
      | _ => fail (.valueCount n 1)) s Q := by
  refine (emits x hplaced s h).bind fun _ s₁ ⟨i, e, hc⟩ => ?_
  refine ensures_bind.2 (ensures_pop hc.shadow ?_)
  have hagrees := hc.agrees
  cases hagrees with
  | results types =>
    dsimp only
    split
    · rename_i hlen
      have hentries : ∀ e ∈ (types.map Inferred.value).reverse, e.slot? = none ∧ e.Lies := by
        simp only [List.mem_reverse, List.mem_map]
        rintro _ ⟨t, -, rfl⟩
        exact ⟨rfl, .value t⟩
      refine ensures_replace (List.nil_append _).symm rfl (hQ _ (types.map Inferred.value).reverse
        (by simpa using hlen) ⟨rfl, ?_, ?_⟩)
      · simp only [List.mem_reverse, List.mem_map]
        rintro _ ⟨t, -, rfl⟩
        rfl
      · have hreplace := (hc.moves.drop hc.shadow rfl).replace _ (List.nil_append _).symm (by simp)
          hentries
        refine hreplace.mono ?_
        rintro o is ho ⟨p, hp, hcode⟩
        cases hp
        refine ⟨types.reverse.map .value, ?_, .sole hcode hlen⟩
        rw [← List.map_reverse]
        exact forall₂_shows_values o types.reverse
    · trivial
  | _ => trivial

theorem ensures_emitValues {n : Nat} {xs : List Expr} (h : InOrder L home s)
    (hplaced : exprsPlaced L home xs) :
    Ensures L.env (emitValues n xs) s fun _ s' => ∃ entries, entries.length = n ∧
      Heaps L home s entries s' fun o ps is => Values (s.site o) n xs ps is := by
  unfold emitValues
  split
  · rename_i x
    split
    · rename_i hn
      refine (ensures_emitSingle h hplaced.1).imp fun _ s' ⟨e, hx⟩ => ⟨[e], hn.symm, ?_⟩
      refine { hx with moves := hx.moves.mono ?_ }
      rintro o is ho ⟨_, hps, p, rfl, hsingle, hcode⟩
      have hsingles := Singles.cons hcode hsingle .nil
      rw [List.append_nil] at hsingles
      exact ⟨[p], hps, .each hn.symm hsingles⟩
    · exact ensures_emitResults h hplaced.1 fun s' entries hlen hheaps => ⟨entries, hlen, hheaps⟩
  · split
    · trivial
    · rename_i hn
      refine (ensures_emitSingles xs h hplaced).imp fun _ s' ⟨entries, hlen, hxs⟩ => ?_
      have hn' : xs.length = n := by simpa using hn
      refine ⟨entries, hlen.trans hn', { hxs with moves := hxs.moves.mono ?_ }⟩
      rintro o is ho ⟨ps, hps, hsingles⟩
      exact ⟨ps, hps, .each hn' hsingles⟩

/-- The code of an assignment. -/
theorem ensures_emitAssign {defines : Bool} {targets values : List Expr} (h : InOrder L home s)
    (htargets : exprsPlaced L home targets) (hvalues : exprsPlaced L home values) :
    Ensures L.env (emitAssign defines targets values) s fun _ s' => s'.shadow = s.shadow ∧
      Advances L home s s' fun o is => ∃ ps is₁ is₂, is = is₁ ++ is₂ ∧
        Values (s.site o) targets.length values ps is₁ ∧
          GivenAll (s.site o) defines targets.reverse ps is₂ (s'.site o) := by
  unfold emitAssign
  refine (ensures_emitValues h hvalues).bind fun _ s₁ ⟨entries, hlen, hx⟩ => ?_
  refine (ensures_assignAll targets.reverse hx.moves.order
    (fun x hxs => exprsPlaced_iff.1 htargets x (by simpa using hxs)) hx.shadow (by simpa using hlen)
    hx.single).imp fun _ s₂ ⟨hshadow, hall⟩ => ⟨hshadow, (hx.moves.advances.seq hall).mono ?_⟩
  rintro o _ ho ⟨is₁, is₂, rfl, ⟨ps, hps, hvals⟩, hgiven⟩
  have hgiven' := hgiven ps hps
  rw [hx.moves.later.site] at hgiven'
  exact ⟨ps, is₁, is₂, rfl, hvals, hgiven'⟩

end Compile

end StackScript
