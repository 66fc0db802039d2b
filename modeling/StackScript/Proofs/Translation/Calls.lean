import StackScript.Proofs.Translation.Naming

/-!
# Parts of a call

`Piles` is for code that leaves several values, such as the arguments of a call: their entries have
no slots, so they may be dropped together. `ensures_passArgs` and `ensures_emitCall` are the two
halves of a call.
-/

namespace StackScript

open CompileState

variable {L : Layout} {home : Home} {s s' s'' : CompileState} {R R' : Output → List Instr → Prop}

/-- Code was added while entries without slots came to the top of the shadow stack. -/
structure Piles (L : Layout) (home : Home) (s s' : CompileState) (R : Output → List Instr → Prop) :
    Prop where
  entries : ∃ es, s'.shadow = es ++ s.shadow ∧ ∀ e ∈ es, e.slot? = none
  moves : Moves L home s s' R

namespace Piles

theorem mono (h : Piles L home s s' R) (hR : ∀ o is, Completes L s' o → R o is → R' o is) :
    Piles L home s s' R' :=
  { h with moves := h.moves.mono hR }

theorem seq (h : Piles L home s s' R) (h' : Piles L home s' s'' R') :
    Piles L home s s'' fun o is => ∃ is₁ is₂, is = is₁ ++ is₂ ∧ R o is₁ ∧ R' o is₂ where
  entries := by
    obtain ⟨es, hs, hes⟩ := h.entries
    obtain ⟨es', hs', hes'⟩ := h'.entries
    refine ⟨es' ++ es, by rw [hs', hs, List.append_assoc], fun e he => ?_⟩
    exact (List.mem_append.1 he).elim (hes' e) (hes e)
  moves := h.moves.seq h'.moves

theorem of_same (h : Moves L home s s' R) (hs : s'.shadow = s.shadow) : Piles L home s s' R :=
  ⟨⟨[], hs, fun _ he => nomatch he⟩, h⟩

theorem of_one {e : Inferred} (h : Moves L home s s' R) (hs : s'.shadow = e :: s.shadow)
    (he : e.slot? = none) : Piles L home s s' R :=
  ⟨⟨[e], hs, fun _ he' => List.mem_singleton.1 he' ▸ he⟩, h⟩

end Piles

theorem LooksAhead.piles (h : LooksAhead L home s s') : Piles L home s s' fun _ is => is = [] :=
  .of_same h.moves h.shadow

/-- What is shown as a constant is one to the look-ahead. -/
theorem Inferred.Agrees.const_of_shows {i e : Inferred} {o : Output} {p : Pushed} (h : i.Agrees e)
    (hp : e.Shows o p) (hc : p.isConst = true) : ∃ c slot, i = .const c slot := by
  cases h with
  | slot => exact ⟨_, _, rfl⟩
  | emitted v => exact ⟨_, _, rfl⟩
  | value t =>
    cases hp
    cases hc
  | results ts =>
    cases hp
    cases hc
  | func f sig =>
    cases hp
    cases hc
  | package path name =>
    cases hp
    cases hc

namespace Compile

/-! ## Counts, results and the call itself -/

theorem ensures_checkCount {sig : Signature} {skip n : Nat} {shown : String}
    {Q : PUnit → CompileState → Prop} (h : sig.Takes skip n → Q ⟨⟩ s) :
    Ensures L.env (checkCount sig skip n shown) s Q := by
  unfold checkCount
  cases hv : sig.variadic with
  | true =>
    simp only [if_true]
    split
    · trivial
    · refine h ?_
      rw [Signature.Takes, if_pos hv]
      omega
  | false =>
    simp only [Bool.false_eq_true, if_false]
    split
    · trivial
    · refine h ?_
      rw [Signature.Takes, if_neg (by simp [hv])]
      omega

theorem length_argTypes (sig : Signature) (skip n : Nat) : (argTypes sig skip n).length = n := by
  simp only [argTypes, List.length_take, List.length_append, List.length_replicate]
  omega

/-- Results that are passed on have the types of the parameters. -/
theorem ensures_fitResults {types targets : List Ty} {context : String} {s : CompileState}
    (h : InOrder L home s) (hlen : types.length = targets.length) :
    Ensures L.env (fitResults types targets context) s fun _ s' => Assignable types targets ∧
      Piles L home s s' fun _ is => is = [] := by
  induction types generalizing targets s with
  | nil =>
    obtain rfl : targets = [] := List.length_eq_zero_iff.1 hlen.symm
    exact ⟨.nil, .of_same (.refl h) rfl⟩
  | cons t types ih =>
    cases targets with
    | nil => cases hlen
    | cons target targets =>
      show Ensures L.env ((checkAssignable t target context >>= fun _ => push (.value target)) >>=
        fun _ => fitResults types targets context) s _
      refine ensures_bind.2 (ensures_bind.2 ?_)
      unfold checkAssignable
      split
      · rename_i ht
        have hpush := (Moves.refl h).push (.value target) rfl
        refine (ih hpush.order (Nat.succ.inj hlen)).imp fun _ s' ⟨hfit, hpiles⟩ => ?_
        refine ⟨.cons ht hfit, ((Piles.of_one hpush rfl rfl).seq hpiles).mono fun o is _ hr => ?_⟩
        obtain ⟨is₁, is₂, his, h₁, h₂⟩ := hr
        subst h₁ h₂
        exact his
      · trivial

theorem isVariadic_of_signed {o : Output} {id : Nat} {f g : FuncInfo} {sig : Signature}
    (ho : Completes L s o) (hf : s.asm.funcs[id]? = some f) (hsig : f.Signed sig)
    (hg : o.program.funcs[id]? = some g) : g.isVariadic = sig.variadic := by
  obtain ⟨g', hg', hbecomes⟩ := ho.funcs _ _ hf
  cases hg.symm.trans hg'
  exact (hsig.becomes hbecomes).isVariadic

theorem ensures_emitCall {ref : FuncRef} {sig : Signature} {arity : Arity} (h : InOrder L home s)
    (hfunc : s.HasFunc (.func ref sig)) :
    Ensures L.env (emitCall sig arity ref) s fun _ s' => s'.shadow = s.shadow ∧
      Step L s s' fun o is => CallCode o.program ref arity is := by
  unfold emitCall
  split
  · rename_i id
    obtain ⟨f, hf, hsig⟩ := hfunc
    refine (ensures_closure (L := L) h.tidy (Extends.lt_of_getElem? hf)).bind
      fun _ s₁ ⟨hshadow, hstep⟩ => ?_
    refine (ensures_callClosure (L := L) hstep.tidy).imp fun _ s₂ ⟨hshadow', hstep'⟩ => ?_
    refine ⟨hshadow'.trans hshadow, (hstep.seq hstep').mono fun o is _ hr => ?_⟩
    obtain ⟨_, _, rfl, ⟨variadic, place, hat, rfl⟩, rfl⟩ := hr
    exact .literal hat
  · rename_i id
    obtain ⟨f, hf, hsig⟩ := hfunc
    have hid := Extends.lt_of_getElem? hf
    split
    · rename_i hv
      refine (ensures_callFuncv (L := L) h.tidy hid).imp fun _ s₁ ⟨hshadow, hstep⟩ =>
        ⟨hshadow, hstep.mono fun o is ho hr => ?_⟩
      obtain ⟨g, place, js, field, hg, hat, harity, rfl⟩ := hr
      rw [isVariadic_of_signed (ho.mono hstep.grows) hf hsig hg, hv] at hat
      exact .variadic hat harity
    · rename_i hv
      refine (ensures_callFunc (L := L) h.tidy hid).imp fun _ s₁ ⟨hshadow, hstep⟩ =>
        ⟨hshadow, hstep.mono fun o is ho hr => ?_⟩
      obtain ⟨g, place, hg, hat, rfl⟩ := hr
      rw [isVariadic_of_signed (ho.mono hstep.grows) hf hsig hg, Bool.eq_false_iff.2 hv] at hat
      exact .fixed hat
  · refine (ensures_callNativev (L := L) h.tidy).imp fun _ s₁ ⟨hshadow, hstep⟩ =>
      ⟨hshadow, hstep.mono fun o is ho hr => ?_⟩
    obtain ⟨js, field, harity, rfl⟩ := hr
    exact .nativeVariadic harity
  · refine (ensures_callNative (L := L) h.tidy).imp fun _ s₁ ⟨hshadow, hstep⟩ =>
      ⟨hshadow, hstep.mono fun o is ho his => ?_⟩
    subst his
    exact .nativeFixed

theorem ensures_cutTo {n : Nat} {es rest : Shadow} {Q : PUnit → CompileState → Prop}
    (hs : s.shadow = es ++ rest) (hn : rest.length = n) (h : Q ⟨⟩ (s.withShadow rest)) :
    Ensures L.env (cutTo n) s Q := by
  have hcut : Shadow.cutTo? s.shadow n = .ok rest := by
    subst hn
    rw [hs, Shadow.cutTo?, if_pos (by simp)]
    simp
  unfold cutTo
  refine ensures_bind.2 ?_
  simp only [ensures_get, hcut]
  exact h

/-- What lies on top is dropped from the shadow stack, and one entry stands for all. -/
theorem ensures_leave {n : Nat} {entry : Inferred} (h : Piles L home s s' R)
    (hn : s.shadow.length = n) (hlies : entry.Lies) (hslot : entry.slot? = none) :
    Ensures L.env (cutTo n >>= fun _ => push entry) s' fun _ s'' =>
      s''.shadow = entry :: s.shadow ∧ Moves L home s s'' R := by
  obtain ⟨es, hs, hes⟩ := h.entries
  refine ensures_bind.2 (ensures_cutTo hs hn ?_)
  exact ⟨rfl, h.moves.replace [entry] hs hes (by simpa using ⟨hslot, hlies⟩)⟩

theorem shows_resultEntry (o : Output) (sig : Signature) :
    (resultEntry sig).Shows o (.ofResults sig) := by
  unfold resultEntry Pushed.ofResults
  match sig.results with
  | [] => exact .results _
  | [t] => exact .value t
  | _ :: _ :: _ => exact .results _

theorem resultEntry_cases (sig : Signature) :
    (resultEntry sig).Agrees (resultEntry sig) ∧ (resultEntry sig).slot? = none := by
  unfold resultEntry
  split
  · exact ⟨.value _, rfl⟩
  · exact ⟨.results _, rfl⟩

/-! ## Arguments -/

/-- What comes of looking for a sole argument that gives several values. -/
inductive Soled (L : Layout) (home : Home) (s : CompileState) :
    List Expr → Option (List Ty) → CompileState → Prop
  | each {args : List Expr} {s' : CompileState} (h : LooksAhead L home s s') :
    Soled L home s args none s'
  | sole {e : Expr} {types : List Ty} {s' : CompileState} (htypes : 2 ≤ types.length)
    (h : Piles L home s s' fun o is => Code (s.site o) e (.results types) is) :
    Soled L home s [e] (some types) s'

/-- Expressions were emitted in turn, each brought to its type. -/
def Passes (L : Layout) (home : Home) (s : CompileState) (args : List Expr) (types : List Ty)
    (s' : CompileState) : Prop :=
  Piles L home s s' fun o is => args.length = types.length → Each (s.site o) args types is

theorem ensures_passArgs {sig : Signature} {skip : Nat} {shown : String} {args : List Expr}
    {spread : Bool} (h : InOrder L home s)
    (hsole : Ensures L.env (emitSole args) s (Soled L home s args))
    (heach : ∀ s' context types, InOrder L home s' →
      Ensures L.env (emitEach args context types) s' fun _ => Passes L home s' args types) :
    Ensures L.env (passArgs sig skip shown args.length spread (emitSole args) (emitEach args)) s
      fun arity s' => Piles L home s s' fun o is => Passed (s.site o) sig skip args spread arity is := by
  unfold passArgs
  cases spread with
  | true =>
    simp only [if_true]
    split
    · trivial
    · rename_i hvariadic
      split
      · trivial
      · rename_i hlen
        refine ensures_bind.2 ((heach s _ _ h).imp fun _ s' hpasses => hpasses.mono fun o is _ hr => ?_)
        exact .spread (by simpa using hvariadic) (hr (by simpa using hlen))
  | false =>
    simp only [Bool.false_eq_true, if_false]
    refine hsole.bind fun r s₁ hr => ?_
    cases hr with
    | each hahead =>
      refine ensures_bind.2 (ensures_checkCount fun htakes => ?_)
      refine ensures_bind.2 ((heach s₁ _ _ hahead.order).imp fun _ s₂ hpasses => ?_)
      refine (hahead.piles.seq hpasses).mono fun o is _ hr => ?_
      obtain ⟨_, is₂, rfl, rfl, heach⟩ := hr
      rw [hahead.later.site] at heach
      exact .each htakes (heach (length_argTypes ..).symm)
    | sole htypes hpiles =>
      refine ensures_bind.2 (ensures_checkCount fun htakes => ?_)
      refine (ensures_fitResults hpiles.moves.order (length_argTypes ..).symm).bind
        fun _ s₂ ⟨hfit, hfits⟩ => ?_
      refine (hpiles.seq hfits).mono fun o is _ hr => ?_
      obtain ⟨is₁, _, rfl, hcode, rfl⟩ := hr
      rw [List.append_nil]
      exact .sole hcode htypes htakes hfit

/-! ## Receivers -/

section Method

variable {addr : Nat} {variadic : Bool} {sig : Signature}

/-- The look-ahead finds a method on a value only. -/
theorem method_of_infer {x : Expr} {name : String} {s' : CompileState}
    (h : ((infer (.select x name)) L.env).exec s =
      (.ok (.func (.native addr variadic true) sig), s')) :
    ∃ t s₁, ((infer x) L.env).exec s = (.ok (.value t), s₁) ∧
      Method L.env.registry t name addr variadic sig := by
  unfold infer at h
  obtain ⟨j, s₁, hj, h⟩ := exec_bind_eq_ok.1 h
  have hmember : Reads L.env s₁ (resolveMember j name >>= memberEntry) fun i =>
      i = .func (.native addr variadic true) sig →
        ∃ t, j = .value t ∧ Method L.env.registry t name addr variadic sig := by
    refine .bind reads_resolveMember fun m hm => ?_
    cases hm with
    | native hx =>
      refine (reads_nativeEntry hx).imp fun i hi heq => ?_
      subst heq
      cases hi
    | field hstrip hfield =>
      refine .pure fun heq => ?_
      cases heq
    | method hm =>
      cases hm with
      | mk hmethod =>
        refine .pure fun heq => ?_
        cases heq
        exact ⟨_, rfl, hmethod⟩
  obtain ⟨t, rfl, hmethod⟩ := (Ensures.of_exec hmember h).2.2 rfl
  exact ⟨t, s₁, hj, hmethod⟩

theorem method_of_settled {x : Expr} {name : String} {j : Inferred}
    (h : Settled L.env s (infer (.select x name)) (.func (.native addr variadic true) sig))
    (hj : Settled L.env s (infer x) j) :
    ∃ t, j = .value t ∧ Method L.env.registry t name addr variadic sig := by
  obtain ⟨t, s₁, hx, hmethod⟩ := method_of_infer h.exec
  cases hx.symm.trans hj.exec
  exact ⟨t, rfl, hmethod⟩

/-- Nothing but a selector stands for a method. -/
theorem exists_select_of_infer {f : Expr} {s' : CompileState}
    (h : ((infer f) L.env).exec s = (.ok (.func (.native addr variadic true) sig), s')) :
    ∃ x name, f = .select x name := by
  cases f with
  | select x name => exact ⟨x, name, rfl⟩
  | ident name =>
    unfold infer at h
    obtain ⟨n, s₁, -, h⟩ := exec_bind_eq_ok.1 h
    cases n with
    | native x =>
      obtain ⟨place, kind⟩ := x
      cases kind with
      | var =>
        obtain ⟨e, _, -, h⟩ := exec_bind_eq_ok.1 h
        dsimp only at h
        cases hv : e.registry.natives.vars[place]? <;> rw [hv] at h <;> cases h
      | func | funcv =>
        obtain ⟨_, _, -, h⟩ := exec_bind_eq_ok.1 h
        cases h
    | _ => cases h
  | lit l =>
    unfold infer at h
    obtain ⟨_, _, -, h⟩ := exec_bind_eq_ok.1 h
    cases h
  | binary op x y =>
    unfold infer at h
    obtain ⟨_, _, -, h⟩ := exec_bind_eq_ok.1 h
    obtain ⟨_, _, -, h⟩ := exec_bind_eq_ok.1 h
    obtain ⟨_, _, -, h⟩ := exec_bind_eq_ok.1 h
    split at h <;> cases h
  | call f args spread =>
    unfold infer at h
    obtain ⟨_, _, -, h⟩ := exec_bind_eq_ok.1 h
    obtain ⟨r, _, -, h⟩ := exec_bind_eq_ok.1 h
    have hentry : resultEntry r.2 = .func (.native addr variadic true) sig :=
      Except.ok.inj (congrArg Prod.fst h)
    unfold resultEntry at hentry
    split at hentry <;> cases hentry
  | funcLit label ty body =>
    unfold infer at h
    obtain ⟨_, _, -, h⟩ := exec_bind_eq_ok.1 h
    obtain ⟨_, _, -, h⟩ := exec_bind_eq_ok.1 h
    cases h
  | addrOf x =>
    unfold infer at h
    obtain ⟨_, _, -, h⟩ := exec_bind_eq_ok.1 h
    cases h
  | deref x =>
    unfold infer at h
    obtain ⟨_, _, -, h⟩ := exec_bind_eq_ok.1 h
    obtain ⟨_, _, -, h⟩ := exec_bind_eq_ok.1 h
    cases h

end Method

/-- The receiver of a method call, if it is one, was emitted. -/
inductive Received (L : Layout) (home : Home) (s : CompileState) (f : Expr) (sig : Signature) :
    FuncRef → Nat → CompileState → Prop
  | none {ref : FuncRef} (h : ∀ addr variadic, ref ≠ .native addr variadic true) :
    Received L home s f sig ref 0 s
  | some {x : Expr} {name : String} {addr : Nat} {variadic : Bool} {t recv : Ty} {params : List Ty}
    {s' : CompileState} (hf : f = .select x name)
    (hmethod : Method L.env.registry t name addr variadic sig) (hparams : sig.params = recv :: params)
    (h : Piles L home s s' fun o is =>
      t.assignable recv = true ∧ Code (s.site o) x (.value t) is) :
    Received L home s f sig (.native addr variadic true) 1 s'

theorem ensures_receiverType {t : Ty} {name shown : String} {addr : Nat} {variadic : Bool}
    {sig : Signature} {Q : Ty → CompileState → Prop}
    (hmethod : Method L.env.registry t name addr variadic sig)
    (h : ∀ recv params, sig.params = recv :: params → Q recv s) :
    Ensures L.env (receiverType sig shown) s Q := by
  unfold receiverType
  split
  · exact h _ _ ‹_›
  · exact Stops.incomplete fun hc => hc.receiver _ _ _ _ _ hmethod ‹_›

/-- Instructions that follow pointers. -/
theorem ensures_derefs (l : List Nat) {s : CompileState} (h : InOrder L home s) :
    Ensures L.env (l.forM fun _ => asm Assembly.deref) s fun _ s' => s'.shadow = s.shadow ∧
      Moves L home s s' fun _ is => is = List.replicate l.length .deref := by
  induction l generalizing s with
  | nil => exact ⟨rfl, .refl h⟩
  | cons n l ih =>
    show Ensures L.env (asm Assembly.deref >>= fun _ => l.forM fun _ => asm Assembly.deref) s _
    refine (ensures_deref (L := L) h.tidy).bind fun _ s₁ ⟨hshadow, hstep⟩ => ?_
    have hmoves := hstep.moves h
    refine (ih hmoves.order).imp fun _ s₂ ⟨hshadow', hmoves'⟩ => ?_
    refine ⟨hshadow'.trans hshadow, (hmoves.seq hmoves').mono fun o is _ hr => ?_⟩
    obtain ⟨_, _, rfl, rfl, rfl⟩ := hr
    rfl

theorem emitReceiver_eq {f : Expr} {sig : Signature} {ref : FuncRef}
    (h : ∀ addr variadic, ref ≠ .native addr variadic true) : emitReceiver f sig ref = pure 0 := by
  rcases ref with ⟨id, literal⟩ | ⟨addr, variadic, _ | _⟩
  · cases f <;> rfl
  · cases f <;> rfl
  · exact absurd rfl (h addr variadic)

theorem ensures_replace {n : Nat} {produced : List Inferred} {es rest : Shadow}
    {Q : PUnit → CompileState → Prop} (hs : s.shadow = es ++ rest) (hn : es.length = n)
    (h : Q ⟨⟩ (s.withShadow (produced.reverse ++ rest))) :
    Ensures L.env (replace n produced) s Q := by
  have hreplace : Shadow.replace? s.shadow n produced = .ok (produced.reverse ++ rest) := by
    subst hn
    rw [hs, Shadow.replace?, if_pos (by simp)]
    simp
  unfold replace
  refine ensures_bind.2 ?_
  simp only [ensures_get, hreplace]
  exact h

end Compile

end StackScript
