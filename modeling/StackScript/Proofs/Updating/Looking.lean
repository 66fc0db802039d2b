import StackScript.Proofs.Updating.Uniform

/-!
# The code of expressions that call nothing

For an expression without calls that stands for a constant or a value the compiler emits, wherever it
does so, the same words, and their instructions only look (`Compile.leavesOne_emit`). The words of a
pointer do not even depend on the constants of the pool (`Compile.steady_emit`).
-/

namespace StackScript

open CompileState

/-- Whether evaluating the expression calls a function. The body of a function literal is not run then. -/
def Expr.hasCall : Expr → Bool
  | .ident _ | .lit _ | .funcLit .. => false
  | .binary _ x y => x.hasCall || y.hasCall
  | .call .. => true
  | .select x _ | .addrOf x | .deref x => x.hasCall
termination_by structural e => e

/-! ## Answers that are settled -/

section

variable {α β : Type} {env : CompileEnv} {s s' : CompileState}

theorem AddsLiterals.eq_or_lt (h : s.AddsLiterals s') :
    s' = s ∨ s.literals.length < s'.literals.length := by
  induction h with
  | refl => exact .inl rfl
  | @literal s' _ label ty stmts sig hnew ih =>
    have hlength : (s'.withLiteral label (s'.literalInfo sig) (s'.literalBody sig ty stmts)).literals.length =
        s'.literals.length + 1 := rfl
    obtain rfl | hlt := ih <;> exact .inr (by omega)

/-- If the answer to two questions is settled, then so is that to each. -/
theorem Settled.of_bind {t : Compile α} {f : α → Compile β} {b : β} (h : Settled env s (t >>= f) b)
    (ht : Compile.Asks env t) (hf : ∀ a, Compile.Asks env (f a)) :
    ∃ a, Settled env s t a ∧ Settled env s (f a) b := by
  obtain ⟨a, s₁, hexec, hrest⟩ := Compile.exec_bind_eq_ok.1 h.exec
  obtain ⟨hadds, hset⟩ := ht s a s₁ hexec
  obtain ⟨hadds', hset'⟩ := hf a s₁ b s hrest
  have hlength : s.literals.length ≤ s₁.literals.length := by
    obtain rfl | hlt := AddsLiterals.eq_or_lt hadds <;> omega
  obtain rfl | hlt := AddsLiterals.eq_or_lt hadds'
  · exact ⟨a, hset, hset'⟩
  · omega

theorem Settled.of_pure {a b : α} (h : Settled env s (Pure.pure a) b) : b = a :=
  (Settled.unique h (.pure a))

end

namespace Operator

variable {op : Operator} {kx ky : OperandKind} {r : Resolution}

/-- There is no operator on functions. -/
theorem ne_func_of_settle (h : op.settle kx ky = .ok r) : kx ≠ .bound .func ∧ ky ≠ .bound .func := by
  obtain ⟨x, y, hresolve, -, -⟩ := resolve_of_settle h
  obtain ⟨hfirst, hbasic, -⟩ := operand_of_resolve hresolve
  rw [hfirst] at hbasic
  constructor
  · rintro rfl
    obtain heq | hrank := widens_first h
    · rw [heq] at hbasic
      cases hbasic
    · exact absurd hrank.1 (Nat.lt_irrefl 0)
  · rintro rfl
    cases hsecond : r.second with
    | none =>
      obtain ⟨i, heq⟩ := isInteger_of_settle h hsecond
      cases heq
    | some l =>
      have hl := isBasic_second_of_resolve hresolve hsecond
      obtain rfl | hrank := widens_second h hsecond
      · cases hl
      · exact absurd hrank.1 (Nat.lt_irrefl 0)

end Operator

namespace Compile

open Word (Spell)

variable {env : CompileEnv} {s : CompileState} {cs : Array Value} {es : Shadow}

/-! ## Code that finds a value -/

/-- A selector reads a field of a value of some type. -/
theorem asks_resolveMember (i : Inferred) (name : String) : Asks env (resolveMember i name) :=
  .of_reads fun _ => reads_resolveMember

theorem memberOf_of_settled {i : Inferred} {name : String} {m : Member}
    (h : Settled env s (resolveMember i name) m) : MemberOf env.registry name i m :=
  ((reads_resolveMember (s := s)).of_exec h.exec).2.2

theorem pointsTo_of_settled {x : Expr} {i : Inferred} {elem : Ty} (h : Settled env s (pointee x i) elem) :
    ∃ t, i = .value t ∧ PointsTo t elem :=
  ((reads_pointee (s := s)).of_exec h.exec).2.2

theorem combinedBy_of_settled {op : Operator} {x y : Expr} {i j : Inferred} {c : Combined}
    (h : Settled env s (combine op x y i j) c) : CombinedBy env op i j c :=
  ((reads_combine (s := s)).of_exec h.exec).2.2

/-- The answers that make up the one on an operator. -/
theorem settled_binary_iff {op : Operator} {x y : Expr} {i : Inferred}
    (h : Settled env s (infer (.binary op x y)) i) : ∃ ix iy c, Settled env s (infer x) ix ∧
      Settled env s (infer y) iy ∧ Settled env s (combine op x y ix iy) c ∧ i = combinedEntry c := by
  have hcombine (ix iy : Inferred) : Asks env (combine op x y ix iy) := .of_reads fun _ => reads_combine
  obtain ⟨ix, hx, h⟩ := Settled.of_bind h (asks_infer x) fun ix =>
    .bind (asks_infer y) fun iy => .bind (hcombine ix iy) fun c => by cases c <;> exact .pure _
  obtain ⟨iy, hy, h⟩ := Settled.of_bind h (asks_infer y) fun iy =>
    .bind (hcombine ix iy) fun c => by cases c <;> exact .pure _
  obtain ⟨c, hc, h⟩ := Settled.of_bind h (hcombine ix iy) fun c => by cases c <;> exact .pure _
  refine ⟨ix, iy, c, hx, hy, hc, ?_⟩
  cases c <;> exact Settled.of_pure h

/-- What an operator yields is of a basic type. -/
theorem basic_of_binary {op : Operator} {x y : Expr} {t : Ty}
    (h : Settled env s (infer (.binary op x y)) (.value t)) : ∃ k, t = .basic k := by
  obtain ⟨_, _, c, -, -, -, hc⟩ := settled_binary_iff h
  cases c <;> cases hc
  exact ⟨_, rfl⟩

/-- Values of basic types have no fields and point nowhere. -/
theorem field?_stripPtrs_basic {t base : Ty} {n : Nat} {k : Kind} {name : String} {f : Nat × Ty}
    (ht : t = .basic k) (hstrip : t.stripPtrs = (n, base)) : base.field? name ≠ some f := by
  subst ht
  cases hstrip
  exact nofun

/-- Pointers are followed one after another. -/
theorem steady_derefs {is : List Instr} {ws : List Word} (his : Glance is) (hspell : Spell ws is)
    (l : List Nat) : Steady env s (l.forM fun _ => asm Assembly.deref) [] fun ws' es =>
      es = [] ∧ ∃ is', Glance is' ∧ Spell (ws ++ ws') is' := by
  induction l generalizing is ws with
  | nil => exact .of_appends (fun _ => appends_pure) ⟨rfl, is, his, by rwa [List.append_nil]⟩
  | cons n l ih =>
    have hderef : Steady env s (asm Assembly.deref) [] fun ws es => es = [] ∧ Spell ws [.deref] :=
      steady_word fun w hw => ⟨rfl, Word.spell_one (Word.decode?_of_make hw fun _ _ => rfl)⟩
    refine Steady.bind (f := fun _ => l.forM fun _ => asm Assembly.deref) hderef fun ws' es' hws => ?_
    obtain ⟨rfl, hspell'⟩ := hws
    refine (ih (his.turn .deref) (hspell.append hspell')).imp fun ws'' es'' hrest => ?_
    rwa [← List.append_assoc]

/-- Where an expression that is no operator stands for a value of a type, its code finds the value, and
the pool of constants plays no part. -/
theorem steady_emit : ∀ {e : Expr} {t : Ty}, e.hasCall = false → (∀ op x y, e ≠ .binary op x y) →
    Settled env s (infer e) (.value t) → Steady env s (emit e) [] (Leaves (.value t))
  | .ident name, t, _, _, h => by
    obtain ⟨n, hn, h⟩ := Settled.of_bind h (asks_resolveName name) asks_namedEntry
    refine .read hn ?_
    cases n with
    | var id ty =>
      obtain rfl := Inferred.value.inj (Settled.of_pure h)
      exact steady_loadVar
    | param below ty =>
      obtain rfl := Inferred.value.inj (Settled.of_pure h)
      exact steady_loadArg
    | native x => exact steady_emitNative h
    | package path shown => cases Settled.of_pure h
    | func id sig => cases Settled.of_pure h
    | truth b => cases Settled.of_pure h
  | .lit l, t, _, _, h => by
    obtain ⟨c, -, h⟩ := Settled.of_bind h (.ofConstant _) fun _ => .pure _
    cases Settled.of_pure h
  | .binary op x y, t, _, hop, _ => absurd rfl (hop op x y)
  | .call f args spread, t, hcall, _, _ => by cases hcall
  | .select x name, t, hcall, _, h => by
    obtain ⟨i, hi, h⟩ := Settled.of_bind h (asks_infer x)
      fun i => .bind (asks_resolveMember i name) asks_memberEntry
    obtain ⟨m, hm, h⟩ := Settled.of_bind h (asks_resolveMember i name) asks_memberEntry
    refine .read hi (.read hm ?_)
    cases memberOf_of_settled hm with
    | native => exact steady_emitNative h
    | @field t' base ty ptrs index hstrip hfield =>
      obtain rfl := Inferred.value.inj (Settled.of_pure h)
      have hx : ∀ op y z, x ≠ .binary op y z := by
        rintro op y z rfl
        obtain ⟨k, hk⟩ := basic_of_binary hi
        exact field?_stripPtrs_basic hk hstrip hfield
      refine .bind (steady_emit hcall hx hi) fun ws es hws => ?_
      obtain ⟨rfl, is, his, hspell⟩ := hws
      refine .discard_pop (.bind (steady_derefs his hspell (List.range ptrs)) fun ws' es hws => ?_)
      obtain ⟨rfl, is', his', hspell'⟩ := hws
      have hfield (w : Word) (hw : Word.make .field (Assembly.narrow index) = .ok w) :
          w.decode? = some (.field (Assembly.narrow index)) :=
        Word.decode?_of_make hw fun w h => by rw [Instr.ofOpcode, h]
      simp only [← List.append_assoc]
      exact steady_turn hfield (.field _) his' hspell'
    | method hm =>
      cases hm with
      | mk hm => cases Settled.of_pure h
  | .funcLit label ty body, t, _, _, h => by
    obtain ⟨id, -, h⟩ := Settled.of_bind h (asks_literalFunc label ty body)
      fun id => .bind (asks_signatureOf id) fun _ => .pure _
    obtain ⟨sig, -, h⟩ := Settled.of_bind h (asks_signatureOf id) fun _ => .pure _
    cases Settled.of_pure h
  | .addrOf x, t, _, _, h => by
    obtain ⟨a, ha, h⟩ := Settled.of_bind h (asks_addressed x) fun _ => .pure _
    obtain rfl := Inferred.value.inj (Settled.of_pure h)
    exact steady_emitAddress ha
  | .deref p, t, hcall, _, h => by
    obtain ⟨i, hi, h⟩ := Settled.of_bind h (asks_infer p)
      fun i => .bind (.of_reads fun _ => reads_pointee) fun _ => .pure _
    obtain ⟨elem, helem, h⟩ := Settled.of_bind h (.of_reads fun _ => reads_pointee) fun _ => .pure _
    obtain rfl := Inferred.value.inj (Settled.of_pure h)
    obtain ⟨t', rfl, hpoints⟩ := pointsTo_of_settled helem
    have hp : ∀ op x y, p ≠ .binary op x y := by
      rintro op x y rfl
      obtain ⟨k, rfl⟩ := basic_of_binary hi
      cases hpoints.elem
    refine .read hi (.read helem (.bind (steady_emit hcall hp hi) fun ws es hws => ?_))
    obtain ⟨rfl, is, his, hspell⟩ := hws
    exact .discard_pop (steady_turn (fun w hw => Word.decode?_of_makeAddressOperator hw) (.load _) his hspell)
termination_by structural e => e

/-! ## Constants -/

/-- A value like none in the pool is added. -/
theorem exec_poolIndex_new {v : Value} {a : Assembly}
    (h : ∀ c ∈ a.consts, (c.equal v && c.kind == v.kind) = false) :
    (Assembly.poolIndex v).exec a = (.ok a.consts.size, { a with consts := a.consts.push v }) := by
  unfold Assembly.poolIndex
  rw [Task.exec_bind_ok (Task.exec_get a), Array.findIdx?_eq_none_iff.2 h]
  rfl

/-- The place of a value in the pool depends on the constants there alone. It holds the value, or one that
was there and counts as equal. -/
theorem exists_poolIndex (v : Value) (cs : Array Value) : ∃ index cs' u, Extends cs cs' ∧ index ≤ cs.size ∧
    cs'[index]? = some u ∧ (u = v ∨ u ∈ cs ∧ u.equal v = true) ∧ ∀ a : Assembly, a.consts = cs →
      (Assembly.poolIndex v).exec a = (.ok index, { a with consts := cs' }) := by
  cases hfind : cs.findIdx? fun c => c.equal v && c.kind == v.kind with
  | some i =>
    obtain ⟨hlt, hfound, -⟩ := Array.findIdx?_eq_some_iff_getElem.1 hfind
    refine ⟨i, cs, cs[i], .refl cs, Nat.le_of_lt hlt, Array.getElem?_eq_getElem hlt,
      .inr ⟨Array.getElem_mem hlt, (Bool.and_eq_true_iff.1 hfound).1⟩, fun a ha => ?_⟩
    subst ha
    unfold Assembly.poolIndex
    rw [Task.exec_bind_ok (Task.exec_get a), hfind]
    rfl
  | none =>
    refine ⟨cs.size, cs.push v, v, .push cs v, Nat.le_refl _, Array.getElem?_push_size, .inl rfl,
      fun a ha => ?_⟩
    subst ha
    exact exec_poolIndex_new (Array.findIdx?_eq_none_iff.1 hfind)

/-- A pool that is full has no room for a float. -/
theorem exec_valueWord_full {p : Precision} {x : Binary p} {a : Assembly}
    (hfull : ¬a.consts.size < Word.operandRange)
    (h : ∀ c ∈ a.consts, (c.equal (.scalar (.float p x)) && c.kind == .float p) = false) :
    ∃ e a', (Assembly.valueWord (.scalar (.float p x))).exec a = (.error e, a') := by
  obtain ⟨f, hmake⟩ : ∃ f, Word.make .pushConst a.consts.size = .error f := ⟨_, if_neg hfull⟩
  refine ⟨.fault f, { a with consts := a.consts.push (.scalar (.float p x)) }, ?_⟩
  unfold Assembly.valueWord
  rw [Task.exec_bind_ok (exec_poolIndex_new h), hmake]
  rfl

/-- The word that pushes a value depends on the constants of the pool alone. -/
theorem valueWord_cases (v : Value) (cs : Array Value) :
    (∃ w i cs', Extends cs cs' ∧ w.decode? = some i ∧ i.Pushes ∧ ∀ a : Assembly, a.consts = cs →
      (Assembly.valueWord v).exec a = (.ok w, { a with consts := cs' })) ∨
    ∃ e, ∀ a : Assembly, a.consts = cs → ∃ a', (Assembly.valueWord v).exec a = (.error e, a') := by
  obtain ⟨index, cs', -, hcs, -, -, -, hindex⟩ := exists_poolIndex v cs
  have pooled : (∃ w i cs', Extends cs cs' ∧ w.decode? = some i ∧ i.Pushes ∧
      ∀ a : Assembly, a.consts = cs → (do
        Task.ofChecked (Word.make .pushConst (← Assembly.poolIndex v)) : Asm Word).exec a =
          (.ok w, { a with consts := cs' })) ∨
      ∃ e, ∀ a : Assembly, a.consts = cs → ∃ a', (do
        Task.ofChecked (Word.make .pushConst (← Assembly.poolIndex v)) : Asm Word).exec a =
          (.error e, a') := by
    cases hw : Word.make .pushConst index with
    | ok w =>
      refine .inl ⟨w, .pushConst index, cs', hcs,
        Word.decode?_of_make hw fun w h => by rw [Instr.ofOpcode, h], .const index, fun a ha => ?_⟩
      rw [Task.exec_bind_ok (hindex a ha), hw]
      rfl
    | error x =>
      refine .inr ⟨.fault x, fun a ha => ⟨{ a with consts := cs' }, ?_⟩⟩
      rw [Task.exec_bind_ok (hindex a ha), hw]
      rfl
  unfold Assembly.valueWord
  split
  · rename_i k n
    split
    · cases hw : Word.makeInt (.int k) (k.toInt n) with
      | ok w =>
        exact .inl ⟨w, _, cs, .refl cs, Word.decode?_of_makeInt hw, .inline _ _, fun a ha => ha ▸ rfl⟩
      | error x => exact .inr ⟨.fault x, fun a _ => ⟨a, rfl⟩⟩
    · exact pooled
  · exact pooled

/-- A value is pushed. -/
theorem appends_pushValue {v : Value} {w : Word} {cs' : Array Value} (hcs : Extends cs cs')
    (hword : ∀ a : Assembly, a.consts = cs →
      (Assembly.valueWord v).exec a = (.ok w, { a with consts := cs' })) :
    Appends env s (discard (asm (Assembly.pushValue v))) cs es [w] cs' es := by
  refine ⟨hcs, fun u _ hconsts => ?_⟩
  have hpush : (Assembly.pushValue v).exec u.asm = (.ok u.asm.code.size, (u.adding [w] cs' []).asm) := by
    unfold Assembly.pushValue
    rw [Task.exec_bind_ok (hword u.asm hconsts)]
    simp only [adding, Array.append_singleton]
    rfl
  exact exec_discard_ok (exec_asm_ok hpush)

/-- The word of an empty slot. -/
def emptySlot : Word := BitVec.ofNat 32 (Opcode.nop.code * Word.operandRange + 0)

/-- A constant is pushed, or keeps a slot. -/
theorem leavesOne_pushConstant (c : Constant) : LeavesOne env s (pushConstant c) cs := by
  cases c with
  | bound v =>
    refine .inr ?_
    obtain ⟨w, i, cs', hcs, hw, hi, hword⟩ | ⟨e, herror⟩ := valueWord_cases v cs
    · exact .of_appends ((appends_pushValue hcs hword).bind (appends_push (.const (.bound v) .emitted)))
        ⟨_, .const v, rfl, [i], .push hi, Word.spell_one hw⟩
    · refine .inl fun u _ hconsts => ?_
      obtain ⟨a', ha⟩ := herror u.asm hconsts
      have hpush : (Assembly.pushValue v).exec u.asm = (.error e, a') := Task.exec_bind_error ha
      obtain ⟨e', he'⟩ : ∃ e', ((asm (Assembly.pushValue v)) env).exec u = (.error e', _) :=
        exec_asm_error hpush
      exact ⟨e', _, exec_bind_error (exec_discard_error he')⟩
  | int n => exact .inl ⟨emptySlot, .int n, fun _ _ _ => rfl⟩
  | float x => exact .inl ⟨emptySlot, .float x, fun _ _ _ => rfl⟩
  | complex z => exact .inl ⟨emptySlot, .complex z, fun _ _ _ => rfl⟩

/-! ## Coercions -/

section

variable {t : Compile Unit} {w w' : Word} {c : Constant} {k : Kind} {v : Value} {cs' : Array Value}

/-- The slot is filled with the constant at its kind. -/
theorem appends_fill (h : LeavesSlot env s t cs w c) (hv : c.bind k = .ok v) (hcs : Extends cs cs')
    (hword : ∀ a : Assembly, a.consts = cs →
      (Assembly.valueWord v).exec a = (.ok w', { a with consts := cs' })) :
    Appends env s (t >>= fun _ => coerceTop k) cs [] [w'] cs' [.const (.bound v) .emitted] := by
  refine ⟨hcs, fun u hu hconsts => ?_⟩
  have hpatch : (Assembly.patch u.asm.code.size w').exec
      { ((u.withSlot w c).withShadow u.shadow).asm with consts := cs' } =
      (.ok (), (u.adding [w'] cs' []).asm) := by
    unfold Assembly.patch
    rw [Task.exec_bind_ok (Task.exec_get _)]
    simp [withSlot, withShadow, adding, setIfInBounds_push]
  have hbind : ((ofConstant (c.bind k)) env).exec ((u.withSlot w c).withShadow u.shadow) =
      (.ok v, (u.withSlot w c).withShadow u.shadow) := by
    rw [hv]
    rfl
  have hfill : ((fillSlot u.asm.code.size v) env).exec ((u.withSlot w c).withShadow u.shadow) =
      (.ok (), u.adding [w'] cs' []) := by
    have hword := hword ((u.withSlot w c).withShadow u.shadow).asm hconsts
    exact (exec_bind_ok (exec_asm_ok hword)).trans (exec_asm_ok hpatch)
  show ((t >>= fun _ => coerceTop k) env).exec u = _
  rw [exec_bind_ok (h u hu hconsts)]
  exact (exec_bind_ok hbind).trans (exec_bind_ok hfill)

theorem exec_coerceSlot {u : CompileState} (h : LeavesSlot env s t cs w c) (hu : Later s u)
    (hconsts : u.asm.consts = cs) : ((t >>= fun _ => coerceTop k) env).exec u = ((do
      let v ← ofConstant (c.bind k)
      fillSlot u.asm.code.size v
      push (.const (.bound v) .emitted)) env).exec ((u.withSlot w c).withShadow u.shadow) :=
  exec_bind_ok (h u hu hconsts)

/-- There is no word for the constant at its kind. -/
theorem denies_fill (h : LeavesSlot env s t cs w c) (hv : c.bind k = .ok v)
    (herror : ∀ a : Assembly, a.consts = cs → ∃ e a', (Assembly.valueWord v).exec a = (.error e, a')) :
    Denies env s (t >>= fun _ => coerceTop k) cs [] := fun u hu hconsts => by
  obtain ⟨e, a', ha⟩ := herror ((u.withSlot w c).withShadow u.shadow).asm hconsts
  obtain ⟨e', he'⟩ : ∃ e', ((asm (Assembly.valueWord v)) env).exec ((u.withSlot w c).withShadow u.shadow) =
      (.error e', _) := exec_asm_error ha
  refine ⟨e', { (u.withSlot w c).withShadow u.shadow with asm := a' }, ?_⟩
  refine (exec_coerceSlot h hu hconsts).trans ?_
  rw [hv]
  exact (exec_bind_ok (a := v) rfl).trans (exec_bind_error (exec_bind_error he'))

/-- A slot is filled, or that fails wherever it is tried. -/
theorem uniform_coerceSlot (h : LeavesSlot env s t cs w c) (k : Kind) :
    Uniform env s (t >>= fun _ => coerceTop k) cs [] OneDone := by
  cases hv : c.bind k with
  | error e =>
    refine .inl fun u hu hconsts => ⟨.error (.ofConstant e), (u.withSlot w c).withShadow u.shadow, ?_⟩
    refine (exec_coerceSlot h hu hconsts).trans (exec_bind_error ?_)
    rw [hv]
    rfl
  | ok v =>
    obtain ⟨w', i, cs', hcs, hw, hi, hword⟩ | ⟨e, herror⟩ := valueWord_cases v cs
    · exact .of_appends (appends_fill h hv hcs hword) ⟨_, .const v, rfl, [i], .push hi, Word.spell_one hw⟩
    · exact .inl (denies_fill h hv fun a ha => ⟨e, herror a ha⟩)

/-- The value of code that looks is brought to a kind. -/
theorem uniform_convertTop {e : Inferred} {ws : List Word} (he : e.IsDone) (hleaves : Leaves e ws es)
    (k : Kind) : Uniform env s (coerceTop k) cs es fun ws' _ es => OneDone (ws ++ ws') cs es := by
  obtain ⟨rfl, is, his, hspell⟩ := hleaves
  have hstays (e : Inferred) (he : e.IsDone) : Uniform env s (push e) cs [] fun ws' _ es =>
      OneDone (ws ++ ws') cs es := by
    refine .of_appends (appends_push e) ⟨e, he, rfl, is, his, ?_⟩
    rwa [List.append_nil]
  have hturns : Uniform env s (do
      asm (Assembly.convert k)
      push (.value (.basic k))) cs [] fun ws' _ es => OneDone (ws ++ ws') cs es :=
    ((steady_turn (fun _ hw => Word.decode?_of_makeConvert hw) (.convert _) his hspell).uniform cs).imp
      fun _ _ _ h => ⟨_, .value _, h⟩
  refine .pop ?_
  cases he with
  | const v =>
    dsimp only
    split
    · exact hstays _ (.const v)
    · exact hturns
  | value t =>
    dsimp only
    split
    · exact hstays _ (.value t)
    · exact hturns

theorem uniform_coerceTop (h : LeavesOne env s t cs) (k : Kind) :
    Uniform env s (t >>= fun _ => coerceTop k) cs [] OneDone := by
  obtain ⟨w, c, h⟩ | h := h
  · exact uniform_coerceSlot h k
  · refine .bind h fun ws cs' es hdone => ?_
    obtain ⟨e, he, hleaves⟩ := hdone
    exact uniform_convertTop he hleaves k

theorem uniform_coerceSecond (h : LeavesOne env s t cs) (r : Resolution) :
    Uniform env s (t >>= fun _ => coerceSecond r) cs [] OneDone := by
  unfold coerceSecond
  split
  · exact uniform_coerceTop h _
  · obtain ⟨w, c, h⟩ | h := h
    · have hslot := uniform_coerceSlot h c.operandKind.default
      have hexec (u : CompileState) (hu : Later s u) (hconsts : u.asm.consts = cs) :
          ((t >>= fun _ => bindDefaultTop) env).exec u =
            ((t >>= fun _ => coerceTop c.operandKind.default) env).exec u := by
        rw [exec_bind_ok (h u hu hconsts), exec_bind_ok (h u hu hconsts)]
        rfl
      obtain hslot | ⟨ws, cs', es, hslot, hdone⟩ := hslot
      · refine .inl fun u hu hconsts => ?_
        obtain ⟨e, u', hdenied⟩ := hslot u hu hconsts
        exact ⟨e, u', (hexec u hu hconsts).trans hdenied⟩
      · have happends := hslot.2
        exact .of_appends
          ⟨hslot.1, fun u hu hconsts => (hexec u hu hconsts).trans (happends u hu hconsts)⟩ hdone
    · refine .bind h fun ws cs' es hdone => ?_
      obtain ⟨e, he, rfl, is, his, hspell⟩ := hdone
      refine .top ?_
      have hpure : Uniform env s (pure ()) cs' [e] fun ws' => OneDone (ws ++ ws') := by
        refine .of_appends appends_pure ⟨e, he, rfl, is, his, ?_⟩
        rwa [List.append_nil]
      cases he <;> exact hpure

end

/-! ## Expressions -/

/-- The entry is that of an operand that is no function. -/
inductive Inferred.IsOperand : Inferred → Prop
  | const (c : Constant) (slot : ConstSlot) : IsOperand (.const c slot)
  | value (t : Ty) : IsOperand (.value t)

theorem isOperand_of_kind {i : Inferred} {k : OperandKind} (h : i.operandKind? = some k)
    (hk : k ≠ .bound .func) : Inferred.IsOperand i := by
  cases i with
  | const c slot => exact .const c slot
  | value t => exact .value t
  | func f sig =>
    cases h
    exact absurd rfl hk
  | results ts => cases h
  | package path name => cases h

theorem ne_const_of_nativeEntry {x : NativeSymbol} {c : Constant} {slot : ConstSlot} :
    ¬Settled env s (nativeEntry x) (.const c slot) := fun h => by
  obtain ⟨addr, kind⟩ := x
  cases kind with
  | var =>
    obtain ⟨e, -, h⟩ := Settled.of_bind h .read fun e => by
      split
      · exact .pure _
      · exact .fail _
    split at h
    · cases Settled.of_pure h
    · cases h.exec
  | func =>
    obtain ⟨sig, -, h⟩ := Settled.of_bind h (asks_nativeSignature _ _) fun _ => .pure _
    cases Settled.of_pure h
  | funcv =>
    obtain ⟨sig, -, h⟩ := Settled.of_bind h (asks_nativeSignature _ _) fun _ => .pure _
    cases Settled.of_pure h

theorem LeavesOne.read {α : Type} {r : Compile α} {g : α → Compile Unit} {a : α} (h : Settled env s r a)
    (h' : LeavesOne env s (g a) cs) : LeavesOne env s (r >>= g) cs :=
  h'.imp (fun ⟨w, c, h'⟩ => ⟨w, c, fun u hu hconsts => (exec_bind_ok (h u hu)).trans (h' u hu hconsts)⟩)
    (.read h)

/-- An operator on what two steps leave. -/
theorem uniform_join {t t' : Compile Unit} (h : Uniform env s t cs [] OneDone)
    (h' : ∀ cs, Uniform env s t' cs [] OneDone) (k l : Kind) (op : Operator) : Uniform env s (do
      t
      t'
      asm (Assembly.builtinOp k op)
      replace 2 [.value (.basic l)]) cs [] OneDone := by
  refine .bind h fun ws cs₁ es hdone => ?_
  obtain ⟨e, -, rfl, is, his, hspell⟩ := hdone
  refine .bind ((h' cs₁).frame [e]) fun ws' cs₂ es hdone => ?_
  obtain ⟨_, rfl, e', -, rfl, is', his', hspell'⟩ := hdone
  refine .bind (P := fun ws cs es => es = [e', e] ∧ Spell ws [.builtinOp k.nameable (some op)])
    (uniform_word fun w hw => ⟨rfl, Word.spell_one (Word.decode?_of_makeOperator hw)⟩)
    fun ws'' cs₃ es hword => ?_
  obtain ⟨rfl, hspell''⟩ := hword
  refine .of_appends appends_replace ⟨_, .value _, rfl, _, .join his his' k.nameable (some op), ?_⟩
  rw [List.append_nil, ← List.append_assoc]
  exact (hspell.append hspell').append hspell''

/-- Where an expression stands for an operand, its code looks. -/
theorem leavesOne_emit : ∀ {e : Expr} {i : Inferred} (cs : Array Value), e.hasCall = false →
    Settled env s (infer e) i → Inferred.IsOperand i → LeavesOne env s (emit e) cs
  | .lit l, i, cs, _, h, _ => by
    obtain ⟨c, hc, -⟩ := Settled.of_bind h (.ofConstant _) fun _ => .pure _
    exact .read hc (leavesOne_pushConstant c)
  | .binary op x y, i, cs, hcall, h, _ => by
    obtain ⟨ix, iy, c, hx, hy, hc, -⟩ := settled_binary_iff h
    obtain ⟨hcallx, hcally⟩ := Bool.or_eq_false_iff.1 hcall
    refine .read hx (.read hy (.read hc ?_))
    cases combinedBy_of_settled hc with
    | folded => exact leavesOne_pushConstant _
    | @applied kx ky r hopen hkx hky hr =>
      obtain ⟨hfirst, hsecond⟩ := Operator.ne_func_of_settle hr
      have hcodex := leavesOne_emit cs hcallx hx (isOperand_of_kind hkx hfirst)
      have hcodey cs := leavesOne_emit cs hcally hy (isOperand_of_kind hky hsecond)
      have hjoin := uniform_join (uniform_coerceTop hcodex r.first)
        (fun cs => uniform_coerceSecond (hcodey cs) r) r.operand r.result op
      simp only [bind_assoc] at hjoin
      exact .inr hjoin
  | .ident name, i, cs, hcall, h, hi => by
    cases hi with
    | value t => exact (steady_emit hcall nofun h).leavesOne (.value t)
    | const c slot =>
      obtain ⟨n, hn, hentry⟩ := Settled.of_bind h (asks_resolveName name) asks_namedEntry
      refine .read hn ?_
      cases n with
      | truth b => exact leavesOne_pushConstant (.bound (.bool b))
      | native x => exact absurd hentry ne_const_of_nativeEntry
      | _ => cases Settled.of_pure hentry
  | .call f args spread, i, cs, hcall, _, _ => by cases hcall
  | .select x name, i, cs, hcall, h, hi => by
    cases hi with
    | value t => exact (steady_emit hcall nofun h).leavesOne (.value t)
    | const c slot =>
      obtain ⟨i, -, h⟩ := Settled.of_bind h (asks_infer x)
        fun i => .bind (asks_resolveMember i name) asks_memberEntry
      obtain ⟨m, -, h⟩ := Settled.of_bind h (asks_resolveMember i name) asks_memberEntry
      cases m with
      | native x => exact absurd h ne_const_of_nativeEntry
      | _ => cases Settled.of_pure h
  | .funcLit label ty body, i, cs, hcall, h, hi => by
    obtain ⟨id, -, h⟩ := Settled.of_bind h (asks_literalFunc label ty body)
      fun id => .bind (asks_signatureOf id) fun _ => .pure _
    obtain ⟨sig, -, h⟩ := Settled.of_bind h (asks_signatureOf id) fun _ => .pure _
    cases Settled.of_pure h
    cases hi
  | .addrOf x, i, cs, hcall, h, hi => by
    cases hi with
    | value t => exact (steady_emit hcall nofun h).leavesOne (.value t)
    | const c slot =>
      obtain ⟨a, -, h⟩ := Settled.of_bind h (asks_addressed x) fun _ => .pure _
      cases Settled.of_pure h
  | .deref p, i, cs, hcall, h, hi => by
    cases hi with
    | value t => exact (steady_emit hcall nofun h).leavesOne (.value t)
    | const c slot =>
      obtain ⟨i, -, h⟩ := Settled.of_bind h (asks_infer p)
        fun i => .bind (.of_reads fun _ => reads_pointee) fun _ => .pure _
      obtain ⟨elem, -, h⟩ := Settled.of_bind h (.of_reads fun _ => reads_pointee) fun _ => .pure _
      cases Settled.of_pure h
termination_by structural e => e

end Compile

end StackScript
