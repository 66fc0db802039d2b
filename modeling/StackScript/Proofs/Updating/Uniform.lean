import StackScript.Proofs.Foretelling.Asking
import StackScript.Proofs.Updating.Glancing

/-!
# Code that comes out the same again

Wherever the compiler comes to an expression without calls, at one place of the file and with the same
constants in the pool, it emits the same words for it, or fails every time (`Compile.Uniform`). What
comes out only looks (`Compile.leavesOne_emit`), and if the expression is a pointer then the pool is left
as it is (`Compile.steady_emit`).
-/

namespace StackScript

open CompileState

/-! ## States with more code -/

/-- Words, constants and entries were added. -/
def CompileState.adding (s : CompileState) (ws : List Word) (consts : Array Value) (es : Shadow) :
    CompileState :=
  { s with asm := { s.asm with code := s.asm.code ++ ws.toArray, consts }, shadow := es ++ s.shadow }

section

variable {s u : CompileState} {consts consts' : Array Value} {ws ws' : List Word} {es es' : Shadow}

theorem adding_nil : u.adding [] u.asm.consts es = u.withShadow (es ++ u.shadow) := by
  simp [adding, withShadow]

theorem adding_adding :
    (u.adding ws consts es).adding ws' consts' es' = u.adding (ws ++ ws') consts' (es' ++ es) := by
  simp [adding]

theorem adding_of_withShadow : (u.withShadow (es ++ u.shadow)).adding ws consts es' =
    u.adding ws consts (es' ++ es) := by
  simp [adding, withShadow]

theorem withShadow_adding :
    (u.adding ws consts []).withShadow (es ++ (u.adding ws consts []).shadow) = u.adding ws consts es := by
  simp [adding, withShadow]

theorem later_withShadow (es : Shadow) : Later u (u.withShadow (es ++ u.shadow)) where
  grows := grows_withShadow fun _ _ h => List.mem_append_right _ h
  names := rfl
  body := rfl
  vars := rfl
  mainVars := rfl
  frame _ h := h

theorem later_adding (h : Extends u.asm.consts consts) : Later u (u.adding ws consts es) where
  grows :=
    { Grows.refl u with
      size := by simp [adding]
      code := fun _ _ hw _ => Extends.append _ _ _ _ hw
      refCode := fun _ _ _ _ hw => Extends.append _ _ _ _ hw
      consts := h
      slots := fun offset c hc => hc.imp (List.mem_append_right _) fun hc =>
        hc.extend (.append _ _) h id fun _ => id }
  names := rfl
  body := rfl
  vars := rfl
  mainVars := rfl
  frame _ h := h

end

/-! ## Steps that come out the same -/

namespace Compile

/-- From every later state of the place with the constants `cs`, and with `es` on top of its shadow stack,
the step adds these words, changes the constants to `cs'` and puts `es'` in place of `es`. -/
def Appends (env : CompileEnv) (s : CompileState) (t : Compile Unit) (cs : Array Value) (es : Shadow)
    (ws : List Word) (cs' : Array Value) (es' : Shadow) : Prop :=
  Extends cs cs' ∧ ∀ u, Later s u → u.asm.consts = cs →
    (t env).exec (u.withShadow (es ++ u.shadow)) = (.ok (), u.adding ws cs' es')

/-- From every such state the step fails. -/
def Denies (env : CompileEnv) (s : CompileState) (t : Compile Unit) (cs : Array Value) (es : Shadow) :
    Prop :=
  ∀ u, Later s u → u.asm.consts = cs → ∃ e u', (t env).exec (u.withShadow (es ++ u.shadow)) = (.error e, u')

/-- From every such state the same comes out. -/
def Uniform (env : CompileEnv) (s : CompileState) (t : Compile Unit) (cs : Array Value) (es : Shadow)
    (P : List Word → Array Value → Shadow → Prop) : Prop :=
  Denies env s t cs es ∨ ∃ ws cs' es', Appends env s t cs es ws cs' es' ∧ P ws cs' es'

section

variable {α : Type} {env : CompileEnv} {s : CompileState} {t : Compile Unit} {f : Unit → Compile Unit}
  {cs cs' cs'' : Array Value} {es es' es'' : Shadow} {ws ws' : List Word} {e : Inferred}
  {P Q : List Word → Array Value → Shadow → Prop}

/-! ### One after another -/

theorem Appends.bind (h : Appends env s t cs es ws cs' es')
    (h' : Appends env s (f ()) cs' es' ws' cs'' es'') :
    Appends env s (t >>= f) cs es (ws ++ ws') cs'' es'' := by
  obtain ⟨hcs, h⟩ := h
  obtain ⟨hcs', h'⟩ := h'
  refine ⟨hcs.trans hcs', fun u hu hconsts => ?_⟩
  subst hconsts
  have hlater : Later s (u.adding ws cs' []) := hu.trans (later_adding hcs)
  rw [exec_bind_ok (h u hu rfl), ← withShadow_adding, h' _ hlater rfl, adding_adding, List.append_nil]

theorem Denies.bind (h : Denies env s t cs es) : Denies env s (t >>= f) cs es := fun u hu hconsts => by
  obtain ⟨e, u', h⟩ := h u hu hconsts
  exact ⟨e, u', exec_bind_error h⟩

theorem Appends.denies (h : Appends env s t cs es ws cs' es') (h' : Denies env s (f ()) cs' es') :
    Denies env s (t >>= f) cs es := fun u hu hconsts => by
  obtain ⟨hcs, h⟩ := h
  subst hconsts
  have hlater : Later s (u.adding ws cs' []) := hu.trans (later_adding hcs)
  obtain ⟨e, u', h'⟩ := h' _ hlater rfl
  rw [withShadow_adding] at h'
  exact ⟨e, u', by rw [exec_bind_ok (h u hu rfl), h']⟩

theorem Uniform.bind (h : Uniform env s t cs es P) (h' : ∀ ws cs' es', P ws cs' es' →
    Uniform env s (f ()) cs' es' fun ws' => Q (ws ++ ws')) : Uniform env s (t >>= f) cs es Q := by
  obtain h | ⟨ws, cs', es', h, hP⟩ := h
  · exact .inl h.bind
  · obtain h' | ⟨ws', cs'', es'', h', hQ⟩ := h' ws cs' es' hP
    · exact .inl (h.denies h')
    · exact .inr ⟨_, _, _, h.bind h', hQ⟩

theorem Uniform.denies (h : Uniform env s t cs es P) (h' : ∀ ws cs' es', P ws cs' es' →
    Denies env s (f ()) cs' es') : Denies env s (t >>= f) cs es := by
  obtain h | ⟨ws, cs', es', h, hP⟩ := h
  · exact h.bind
  · exact h.denies (h' ws cs' es' hP)

theorem Uniform.imp (h : Uniform env s t cs es P) (hP : ∀ ws cs' es', P ws cs' es' → Q ws cs' es') :
    Uniform env s t cs es Q :=
  h.imp_right fun ⟨ws, cs', es', h, hp⟩ => ⟨ws, cs', es', h, hP _ _ _ hp⟩

/-- Entries below are left alone. -/
theorem Appends.frame (h : Appends env s t cs es ws cs' es') (fs : Shadow) :
    Appends env s t cs (es ++ fs) ws cs' (es' ++ fs) := by
  refine ⟨h.1, fun u hu hconsts => ?_⟩
  have hframe := h.2 (u.withShadow (fs ++ u.shadow)) (hu.trans (later_withShadow fs)) hconsts
  rw [adding_of_withShadow] at hframe
  rw [← hframe]
  simp [withShadow]

theorem Denies.frame (h : Denies env s t cs es) (fs : Shadow) : Denies env s t cs (es ++ fs) := by
  intro u hu hconsts
  obtain ⟨e, u', hframe⟩ := h (u.withShadow (fs ++ u.shadow)) (hu.trans (later_withShadow fs)) hconsts
  exact ⟨e, u', by rw [← hframe]; simp [withShadow]⟩

theorem Uniform.frame (h : Uniform env s t cs es P) (fs : Shadow) :
    Uniform env s t cs (es ++ fs) fun ws cs' es' => ∃ es'', es' = es'' ++ fs ∧ P ws cs' es'' :=
  Or.imp (·.frame fs) (fun ⟨ws, cs', es', h, hP⟩ => ⟨ws, cs', _, h.frame fs, es', rfl, hP⟩) h

/-! ### Steps that read -/

theorem exec_read {r : Compile α} {g : α → Compile Unit} {a : α} {u : CompileState}
    (h : Settled env s r a) (hu : Later s u) : ((r >>= g) env).exec (u.withShadow (es ++ u.shadow)) =
      (g a env).exec (u.withShadow (es ++ u.shadow)) :=
  exec_bind_ok (h _ (hu.trans (later_withShadow es)))

variable {r : Compile α} {g : α → Compile Unit} {a : α}

theorem Appends.read (h : Settled env s r a) (h' : Appends env s (g a) cs es ws cs' es') :
    Appends env s (r >>= g) cs es ws cs' es' :=
  ⟨h'.1, fun u hu hconsts => (exec_read h hu).trans (h'.2 u hu hconsts)⟩

theorem Denies.read (h : Settled env s r a) (h' : Denies env s (g a) cs es) :
    Denies env s (r >>= g) cs es := fun u hu hconsts => by
  rw [exec_read h hu]
  exact h' u hu hconsts

theorem Uniform.read (h : Settled env s r a) (h' : Uniform env s (g a) cs es P) :
    Uniform env s (r >>= g) cs es P :=
  Or.imp (.read h) (fun ⟨ws, cs', es', h', hP⟩ => ⟨ws, cs', es', .read h h', hP⟩) h'

/-! ### The shadow stack -/

theorem Uniform.of_appends (h : Appends env s t cs es ws cs' es') (hP : P ws cs' es') :
    Uniform env s t cs es P := .inr ⟨ws, cs', es', h, hP⟩

/-- A step that changes the entries alone. -/
theorem appends_of_exec (h : ∀ u : CompileState, (t env).exec (u.withShadow (es ++ u.shadow)) =
    (.ok (), u.withShadow (es' ++ u.shadow))) : Appends env s t cs es [] cs es' := by
  refine ⟨.refl cs, fun u _ hconsts => ?_⟩
  subst hconsts
  rw [adding_nil]
  exact h u

theorem appends_pure : Appends env s (pure ()) cs es [] cs es := appends_of_exec fun _ => rfl

theorem appends_push (e : Inferred) : Appends env s (push e) cs es [] cs (e :: es) :=
  appends_of_exec fun _ => rfl

theorem appends_discard_pop : Appends env s (discard pop) cs (e :: es) [] cs es :=
  appends_of_exec fun _ => rfl

theorem Appends.discard_pop (h : Appends env s (f ()) cs es ws cs' es') :
    Appends env s (discard Compile.pop >>= f) cs (e :: es) ws cs' es' := appends_discard_pop.bind h

theorem Denies.discard_pop (h : Denies env s (f ()) cs es) :
    Denies env s (discard Compile.pop >>= f) cs (e :: es) := appends_discard_pop.denies h

theorem appends_replace {e' e'' : Inferred} :
    Appends env s (replace 2 [e'']) cs (e :: e' :: es) [] cs (e'' :: es) := by
  refine appends_of_exec fun u => ?_
  have hreplace : Shadow.replace? (e :: e' :: (es ++ u.shadow)) 2 [e''] = .ok (e'' :: (es ++ u.shadow)) := by
    simp [Shadow.replace?]
  show (do
    let shadow ← Task.ofChecked (Shadow.replace? (e :: e' :: (es ++ u.shadow)) 2 [e''])
    modify fun s => { s with shadow } : Task CompileError CompileState Unit).exec _ = _
  rw [hreplace]
  rfl

/-- The top entry is taken off. -/
theorem exec_pop {g : Inferred → Compile Unit} {u : CompileState} :
    ((pop >>= g) env).exec (u.withShadow ((e :: es) ++ u.shadow)) =
      (g e env).exec (u.withShadow (es ++ u.shadow)) := rfl

theorem Appends.pop {g : Inferred → Compile Unit} (h : Appends env s (g e) cs es ws cs' es') :
    Appends env s (pop >>= g) cs (e :: es) ws cs' es' :=
  ⟨h.1, fun u hu hconsts => exec_pop.trans (h.2 u hu hconsts)⟩

theorem Denies.pop {g : Inferred → Compile Unit} (h : Denies env s (g e) cs es) :
    Denies env s (pop >>= g) cs (e :: es) := h

theorem Uniform.pop {g : Inferred → Compile Unit} (h : Uniform env s (g e) cs es P) :
    Uniform env s (pop >>= g) cs (e :: es) P :=
  Or.imp .pop (fun ⟨ws, cs', es', h, hP⟩ => ⟨ws, cs', es', h.pop, hP⟩) h

theorem Uniform.top {g : Inferred → Compile Unit} (h : Uniform env s (g e) cs (e :: es) P) :
    Uniform env s (top >>= g) cs (e :: es) P := h

theorem denies_of_exec {err : CompileState → Stop CompileError}
    (h : ∀ u : CompileState, (t env).exec u = (.error (err u), u)) : Denies env s t cs es :=
  fun _ _ _ => ⟨_, _, h _⟩

theorem denies_fail {err : CompileError} : Denies env s (fail err) cs es := denies_of_exec fun _ => rfl

/-! ### Words -/

theorem exec_discard_ok {u u' : CompileState} (h : (r env).exec u = (.ok a, u')) :
    ((discard r) env).exec u = (.ok (), u') := by
  show ((fun _ => PUnit.unit) <$> r env).exec u = _
  rw [Task.exec_map, h]
  rfl

theorem exec_discard_error {u u' : CompileState} {e : Stop CompileError}
    (h : (r env).exec u = (.error e, u')) : ((discard r) env).exec u = (.error e, u') := by
  show ((fun _ => PUnit.unit) <$> r env).exec u = _
  rw [Task.exec_map, h]
  rfl

theorem exec_asm_error {x : Asm α} {e : Stop BuildError} {a' : Assembly} {u : CompileState}
    (h : x.exec u.asm = (.error e, a')) : ∃ e', ((asm x) env).exec u = (.error e', { u with asm := a' }) := by
  rw [exec_asm, h]
  rcases e with e | f
  · exact ⟨_, rfl⟩
  · exact ⟨_, rfl⟩

theorem appends_word {w : Word} {r : Except Fault Word} (h : r = .ok w) :
    Appends env s (asm (Assembly.emitChecked r)) cs es [w] cs es := by
  subst h
  refine ⟨.refl cs, fun u _ hconsts => ?_⟩
  subst hconsts
  show _ = (Except.ok (), (u.adding [w] u.asm.consts es))
  simp only [adding, Array.append_singleton]
  rfl

theorem denies_word {x : Fault} {r : Except Fault Word} (h : r = .error x) :
    Denies env s (asm (Assembly.emitChecked r)) cs es := by
  subst h
  exact denies_of_exec fun _ => rfl

theorem uniform_word {r : Except Fault Word} (h : ∀ w, r = .ok w → P [w] cs es) :
    Uniform env s (asm (Assembly.emitChecked r)) cs es P := by
  cases hr : r with
  | error x => exact .inl (denies_word rfl)
  | ok w => exact .of_appends (appends_word rfl) (h w hr)

/-! ### Whatever the constants are -/

/-- The step comes out the same whatever the constants are, and leaves them as they are. -/
def Steady (env : CompileEnv) (s : CompileState) (t : Compile Unit) (es : Shadow)
    (P : List Word → Shadow → Prop) : Prop :=
  (∀ cs, Denies env s t cs es) ∨ ∃ ws es', (∀ cs, Appends env s t cs es ws cs es') ∧ P ws es'

variable {R R' : List Word → Shadow → Prop}

theorem Steady.bind (h : Steady env s t es R) (h' : ∀ ws es', R ws es' →
    Steady env s (f ()) es' fun ws' => R' (ws ++ ws')) : Steady env s (t >>= f) es R' := by
  obtain h | ⟨ws, es', h, hR⟩ := h
  · exact .inl fun cs => (h cs).bind
  · obtain h' | ⟨ws', es'', h', hR'⟩ := h' ws es' hR
    · exact .inl fun cs => (h cs).denies (h' cs)
    · exact .inr ⟨_, _, fun cs => (h cs).bind (h' cs), hR'⟩

theorem Steady.read (h : Settled env s r a) (h' : Steady env s (g a) es R) :
    Steady env s (r >>= g) es R := by
  obtain h' | ⟨ws, es', h', hR⟩ := h'
  · exact .inl fun cs => (h' cs).read h
  · exact .inr ⟨ws, es', fun cs => (h' cs).read h, hR⟩

theorem Steady.imp (h : Steady env s t es R) (hR : ∀ ws es', R ws es' → R' ws es') : Steady env s t es R' :=
  Or.imp id (fun ⟨ws, es', h, hr⟩ => ⟨ws, es', h, hR _ _ hr⟩) h

theorem Steady.of_appends (h : ∀ cs, Appends env s t cs es ws cs es') (hR : R ws es') : Steady env s t es R :=
  .inr ⟨ws, es', h, hR⟩

theorem Steady.discard_pop (h : Steady env s (f ()) es R) :
    Steady env s (discard Compile.pop >>= f) (e :: es) R := by
  obtain h | ⟨ws, es', h, hR⟩ := h
  · exact .inl fun cs => (h cs).discard_pop
  · exact .inr ⟨ws, es', fun cs => (h cs).discard_pop, hR⟩

theorem steady_word {r : Except Fault Word} (h : ∀ w, r = .ok w → R [w] es) :
    Steady env s (asm (Assembly.emitChecked r)) es R := by
  cases hr : r with
  | error x => exact .inl fun _ => denies_word rfl
  | ok w => exact .of_appends (fun _ => appends_word rfl) (h w hr)

theorem Steady.uniform (h : Steady env s t es R) (cs : Array Value) :
    Uniform env s t cs es fun ws _ es' => R ws es' := by
  obtain h | ⟨ws, es', h, hR⟩ := h
  · exact .inl (h cs)
  · exact .inr ⟨ws, cs, es', h cs, hR⟩

end

end Compile

/-! ## Words of code that looks -/

/-- The words are those of the instructions. -/
def Word.Spell (ws : List Word) (is : List Instr) : Prop := ws.map Word.decode? = is.map some

/-- The entry of a value whose words are all there. -/
inductive Inferred.IsDone : Inferred → Prop
  | const (v : Value) : IsDone (.const (.bound v) .emitted)
  | value (t : Ty) : IsDone (.value t)

namespace Word

variable {w : Word} {i : Instr} {ws ws' : List Word} {is is' : List Instr}

theorem spell_nil : Spell [] [] := rfl

theorem spell_one (h : w.decode? = some i) : Spell [w] [i] := congrArg (fun x => [x]) h

theorem Spell.append (h : Spell ws is) (h' : Spell ws' is') : Spell (ws ++ ws') (is ++ is') := by
  unfold Spell at *
  rw [List.map_append, List.map_append, h, h']

theorem decode?_of_make {op : Opcode} {n : Nat} (h : make op n = .ok w)
    (hi : ∀ w : Word, w.operand = n → Instr.ofOpcode w op = i) : w.decode? = some i := by
  rw [(fields_of_make h).decode?, hi w (fields_of_make h).operand]

theorem decode?_of_makeVar {op : Opcode} {scope index : Nat} (h : makeVar op scope index = .ok w)
    (hi : ∀ w : Word, w.address = (scope, index) → Instr.ofOpcode w op = i) : w.decode? = some i := by
  obtain ⟨hop, haddress⟩ := fields_of_makeVar h
  rw [decode?, hop, Option.map_some, hi w haddress]

end Word

namespace Compile

open Word (Spell)

/-- The words look, and leave the entry. -/
def Leaves (e : Inferred) (ws : List Word) (es : Shadow) : Prop :=
  es = [e] ∧ ∃ is, Glance is ∧ Spell ws is

/-- The step leaves the slot of a constant. -/
def LeavesSlot (env : CompileEnv) (s : CompileState) (t : Compile Unit) (cs : Array Value) (w : Word)
    (c : Constant) : Prop :=
  ∀ u, Later s u → u.asm.consts = cs → (t env).exec u = (.ok (), u.withSlot w c)

/-- The words look, and leave an entry that needs no more words. -/
def OneDone (ws : List Word) (_ : Array Value) (es : Shadow) : Prop := ∃ e, e.IsDone ∧ Leaves e ws es

/-- The step leaves a slot, or the words of code that looks. -/
def LeavesOne (env : CompileEnv) (s : CompileState) (t : Compile Unit) (cs : Array Value) : Prop :=
  (∃ w c, LeavesSlot env s t cs w c) ∨ Uniform env s t cs [] OneDone

variable {env : CompileEnv} {s : CompileState} {t : Compile Unit} {cs : Array Value} {es : Shadow}

theorem Steady.leavesOne {e : Inferred} (h : Steady env s t [] (Leaves e)) (he : e.IsDone) :
    LeavesOne env s t cs :=
  .inr ((h.uniform cs).imp fun _ _ _ hleaves => ⟨e, he, hleaves⟩)

/-- One instruction that pushes. -/
theorem steady_push {r : Except Fault Word} {e : Inferred} {i : Instr}
    (hw : ∀ w, r = .ok w → w.decode? = some i) (hi : i.Pushes) : Steady env s (do
      asm (Assembly.emitChecked r)
      push e) [] (Leaves e) := by
  refine .bind (steady_word (R := fun ws es => es = [] ∧ Spell ws [i])
    fun w hr => ⟨rfl, Word.spell_one (hw w hr)⟩) fun ws es' hws => ?_
  obtain ⟨rfl, hspell⟩ := hws
  refine .of_appends (fun _ => appends_push e) ⟨rfl, [i], .push hi, ?_⟩
  rw [List.append_nil]
  exact hspell

/-- One instruction that turns what lies there. -/
theorem steady_turn {r : Except Fault Word} {e : Inferred} {i : Instr} {is : List Instr} {ws : List Word}
    (hw : ∀ w, r = .ok w → w.decode? = some i) (hi : i.Turns) (his : Glance is)
    (hspell : Spell ws is) : Steady env s (do
      asm (Assembly.emitChecked r)
      push e) [] fun ws' => Leaves e (ws ++ ws') := by
  refine .bind (steady_word (R := fun ws es => es = [] ∧ Spell ws [i])
    fun w hr => ⟨rfl, Word.spell_one (hw w hr)⟩) fun ws' es' hws => ?_
  obtain ⟨rfl, hspell'⟩ := hws
  refine .of_appends (fun _ => appends_push e) ⟨rfl, is ++ [i], .turn his hi, ?_⟩
  rw [List.append_nil]
  exact hspell.append hspell'

/-! ### Variables -/

theorem exec_varOperand {id : Nat} {u : CompileState} (hu : Later s u) :
    ((varOperand id) env).exec u = ((((varOperand id) env).exec s).1, u) := by
  have hfound (u : CompileState) {v : Var} (hv : u.asm.vars[id]? = some v) :
      ((asm (Assembly.var id)) env).exec u = (.ok v, u) := exec_expect_eq_ok.2 ⟨rfl, hv⟩
  have hmissing (u : CompileState) (hv : u.asm.vars[id]? = none) :
      ((asm (Assembly.var id)) env).exec u = (.error (.fault .outOfRange), u) := by
    have hexec : (Assembly.var id).exec u.asm = (Task.expect u.asm.vars[id]?).exec u.asm := rfl
    rw [exec_asm, hexec, hv]
    rfl
  unfold varOperand
  cases hv : s.asm.vars[id]? with
  | none => rw [exec_bind_error (hmissing u (hu.vars ▸ hv)), exec_bind_error (hmissing s hv)]
  | some v =>
    rw [exec_bind_ok (hfound u (hu.vars ▸ hv)), exec_bind_ok (hfound s hv)]
    dsimp only
    cases v.addr with
    | none => rfl
    | some a =>
      dsimp only
      rw [exec_bind_ok (t := get) (a := u) rfl, exec_bind_ok (t := get) (a := s) rfl, hu.body]
      split
      · rfl
      split
      · rfl
      split
      · rfl
      · rfl

/-- A variable has an operand from every later state or from none. -/
theorem varOperand_cases (env : CompileEnv) (s : CompileState) (id : Nat) :
    (∃ scope index, Settled env s (varOperand id) (scope, index)) ∨
      ∀ (g : Nat × Nat → Compile Unit) cs es, Denies env s (varOperand id >>= g) cs es := by
  cases h : (((varOperand id) env).exec s).1 with
  | ok a =>
    obtain ⟨scope, index⟩ := a
    exact .inl ⟨scope, index, fun u hu => by rw [exec_varOperand hu, h]⟩
  | error e =>
    refine .inr fun g cs es u hu _ => ⟨e, u.withShadow (es ++ u.shadow), exec_bind_error ?_⟩
    rw [exec_varOperand (hu.trans (later_withShadow es)), h]

/-- Code that pushes a variable or its address. -/
theorem steady_varOperand {id : Nat} {o : Opcode} {e : Inferred} {i : Scope → Nat → Instr}
    (ho : ∀ (w : Word) scope index, w.address = (scope, index) →
      Instr.ofOpcode w o = i (.ofField scope) index)
    (hi : ∀ scope index, (i scope index).Pushes) : Steady env s (do
      let (scope, slot) ← varOperand id
      asm (Assembly.emitChecked (Word.makeVar o scope slot))
      push e) [] (Leaves e) := by
  obtain ⟨scope, index, h⟩ | h := varOperand_cases env s id
  · refine .read h (steady_push (fun w hw => ?_) (hi (.ofField scope) index))
    exact Word.decode?_of_makeVar hw fun w haddress => ho w scope index haddress
  · exact .inl fun cs => h _ cs []

theorem steady_loadVar {id : Nat} {ty : Ty} : Steady env s (emitNamed (.var id ty)) [] (Leaves (.value ty)) :=
  steady_varOperand (o := .loadVar) (i := .loadVar) (fun w _ _ h => by rw [Instr.ofOpcode, h])
    .var

theorem steady_loadArg {below : Nat} {ty : Ty} :
    Steady env s (emitNamed (.param below ty)) [] (Leaves (.value ty)) :=
  steady_push (fun _ hw => Word.decode?_of_make hw fun w h => by rw [Instr.ofOpcode, h])
    (.arg below)

theorem steady_emitAddress {x : Expr} {id : Nat} {ty : Ty} (h : Settled env s (addressed x) (id, ty)) :
    Steady env s (emitAddress x) [] (Leaves (.value (.ptr ty))) :=
  .read h (steady_varOperand (o := .addrVar) (i := .addrVar)
    (fun w _ _ h => by rw [Instr.ofOpcode, h]) .addr)

/-- A host variable. -/
theorem steady_emitNative {x : NativeSymbol} {ty : Ty} (h : Settled env s (nativeEntry x) (.value ty)) :
    Steady env s (emitNative x) [] (Leaves (.value ty)) :=
  .read h (steady_push
    (fun _ hw => Word.decode?_of_make hw fun w h => by rw [Instr.ofOpcode, h]) (.native x.addr))

end Compile

end StackScript
