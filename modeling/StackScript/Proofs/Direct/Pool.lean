import StackScript.Proofs.Direct.Emitting

/-!
# What compiling a call-free file keeps

The statements of a call-free file lead from clean states to clean ones (`after_emitStmts`). So a file
without negative zeros compiles to a small program whose pool is without them (`File.clean_of_compile`).
-/

namespace StackScript

open Direct

namespace Direct

open Compile CompileState

variable {env : CompileEnv} {base : List (String × Symbol)} {ns : Names} {most : Nat}
  {P : Constant.Trait} {taken : List String}

/-! ## Statements -/

theorem after_checkSingle {x : Expr} {e : Inferred} :
    Keeps env (Clean P most base ns) (checkSingle x e) := by
  unfold checkSingle
  split <;> first | exact After.fail | exact .pure fun _ h => h

theorem after_emitValues {n : Nat} {values : List Expr}
    (h : ∀ e ∈ values, Keeps env (Clean P most base ns) (emit e)) :
    Keeps env (Clean P most base ns) (emitValues n values) := by
  have hsingle {e : Expr} (he : e ∈ values) : Keeps env (Clean P most base ns) (do
      emit e
      checkSingle e (← top)) :=
    (h e he).bind fun _ => after_top.andThen fun i _ => after_checkSingle
  unfold emitValues
  split
  · split
    · exact hsingle (by simp)
    · refine (h _ (by simp)).bind fun _ => ?_
      refine after_pop.andThen fun e he => ?_
      split
      · exact he.elim
      · exact After.fail
  · split
    · exact After.fail
    · exact .forM fun e he => hsingle he

theorem after_target (hbase : Packages base taken) {x : Expr} (hx : isName x = true) :
    After env (Clean P most base ns) (target x) fun t s => Clean P most base ns s ∧
      ∃ ty, t = .addr ty ∧ ty.kind.Wide := by
  obtain ⟨name, rfl⟩ : ∃ name, x = .ident name := by
    cases x with
    | ident name => exact ⟨name, rfl⟩
    | _ => cases hx
  unfold target
  refine (after_assignable hbase).andThen fun y ⟨id, hy⟩ => ?_
  subst hy
  exact after_var.andThen fun v hv => .pure fun _ h => ⟨h, v.ty, rfl, hv⟩

theorem after_emitAtAddress {x : Expr} (hx : isName x = true)
    {k : Kind} {op : AddressOperator} :
    Keeps env (Clean P most base ns) (emitAtAddress x k op) := by
  obtain ⟨name, rfl⟩ : ∃ name, x = .ident name := by
    cases x with
    | ident name => exact ⟨name, rfl⟩
    | _ => cases hx
  have haddressed : After env (Clean P most base ns) (addressed (.ident name)) fun r s =>
      Clean P most base ns s ∧ True := by
    unfold addressed
    refine after_find?.andThen fun y ⟨bs, _, _, hy⟩ => ?_
    split
    · exact after_var.andThen fun v _ => .pure fun _ h => ⟨h, trivial⟩
    all_goals exact After.fail
  unfold emitAtAddress emitAddress
  refine After.bind (Q := fun _ => Clean P most base ns) ?_ fun _ =>
    (after_pop.imp fun _ _ h => h.1).discard.bind fun _ => after_word
  refine haddressed.andThen fun r _ => after_varOperand.bind fun _ => after_word.bind fun _ =>
    after_push trivial

theorem after_emitUpdate (hbase : Packages base taken) {op : Operator} {x value : Expr}
    (hx : isName x = true) (hv : value.CallFree taken ns) (hs : value.Signless env.folds) :
    Keeps env (Clean .signless most base ns) (emitUpdate op x value) := by
  have hnext {t : Compile Unit} (h : Keeps env (Clean .signless most base ns) t)
      {b : Bool} : After env (Clean .signless most base ns) (do
        if b then fail (.unsupported (op.text ++ "= assignment") none)
        t) fun _ => Clean .signless most base ns := by
    cases b with
    | true => exact After.fail
    | false => exact h
  unfold emitUpdate
  refine hnext ?_
  refine (after_target hbase hx).andThen fun t ⟨ty, ht, hty⟩ => ?_
  subst ht
  refine (after_infer hbase hv).andThen fun e he => ?_
  refine (after_operandKind fun _ => he.wide).andThen fun k hk => ?_
  refine (After.ofOperands fun r hr => wideKinds_of_resolve (x := .bound ty.kind) hty hk hr).andThen
    fun r hr => ?_
  dsimp only
  split
  · exact After.fail
  · refine (after_emit hbase hv hs).bind fun _ => ?_
    refine (after_coerceSecond hr.2.1).bind fun _ => ?_
    exact (after_pop.imp fun _ _ h => h.1).discard.bind fun _ => after_emitAtAddress hx

theorem after_emitStep (hbase : Packages base taken) {up : Bool} {x : Expr}
    (hx : isName x = true) :
    Keeps env (Clean P most base ns) (emitStep up x) := by
  unfold emitStep
  refine (after_target hbase hx).andThen fun t ⟨ty, ht, hty⟩ => ?_
  subst ht
  dsimp only
  split
  · exact After.fail
  · exact after_emitAtAddress hx

theorem after_emitDropped (hbase : Packages base taken) {e : Expr} (he : e.CallFree taken ns)
    (hs : e.Signless env.folds) :
    Keeps env (Clean .signless most base ns) (emitDropped e) := by
  unfold emitDropped
  refine (after_emit hbase he hs).bind fun _ => after_top.andThen fun i hi => ?_
  split
  · exact hi.elim
  · exact After.fail
  · exact after_discardTop

theorem after_atRest :
    Keeps env (Clean P most base ns) atRest := by
  unfold atRest
  refine (After.get (Q := fun _ => Clean P most base ns) fun _ h => h).bind fun s => ?_
  dsimp only
  split
  · exact fun _ _ => trivial
  · exact .pure fun _ h => h

theorem shows_openBlock {t : NameTable} (h : t.Shows base ns) :
    t.openBlock.Shows base ([] :: ns) := by
  obtain ⟨bs, hne, hscopes, hnames⟩ := h.blocks
  refine ⟨NameTable.sound_openBlock h.sound, h.floor, [] :: bs, List.cons_ne_nil _ _, ?_, ?_⟩
  · rw [NameTable.scopes_openBlock, hscopes, Blocks.enter_shown hne]
  · rw [← hnames]
    rfl

theorem shows_closeBlock {t : NameTable} (h : t.Shows base ns) (hns : ns.tail ≠ []) :
    t.closeBlock.Shows base ns.tail := by
  obtain ⟨bs, hne, hscopes, rfl⟩ := h.blocks
  rw [Blocks.names_tail] at hns ⊢
  have htail : bs.tail ≠ [] := fun heq => hns (by rw [heq]; rfl)
  have hclose : t.closeBlock.scopes = Blocks.shown base bs.tail := by
    rw [NameTable.scopes_tail, hscopes, Blocks.shown_tail htail]
  refine ⟨⟨⟨h.sound.path.sorted.tail, fun i hi => h.sound.path.lt i (List.mem_of_mem_tail hi)⟩, ?_,
    h.sound.nodup, h.sound.numbered⟩, h.floor, bs.tail, htail, hclose, rfl⟩
  cases hpath : t.closeBlock.path with
  | nil =>
    rw [NameTable.scopes, hpath] at hclose
    cases hbs : bs.tail with
    | nil => exact absurd hbs htail
    | cons b bs' =>
      rw [hbs] at hclose
      cases bs' <;> cases hclose
  | cons i rest => exact ⟨i, rest, rfl, (h.floor ▸ Nat.zero_le i : t.floor ≤ i)⟩

theorem after_inBlock {t : Compile Unit}
    (h : After env (Clean P most base ([] :: ns)) t fun _ s =>
      ∃ ns', ns'.tail = ns ∧ Clean P most base ns' s) :
    Keeps env (Clean P most base ns) (inBlock t) := fun s hs => by
  have hns : ns ≠ [] := by
    obtain ⟨bs, hne, -, rfl⟩ := hs.names.blocks
    simpa [Blocks.names] using hne
  revert s hs
  unfold inBlock
  refine After.bind (Q := fun _ => Clean P most base ([] :: ns)) (.modify fun s hs =>
    ⟨hs.asm, hs.shadow, shows_openBlock hs.names, hs.body⟩) fun _ => ?_
  refine h.bind fun _ => After.bind (Q := fun _ => Clean P most base ns) (.modify fun s hs => ?_)
    fun _ => .pure fun _ h => h
  obtain ⟨ns', rfl, hs⟩ := hs
  exact ⟨hs.asm, hs.shadow, shows_closeBlock hs.names hns, hs.body⟩

mutual

theorem after_emitStmt (hbase : Packages base taken) {ns : Names} : ∀ {st : Stmt},
    st.CallFree taken ns → st.AllValues (Expr.Signless env.folds) →
      After env (Clean .signless Word.slotRange base ns) (emitStmt st) fun _ =>
        Clean .signless Word.slotRange base (st.names ns)
  | .expr e, h, hs => after_emitDropped hbase h hs
  | .assign mode targets values, h, hs => by
    have hreverse : ∀ t ∈ targets.reverse, isName t = true := fun t ht =>
      h.1 t (List.mem_reverse.1 ht)
    have hassign (defines : Bool) : After env (Clean .signless Word.slotRange base ns)
        (emitAssign defines targets values) fun _ =>
          Clean .signless Word.slotRange base (targetNames defines ns targets.reverse) :=
      (after_emitValues fun e he => after_emit hbase (h.2 e he) (hs e he)).bind fun _ =>
        after_targets hbase hreverse
    cases mode with
    | assign => exact hassign false
    | define => exact hassign true
    | update op =>
      unfold emitStmt
      split
      · exact after_emitUpdate hbase (h.1 _ (by simp)) (h.2 _ (by simp)) (hs _ (by simp))
      · exact After.fail
  | .block body, h, hs => by
    unfold emitStmt
    exact after_inBlock (after_emitStmts hbase h hs)
  | .increment x, h, _ | .decrement x, h, _ => after_emitStep hbase h
  | .ret _, h, _ => h.elim

theorem after_emitStmts (hbase : Packages base taken) {ns : Names} : ∀ {ss : List Stmt},
    CallFreeStmts taken ns ss → AllValuesOf (Expr.Signless env.folds) ss →
      After env (Clean .signless Word.slotRange base ns) (emitStmts ss) fun _ s =>
        ∃ ns', ns'.tail = ns.tail ∧ Clean .signless Word.slotRange base ns' s
  | [], _, _ => fun _ h => ⟨ns, rfl, h⟩
  | st :: ss, h, hs => by
    unfold emitStmts
    refine (after_emitStmt hbase h.1 hs.1).bind fun _ => after_atRest.bind fun _ => ?_
    exact st.tail_names ns ▸ after_emitStmts hbase h.2 hs.2

end

/-! ## Files -/

/-- Only imports are declared, under the given names. -/
structure Imported (l : List (String × Symbol)) (s : CompileState) : Prop where
  rest : s = { CompileState.initial with names := s.names }
  sound : s.names.Sound
  floor : s.names.floor = 0
  scopes : s.names.scopes = [l]

theorem after_imports {imports : List Import} {l : List (String × Symbol)} :
    After env (Imported l) (imports.forM declareImport) fun _ =>
      Imported ((imports.map fun i => (i.localName, .package i.path)).reverse ++ l) := by
  induction imports generalizing l with
  | nil => exact fun _ h => h
  | cons i imports ih =>
    have hdeclare : After env (Imported l) (declareImport i) fun _ =>
        Imported ((i.localName, .package i.path) :: l) := by
      unfold declareImport
      refine .read ?_
      cases env.registry.hasPackage i.path with
      | false => exact After.fail
      | true =>
        unfold declare
        refine (After.get (Q := fun s s' => s' = s ∧ Imported l s) fun _ h => ⟨rfl, h⟩).bind
          fun s => ?_
        dsimp only
        split
        · exact After.fail
        · rename_i hfresh
          rintro s₁ ⟨rfl, hs⟩
          refine ⟨?_, NameTable.sound_declare hs.sound (by simpa using hfresh),
            NameTable.floor_declare.trans hs.floor, ?_⟩
          · rw [hs.rest]
          · show (s₁.names.declare _ _).scopes = _
            rw [NameTable.scopes_declare hs.sound, hs.scopes]
            rfl
    have hrest := ih (l := (i.localName, .package i.path) :: l)
    simp only [List.map_cons, List.reverse_cons, List.append_assoc, List.singleton_append]
    exact hdeclare.bind fun _ => hrest

end Direct

open Compile

theorem File.packages (f : File) :
    Packages f.importNames (f.imports.map Import.localName) := by
  have hmem : ∀ name x, f.importNames.lookup name = some x →
      ∃ i ∈ f.imports, name = i.localName ∧ x = .package i.path := by
    intro name x h
    obtain ⟨i, hi, heq⟩ := List.mem_map.1 (List.mem_reverse.1 (lookup_mem h))
    cases heq
    exact ⟨i, hi, rfl, rfl⟩
  constructor
  · intro name x h
    obtain ⟨i, hi, rfl, -⟩ := hmem name x h
    exact List.mem_map_of_mem hi
  · intro name x h
    obtain ⟨i, -, -, rfl⟩ := hmem name x h
    exact ⟨_, rfl⟩

/-- What the constants of a file have after its main body, they have after the file. -/
theorem after_emitFile {env : CompileEnv} {P : Constant.Trait} {f : File} (hf : f.CallFree)
    (hstmts : After env (CompileState.Clean P Word.slotRange f.importNames [[]])
      (emitStmts f.stmts) fun _ s => ∃ ns, s.Clean P Word.slotRange f.importNames ns) :
    After env (· = .initial) (emitFile f 0) fun _ s =>
      ∃ ns, s.Clean P Word.slotRange f.importNames ns := by
  unfold emitFile
  refine After.bind (Q := fun _ => Imported f.importNames) (fun s hs => ?_) fun _ => ?_
  · subst hs
    have hinitial : Imported [] .initial := ⟨rfl, NameTable.sound_initial, rfl, rfl⟩
    have himports : Task.Ensures ((f.imports.forM declareImport) env) .initial _ _ :=
      after_imports .initial hinitial
    rwa [List.append_nil] at himports
  rw [hf.funcs]
  refine After.bind (Q := fun _ => CompileState.Clean P Word.slotRange f.importNames [[]]) ?_
    fun _ => ?_
  · intro s hs
    have hnone {α : Type} {i : Nat} {v : α} (h : (#[] : Array α)[i]? = some v) : False := by
      simp at h
    have hnames : s.names.Shows f.importNames [[]] :=
      ⟨hs.sound, hs.floor, [[]], List.cons_ne_nil _ _, hs.scopes, rfl⟩
    rw [hs.rest]
    exact ⟨⟨fun _ _ h => (hnone h).elim, fun _ _ h => (hnone h).elim, Nat.zero_le _⟩,
      fun e he => (by simp [CompileState.initial] at he), hnames, rfl⟩
  · refine hstmts.bind fun _ => ?_
    refine (After.get (Q := fun _ s => ∃ ns, s.Clean P Word.slotRange f.importNames ns)
      fun _ h => h).bind fun s => ?_
    exact After.bind (Q := fun _ s => ∃ ns, s.Clean P Word.slotRange f.importNames ns)
      (fun _ h => h) fun _ => .pure fun _ h => h

theorem fields_of_resolve {a : Assembly} {mainEnd : Nat} {p : Program}
    (h : a.resolve mainEnd = .ok p) : p.consts = a.consts ∧ p.mainVars = a.mainVars := by
  unfold Assembly.resolve at h
  split at h
  · cases h
  · split at h
    · cases h
    · obtain ⟨code, -, rfl⟩ := map_eq_ok h
      exact ⟨rfl, rfl⟩

/-- What the constants of a call-free file have after its main body, the pool of its program has. -/
theorem File.clean_of_emit {P : Constant.Trait} {r : Registry} {folds : Bool} {f : File}
    {p : Program} (h : f.compile r folds = .ok p) (hf : f.CallFree)
    (hstmts : After ⟨r, folds⟩ (CompileState.Clean P Word.slotRange f.importNames [[]])
      (emitStmts f.stmts) fun _ s => ∃ ns, s.Clean P Word.slotRange f.importNames ns) :
    (∀ (i : Nat) (v : Value), p.consts[i]? = some v → P.holds (.bound v)) ∧ p.Small := by
  have hsize := File.size_funcs_of_compile h
  rw [hf.funcs, hf.labelled] at hsize
  have hemit : Task.Ensures ((emitFile f 0) ⟨r, folds⟩) .initial _ _ :=
    after_emitFile hf hstmts .initial rfl
  unfold Task.Ensures at hemit
  have hlabelled : emitFile f.labelled.1 f.labelled.2 = emitFile f 0 := by rw [hf.labelled]
  cases hresult : (emitFile f 0 ⟨r, folds⟩).exec .initial with
  | mk mainEnd? s =>
  rw [hresult] at hemit
  rw [File.compile_of_emit (hlabelled ▸ hresult)] at h
  obtain e | mainEnd := mainEnd?
  · cases h
  · obtain ⟨ns, hs⟩ := hemit
    have hresolve : s.asm.resolve mainEnd = .ok p := by
      have h : ofResolved (s.asm.resolve mainEnd) = .ok p := h
      rcases hresolved : s.asm.resolve mainEnd with (_ | _) | _ <;> rw [hresolved] at h <;> cases h
      rfl
    obtain ⟨hconsts, hmain⟩ := fields_of_resolve hresolve
    refine ⟨hconsts ▸ hs.asm.pool, ?_, ?_, ?_⟩
    · exact Nat.le_trans hsize (Nat.zero_le _)
    · exact Nat.le_trans (hmain ▸ hs.asm.few) (by decide)
    · intro id g hg
      have := Extends.lt_of_getElem? hg
      rw [List.length_nil] at hsize
      omega

/-- A call-free file without negative zeros compiles to a small program whose pool is without
them. -/
theorem File.clean_of_compile {r : Registry} {folds : Bool} {f : File} {p : Program}
    (h : f.compile r folds = .ok p) (hf : f.CallFree) (hs : f.Signless folds) :
    (∀ (i : Nat) (v : Value), p.consts[i]? = some v → v.Signless) ∧ p.Small := by
  refine clean_of_emit (P := .signless) h hf ?_
  have hstmts : After ⟨r, folds⟩ _ (emitStmts f.stmts) _ := after_emitStmts f.packages hf.stmts hs
  exact hstmts.imp fun _ _ ⟨ns, _, hns⟩ => ⟨ns, hns⟩

end StackScript
