import StackScript.Proofs.Scoping.Tour
import StackScript.Proofs.Translation.Files

/-!
# Names are looked up by lexical scoping

While a file is compiled, the name table finds for every name what lexical scoping sees at the
statement that the compiler is at (`CompileState.Sees`), and what waits in the queue will see what its
creator saw. Each step keeps that: declaring (`Sees.declare`), entering literals (`Sees.enters`),
blocks and bodies. So a body that is compiled long after its creator still finds the right
declarations (`File.lookups_are_lexical`).
-/

namespace StackScript

/-! ## What waits -/

/-- A body sees what is noted of it; that of a declared function sees the outermost block. -/
structure NameTable.Reveals (t : NameTable) (b : WaitingBody) (d : Option Scopes) : Prop where
  path : t.Path b.path
  literal : ∀ Γ, d = some Γ → b.horizons ≠ [] ∧ t.seenFrom b.path b.horizons = Γ
  declared : d = none → b.path = [0] ∧ b.horizons = []

/-- The place where the compiler is sees some declarations, and the bodies in the queue see what is
noted of them. -/
structure CompileState.Sees (s : CompileState) (Γ : Scopes) (around : List (Option Scopes)) :
    Prop where
  sound : s.names.Sound
  scopes : s.names.scopes = Γ
  waiting : List.Forall₂ s.names.Reveals s.queue around

/-- No declaration to come in the body that is compiled is seen by the literals that wait. -/
def CompileState.Covers (s : CompileState) : Prop :=
  ∀ b ∈ s.queue, b.horizons ≠ [] → s.names.Covers b.path b.horizons

theorem NameTable.Reveals.mono {t t' : NameTable} {b : WaitingBody} {d : Option Scopes}
    (h : t.Reveals b d) (hsize : t.blocks.size ≤ t'.blocks.size)
    (hseen : b.horizons ≠ [] → t'.seenFrom b.path b.horizons = t.seenFrom b.path b.horizons) :
    t'.Reveals b d where
  path := h.path.mono hsize
  literal Γ hd := ⟨(h.literal Γ hd).1, (hseen (h.literal Γ hd).1).trans (h.literal Γ hd).2⟩
  declared := h.declared

namespace CompileState.Sees

variable {s s' : CompileState} {Γ Γ' outermost : Scopes} {around around' : List (Option Scopes)}
  {name : String} {x : Symbol}

theorem find? (h : s.Sees Γ around) (name : String) : s.names.find? name = Γ.find? name := by
  rw [NameTable.find?_eq_scopes h.sound, h.scopes]

/-- The place is the same, and what waits. -/
theorem same (h : s.Sees Γ around) (hnames : s'.names = s.names) (hqueue : s'.queue = s.queue) :
    s'.Sees Γ around :=
  ⟨hnames ▸ h.sound, hnames ▸ h.scopes, by rw [hnames, hqueue]; exact h.waiting⟩

/-- Bodies that join the queue at a place see what the place sees. -/
theorem enters {ls : List Literal.Func} {new : List WaitingBody} (h : s.Sees Γ around)
    (hc : s.Covers) (hs : s.Enters ls s') (hjoined : s.Joined s' new)
    (hnew : ∀ b ∈ new, b.Of s.names ls) :
    s'.Sees Γ (around ++ List.replicate new.length (some Γ)) ∧ s'.Covers := by
  refine ⟨⟨hs.names ▸ h.sound, hs.names ▸ h.scopes, ?_⟩, fun b hb hne => ?_⟩
  · rw [hs.names, hjoined.queue]
    refine List.rel_append h.waiting (forall₂_replicate fun b hb => ?_)
    have hof := hnew b hb
    refine ⟨hof.path ▸ h.sound.path, fun Γ' hΓ => ?_, nofun⟩
    cases hΓ
    refine ⟨by simp [hof.horizons, NameTable.horizonsHere], ?_⟩
    rw [hof.path, hof.horizons, NameTable.seenFrom_horizonsHere h.sound, h.scopes]
  · rw [hjoined.queue, List.mem_append] at hb
    rw [hs.names]
    obtain hb | hb := hb
    · exact hc b hb hne
    · rw [(hnew b hb).horizons]
      exact NameTable.covers_horizonsHere

/-- A new declaration is seen at the place and by nothing that waits. -/
theorem declare (h : s.Sees Γ around) (hc : s.Covers) (hfresh : s.names.declares name = false)
    (hnames : s'.names = s.names.declare name x) (hqueue : s'.queue = s.queue) :
    s'.Sees (Γ.declare name x) around ∧ s'.Covers := by
  refine ⟨⟨?_, ?_, ?_⟩, fun b hb hne => ?_⟩
  · rw [hnames]
    exact NameTable.sound_declare h.sound hfresh
  · rw [hnames, NameTable.scopes_declare h.sound, h.scopes]
  · rw [hnames, hqueue]
    exact forall₂_imp_mem h.waiting fun b hb d hd =>
      hd.mono (Nat.le_of_eq NameTable.size_declare.symm) fun hne =>
        NameTable.seenFrom_declare h.sound (hc b hb hne)
  · rw [hqueue] at hb
    rw [hnames]
    refine (hc b hb hne).mono NameTable.floor_declare ?_
    rw [NameTable.count_declare h.sound]
    exact Nat.le_succ _

theorem defines {names : List String} (h : s.Sees Γ around) (hc : s.Covers)
    (hd : s.Defines names s') : s'.Sees (Γ.declareVars s.asm.vars.size names) around ∧
      s'.Covers ∧ s.names.Grows s'.names := by
  have hnothing {s s' : CompileState} {Γ : Scopes} (h : s.Sees Γ around) (hc : s.Covers)
      (hs : s.Enters [] s') : s'.Sees Γ around ∧ s'.Covers := by
    obtain ⟨new, hjoined, hnew⟩ := hs.joined
    have hnil : new = [] := List.eq_nil_iff_forall_not_mem.2 fun b hb =>
      nomatch (hnew b hb).literal
    subst hnil
    have hsees := h.enters hc hs hjoined hnew
    rwa [List.length_nil, List.replicate_zero, List.append_nil] at hsees
  induction hd generalizing Γ with
  | nil hs => exact ⟨(hnothing h hc hs).1, (hnothing h hc hs).2, hs.names ▸ .refl _⟩
  | @cons name names s s₁ s₂ s' hs hfresh hnames hvars _ hjoined _ _ ih =>
    obtain ⟨h₁, hc₁⟩ := hnothing h hc hs
    obtain ⟨h₂, hc₂⟩ := h₁.declare hc₁ hfresh hnames (by rw [hjoined.queue, List.append_nil])
    obtain ⟨h', hc', hgrows⟩ := ih h₂ hc₂
    rw [hvars.size, hs.vars] at h'
    rw [hnames] at hgrows
    rw [← hs.names]
    exact ⟨h', hc', (NameTable.Grows.declare h₁.sound).trans hgrows⟩

/-! ## Blocks -/

theorem openBlock (h : s.Sees Γ around) (hc : s.Covers) :
    (s.withNames s.names.openBlock).Sees ([] :: Γ) around ∧
      (s.withNames s.names.openBlock).Covers := by
  refine ⟨⟨NameTable.sound_openBlock h.sound, ?_, ?_⟩, fun b hb hne => ?_⟩
  · exact NameTable.scopes_openBlock.trans (congrArg _ h.scopes)
  · exact h.waiting.imp fun b d hd => hd.mono (by simp [NameTable.openBlock, withNames]) fun _ =>
      NameTable.seenFrom_congr fun j _ => NameTable.block_push rfl j
  · exact (hc b hb hne).mono rfl (Nat.le_refl _)

/-- Behind a block, all is seen as before it. -/
theorem closeBlock (h : s.Sees Γ around) (h' : s'.Sees Γ' around') (hc' : s'.Covers)
    (hs : s.names.openBlock.Grows s'.names) :
    (s'.withNames s'.names.closeBlock).Sees Γ around' ∧
      (s'.withNames s'.names.closeBlock).Covers :=
  ⟨⟨NameTable.sound_closeBlock h.sound hs h'.sound,
      (NameTable.scopes_closeBlock h.sound hs).trans h.scopes,
      h'.waiting.imp fun _ _ hd => ⟨⟨hd.path.sorted, hd.path.lt⟩, hd.literal, hd.declared⟩⟩,
    fun b hb hne => (hc' b hb hne).mono rfl (Nat.le_refl _)⟩

/-! ## Bodies -/

/-- A body sees what is noted of it. -/
theorem enterBody {b : WaitingBody} {d : Option Scopes} (h : s.Sees outermost around)
    (hpath : s.names.path = [0]) (hfloor : s.names.floor = 0) (hb : s.names.Reveals b d)
    (hnames : s'.names = s.names.enterBody b.path b.horizons) (hqueue : s'.queue = s.queue) :
    s'.Sees ([] :: d.getD outermost) around ∧ s'.Covers := by
  have hseen : s.names.seenFrom b.path b.horizons = d.getD outermost := by
    cases d with
    | some Γ => exact (hb.literal Γ rfl).2
    | none =>
      obtain ⟨hb₁, hb₂⟩ := hb.declared rfl
      rw [hb₁, hb₂, NameTable.seenFrom_outermost hpath hfloor, h.scopes]
      rfl
  refine ⟨⟨?_, ?_, ?_⟩, fun b' hb' _ => ?_⟩
  · rw [hnames]
    exact NameTable.sound_enterBody h.sound hb.path
  · rw [hnames, NameTable.scopes_enterBody hb.path, hseen]
  · rw [hnames, hqueue]
    exact h.waiting.imp fun b' d' hd => hd.mono (by simp [NameTable.enterBody]) fun _ =>
      NameTable.seenFrom_congr fun j _ => NameTable.block_push rfl j
  · rw [hqueue] at hb'
    rw [hnames]
    obtain ⟨d', -, hd⟩ := exists_of_forall₂_of_mem h.waiting.flip hb'
    exact hd.path.covers_enterBody

/-- Behind a body, the place is the one before it. -/
theorem returnTo {b : WaitingBody} (h : s.Sees Γ around) (h' : s'.Sees Γ' around')
    (hs : (s.names.enterBody b.path b.horizons).Grows s'.names) :
    ({ s' with names := s'.names.returnTo s.names, body := s.body }).Sees Γ around' where
  sound := NameTable.sound_returnTo h.sound h'.sound hs
  scopes := (NameTable.scopes_returnTo h.sound hs).trans h.scopes
  waiting := h'.waiting.imp fun _ _ hd => ⟨⟨hd.path.sorted, hd.path.lt⟩, hd.literal, hd.declared⟩

/-! ## Names of parameters and results -/

theorem declareNamed {env : CompileEnv} {name : Option String} (h : s.Sees Γ around)
    (hc : s.Covers) (hexec : (Compile.declareNamed name x env).exec s = (.ok ⟨⟩, s')) :
    s'.Sees (Γ.declareNamed name x) around ∧ s'.Covers ∧ s.names.Grows s'.names := by
  unfold Compile.declareNamed at hexec
  split at hexec
  · cases hexec
    exact ⟨h, hc, .refl _⟩
  · cases hexec
    exact ⟨h, hc, .refl _⟩
  · rename_i name hblank
    obtain ⟨hfresh, rfl⟩ := Compile.declare_eq_ok hexec
    obtain ⟨h', hc'⟩ : (s.declaring name x).Sees (Γ.declare name x) around ∧
        (s.declaring name x).Covers := h.declare hc hfresh rfl rfl
    rw [Scopes.declareNamed, if_neg hblank]
    exact ⟨h', hc', .declare h.sound⟩

theorem declareAll {env : CompileEnv} {names : List (Option String × Symbol)}
    (h : s.Sees Γ around) (hc : s.Covers)
    (hexec : (names.forM (fun p => Compile.declareNamed p.1 p.2) env).exec s = (.ok ⟨⟩, s')) :
    s'.Sees (Γ.declareAll names) around ∧ s'.Covers ∧ s.names.Grows s'.names := by
  induction names generalizing s Γ with
  | nil =>
    cases hexec
    exact ⟨h, hc, .refl _⟩
  | cons p names ih =>
    obtain ⟨_, s₁, hp, hrest⟩ := Compile.exec_bind_eq_ok.1 hexec
    obtain ⟨h₁, hc₁, hgrows₁⟩ := h.declareNamed hc hp
    obtain ⟨h', hc', hgrows⟩ := ih h₁ hc₁ hrest
    exact ⟨h', hc', hgrows₁.trans hgrows⟩

end CompileState.Sees

namespace Tour

/-! ## Statements -/

/-- At every statement so far, each name is found that lexical scoping sees there. -/
def Right (T : Tour) : Prop :=
  ∀ v ∈ T.visits, ∀ name, v.state.names.find? name = v.scopes.find? name

/-- The tour is at a place that sees some declarations. -/
structure At (T : Tour) (Γ : Scopes) : Prop where
  sees : T.state.Sees Γ T.around
  covers : T.state.Covers
  right : T.Right

/-- The second place lies behind the first one in the same block. -/
structure Leads (T : Tour) (Γ : Scopes) (T' : Tour) : Prop where
  here : T'.At Γ
  names : T.state.names.Grows T'.state.names

section

variable {env : CompileEnv} {T T' T'' : Tour} {Γ Γ' : Scopes} {α : Type}

/-- However a step of the compiler ends, no statement is noted. -/
theorem ensures_step {t : Compile α} {Q : α → Tour → Prop} (hright : T.Right)
    (h : ∀ a s', (t env).exec T.state = (.ok a, s') → Q a { T with state := s' }) :
    (step env t).Ensures T Q fun _ T' => T'.Right :=
  Task.ensures_zoom.2 (.of_exec h fun _ _ _ => hright)

theorem ensures_visit {st : Stmt} {Q : Unit → Tour → Prop} {E : Stop CompileError → Tour → Prop}
    (h : T.At Γ) (hQ : ∀ T' : Tour, T'.At Γ → T'.state = T.state → Q ⟨⟩ T') :
    (visit Γ st).Ensures T Q E := by
  refine Task.ensures_modify.2 (hQ _ ⟨h.sees, h.covers, fun v hv => ?_⟩ rfl)
  obtain rfl | hv := List.mem_cons.1 hv
  · exact h.sees.find?
  · exact h.right v hv

theorem ensures_single {st : Stmt} (hblock : ∀ body, st ≠ .block body) (h : T.At Γ) :
    (stmt env Γ st).Ensures T (fun _ T' => T.Leads (Γ.behind T.state.asm.vars.size st) T')
      fun _ T' => T'.Right := by
  rw [stmt_of_ne_block hblock]
  refine Task.ensures_bind.2 (ensures_visit h fun T₁ h₁ hstate => ?_)
  refine Task.ensures_bind.2 (ensures_step h₁.right fun _ s' hexec => ?_)
  obtain ⟨s₁, henters, hdefines⟩ := Compile.defines_emitStmt hblock hexec
  obtain ⟨new, hjoined, hnew⟩ := henters.joined
  obtain ⟨hs₁, hc₁⟩ := h₁.sees.enters h₁.covers henters hjoined hnew
  obtain ⟨hs', hc', hgrows⟩ := hs₁.defines hc₁ hdefines
  have hlen : s'.queue.length - T₁.around.length = new.length := by
    have hlen := hs'.waiting.length_eq
    rw [List.length_append, List.length_replicate] at hlen
    omega
  refine Task.ensures_modify.2 ⟨⟨?_, hc', h₁.right⟩, ?_⟩
  · rw [hlen, ← hstate, ← henters.vars]
    exact hs'
  · rw [← hstate, ← henters.names]
    exact hgrows

mutual

/-- A statement leads to a place that sees what it declares besides. -/
theorem ensures_stmt (st : Stmt) {T : Tour} {Γ : Scopes} (h : T.At Γ) :
    (stmt env Γ st).Ensures T (fun _ T' => T.Leads (Γ.behind T.state.asm.vars.size st) T')
      fun _ T' => T'.Right := by
  cases st with
  | block body =>
    unfold stmt
    refine Task.ensures_bind.2 (ensures_visit h fun T₁ h₁ hstate => ?_)
    refine Task.ensures_bind.2 (ensures_step h₁.right fun _ s' hexec => ?_)
    cases hexec
    obtain ⟨hs₂, hc₂⟩ := h₁.sees.openBlock h₁.covers
    have h₂ : At { T₁ with state := T₁.state.withNames T₁.state.names.openBlock } ([] :: Γ) :=
      ⟨hs₂, hc₂, h₁.right⟩
    refine Task.ensures_bind.2 (Task.ensures_discard.2 ?_)
    refine (ensures_stmts body h₂).imp fun Γ₃ T₃ h₃ => ?_
    refine ensures_step h₃.here.right fun _ s' hexec => ?_
    cases hexec
    obtain ⟨hs₄, hc₄⟩ := h₁.sees.closeBlock h₃.here.sees h₃.here.covers h₃.names
    exact ⟨⟨hs₄, hc₄, h₃.here.right⟩, hstate ▸ .closeBlock h₃.names⟩
  | _ => exact ensures_single nofun h
termination_by structural st

theorem ensures_stmts (ss : List Stmt) {T : Tour} {Γ : Scopes} (h : T.At Γ) :
    (stmts env Γ ss).Ensures T (fun Γ' T' => T.Leads Γ' T') fun _ T' => T'.Right := by
  cases ss with
  | nil => exact ⟨h, .refl _⟩
  | cons st ss =>
    unfold stmts
    refine Task.ensures_bind.2 (Task.ensures_get.2 ?_)
    refine (ensures_stmt st h).bind fun _ T₁ h₁ => ?_
    refine Task.ensures_bind.2 (ensures_step h₁.here.right fun _ s₂ hexec => ?_)
    obtain rfl := Compile.eq_of_atRest hexec
    exact (ensures_stmts ss h₁.here).imp fun Γ₂ T₂ h₂ => ⟨h₂.here, h₁.names.trans h₂.names⟩
termination_by structural ss

end

/-! ## Bodies -/

/-- The tour is between two bodies. -/
structure Ready (T : Tour) (outermost : Scopes) : Prop where
  sees : T.state.Sees outermost T.around
  path : T.state.names.path = [0]
  floor : T.state.names.floor = 0
  right : T.Right

/-- Assembling alone keeps what is seen. -/
def SameNames (s s' : CompileState) : Prop := s'.names = s.names ∧ s'.queue = s.queue

theorem SameNames.trans {s s' s'' : CompileState} (h : SameNames s s') (h' : SameNames s' s'') :
    SameNames s s'' :=
  ⟨h'.1.trans h.1, h'.2.trans h.2⟩

theorem sameNames_asm {t : Asm α} {s s' : CompileState} {r : Except (Stop CompileError) α}
    (h : (Compile.asm t env).exec s = (r, s')) : SameNames s s' := by
  rw [Compile.exec_asm] at h
  generalize t.exec s.asm = result at h
  obtain ⟨(e | e) | a, a'⟩ := result <;> cases h <;> exact ⟨rfl, rfl⟩

theorem sameNames_beginFunc {b : WaitingBody} {s s' : CompileState} {r : List Nat × Body}
    (h : (Compile.beginFunc b env).exec s = (.ok r, s')) : SameNames s s' := by
  obtain ⟨_, s₁, h₁, h⟩ := Compile.exec_bind_eq_ok.1 h
  obtain ⟨_, s₂, h₂, h⟩ := Compile.exec_bind_eq_ok.1 h
  obtain ⟨_, s₃, h₃, h⟩ := Compile.exec_bind_eq_ok.1 h
  obtain ⟨_, s₄, h₄, h⟩ := Compile.exec_bind_eq_ok.1 h
  cases h
  exact (sameNames_asm h₁).trans ((sameNames_asm h₂).trans ((sameNames_asm h₃).trans (sameNames_asm h₄)))

/-- A body is compiled where it sees what is noted of it. -/
theorem ensures_body {b : WaitingBody} {d : Option Scopes} {outermost : Scopes}
    (h : T.Ready outermost) (hb : T.state.names.Reveals b d) :
    (body env (d.getD outermost) b).Ensures T (fun _ T' => T'.Ready outermost)
      fun _ T' => T'.Right := by
  unfold body
  refine Task.ensures_bind.2 (ensures_step h.right fun ⟨results, body⟩ s₁ hbegin => ?_)
  obtain ⟨hnames, hqueue⟩ := sameNames_beginFunc hbegin
  have h₁ := h.sees.same hnames hqueue
  refine Task.ensures_bind.2 (Task.ensures_bind.2 (Task.ensures_get.2 ?_))
  refine Task.ensures_bind.2 (ensures_step h.right fun _ s₂ hset => ?_)
  cases hset
  let s₂ : CompileState := { s₁ with names := s₁.names.enterBody b.path b.horizons, body }
  obtain ⟨h₂, hc₂⟩ : s₂.Sees ([] :: d.getD outermost) _ ∧ s₂.Covers :=
    h₁.enterBody (hnames ▸ h.path) (hnames ▸ h.floor) (hnames ▸ hb) rfl rfl
  refine Task.ensures_bind.2 (Task.ensures_bind.2 (ensures_step h.right fun _ s₃ hdeclare => ?_))
  rw [Compile.declareNames_eq] at hdeclare
  obtain ⟨h₃, hc₃, hgrows₃⟩ := h₂.declareAll hc₂ hdeclare
  have h₃ : At { T with state := s₃ } (b.scopes (d.getD outermost) results) := ⟨h₃, hc₃, h.right⟩
  refine Task.ensures_discard.2 ((ensures_stmts b.stmts h₃).imp fun _ T₄ h₄ => ?_)
  refine Task.ensures_bind.2 (ensures_step h₄.here.right fun _ s₅ hreturn => ?_)
  cases hreturn
  have h₅ := h₁.returnTo h₄.here.sees (hgrows₃.trans h₄.names)
  refine ensures_step h₄.here.right fun _ s₆ hend => ?_
  obtain ⟨hnames₆, hqueue₆⟩ := sameNames_asm hend
  exact ⟨h₅.same hnames₆ hqueue₆, by rw [hnames₆]; exact hnames ▸ h.path,
    by rw [hnames₆]; exact hnames ▸ h.floor, h₄.here.right⟩

/-- The bodies in the queue are compiled where they see what is noted of them. -/
theorem ensures_queue (n : Nat) {T : Tour} {outermost : Scopes} (h : T.Ready outermost) :
    (queue env outermost n).Ensures T (fun _ T' => T'.Ready outermost) fun _ T' => T'.Right := by
  induction n generalizing T with
  | zero => exact h
  | succ n ih =>
    unfold queue
    refine Task.ensures_bind.2 (Task.ensures_get.2 ?_)
    have hwaiting := h.sees.waiting
    cases hqueue : T.state.queue with
    | nil => exact h
    | cons b waiting =>
      rw [hqueue] at hwaiting
      cases haround : T.around with
      | nil =>
        rw [haround] at hwaiting
        cases hwaiting
      | cons d around =>
        rw [haround, List.forall₂_cons] at hwaiting
        refine Task.ensures_bind.2 (Task.ensures_modify.2 ?_)
        have h₁ : Ready { T with state.queue := waiting, around := T.around.tail } outermost :=
          ⟨⟨h.sees.sound, h.sees.scopes, by rw [haround]; exact hwaiting.2⟩, h.path, h.floor,
            h.right⟩
        exact (ensures_body h₁ hwaiting.1).bind fun _ _ h₂ => ih h₂

/-! ## Files -/

/-- The main body sees all imports and declared functions, and so do the bodies of these. -/
theorem at_of_declaring {L : Layout} {names : List (String × Symbol)} {n : Nat} {s : CompileState}
    (h : Declaring L names n s) :
    At ⟨s, List.replicate s.queue.length none, []⟩ [names] where
  sees := by
    refine ⟨h.sound, h.scopes, forall₂_replicate fun b hb => ?_⟩
    obtain ⟨_, _, _, hpath, hnil, -⟩ := h.queue b hb
    exact ⟨by rw [hpath, ← h.path]; exact h.sound.path, nofun, fun _ => ⟨hpath, hnil⟩⟩
  covers b hb hne := by
    obtain ⟨_, _, _, _, hnil, -⟩ := h.queue b hb
    exact absurd hnil hne
  right v hv := nomatch hv

theorem ensures_file (env : CompileEnv) (f : File) :
    (file env f.labelled.1 f.labelled.2).Ensures .initial (fun _ T' => T'.Right)
      fun _ T' => T'.Right := by
  obtain ⟨L, rfl, -, hf⟩ := f.exists_layout env
  have hnone : initial.Right := nofun
  refine Task.ensures_bind.2 (ensures_step hnone fun _ s₁ himports => ?_)
  have h₁ := (Compile.ensures_declareImports _ .initial).ok himports
  refine Task.ensures_bind.2 (ensures_step hnone fun _ s₂ hfuncs => ?_)
  obtain ⟨h₂, -⟩ := (Compile.ensures_declareFuncs _ h₁ hf.funcs fun i d body hd hbody => by
    rw [Nat.zero_add]
    exact hf.bodies i d body hd hbody).ok hfuncs
  refine Task.ensures_bind.2 (Task.ensures_modify.2 ?_)
  have hat := at_of_declaring h₂
  simp only [Nat.zero_add, List.append_nil] at hat
  refine (ensures_stmts f.labelled.1.stmts hat).bind fun _ T₃ h₃ => ?_
  refine Task.ensures_bind.2 (Task.ensures_get.2 ?_)
  have hready : T₃.Ready _ := ⟨h₃.here.sees, h₃.names.path.trans h₂.path,
    h₃.names.floor.trans h₂.floor, h₃.here.right⟩
  exact (ensures_queue _ hready).bind fun _ _ h₄ => h₄.right

end

end Tour

/-- The tour of a file, and how it ends. -/
def File.tour (env : CompileEnv) (f : File) : Except (Stop CompileError) Nat × Tour :=
  (Tour.file env f.labelled.1 f.labelled.2).exec .initial

/-- Names are looked up by lexical scoping. The tour of a file is the run of the compiler on it, and
at every statement that it comes to, in whatever body and whenever that is compiled, each name is
found as lexical scoping designates it there. An expression leaves the name table as it is, and so
does a statement that defines nothing; so that holds at all names of the statement. -/
theorem File.lookups_are_lexical (env : CompileEnv) (f : File) :
    (Compile.emitFile f.labelled.1 f.labelled.2 env).exec .initial =
        ((f.tour env).1, (f.tour env).2.state) ∧
      (∀ v ∈ (f.tour env).2.visits, ∀ name, v.state.names.find? name = v.scopes.find? name) ∧
      (∀ (e : Expr) (s : CompileState), ((Compile.infer e env).exec s).2.names = s.names ∧
        ((Compile.emit e env).exec s).2.names = s.names) ∧
      ∀ (st : Stmt) (s : CompileState), (∀ body, st ≠ .block body) → st.defined = [] →
        ((Compile.emitStmt st env).exec s).2.names = s.names := by
  refine ⟨?_, ?_, fun e s => ?_, fun st s hblock hdefined => ?_⟩
  · have herases := Tour.erases_file env f.labelled.1 f.labelled.2 .initial
    rwa [Except.map_id] at herases
  · have hfile := Tour.ensures_file env f
    rcases hresult : f.tour env with ⟨_ | _, T⟩
    · exact hfile.error hresult
    · exact hfile.ok hresult
  · exact ⟨((Compile.entering_infer e env).related s).names,
      ((Compile.entering_emit e env).related s).names⟩
  · exact ((Compile.entering_emitStmt hblock hdefined env).related s).names

/-- A name is shadowed behind a literal that uses it: `x := true`, and in a block
`f := func() \x7b y := x \x7d` and `x := false`. -/
def Tour.shadowing : File := ⟨[], [],
  [.assign .define [.ident "x"] [.ident "true"],
    .block [.assign .define [.ident "f"]
        [.funcLit 0 ⟨[], false, []⟩ [.assign .define [.ident "y"] [.ident "x"]]],
      .assign .define [.ident "x"] [.ident "false"]]]⟩

/-- The symbol is a variable with that number. -/
def Symbol.isVar (id : Nat) : Symbol → Bool
  | .var x => x == id
  | .param .. | .package _ | .func _ => false

theorem Symbol.eq_of_isVar {x : Symbol} {id : Nat} (h : x.isVar id = true) : x = .var id := by
  cases x with
  | var y => rw [Symbol.var.injEq]; exact beq_iff_eq.1 h
  | param | package | func => cases h

/-- The body of the literal is compiled when the block has another `x`, and finds the first one. -/
theorem File.shadowing_finds_first : ∃ v ∈ (Tour.shadowing.tour ⟨.empty, true⟩).2.visits,
    v.state.body.depth = 1 ∧ v.state.names.count = 3 ∧
      v.state.names.find? "x" = some (.var 0) := by
  have hvisit : (Tour.shadowing.tour ⟨.empty, true⟩).2.visits.any (fun v =>
      v.state.body.depth = 1 && (v.state.names.count = 3 &&
        (v.scopes.find? "x").any (·.isVar 0))) = true := by decide +kernel
  obtain ⟨v, hv, hx⟩ := List.any_eq_true.1 hvisit
  simp only [Bool.and_eq_true, decide_eq_true_eq, Option.any_eq_true] at hx
  obtain ⟨hdepth, hcount, x, hx, hvar⟩ := hx
  refine ⟨v, hv, hdepth, hcount, ?_⟩
  rw [(File.lookups_are_lexical ⟨.empty, true⟩ Tour.shadowing).2.1 v hv, hx,
    Symbol.eq_of_isVar hvar]

end StackScript
