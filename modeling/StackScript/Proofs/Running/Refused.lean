import StackScript.Proofs.Running.Assembled

/-!
# Refused operations

An operation that an assembly refuses leaves it as it was, but for one: the end of a function out of
turn closes the function begun last (`Operation.refused`). So a history without such ends leaves what it
would leave without its refused operations (`Assembly.after_accepted`). What an end out of turn has
closed is lost: it is not ended by anything that follows (`Assembly.Lost.after`), so that no program
comes out that defines it (`Assembly.Lost.not_isDefined`).
-/

namespace StackScript

variable {α β : Type} {a a' : Assembly} {id : Nat} {e : BuildError}

/-! ## Beginnings and ends -/

namespace Assembly

/-- Where a function begins and ends, as far as that is known. -/
def mark (a : Assembly) (id : Nat) : Option Nat × Option Nat :=
  match a.funcs[id]? with
  | some f => (f.entry, f.stop)
  | none => (none, none)

theorem mark_of_func {f : FuncInfo} (hf : a.funcs[id]? = some f) : a.mark id = (f.entry, f.stop) := by
  rw [mark, hf]

theorem mark_setFunc_self {f g : FuncInfo} (hf : a.funcs[id]? = some f) :
    mark { a with funcs := a.funcs.setIfInBounds id g } id = (g.entry, g.stop) :=
  mark_of_func (Array.getElem?_setIfInBounds_self_of_lt (Array.getElem?_eq_some_iff.1 hf).1)

theorem mark_setFunc_ne {f : FuncInfo} {id' : Nat} (h : id ≠ id') :
    mark { a with funcs := a.funcs.setIfInBounds id f } id' = a.mark id' := by
  unfold mark
  rw [Array.getElem?_setIfInBounds_ne h]

/-- No function is opened or closed, and no beginning or end is moved. -/
def Unmarked (a a' : Assembly) : Prop := a'.opened = a.opened ∧ a'.mark = a.mark

theorem Unmarked.refl (a : Assembly) : a.Unmarked a := ⟨rfl, rfl⟩

theorem Unmarked.trans {a₁ a₂ a₃ : Assembly} (h : a₁.Unmarked a₂) (h' : a₂.Unmarked a₃) :
    a₁.Unmarked a₃ :=
  ⟨h'.1.trans h.1, h'.2.trans h.2⟩

theorem Unmarked.of_eq (hopened : a'.opened = a.opened) (hfuncs : a'.funcs = a.funcs) :
    a.Unmarked a' := by
  refine ⟨hopened, funext fun id => ?_⟩
  unfold mark
  rw [hfuncs]

/-- Another descriptor of a function that begins and ends where it did. -/
theorem Unmarked.setFunc {f g : FuncInfo} (hf : a.funcs[id]? = some f) (hentry : g.entry = f.entry)
    (hstop : g.stop = f.stop) : a.Unmarked { a with funcs := a.funcs.setIfInBounds id g } := by
  refine ⟨rfl, funext fun id' => ?_⟩
  obtain rfl | hne := eq_or_ne id id'
  · rw [mark_setFunc_self hf, mark_of_func hf, hentry, hstop]
  · exact mark_setFunc_ne hne

/-- What an operation does to the beginnings and ends of functions and to those that are open. -/
inductive Marks (a a' : Assembly) : Prop
  | keeps (h : a.Unmarked a')
  | opens (id : Nat) (unbegun : (a.mark id).1 = none) (opened : a'.opened = id :: a.opened)
    (begun : a'.mark id = (some a.code.size, (a.mark id).2))
    (others : ∀ id', id ≠ id' → a'.mark id' = a.mark id')
  | ends (id : Nat) (opened : a.opened = id :: a'.opened)
    (ended : a'.mark id = ((a.mark id).1, some a.code.size))
    (others : ∀ id', id ≠ id' → a'.mark id' = a.mark id')
  | drops (id : Nat) (opened : a.opened = id :: a'.opened) (marks : a'.mark = a.mark)

end Assembly

/-! ## Steps -/

namespace Asm

/-- The step looks at the assembly and leaves it as it was. -/
def Looks (t : Asm α) : Prop :=
  ∀ a : Assembly, t.Ensures a (fun _ a' => a' = a) fun _ a' => a' = a

/-- The step is never refused, and moves no beginning or end. -/
def Plain (t : Asm α) : Prop :=
  ∀ a : Assembly, t.Ensures a (fun _ a' => a.Unmarked a') fun e a' => ¬e.IsError ∧ a.Unmarked a'

/-- If the step is refused, the assembly stays as it was. -/
def Atomic (t : Asm α) : Prop :=
  ∀ a : Assembly, t.Ensures a (fun _ a' => a.Marks a') fun e a' => a.Marks a' ∧ (e.IsError → a' = a)

/-- If the step is refused, it was the end of a function out of turn, and closes the one begun last. -/
def Dropping (t : Asm α) : Prop :=
  ∀ a : Assembly, t.Ensures a (fun _ a' => a.Marks a') fun stop a' =>
    a.Marks a' ∧ ∀ e, stop = .error e →
      (∃ expected got, e = .unpairedEnd expected got) ∧ a' = { a with opened := a.opened.tail }

theorem looks_get : Looks (get : Asm Assembly) := fun _ => rfl

theorem looks_fail (e : BuildError) : Looks (Task.fail e : Asm α) := fun _ => rfl

theorem ensures_func {Q : FuncInfo → Assembly → Prop} {E : Stop BuildError → Assembly → Prop} :
    (Assembly.func id).Ensures a Q E ↔ (∀ f, a.funcs[id]? = some f → Q f a) ∧
      (a.funcs[id]? = none → E (.fault .outOfRange) a) :=
  Task.ensures_bind.trans (Task.ensures_get.trans Task.ensures_expect)

theorem looks_func (id : Nat) : (Assembly.func id).Looks :=
  fun _ => ensures_func.2 ⟨fun _ _ => rfl, fun _ => rfl⟩

variable {t : Asm α}

theorem marks_of_eq (h : a' = a) : a.Marks a' := h ▸ .keeps (.refl a')

theorem Looks.atomic (h : t.Looks) : t.Atomic :=
  fun a => (h a).mono (fun _ _ ha => marks_of_eq ha) fun _ _ ha => ⟨marks_of_eq ha, fun _ => ha⟩

theorem Looks.bind {f : α → Asm β} (h : t.Looks) (hf : ∀ x, (f x).Atomic) : (t >>= f).Atomic := by
  intro a
  refine Task.ensures_bind.2 ((h a).mono (fun x a' ha => ha ▸ hf x a') fun _ _ ha => ?_)
  exact ⟨marks_of_eq ha, fun _ => ha⟩

namespace Plain

theorem pure (x : α) : Plain (pure x : Asm α) := fun a => .refl a

theorem get : Plain (MonadState.get : Asm Assembly) := fun a => .refl a

theorem modify {f : Assembly → Assembly} (hf : ∀ a : Assembly, a.Unmarked (f a)) :
    Plain (modify f : Asm PUnit) := hf

theorem ofChecked (r : Except Fault α) : Plain (Task.ofChecked r : Asm α) := by
  cases r with
  | ok x => exact pure x
  | error x => exact fun a => ⟨id, .refl a⟩

theorem func (id : Nat) : (Assembly.func id).Plain :=
  fun a => ensures_func.2 ⟨fun _ _ => .refl a, fun _ => ⟨nofun, .refl a⟩⟩

theorem bind {f : α → Asm β} (h : t.Plain) (hf : ∀ x, (f x).Plain) : (t >>= f).Plain :=
  fun a => (h a).bind fun x a' ha => (hf x a').mono (fun _ _ ha' => ha.trans ha')
    fun _ _ ⟨he, ha'⟩ => ⟨he, ha.trans ha'⟩

theorem discard (h : t.Plain) : Plain (discard t) := fun a => Task.ensures_discard.2 (h a)

theorem mapM {f : β → Asm α} (hf : ∀ x, (f x).Plain) (l : List β) : Plain (l.mapM f) := by
  induction l with
  | nil => exact pure _
  | cons x l ih =>
    rw [List.mapM_cons]
    exact (hf x).bind fun _ => ih.bind fun _ => pure _

theorem atomic (h : t.Plain) : t.Atomic :=
  fun a => (h a).mono (fun _ _ ha => .keeps ha) fun _ _ ⟨he, ha⟩ =>
    ⟨.keeps ha, fun h' => absurd h' he⟩

end Plain

end Asm

/-! ## Operations -/

namespace Assembly

open Asm (Plain Atomic ensures_func looks_func looks_fail)

theorem plain_emit (w : Word) : (emit w).Plain := fun _ => .of_eq rfl rfl

theorem plain_emitChecked (w : Except Fault Word) : (emitChecked w).Plain :=
  (Plain.ofChecked w).bind fun w => (plain_emit w).discard

theorem plain_emitRef (w : Except Fault Word) : (emitRef w id).Plain :=
  (Plain.ofChecked w).bind fun w => (plain_emit w).bind fun _ => (Plain.func id).discard.bind
    fun _ => .modify fun _ => .of_eq rfl rfl

theorem plain_poolIndex (v : Value) : (poolIndex v).Plain := fun a => by
  unfold poolIndex
  refine Task.ensures_bind.2 (Task.ensures_get.2 ?_)
  split
  · exact .refl a
  · exact .of_eq rfl rfl

theorem plain_valueWord (v : Value) : (valueWord v).Plain := by
  unfold valueWord
  split
  · split
    · exact .ofChecked _
    · exact (plain_poolIndex _).bind fun _ => .ofChecked _
  · exact (plain_poolIndex _).bind fun _ => .ofChecked _

theorem plain_pushValue (v : Value) : (pushValue v).Plain := (plain_valueWord v).bind plain_emit

theorem plain_arityField (arity : Arity) : (arityField arity).Plain := by
  cases arity with
  | spread => exact .pure _
  | count n =>
    unfold arityField
    dsimp only
    split
    · exact (plain_pushValue _).discard.bind fun _ => .pure _
    · exact .pure _

theorem plain_reserve : reserve.Plain :=
  (Plain.ofChecked _).bind fun w => (plain_emit w).bind fun offset =>
    .bind (.modify (f := fun a => { a with reserved := offset :: a.reserved }) fun _ => .of_eq rfl rfl)
      fun _ => .pure _

/-- A new function has neither beginning nor end. -/
theorem plain_newFunc (name : String) (depth : Nat) : (newFunc name depth).Plain := fun a => by
  refine ⟨rfl, funext fun id => ?_⟩
  unfold mark
  dsimp only
  rw [Array.getElem?_push]
  by_cases hid : id = a.funcs.size
  · rw [if_pos hid, Array.getElem?_eq_none (Nat.le_of_eq hid.symm)]
    rfl
  · rw [if_neg hid]

theorem plain_defineVar (owner : Option Nat) (v : Var) : (defineVar owner v).Plain := by
  refine Plain.get.bind fun a₀ => ?_
  have hrest (depth index : Nat) : Plain (do
      let v ← Task.ofChecked (v.setAddr depth (narrow index))
      modify fun a => { a with vars := a.vars.push v }
      return a₀.vars.size) :=
    .bind (.ofChecked _) fun v => .bind (.modify fun _ => .of_eq rfl rfl) fun _ => .pure _
  cases owner with
  | some f =>
    intro a
    refine Task.ensures_bind.2 (ensures_func.2 ⟨fun info hinfo => ?_, fun _ => ⟨nofun, .refl a⟩⟩)
    have hset := Unmarked.setFunc (g := { info with vars := info.vars.push a₀.vars.size }) hinfo rfl rfl
    exact Task.ensures_bind.2 (Task.ensures_modify.2 (Task.ensures_bind.2 ((hrest _ _ _).mono
      (fun _ _ ha => hset.trans ha) fun _ _ ⟨he, ha⟩ => ⟨he, hset.trans ha⟩)))
  | none =>
    exact Plain.get.bind fun _ => .bind (.modify fun _ => .of_eq rfl rfl) fun _ => hrest _ _

/-- A descriptor changes as a whole or not at all. -/
theorem atomic_updateFunc {change : FuncInfo → Except BuildError FuncInfo}
    (h : ∀ f g, change f = .ok g → g.entry = f.entry ∧ g.stop = f.stop) :
    (updateFunc id change).Atomic := by
  intro a
  refine Task.ensures_bind.2 (ensures_func.2 ⟨fun f hf => ?_, fun _ => ⟨.keeps (.refl a), nofun⟩⟩)
  refine Task.ensures_bind.2 (Task.ensures_ofExcept.2 ⟨fun g hg => ?_, fun e _ => ?_⟩)
  · exact .keeps (.setFunc hf (h f g hg).1 (h f g hg).2)
  · exact ⟨.keeps (.refl a), fun _ => rfl⟩

theorem marks_of_setVariadic {f g : FuncInfo} {variadic : Bool}
    (h : f.setVariadic variadic = .ok g) : g.entry = f.entry ∧ g.stop = f.stop := by
  unfold FuncInfo.setVariadic at h
  generalize (if variadic then Variadicity.variadic else .fixed) = want at h
  dsimp only at h
  split at h
  · cases h
    exact ⟨rfl, rfl⟩
  · split at h <;> cases h
    exact ⟨rfl, rfl⟩

theorem marks_of_setParams {f g : FuncInfo} {params : List Ty} (h : f.setParams params = .ok g) :
    g.entry = f.entry ∧ g.stop = f.stop := by
  obtain ⟨f', hf', h⟩ := bind_eq_ok h
  have hmarks := marks_of_setVariadic hf'
  cases h
  exact hmarks

theorem marks_of_setVariadicParams {f g : FuncInfo} {params : List Ty}
    (h : f.setVariadicParams params = .ok g) : g.entry = f.entry ∧ g.stop = f.stop := by
  unfold FuncInfo.setVariadicParams at h
  split at h
  · obtain ⟨f', hf', h⟩ := bind_eq_ok h
    have hmarks := marks_of_setVariadic hf'
    cases h
    exact hmarks
  · cases h

/-- Results are refused before the first of them is declared. -/
theorem atomic_results (vars : List Var) : (results id vars).Atomic := by
  refine (looks_func id).bind fun f => ?_
  split
  · exact (looks_fail _).atomic
  · refine ((Plain.mapM (plain_defineVar _) vars).bind fun ids => ?_).atomic
    refine .bind (fun a => ?_) fun _ => .pure _
    exact Task.ensures_bind.2 (ensures_func.2
      ⟨fun f hf => .setFunc hf rfl rfl, fun _ => ⟨nofun, .refl a⟩⟩)

theorem atomic_patch (offset : Nat) (w : Word) : (patch offset w).Atomic := by
  refine Asm.looks_get.bind fun a => ?_
  split
  · refine Plain.atomic (Plain.modify fun a => ?_)
    exact .of_eq rfl rfl
  · exact (looks_fail _).atomic

theorem atomic_defineFunc : (defineFunc id).Atomic := by
  intro a
  refine Task.ensures_bind.2 (ensures_func.2 ⟨fun f hf => ?_, fun _ => ⟨.keeps (.refl a), nofun⟩⟩)
  split
  · exact ⟨.keeps (.refl a), fun _ => rfl⟩
  case _ hentry =>
    have hmark := mark_of_func hf
    refine Marks.opens id ?_ rfl ?_ fun id' hne => mark_setFunc_ne hne
    · rw [hmark]
      exact Option.not_isSome_iff_eq_none.1 hentry
    · rw [hmark]
      exact mark_setFunc_self hf

theorem dropping_endFunc : (endFunc id).Dropping := by
  intro a
  refine Task.ensures_bind.2 (Task.ensures_get.2 ?_)
  split
  case _ hopened =>
    have hkeeps := Marks.keeps (.refl a)
    refine Task.ensures_bind.2 (ensures_func.2 ⟨fun f _ => ⟨hkeeps, ?_⟩, fun _ => ⟨hkeeps, nofun⟩⟩)
    rintro _ ⟨⟩
    exact ⟨⟨_, _, rfl⟩, by rw [hopened, List.tail_nil, ← hopened]⟩
  case _ top rest hopened =>
    refine Task.ensures_bind.2 (Task.ensures_modify.2 ?_)
    have hdrops : a.Marks { a with opened := rest } := .drops top hopened rfl
    split
    case _ htop =>
      subst htop
      refine Task.ensures_bind.2 (Task.ensures_get.2 (Task.ensures_bind.2 (ensures_func.2
        ⟨fun f hf => ?_, fun _ => ⟨hdrops, nofun⟩⟩)))
      refine Marks.ends top hopened ?_ fun id' hne => mark_setFunc_ne hne
      rw [mark_of_func (a := a) hf]
      exact mark_setFunc_self (a := { a with opened := rest }) hf
    · refine Task.ensures_bind.2 (ensures_func.2 ⟨fun f _ => ?_, fun _ => ⟨hdrops, nofun⟩⟩)
      refine Task.ensures_bind.2 (ensures_func.2 ⟨fun g _ => ⟨hdrops, ?_⟩, fun _ => ⟨hdrops, nofun⟩⟩)
      rintro _ ⟨⟩
      exact ⟨⟨_, _, rfl⟩, by rw [hopened, List.tail_cons]⟩

/-- The end of a function is refused while another one was begun last. -/
theorem exec_endFunc_of_ne {top : Nat} {rest : List Nat} {f g : FuncInfo}
    (hopened : a.opened = top :: rest) (hne : top ≠ id) (hf : a.funcs[top]? = some f)
    (hg : a.funcs[id]? = some g) : (endFunc id).exec a =
      (.error (.error (.unpairedEnd f.name g.name)), { a with opened := rest }) := by
  have exec_func {i : Nat} {h : FuncInfo} {b : Assembly} (hb : b.funcs[i]? = some h) :
      (func i).exec b = (.ok h, b) := by
    show (Task.expect b.funcs[i]? : Asm FuncInfo).exec b = _
    rw [hb]
    rfl
  unfold endFunc
  rw [Task.exec_bind_ok (Task.exec_get a), hopened]
  dsimp only
  rw [Task.exec_bind_ok (Task.exec_modify ..), if_neg hne,
    Task.exec_bind_ok (exec_func (b := { a with opened := rest }) hf),
    Task.exec_bind_ok (exec_func (b := { a with opened := rest }) hg), Task.exec_fail]

end Assembly

theorem Operation.atomic_or_dropping {t : Asm α} (h : Operation t) : t.Atomic ∨ t.Dropping := by
  cases h with
  | endFunc id => exact .inr Assembly.dropping_endFunc
  | defineFunc id => exact .inl Assembly.atomic_defineFunc
  | patch offset w => exact .inl (Assembly.atomic_patch offset w)
  | results id vars => exact .inl (Assembly.atomic_results vars)
  | setVariadic id variadic =>
    exact .inl (Assembly.atomic_updateFunc fun _ _ => Assembly.marks_of_setVariadic)
  | setParams id params =>
    exact .inl (Assembly.atomic_updateFunc fun _ _ => Assembly.marks_of_setParams)
  | setVariadicParams id params =>
    exact .inl (Assembly.atomic_updateFunc fun _ _ => Assembly.marks_of_setVariadicParams)
  | setSignature id sig =>
    exact .inl (Assembly.atomic_updateFunc fun f g h => by
      cases h
      exact ⟨rfl, rfl⟩)
  | newFunc name depth => exact .inl (Assembly.plain_newFunc name depth).atomic
  | defineVar owner v => exact .inl (Assembly.plain_defineVar owner v).atomic
  | emit w => exact .inl (Assembly.plain_emit w).atomic
  | reserve => exact .inl Assembly.plain_reserve.atomic
  | valueWord v => exact .inl (Assembly.plain_valueWord v).atomic
  | pushValue v => exact .inl (Assembly.plain_pushValue v).atomic
  | pop n =>
    unfold Assembly.pop
    split
    · exact .inl (Assembly.plain_emitChecked _).atomic
    · exact .inl (Asm.Plain.pure _).atomic
  | callFunc id | closure id | hostClosure id => exact .inl (Assembly.plain_emitRef _).atomic
  | callFuncv id arity =>
    exact .inl ((Assembly.plain_arityField arity).bind fun _ => Assembly.plain_emitRef _).atomic
  | callNativev addr arity =>
    exact .inl ((Assembly.plain_arityField arity).bind fun _ => Assembly.plain_emitChecked _).atomic
  | _ => exact .inl (Assembly.plain_emitChecked _).atomic

/-- An operation that is refused leaves the assembly as it was, unless it ends a function out of turn:
that closes the function begun last. -/
theorem Operation.refused {t : Asm α} (h : Operation t)
    (hexec : t.exec a = (.error (.error e), a')) :
    a' = a ∨ (∃ expected got, e = .unpairedEnd expected got) ∧
      a' = { a with opened := a.opened.tail } := by
  obtain hatomic | hdropping := h.atomic_or_dropping
  · exact .inl (((hatomic a).error hexec).2 trivial)
  · exact .inr (((hdropping a).error hexec).2 e rfl)

theorem Operation.marks {t : Asm α} (h : Operation t) {r : Except (Stop BuildError) α}
    (hexec : t.exec a = (r, a')) : a.Marks a' := by
  obtain hatomic | hdropping := h.atomic_or_dropping
  · cases r with
    | ok x => exact (hatomic a).ok hexec
    | error x => exact ((hatomic a).error hexec).1
  · cases r with
    | ok x => exact (hdropping a).ok hexec
    | error x => exact ((hdropping a).error hexec).1

/-! ## Histories -/

/-- An operation, whatever it gives. -/
structure Assembly.Step where
  {α : Type}
  task : Asm α
  operation : Operation task

namespace Assembly

variable {ss : List Step}

/-- What a step leaves, also if it is refused; a fault leaves nothing. -/
def Step.apply (s : Step) (a : Assembly) : Option Assembly :=
  match s.task.exec a with
  | (.error (.fault _), _) => none
  | (_, a') => some a'

/-- What a history leaves, which goes on behind the steps that are refused. -/
def after (a : Assembly) : List Step → Option Assembly
  | [] => some a
  | s :: ss => (s.apply a).bind (after · ss)

/-- A history without the steps that are refused. -/
def accepted (a : Assembly) : List Step → List Step
  | [] => []
  | s :: ss =>
    match s.task.exec a with
    | (.error (.error _), a') => accepted a' ss
    | (_, a') => s :: accepted a' ss

/-- The history refuses no end of a function while one is open. -/
def InTurn (a : Assembly) : List Step → Prop
  | [] => True
  | s :: ss =>
    (∀ expected got, (s.task.exec a).1 = .error (.error (.unpairedEnd expected got)) → a.opened = []) ∧
      InTurn (s.task.exec a).2 ss

theorem Step.exec_of_apply {s : Step} (h : s.apply a = some a') :
    ∃ r, s.task.exec a = (r, a') ∧ ∀ x, r ≠ .error (.fault x) := by
  unfold Step.apply at h
  generalize s.task.exec a = r at h ⊢
  obtain ⟨(e | x) | y, a''⟩ := r <;> cases h
  · exact ⟨_, rfl, nofun⟩
  · exact ⟨_, rfl, nofun⟩

theorem Step.apply_refused {s : Step} (h : s.task.exec a = (.error (.error e), a')) :
    s.apply a = some a' := by
  unfold Step.apply
  rw [h]

/-- Steps that are refused can be left out where no function is ended out of turn. -/
theorem after_accepted (h : InTurn a ss) : a.after (a.accepted ss) = a.after ss := by
  induction ss generalizing a with
  | nil => rfl
  | cons s ss ih =>
    obtain ⟨hturn, hrest⟩ := h
    unfold accepted
    generalize hexec : s.task.exec a = r at hturn hrest
    obtain ⟨(e | x) | y, a'⟩ := r
    · have ha : a' = a := by
        obtain ha | ⟨⟨expected, got, rfl⟩, ha⟩ := s.operation.refused hexec
        · exact ha
        · rw [ha, hturn expected got rfl, List.tail_nil, ← hturn expected got rfl]
      subst ha
      rw [after, Step.apply_refused hexec]
      exact ih hrest
    · simp only [after, Step.apply, hexec, Option.bind_none]
    · simp only [after, Step.apply, hexec, Option.bind_some]
      exact ih hrest

/-- Histories lead to assemblies, from the empty one on. -/
theorem assembled_after (ha : Assembled a) (h : a.after ss = some a') : Assembled a' := by
  induction ss generalizing a with
  | nil =>
    cases h
    exact ha
  | cons s ss ih =>
    obtain ⟨a₁, hstep, hrest⟩ := Option.bind_eq_some_iff.1 h
    obtain ⟨r, hexec, hfault⟩ := Step.exec_of_apply hstep
    exact ih (.step ha s.operation hexec hfault) hrest

/-! ## Functions that are lost -/

/-- The function has a beginning and no end. -/
def Begun (a : Assembly) (id : Nat) : Prop := (a.mark id).1.isSome ∧ (a.mark id).2 = none

/-- The functions that are open are begun, each of them once. What is not begun is not ended. -/
structure Paired (a : Assembly) : Prop where
  nodup : a.opened.Nodup
  begun : ∀ id ∈ a.opened, a.Begun id
  unbegun : ∀ id, (a.mark id).1 = none → (a.mark id).2 = none

/-- The function is begun, but it is no longer open. -/
structure Lost (a : Assembly) (id : Nat) : Prop where
  begun : a.Begun id
  closed : id ∉ a.opened

theorem Paired.step (h : a.Paired) (hmarks : a.Marks a') : a'.Paired := by
  cases hmarks with
  | keeps hkeeps =>
    obtain ⟨hopened, hmark⟩ := hkeeps
    have hbegun : a'.Begun = a.Begun := by
      unfold Begun
      rw [hmark]
    exact ⟨hopened ▸ h.nodup, by rw [hopened, hbegun]; exact h.begun, by rw [hmark]; exact h.unbegun⟩
  | opens id unbegun opened begun others =>
    have hnew : id ∉ a.opened := fun hid => by
      have hsome := (h.begun id hid).1
      rw [unbegun] at hsome
      cases hsome
    have hid : a'.mark id = (some a.code.size, none) := by rw [begun, h.unbegun id unbegun]
    refine ⟨opened ▸ List.nodup_cons.2 ⟨hnew, h.nodup⟩, fun i hi => ?_, fun i hi => ?_⟩
    · rw [opened] at hi
      unfold Begun
      obtain rfl | hi := List.mem_cons.1 hi
      · rw [hid]
        exact ⟨rfl, rfl⟩
      · rw [others i fun heq => hnew (heq ▸ hi)]
        exact h.begun i hi
    · obtain rfl | hne := eq_or_ne id i
      · rw [hid]
      · rw [others i hne] at hi ⊢
        exact h.unbegun i hi
  | ends id opened ended others =>
    obtain ⟨hnew, hnodup⟩ := List.nodup_cons.1 (opened ▸ h.nodup)
    have hsome := (h.begun id (opened ▸ List.mem_cons_self)).1
    refine ⟨hnodup, fun i hi => ?_, fun i hi => ?_⟩
    · unfold Begun
      rw [others i fun heq => hnew (heq ▸ hi)]
      exact h.begun i (opened ▸ List.mem_cons_of_mem _ hi)
    · obtain rfl | hne := eq_or_ne id i
      · rw [ended] at hi
        dsimp only at hi
        rw [hi] at hsome
        cases hsome
      · rw [others i hne] at hi ⊢
        exact h.unbegun i hi
  | drops id opened marks =>
    have hbegun : a'.Begun = a.Begun := by
      unfold Begun
      rw [marks]
    refine ⟨(List.nodup_cons.1 (opened ▸ h.nodup)).2, fun i hi => ?_, by rw [marks]; exact h.unbegun⟩
    rw [hbegun]
    exact h.begun i (opened ▸ List.mem_cons_of_mem _ hi)

/-- Whatever is done, a function that is lost stays lost. -/
theorem Lost.step (h : a.Lost id) (hmarks : a.Marks a') : a'.Lost id := by
  obtain ⟨⟨hentry, hstop⟩, hclosed⟩ := h
  have same (hmark : a'.mark id = a.mark id) : a'.Begun id := by
    unfold Begun
    rw [hmark]
    exact ⟨hentry, hstop⟩
  cases hmarks with
  | keeps hkeeps => exact ⟨same (congrFun hkeeps.2 id), hkeeps.1 ▸ hclosed⟩
  | opens i unbegun opened begun others =>
    have hne : i ≠ id := fun heq => by
      rw [← heq, unbegun] at hentry
      cases hentry
    exact ⟨same (others id hne), by
      rw [opened]
      exact fun hid => (List.mem_cons.1 hid).elim (fun heq => hne heq.symm) hclosed⟩
  | ends i opened ended others =>
    rw [opened] at hclosed
    obtain ⟨hne, hrest⟩ := not_or.1 (mt List.mem_cons.2 hclosed)
    exact ⟨same (others id (Ne.symm hne)), hrest⟩
  | drops i opened marks =>
    rw [opened] at hclosed
    exact ⟨same (congrFun marks id), fun hid => hclosed (List.mem_cons_of_mem _ hid)⟩

theorem Lost.after (h : a.Lost id) (hafter : a.after ss = some a') : a'.Lost id := by
  induction ss generalizing a with
  | nil =>
    cases hafter
    exact h
  | cons s ss ih =>
    obtain ⟨a₁, hstep, hrest⟩ := Option.bind_eq_some_iff.1 hafter
    obtain ⟨r, hexec, -⟩ := Step.exec_of_apply hstep
    exact ih (h.step (s.operation.marks hexec)) hrest

/-- A program that resolves with a lost function does not define it. -/
theorem Lost.not_isDefined {mainEnd : Nat} {p : Program} (h : a.Lost id)
    (hp : a.resolve mainEnd = .ok p) : ∃ f, p.funcs[id]? = some f ∧ ¬f.isDefined := by
  obtain ⟨⟨hentry, hstop⟩, -⟩ := h
  have hfuncs : p.funcs = a.funcs := by
    unfold resolve at hp
    split at hp
    · cases hp
    · split at hp
      · cases hp
      · obtain ⟨code, -, rfl⟩ := map_eq_ok hp
        rfl
  cases hf : a.funcs[id]? with
  | none =>
    rw [mark, hf] at hentry
    cases hentry
  | some f =>
    rw [mark_of_func hf] at hstop
    refine ⟨f, hfuncs ▸ hf, ?_⟩
    unfold FuncInfo.isDefined
    rw [show f.stop = none from hstop, Option.isSome_none, Bool.and_false]
    exact Bool.false_ne_true

end Assembly

theorem Assembled.paired (h : Assembled a) : a.Paired := by
  induction h with
  | empty => exact ⟨List.nodup_nil, fun _ h => (List.not_mem_nil h).elim, fun _ _ => rfl⟩
  | step _ ht hexec _ ih => exact ih.step (ht.marks hexec)

/-- The end of a function out of turn is refused, and the function begun last is lost by it. -/
theorem Assembled.endFunc_out_of_turn {top : Nat} {rest : List Nat} (h : Assembled a)
    (hopened : a.opened = top :: rest) (hne : top ≠ id) (hid : id < a.funcs.size) :
    ∃ e a', (Assembly.endFunc id).exec a = (.error (.error e), a') ∧ a'.Lost top := by
  have hpaired := h.paired
  have hbegun := hpaired.begun top (hopened ▸ List.mem_cons_self)
  cases hf : a.funcs[top]? with
  | none =>
    rw [Assembly.Begun, Assembly.mark, hf] at hbegun
    cases hbegun.1
  | some f =>
    refine ⟨_, _, Assembly.exec_endFunc_of_ne hopened hne hf (Array.getElem?_eq_getElem hid), hbegun, ?_⟩
    exact (List.nodup_cons.1 (hopened ▸ hpaired.nodup)).1

/-- Two functions, of which the first is begun, the second ended, and then the first. -/
def Assembly.crossed : List Assembly.Step :=
  [⟨_, .newFunc "f" 1⟩, ⟨_, .newFunc "g" 1⟩, ⟨_, .defineFunc 0⟩, ⟨_, .endFunc 1⟩, ⟨_, .ret 0⟩,
    ⟨_, .endFunc 0⟩]

example : (Assembly.empty.after Assembly.crossed).map (·.mark 0) = some (some 0, none) ∧
    (Assembly.empty.after (Assembly.crossed.eraseIdx 3)).map (·.mark 0) = some (some 0, some 1) := by
  decide +kernel

end StackScript
