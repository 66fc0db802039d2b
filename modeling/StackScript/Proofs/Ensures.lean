import Mathlib.Order.Defs.Unbundled
import StackScript.Task

/-!
# Reasoning about tasks

`Task.Ensures t s Q E` says that the task `t`, run from the state `s`, gives a result and a state
of `Q` or stops in a way of `E`. One lemma for each way to build a task computes the judgment, so a
proof follows the text of the task; `Ensures.mono` weakens what it ends in. `Task.Relates R t` says
what holds of the states before and after `t`, whatever it ends in.
-/

namespace StackScript

/-! ## Results or errors -/

theorem bind_eq_error {ε α β : Type} {r : Except ε α} {f : α → Except ε β} {e : ε}
    (h : (r >>= f) = .error e) : r = .error e ∨ ∃ a, r = .ok a ∧ f a = .error e := by
  cases r with
  | error e' =>
    cases h
    exact .inl rfl
  | ok a => exact .inr ⟨a, rfl, h⟩

theorem bind_eq_ok {ε α β : Type} {r : Except ε α} {f : α → Except ε β} {b : β}
    (h : (r >>= f) = .ok b) : ∃ a, r = .ok a ∧ f a = .ok b := by
  cases r with
  | error e => cases h
  | ok a => exact ⟨a, rfl, h⟩

theorem map_eq_ok {α β ε : Type} {f : α → β} {r : Except ε α} {b : β} (h : r.map f = .ok b) :
    ∃ a, r = .ok a ∧ f a = b := by
  cases r with
  | ok a =>
    cases h
    exact ⟨a, rfl, rfl⟩
  | error e => cases h

theorem eq_ok_get {ε α : Type} {r : Except ε α} (h : r.toOption.isSome) :
    r = .ok (r.toOption.get h) := by
  cases r with
  | ok a => rfl
  | error e => cases h

theorem mapError_eq_ok {α ε ε' : Type} {f : ε → ε'} {t : Except ε α} {x : α}
    (h : t.mapError f = .ok x) : t = .ok x := by
  cases t with
  | ok y =>
    cases h
    rfl
  | error e => cases h

theorem mapError_eq_error {α ε ε' : Type} {f : ε → ε'} {t : Except ε α} {e : ε'}
    (h : t.mapError f = .error e) : ∃ e', t = .error e' ∧ e = f e' := by
  cases t with
  | ok y => cases h
  | error e' =>
    cases h
    exact ⟨e', rfl, rfl⟩

namespace Task

variable {ε ε' σ τ α β : Type}

/-! ## Running -/

@[simp] theorem exec_pure (a : α) (s : σ) : (pure a : Task ε σ α).exec s = (.ok a, s) := rfl

theorem exec_bind (t : Task ε σ α) (f : α → Task ε σ β) (s : σ) :
    (t >>= f).exec s = match t.exec s with
      | (.ok a, s') => (f a).exec s'
      | (.error e, s') => (.error e, s') := by
  show (ExceptT.bindCont f (t.exec s).1 : StateM σ _) (t.exec s).2 = _
  rcases t.exec s with ⟨_ | _, _⟩ <;> rfl

/-- A task that goes through goes on with its result. -/
theorem exec_bind_ok {t : Task ε σ α} {f : α → Task ε σ β} {s s' : σ} {a : α}
    (h : t.exec s = (.ok a, s')) : (t >>= f).exec s = (f a).exec s' := by
  rw [exec_bind, h]

theorem exec_bind_error {t : Task ε σ α} {f : α → Task ε σ β} {s s' : σ} {e : Stop ε}
    (h : t.exec s = (.error e, s')) : (t >>= f).exec s = (.error e, s') := by
  rw [exec_bind, h]

/-- A sequence that goes through has gone through its first part. -/
theorem exec_bind_eq_ok {t : Task ε σ α} {f : α → Task ε σ β} {s s'' : σ} {b : β} :
    (t >>= f).exec s = (.ok b, s'') ↔
      ∃ a s', t.exec s = (.ok a, s') ∧ (f a).exec s' = (.ok b, s'') := by
  rw [exec_bind]
  rcases t.exec s with ⟨e | a, s'⟩
  · simp
  · simp [and_assoc]

@[simp] theorem exec_map (t : Task ε σ α) (f : α → β) (s : σ) :
    (f <$> t).exec s = ((t.exec s).1.map f, (t.exec s).2) := by
  show (t >>= fun a => pure (f a)).exec s = _
  rw [exec_bind]
  rcases t.exec s with ⟨_ | _, _⟩ <;> rfl

@[simp] theorem exec_get (s : σ) : (get : Task ε σ σ).exec s = (.ok s, s) := rfl

@[simp] theorem exec_set (s s' : σ) : (set s' : Task ε σ PUnit).exec s = (.ok ⟨⟩, s') := rfl

@[simp] theorem exec_modify (f : σ → σ) (s : σ) :
    (modify f : Task ε σ PUnit).exec s = (.ok ⟨⟩, f s) := rfl

@[simp] theorem exec_fail (e : ε) (s : σ) :
    (fail e : Task ε σ α).exec s = (.error (.error e), s) := rfl

@[simp] theorem exec_fault (f : Fault) (s : σ) :
    (fault f : Task ε σ α).exec s = (.error (.fault f), s) := rfl

@[simp] theorem exec_throw (e : Stop ε) (s : σ) :
    (throw e : Task ε σ α).exec s = (.error e, s) := rfl

@[simp] theorem exec_ofExcept (r : Except ε α) (s : σ) :
    (ofExcept r).exec s = (r.mapError .error, s) := by
  cases r <;> rfl

@[simp] theorem exec_ofChecked (r : Except Fault α) (s : σ) :
    (ofChecked r : Task ε σ α).exec s = (r.mapError .fault, s) := by
  cases r <;> rfl

theorem exec_mapError (f : ε → ε') (t : Task ε σ α) (s : σ) :
    (t.mapError f).exec s = match t.exec s with
      | (.ok a, s') => (.ok a, s')
      | (.error (.error e), s') => (.error (.error (f e)), s')
      | (.error (.fault x), s') => (.error (.fault x), s') := by
  have hrun : t.run.run s = t.exec s := rfl
  unfold mapError
  rw [exec, ExceptT.run_mk, StateT.run_bind, hrun]
  rcases t.exec s with ⟨(e | x) | a, s'⟩ <;> rfl

theorem exec_zoom (get : τ → σ) (put : σ → τ → τ) (t : Task ε σ α) (whole : τ) :
    (t.zoom get put).exec whole =
      ((t.exec (get whole)).1, put (t.exec (get whole)).2 whole) := rfl

/-! ## The judgment -/

/-- From `s` the task gives a result and a state of `Q`, or stops in a way of `E`. -/
def Ensures (t : Task ε σ α) (s : σ) (Q : α → σ → Prop) (E : Stop ε → σ → Prop) : Prop :=
  match t.exec s with
  | (.ok a, s') => Q a s'
  | (.error e, s') => E e s'

namespace Ensures

variable {t : Task ε σ α} {s s' : σ} {Q Q' : α → σ → Prop} {E E' : Stop ε → σ → Prop}

theorem of_exec (ok : ∀ a s', t.exec s = (.ok a, s') → Q a s')
    (error : ∀ e s', t.exec s = (.error e, s') → E e s') : t.Ensures s Q E := by
  unfold Ensures
  split
  · exact ok _ _ ‹_›
  · exact error _ _ ‹_›

theorem ok (h : t.Ensures s Q E) {a : α} (ht : t.exec s = (.ok a, s')) : Q a s' := by
  unfold Ensures at h
  rwa [ht] at h

theorem error (h : t.Ensures s Q E) {e : Stop ε} (ht : t.exec s = (.error e, s')) : E e s' := by
  unfold Ensures at h
  rwa [ht] at h

theorem mono (h : t.Ensures s Q E) (hQ : ∀ a s', Q a s' → Q' a s')
    (hE : ∀ e s', E e s' → E' e s') : t.Ensures s Q' E' :=
  of_exec (fun _ _ ht => hQ _ _ (h.ok ht)) fun _ _ ht => hE _ _ (h.error ht)

/-- The result is one of this very run. -/
theorem and_exec (h : t.Ensures s Q E) :
    t.Ensures s (fun a s' => Q a s' ∧ t.exec s = (.ok a, s')) E :=
  of_exec (fun _ _ ht => ⟨h.ok ht, ht⟩) fun _ _ ht => h.error ht

/-- Weakens the result alone. -/
theorem imp (h : t.Ensures s Q E) (hQ : ∀ a s', Q a s' → Q' a s') : t.Ensures s Q' E :=
  h.mono hQ fun _ _ he => he

theorem and (h : t.Ensures s Q E) (h' : t.Ensures s Q' E) :
    t.Ensures s (fun a s' => Q a s' ∧ Q' a s') E :=
  of_exec (fun _ _ ht => ⟨h.ok ht, h'.ok ht⟩) fun _ _ ht => h.error ht

end Ensures

variable {s : σ} {E : Stop ε → σ → Prop}

theorem ensures_bind {t : Task ε σ α} {f : α → Task ε σ β} {Q : β → σ → Prop} :
    (t >>= f).Ensures s Q E ↔ t.Ensures s (fun a s' => (f a).Ensures s' Q E) E := by
  unfold Ensures
  rw [exec_bind]
  rcases t.exec s with ⟨_ | _, _⟩ <;> rfl

/-- A sequence ends as its second part does after its first. -/
theorem Ensures.bind {t : Task ε σ α} {f : α → Task ε σ β} {Q : α → σ → Prop} {R : β → σ → Prop}
    (h : t.Ensures s Q E) (hf : ∀ a s', Q a s' → (f a).Ensures s' R E) :
    (t >>= f).Ensures s R E :=
  ensures_bind.2 (h.imp hf)

@[simp] theorem ensures_pure {a : α} {Q : α → σ → Prop} :
    (pure a : Task ε σ α).Ensures s Q E ↔ Q a s := Iff.rfl

@[simp] theorem ensures_get {Q : σ → σ → Prop} :
    (get : Task ε σ σ).Ensures s Q E ↔ Q s s := Iff.rfl

@[simp] theorem ensures_set {s' : σ} {Q : PUnit → σ → Prop} :
    (set s' : Task ε σ PUnit).Ensures s Q E ↔ Q ⟨⟩ s' := Iff.rfl

@[simp] theorem ensures_modify {f : σ → σ} {Q : PUnit → σ → Prop} :
    (modify f : Task ε σ PUnit).Ensures s Q E ↔ Q ⟨⟩ (f s) := Iff.rfl

@[simp] theorem ensures_fail {e : ε} {Q : α → σ → Prop} :
    (fail e : Task ε σ α).Ensures s Q E ↔ E (.error e) s := Iff.rfl

@[simp] theorem ensures_fault {f : Fault} {Q : α → σ → Prop} :
    (fault f : Task ε σ α).Ensures s Q E ↔ E (.fault f) s := Iff.rfl

theorem ensures_ofExcept {r : Except ε α} {Q : α → σ → Prop} :
    (ofExcept r).Ensures s Q E ↔ (∀ a, r = .ok a → Q a s) ∧ ∀ e, r = .error e → E (.error e) s := by
  cases r with
  | ok a => exact ⟨fun h => ⟨by rintro _ ⟨⟩; exact h, by rintro _ ⟨⟩⟩, fun h => h.1 a rfl⟩
  | error e => exact ⟨fun h => ⟨by rintro _ ⟨⟩, by rintro _ ⟨⟩; exact h⟩, fun h => h.2 e rfl⟩

theorem ensures_ofChecked {r : Except Fault α} {Q : α → σ → Prop} :
    (ofChecked r : Task ε σ α).Ensures s Q E ↔
      (∀ a, r = .ok a → Q a s) ∧ ∀ f, r = .error f → E (.fault f) s := by
  cases r with
  | ok a => exact ⟨fun h => ⟨by rintro _ ⟨⟩; exact h, by rintro _ ⟨⟩⟩, fun h => h.1 a rfl⟩
  | error e => exact ⟨fun h => ⟨by rintro _ ⟨⟩, by rintro _ ⟨⟩; exact h⟩, fun h => h.2 e rfl⟩

theorem ensures_expect {r : Option α} {Q : α → σ → Prop} :
    (expect r : Task ε σ α).Ensures s Q E ↔
      (∀ a, r = some a → Q a s) ∧ (r = none → E (.fault .outOfRange) s) := by
  cases r <;> simp [Ensures, expect]

@[simp] theorem ensures_map {t : Task ε σ α} {f : α → β} {Q : β → σ → Prop} :
    (f <$> t).Ensures s Q E ↔ t.Ensures s (fun a => Q (f a)) E := by
  unfold Ensures
  rw [exec_map]
  rcases t.exec s with ⟨_ | _, _⟩ <;> rfl

@[simp] theorem ensures_discard {t : Task ε σ α} {Q : PUnit → σ → Prop} :
    (discard t).Ensures s Q E ↔ t.Ensures s (fun _ => Q ⟨⟩) E :=
  ensures_map

/-- Errors read as others do not change what a task does otherwise. -/
theorem Ensures.mapError {t : Task ε σ α} {f : ε → ε'} {Q : α → σ → Prop}
    {E' : Stop ε' → σ → Prop} (h : t.Ensures s Q E)
    (hE : ∀ e s', E (.error e) s' → E' (.error (f e)) s')
    (hF : ∀ x s', E (.fault x) s' → E' (.fault x) s') : (t.mapError f).Ensures s Q E' := by
  unfold Ensures at *
  rw [exec_mapError]
  revert h
  rcases t.exec s with ⟨(e | x) | a, s'⟩
  · exact hE _ _
  · exact hF _ _
  · exact id

theorem ensures_zoom {get : τ → σ} {put : σ → τ → τ} {t : Task ε σ α} {whole : τ}
    {Q : α → τ → Prop} {E : Stop ε → τ → Prop} :
    (t.zoom get put).Ensures whole Q E ↔
      t.Ensures (get whole) (fun a part => Q a (put part whole))
        (fun e part => E e (put part whole)) := by
  unfold Ensures
  rw [exec_zoom]
  rcases t.exec (get whole) with ⟨_ | _, _⟩ <;> rfl

/-! ## Lists -/

/-- A task for each item keeps what each of them keeps. -/
theorem Ensures.forM {f : α → Task ε σ PUnit} {I : σ → Prop} (l : List α)
    (hf : ∀ a ∈ l, ∀ s, I s → (f a).Ensures s (fun _ => I) E) (hs : I s) :
    (l.forM f).Ensures s (fun _ => I) E := by
  induction l generalizing s with
  | nil => exact hs
  | cons a l ih =>
    show (f a >>= fun _ => l.forM f).Ensures s _ E
    refine (hf a (by simp) s hs).bind fun _ s' hs' => ?_
    exact ih (fun b hb => hf b (by simp [hb])) hs'

/-! ## Whatever a task ends in -/

/-- However the task ends, the state that it found and the one that it leaves are related. -/
structure Relates (R : σ → σ → Prop) (t : Task ε σ α) : Prop where
  related : ∀ s, R s (t.exec s).2

namespace Relates

variable {R : σ → σ → Prop} {t : Task ε σ α}

theorem map {f : α → β} (h : t.Relates R) : (f <$> t).Relates R :=
  ⟨fun s => by
    rw [Task.exec_map]
    exact h.related s⟩

theorem discard (h : t.Relates R) : (discard t).Relates R := h.map

theorem modify {f : σ → σ} (h : ∀ s, R s (f s)) : (modify f : Task ε σ PUnit).Relates R := ⟨h⟩

/-- What a task does to a part of the state. -/
theorem zoom {get : τ → σ} {put : σ → τ → τ} {S : τ → τ → Prop} (f : ε → ε') (h : t.Relates R)
    (hput : ∀ whole part, R (get whole) part → S whole (put part whole)) :
    ((t.mapError f).zoom get put).Relates S :=
  ⟨fun whole => by
    have hpart := h.related (get whole)
    rw [exec_zoom, exec_mapError]
    generalize t.exec (get whole) = r at hpart
    obtain ⟨(e | x) | a, part⟩ := r <;> exact hput _ _ hpart⟩

variable [IsPreorder σ R]

theorem pure (a : α) : (Pure.pure a : Task ε σ α).Relates R := ⟨refl_of R⟩

theorem bind {f : α → Task ε σ β} (h : t.Relates R) (hf : ∀ a, (f a).Relates R) :
    (t >>= f).Relates R :=
  ⟨fun s => by
    have hs := h.related s
    rw [Task.exec_bind]
    generalize t.exec s = r at hs
    obtain ⟨e | a, s'⟩ := r
    · exact hs
    · exact trans_of R hs ((hf a).related s')⟩

theorem stop (e : Stop ε) : (throw e : Task ε σ α).Relates R := ⟨refl_of R⟩

theorem get : (MonadState.get : Task ε σ σ).Relates R := ⟨refl_of R⟩

theorem ofExcept (r : Except ε α) : (Task.ofExcept r : Task ε σ α).Relates R := by
  cases r with
  | ok a => exact .pure a
  | error e => exact .stop _

theorem ofChecked (r : Except Fault α) : (Task.ofChecked r : Task ε σ α).Relates R := by
  cases r with
  | ok a => exact .pure a
  | error e => exact .stop _

theorem expect (r : Option α) : (Task.expect r : Task ε σ α).Relates R := by
  cases r with
  | some a => exact .pure a
  | none => exact .stop _

theorem forM {f : α → Task ε σ PUnit} {l : List α} (h : ∀ a ∈ l, (f a).Relates R) :
    (l.forM f).Relates R := by
  induction l with
  | nil => exact .pure _
  | cons a l ih =>
    exact (h a List.mem_cons_self).bind fun _ => ih fun b hb => h b (List.mem_cons_of_mem a hb)

end Relates

end Task

end StackScript
