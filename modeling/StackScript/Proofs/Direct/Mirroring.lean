import StackScript.Proofs.Direct.Evaluator
import StackScript.Proofs.Running.Straight

/-!
# Code that does what the evaluator does

`Mirrors t s r Q`: from `s` the code `t` gives a result where the evaluator gives one, and the two
are in the relation `Q`; or the code stops because of a limit, or with the very error of an operator
that the evaluator stops with.
-/

namespace StackScript

namespace Direct

variable {α β γ δ : Type}

/-- The code does what the evaluator does, unless it exceeds a limit. -/
def Mirrors (t : Run α) (s : Thread) (r : Outcome β) (Q : α → β → Thread → Prop) : Prop :=
  t.Ensures s (fun a s' => ∃ b, r = .ok b ∧ Q a b s') fun e _ =>
    e.Limited ∨ ∃ x err, r = .error (.evaluation x) ∧ e = .error err ∧ err.cause = .evaluation x

namespace Mirrors

variable {t : Run α} {s : Thread} {r : Outcome β} {Q Q' : α → β → Thread → Prop}

theorem imp (h : Mirrors t s r Q) (hQ : ∀ a b s', Q a b s' → Q' a b s') : Mirrors t s r Q' :=
  Task.Ensures.imp h fun a s' ⟨b, hb, hab⟩ => ⟨b, hb, hQ a b s' hab⟩

/-- Both go on. -/
theorem bind {f : α → Run γ} {g : β → Outcome δ} {R : γ → δ → Thread → Prop}
    (h : Mirrors t s r Q) (hf : ∀ a b s', Q a b s' → Mirrors (f a) s' (g b) R) :
    Mirrors (t >>= f) s (r >>= g) R := by
  refine Task.ensures_bind.2 (Task.Ensures.mono h ?_ ?_)
  · rintro a s' ⟨b, rfl, hab⟩
    exact hf a b s' hab
  · rintro e s' (hlimit | ⟨x, err, rfl, rfl, hcause⟩)
    · exact .inl hlimit
    · exact .inr ⟨x, err, rfl, rfl, hcause⟩

/-- The code goes on alone. -/
theorem code {f : α → Run γ} {P : α → Thread → Prop} {R : γ → β → Thread → Prop}
    (h : t.Ensures s P fun e _ => e.Limited) (hf : ∀ a s', P a s' → Mirrors (f a) s' r R) :
    Mirrors (t >>= f) s r R :=
  Task.ensures_bind.2 (h.mono hf fun _ _ he => .inl he)

/-- The evaluator goes on alone. -/
theorem outcome {g : β → Outcome δ} {b : β} {R : α → δ → Thread → Prop} (hr : r = .ok b)
    (h : Mirrors t s (g b) R) : Mirrors t s (r >>= g) R := by
  subst hr
  exact h

theorem pure {a : α} {b : β} (h : Q a b s) : Mirrors (pure a) s (.ok b) Q := ⟨b, rfl, h⟩

/-- Code whose result the evaluator has already. -/
theorem done {b : β} (hr : r = .ok b) (h : t.Ensures s (fun a s' => Q a b s') fun e _ => e.Limited) :
    Mirrors t s r Q := by
  subst hr
  exact h.mono (fun a s' ha => ⟨b, rfl, ha⟩) fun _ _ he => .inl he

end Mirrors

variable {s : Thread} {w : World} {st : Stack}

/-- An operator on values. -/
theorem mirrors_evaluate {op : Operator} {k : Kind} {x y : Value} (h : s.At w st) :
    Mirrors (Run.evaluate op k x y) s (evaluated (op.eval k x y)) fun u u' s' =>
      u' = u ∧ op.eval k x y = .ok u ∧ s'.At w st := by
  unfold Run.evaluate
  cases op.eval k x y with
  | ok u => exact ⟨u, rfl, rfl, rfl, h⟩
  | error e => exact .inr ⟨e, _, rfl, rfl, rfl⟩

variable {m : Machine} {call : Caller} {ctx : Nat} {is : List Instr} {i : Instr} {r : Outcome β}
  {Q : Unit → β → Thread → Prop}

/-- One instruction, and those behind it. -/
theorem mirrors_cons (h : s.At w st) (hi : ∀ s', s'.At w st →
    Mirrors (do m.perform call ctx i; m.follow call ctx is) s' r Q) :
    Mirrors (m.follow call ctx (i :: is)) s r Q :=
  .code (m.ensures_tick h) fun _ s' hs' => hi s' hs'

/-- The last instruction. -/
theorem mirrors_single (h : s.At w st) (hi : ∀ s', s'.At w st →
    Mirrors (m.perform call ctx i) s' r Q) : Mirrors (m.follow call ctx [i]) s r Q := by
  refine mirrors_cons h fun s' hs' => ?_
  rw [Machine.follow, bind_pure_unit]
  exact hi s' hs'

/-- One instruction, which no operator is in. -/
theorem ensures_single {P : Thread → Prop} (h : s.At w st) (hi : ∀ s', s'.At w st →
    (m.perform call ctx i).Ensures s' (fun _ => P) fun e _ => e.Limited) :
    (m.follow call ctx [i]).Ensures s (fun _ => P) fun e _ => e.Limited := by
  show Task.Ensures (do m.tick; m.perform call ctx i; pure ()) s _ _
  rw [bind_pure_unit]
  exact (m.ensures_tick h).bind fun _ s' hs' => hi s' hs'

theorem ensures_nil {P : Thread → Prop} (h : P s) :
    (m.follow call ctx []).Ensures s (fun _ => P) fun e _ => e.Limited := h

/-- Code in two parts. -/
theorem mirrors_append {js : List Instr} (h : Mirrors (do
    m.follow call ctx is
    m.follow call ctx js) s r Q) : Mirrors (m.follow call ctx (is ++ js)) s r Q := by
  rw [Machine.follow_append]
  exact h

/-- An operator on the two values on top. -/
theorem mirrors_builtinOp {op : Operator} {k : Kind} {x y : Value}
    (h : s.At w ((st.push x).push y)) :
    Mirrors (m.perform call ctx (.builtinOp (some k) (some op))) s (evaluated (op.eval k x y))
      fun _ u s' => op.eval k x y = .ok u ∧ s'.At w (st.push u) := by
  refine .code (Run.ensures_pop h) fun a s₁ ⟨ha, hs₁⟩ => ?_
  subst ha
  refine .code (Run.ensures_pop hs₁) fun b s₂ ⟨hb, hs₂⟩ => ?_
  subst hb
  have hpush : Mirrors (Run.evaluate op k b a >>= Run.push) s₂
      (evaluated (op.eval k b a) >>= pure) fun _ u s' =>
        op.eval k b a = .ok u ∧ s'.At w (st.push u) :=
    (mirrors_evaluate hs₂).bind fun u u' s₃ ⟨hu, heval, hs₃⟩ => by
      subst hu
      exact .done rfl ((Run.ensures_push hs₃).imp fun _ _ hs₄ => ⟨heval, hs₄⟩)
  rwa [bind_pure] at hpush

variable {vars : Array Value} {index : Nat}

/-- An operator on a variable of the main body whose address is at hand. -/
theorem mirrors_updatePlace {op : Operator} {k : Kind} {x y : Value}
    (hm : Machine.MainFrame w ctx vars) (hx : vars[index]? = some x) (h : s.At w st) :
    Mirrors (Run.updatePlace op k (.slot ctx index) y) s (evaluated (op.eval k x y))
      fun _ u s' => op.eval k x y = .ok u ∧
        ∃ w', s'.At w' st ∧ Machine.MainFrame w' ctx (vars.setIfInBounds index u) := by
  refine .code (Run.ensures_load (hm.load?.trans hx) h) fun a s₁ ⟨ha, hs₁⟩ => ?_
  subst ha
  have hindex : index < vars.size := Array.getElem?_eq_some_iff.1 hx |>.1
  have hstore : Mirrors (Run.evaluate op k a y >>= Run.store (.slot ctx index)) s₁
      (evaluated (op.eval k a y) >>= pure) fun _ u s' => op.eval k a y = .ok u ∧
        ∃ w', s'.At w' st ∧ Machine.MainFrame w' ctx (vars.setIfInBounds index u) :=
    (mirrors_evaluate hs₁).bind fun u u' s₂ ⟨hu, heval, hs₂⟩ => by
      subst hu
      obtain ⟨store, hstore, hm'⟩ := hm.store? (v := u') hindex
      exact .done rfl ((Run.ensures_store hstore hs₂).imp fun _ s₃ hs₃ => ⟨heval, _, hs₃, hm'⟩)
  rwa [bind_pure] at hstore

end Direct

end StackScript
