import StackScript.Proofs.Typing.Balanced

/-!
# How the values of an assignment are evaluated

The code of an expression puts its value on the stack and leaves what is below it as it was, whatever
calls do in between (`Machine.typed_calm`). So the values of an assignment are evaluated one after
another, from left to right, and wait on the stack (`Machine.typed_values`).
-/

namespace StackScript

/-! ## Evaluation -/

/-- Expressions are evaluated one after another by their code: each leaves one value more on the stack of
the thread and nothing else changes there. -/
inductive Machine.EvaluatesEach (m : Machine) (call : Caller) (ctx : Nat) (S : Site) :
    List Expr → List Instr → Thread → List Value → Thread → Prop
  | nil {t : Thread} : EvaluatesEach m call ctx S [] [] t [] t
  | cons {e : Expr} {es : List Expr} {p : Pushed} {is₁ is₂ : List Instr} {t t₁ t₂ : Thread} {v : Value}
    {vs : List Value} (hcode : Code S e p is₁) (hrun : (m.follow call ctx is₁).exec t = (.ok (), t₁))
    (hstack : t₁.stack = t.stack.push v) (hrest : EvaluatesEach m call ctx S es is₂ t₁ vs t₂) :
    EvaluatesEach m call ctx S (e :: es) (is₁ ++ is₂) t (v :: vs) t₂

/-- The values of an assignment are evaluated: each by an expression of its own, or all by one call. -/
inductive Machine.Evaluates (m : Machine) (call : Caller) (ctx : Nat) (S : Site) :
    List Expr → List Instr → Thread → List Value → Thread → Prop
  | each {es : List Expr} {is : List Instr} {t t' : Thread} {vs : List Value}
    (h : m.EvaluatesEach call ctx S es is t vs t') : Evaluates m call ctx S es is t vs t'
  | sole {e : Expr} {types : List Ty} {is : List Instr} {t t' : Thread} {vs : List Value}
    (hcode : Code S e (.results types) is) (hlength : vs.length = types.length)
    (hrun : (m.follow call ctx is).exec t = (.ok (), t')) (hstack : t'.stack = t.stack ++ vs) :
    Evaluates m call ctx S [e] is t vs t'

theorem Run.Types.and_exec {g : Setting} {cells : Array Ty} {α : Type} {r : Run α} {t : Thread}
    {Q : Array Ty → α → Thread → Prop} (h : Run.Types g cells r t Q) :
    Run.Types g cells r t fun cells' a t' => Q cells' a t' ∧ r.exec t = (.ok a, t') :=
  (Task.Ensures.and_exec h).imp fun _ _ ⟨⟨cells', hlater, ha⟩, hexec⟩ => ⟨cells', hlater, ha, hexec⟩

namespace Machine

variable {g : Setting} {D : TypeNames} {file : File} {labels : Nat} {cells : Array Ty} {m : Machine}
  {S : Site} {b : Body} {ctx numIn : Nat} {below : List Value} {τ : List Slot} {t : Thread} {call : Caller}

section

variable (h : g.Compiled D file labels) (hm : m.Typed g) (hcall : call.Typed g t.depth)

include h hm hcall

/-- Calm instructions that make new operands above any others leave the others as they are, and the
arguments. The type of an operand may be that it is a certain value, so that its flow says so. -/
theorem typed_calm {is : List Instr} {σ : List Slot} (hflow : ∀ τ, Flow g b τ is (σ ++ τ))
    (hcalm : AllCalm numIn is) (ht : t.Stands g cells b ctx below τ) :
    Run.Types g cells (m.follow call ctx is) t fun cells' _ t' => ∃ vs : List Value,
      vs.length = σ.length ∧ t'.stack = t.stack ++ vs ∧ ∃ τ', t'.Stands g cells' b ctx below τ' := by
  obtain ⟨u, args, ops, rfl, hs⟩ := ht
  have hkept : Standing g cells b ctx below args (ops.map .kept) u ops := hs.holds (allHold_kept.2 rfl)
  refine (typed_follow (t := u) h.code hm h.consistent hcall (hflow (ops.map .kept))
    (fun i hi => (hcalm i hi).returns) hkept).imp fun cells' _ t' _ hends => ?_
  obtain ⟨v, args', ops', rfl, hs', hargs⟩ := hends
  obtain ⟨vs, rest, rfl, hvs, hrest⟩ := hs'.ops.split
  obtain rfl := allHold_kept.1 hrest
  have hstack : v.stack = u.stack := by
    rw [← Array.toList_inj, hs'.stack, hs.stack, hargs fun i hi => (hcalm i hi).stores]
  refine ⟨vs.reverse, by rw [List.length_reverse, List.Forall₂.length_eq hvs], ?_, _, v, args', _, rfl, hs'⟩
  rw [← Array.toList_inj, Thread.holding, Thread.toList_stack_above, hstack, List.reverse_append,
    Array.toList_appendList, Thread.holding, Thread.toList_stack_above, List.append_assoc]

variable (hS : S.In g.out) (hlax : g.lax)

include hS hlax

/-- Each expression is evaluated to one value, in the thread that those before it lead to. -/
theorem typed_singles {es : List Expr} {ps : List Pushed} {is : List Instr} (hes : Singles S es ps is)
    (hlen : is.length < Word.spreadCall) (ht : t.Stands g cells S.body ctx below τ) :
    Run.Types g cells (m.follow call ctx is) t fun cells' _ t' => ∃ vs : List Value,
      vs.length = es.length ∧ m.EvaluatesEach call ctx S es is t vs t' ∧ t'.stack = t.stack ++ vs ∧
      ∃ τ', t'.Stands g cells' S.body ctx below τ' := by
  induction hes generalizing cells t τ with
  | nil =>
    obtain ⟨u, args, ops, rfl, hs⟩ := ht
    exact .pure hs.typed ⟨[], rfl, .nil, by simp, τ, u, args, ops, rfl, hs⟩
  | @cons e es p ps is₁ is₂ hcode hp _ ih =>
    rw [List.length_append] at hlen
    have hflow := (hcode.flows h.consistent (h.typed_site hS.out) (.inl hlax) (by omega)).2
    rw [follow_append]
    refine .bind (typed_calm h hm hcall hflow (hcode.calm hS.takes) ht).and_exec
      fun cells' _ t₁ hlater hends => ?_
    obtain ⟨⟨vs₁, hlength, hstack, τ', ht₁⟩, hrun⟩ := hends
    obtain ⟨ty, hslots⟩ := Pushed.exists_slot hp
    rw [hslots, Slot.length_values, List.length_singleton, List.length_eq_one_iff] at hlength
    obtain ⟨v, rfl⟩ := hlength
    have hpush : t₁.stack = t.stack.push v := by simpa using hstack
    refine (ih (hlater.depth.symm ▸ hcall) (by omega) ht₁).imp
      fun cells'' _ t₂ _ hends => ?_
    obtain ⟨vs, hlength, heach, hstack', hstands⟩ := hends
    refine ⟨v :: vs, by rw [List.length_cons, hlength, List.length_cons], .cons hcode hrun hpush heach, ?_,
      hstands⟩
    rw [hstack', hpush]
    simp

/-- The values of an assignment wait on the stack. -/
theorem typed_values {n : Nat} {es : List Expr} {ps : List Pushed} {is : List Instr}
    (hes : Values S n es ps is) (hlen : is.length < Word.spreadCall)
    (ht : t.Stands g cells S.body ctx below τ) :
    Run.Types g cells (m.follow call ctx is) t fun cells' _ t' => ∃ vs : List Value, vs.length = n ∧
      m.Evaluates call ctx S es is t vs t' ∧ t'.stack = t.stack ++ vs ∧
      ∃ τ', t'.Stands g cells' S.body ctx below τ' := by
  cases hes with
  | @sole e types _ hcode hn =>
    have hflow := (hcode.flows h.consistent (h.typed_site hS.out) (.inl hlax) hlen).2
    refine (typed_calm h hm hcall hflow (hcode.calm hS.takes) ht).and_exec.imp
      fun cells' _ t' _ hends => ?_
    obtain ⟨⟨vs, hlength, hstack, hstands⟩, hrun⟩ := hends
    have hlength : vs.length = types.length := by
      rw [hlength]
      exact Slot.length_values types
    exact ⟨vs, hlength.trans hn, .sole hcode hlength hrun hstack, hstack, hstands⟩
  | each hn hes =>
    refine (typed_singles h hm hcall hS hlax hes hlen ht).imp
      fun cells' _ t' _ hends => ?_
    obtain ⟨vs, hlength, heach, hrest⟩ := hends
    exact ⟨vs, hlength.trans hn, .each heach, hrest⟩

end

end Machine

end StackScript
