import StackScript.Proofs.Scoping.Declaring
import StackScript.Proofs.Translation.Bodies

/-!
# The bodies that wait

The bodies of functions are compiled one behind another, each once, in the order in which their
functions were made, and what they leave waiting is compiled behind them (`Compile.Processes`). So the
words of functions lie one behind another, and so do their variables (`Laid`).
-/

namespace StackScript

open CompileState

/-! ## Functions one behind another -/

/-- How many words and variables there are. -/
structure Mark where
  code : Nat
  vars : Nat

def CompileState.mark (s : CompileState) : Mark := ⟨s.asm.code.size, s.asm.vars.size⟩

/-- The words and the variables of a function are those between two marks. -/
structure FuncInfo.Spans (g : FuncInfo) (x y : Mark) : Prop where
  entry : g.entry = some x.code
  stop : g.stop = some y.code
  le : x.code ≤ y.code
  vars : g.vars.toList = List.range' x.vars g.vars.size
  next : y.vars = x.vars + g.vars.size

/-- Functions lie one behind another between two marks. -/
inductive Laid (fs : Array FuncInfo) : List Nat → Mark → Mark → Prop
  | nil {x : Mark} : Laid fs [] x x
  | cons {id : Nat} {ids : List Nat} {g : FuncInfo} {x y z : Mark} (hg : fs[id]? = some g)
    (h : g.Spans x y) (hs : Laid fs ids y z) : Laid fs (id :: ids) x z

theorem FuncInfo.Becomes.spans {f g : FuncInfo} (hfg : f.Becomes g) {x y : Mark} (h : f.Spans x y) :
    g.Spans x y := by
  obtain ⟨hstop, hvars⟩ := hfg.ended (by rw [h.stop]; rfl)
  obtain ⟨hentry, -⟩ := hfg.begun (by rw [h.entry]; rfl)
  exact ⟨hentry.trans h.entry, hstop.trans h.stop, h.le, by rw [hvars]; exact h.vars,
    by rw [hvars]; exact h.next⟩

theorem Laid.mono {fs gs : Array FuncInfo} {ids : List Nat} {x y : Mark} (h : Laid fs ids x y)
    (hgrow : FuncsGrow fs gs) : Laid gs ids x y := by
  induction h with
  | nil => exact .nil
  | cons hg h hs ih =>
    obtain ⟨g', hg', hbecomes⟩ := hgrow _ _ hg
    exact .cons hg' (hbecomes.spans h) ih

/-- Two stretches of numbers, one behind the other. -/
theorem range'_append_range' {a b c : Nat} (hab : a ≤ b) (hbc : b ≤ c) :
    List.range' a (b - a) ++ List.range' b (c - b) = List.range' a (c - a) := by
  obtain ⟨k, rfl⟩ := Nat.exists_eq_add_of_le hab
  obtain ⟨l, rfl⟩ := Nat.exists_eq_add_of_le hbc
  rw [Nat.add_sub_cancel_left, Nat.add_sub_cancel_left, List.range'_append_1]
  congr 1
  omega

variable {L : Layout} {s s' s'' : CompileState} {home : Home} {env : CompileEnv}

/-! ## One body -/

/-- The first body in the queue is taken from it. -/
theorem Between.dequeue (h : Between L s) {b : WaitingBody} {queue : List WaitingBody}
    (hqueue : s.queue = b :: queue) : Between L { s with queue } ∧ Grows s { s with queue } ∧
      (∃ home f, Waiting L { s with queue } b home f) ∧ b.func ∉ queue.map (·.func) := by
  have hnodup := h.declared.queue_nodup
  rw [hqueue, List.map_cons, List.nodup_cons] at hnodup
  obtain ⟨home, f, hw⟩ := h.declared.queue b (by simp [hqueue])
  have hgrows : Grows s { s with queue } := { Grows.refl s with slots := fun _ _ h => h }
  refine ⟨⟨{ h.tidy with }, ?_, h.path, h.floor⟩, hgrows,
    ⟨home, f, hw.grow hgrows hw.info (Nat.le_refl _) fun _ => rfl⟩, hnodup.1⟩
  exact { h.declared with
    owner := h.declared.owner
    depth := fun o ho => h.declared.depth o (ho.mono hgrows)
    running := fun id hid => by
      obtain ⟨f, sig, hr⟩ := h.declared.running id hid
      exact ⟨f, sig, hr.grow hgrows rfl hr.info⟩
    literals := fun label id hid => by
      obtain ⟨hle, hlt, q, hq, hj⟩ := h.declared.literals label id hid
      exact ⟨hle, hlt, q, hgrows.owner? hq, hj⟩
    scopes := h.declared.scopes.grow hgrows
    queue := fun b' hb' => by
      obtain ⟨home', f', hw'⟩ := h.declared.queue b' (by simp [hqueue, hb'])
      exact ⟨home', f', hw'.grow hgrows hw'.info (Nat.le_refl _) fun _ => rfl⟩
    queue_nodup := hnodup.2
    idle := h.declared.idle
    coded := fun id f hf hstop o g ho hg =>
      h.declared.coded id f hf hstop o g (ho.mono hgrows) hg }

namespace Compile

/-- Some functions came to their end, and bodies of new functions wait behind the others. -/
structure Processes (s s' : CompileState) (order : List Nat) : Prop where
  laid : Laid s'.asm.funcs order s.mark s'.mark
  size : s.asm.funcs.size ≤ s'.asm.funcs.size
  queue : order ++ s'.queue.map (·.func) = s.queue.map (·.func) ++
    List.range' s.asm.funcs.size (s'.asm.funcs.size - s.asm.funcs.size)
  run : ∀ (id : Nat) (g : FuncInfo), s'.asm.funcs[id]? = some g → g.stop.isSome →
    id ∈ order ∨ ∃ f : FuncInfo, s.asm.funcs[id]? = some f ∧ f.stop.isSome

namespace Processes

variable {order order' : List Nat}

theorem refl (s : CompileState) : Processes s s [] where
  laid := .nil
  size := Nat.le_refl _
  queue := by simp
  run _ g hg hstop := .inr ⟨g, hg, hstop⟩

end Processes

/-- A body that was first in the queue was compiled. -/
theorem processes_body {b : WaitingBody} {queue : List WaitingBody} {g : FuncInfo}
    (hqueue : s.queue = b :: queue) (hgrows : Grows s s') (hends : Ends s s' b.func g)
    (hruns : Runs env b { s with queue } s') : Processes s s' [b.func] := by
  obtain ⟨s₁, s₂, f, k, hexec, hqueue₁, hfuncs₁, hstop, hqueue₂, hfuncs₂⟩ := hruns.stmts
  obtain ⟨new, hjoined⟩ := joined_emitStmts b.stmts hexec
  have hsize₁ : s₁.asm.funcs.size = s.asm.funcs.size := by
    rw [hfuncs₁]
    exact Array.size_setIfInBounds ..
  have hsize : s'.asm.funcs.size = s.asm.funcs.size + new.length := by
    rw [hfuncs₂, Array.size_setIfInBounds, hjoined.size, hsize₁]
  have hspans : g.Spans s.mark s'.mark :=
    ⟨hends.entry, hends.stop, hgrows.size, hends.vars, hends.size⟩
  refine ⟨.cons hends.info hspans .nil, by omega, ?_, fun id g hg hended => ?_⟩
  · rw [hqueue₂, hjoined.queue, hqueue₁, hqueue, List.map_append, hjoined.ids, hsize₁, hsize,
      Nat.add_sub_cancel_left]
    simp
  · by_cases hid : id = b.func
    · exact .inl (by simp [hid])
    · rw [hfuncs₂, Array.getElem?_setIfInBounds_ne (Ne.symm hid)] at hg
      obtain ⟨f', hf', hstop'⟩ := hjoined.run id g hg hended
      rw [hfuncs₁, Array.getElem?_setIfInBounds_ne (Ne.symm hid)] at hf'
      exact .inr ⟨f', hf', hstop'⟩

theorem Processes.cons {id : Nat} {order : List Nat} (h : Processes s s' [id])
    (h' : Processes s' s'' order) (hgrow : FuncsGrow s'.asm.funcs s''.asm.funcs) :
    Processes s s'' (id :: order) := by
  obtain ⟨hlaid, hsize, hqueue, hrun⟩ := h
  obtain ⟨hlaid', hsize', hqueue', hrun'⟩ := h'
  refine ⟨?_, Nat.le_trans hsize hsize', ?_, fun i g hg hstop => ?_⟩
  · cases hlaid.mono hgrow with
    | cons hg h hs =>
      cases hs
      exact .cons hg h hlaid'
  · rw [List.cons_append, hqueue', ← List.cons_append, show id :: s'.queue.map (·.func) = _ from hqueue,
      List.append_assoc, List.append_cancel_left_eq]
    exact range'_append_range' hsize hsize'
  · obtain hi | ⟨f, hf, hstop'⟩ := hrun' i g hg hstop
    · exact .inl (List.mem_cons_of_mem _ hi)
    · obtain hi | hi := hrun i f hf hstop'
      · exact .inl (by simp_all)
      · exact .inr hi

/-! ## The queue -/

/-- The bodies in the queue are compiled, as long as the count lasts. -/
theorem ensures_emitQueue (n : Nat) {s : CompileState} (h : Between L s) (hs : s.shadow = []) :
    Ensures L.env (emitQueue n) s fun _ s' => Returned L s s' ∧
      ∃ order, Processes s s' order ∧ (order.length = n ∨ s'.queue = []) := by
  induction n generalizing s with
  | zero => exact ⟨⟨h, hs, .refl s, rfl⟩, [], .refl s, .inl rfl⟩
  | succ n ih =>
    unfold emitQueue
    refine ensures_bind.2 ?_
    simp only [ensures_get]
    split
    · exact ⟨⟨h, hs, .refl s, rfl⟩, [], .refl s, .inr ‹_›⟩
    · rename_i b queue hqueue
      refine ensures_bind.2 ?_
      simp only [ensures_modify]
      obtain ⟨h', hgrows, ⟨home, f, hw⟩, hnew⟩ := h.dequeue hqueue
      refine (ensures_emitBody h' hs hw hnew).bind ?_
      rintro _ s₁ ⟨h₁, ⟨g, hends⟩, hruns⟩
      have hgrows₁ := hgrows.trans h₁.grows
      have hbody : Processes s s₁ [b.func] :=
        processes_body hqueue hgrows₁ ⟨hends.info, hends.entry, hends.stop, hends.vars, hends.size⟩ hruns
      refine (ih h₁.between h₁.shadow).imp ?_
      rintro _ s₂ ⟨h₂, order, horder, hdone⟩
      exact ⟨⟨h₂.between, h₂.shadow, hgrows₁.trans h₂.grows, h₂.mainVars.trans h₁.mainVars⟩,
        b.func :: order, hbody.cons horder h₂.grows.funcs, hdone.imp (congrArg (· + 1)) fun h => h⟩

end Compile

end StackScript
