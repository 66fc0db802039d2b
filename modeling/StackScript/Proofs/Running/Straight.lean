import StackScript.Machine.Exec
import StackScript.Proofs.Balance.Accepting
import StackScript.Proofs.Ensures

/-!
# Straight code

Words none of which returns run one after another (`Machine.exec_eq_follow`). What an instruction
does to a thread is said by one lemma for each, on a stack whose top is known.
-/

namespace StackScript

namespace Machine

variable {m : Machine} {call : Caller} {ctx : Nat} {is js : List Instr} {i : Instr}

/-- Runs instructions one after another. -/
def follow (m : Machine) (call : Caller) (ctx : Nat) : List Instr → Run Unit
  | [] => pure ()
  | i :: is => do
    m.tick
    m.perform call ctx i
    follow m call ctx is

theorem follow_append : m.follow call ctx (is ++ js) =
    (do m.follow call ctx is; m.follow call ctx js) := by
  induction is with
  | nil => rw [List.nil_append, follow, pure_bind]
  | cons i is ih => simp only [List.cons_append, follow, ih, bind_assoc]

theorem step_of_not_return (h : Balance.isReturn i = false) :
    m.step call ctx i = (do m.perform call ctx i; return .next) := by
  cases i <;> first | rfl | cases h

/-- Words that do not return are followed to their end. -/
theorem exec_eq_follow {stop offset : Nat} (hreads : m.program.Reads offset is)
    (hreturn : ∀ i ∈ is, Balance.isReturn i = false) (hstop : offset + is.length ≤ stop) :
    m.exec call ctx stop offset =
      (do m.follow call ctx is; m.exec call ctx stop (offset + is.length)) := by
  induction is generalizing offset with
  | nil => rw [follow, pure_bind, List.length_nil, Nat.add_zero]
  | cons i is ih =>
    obtain ⟨hi, hreads⟩ := hreads
    obtain ⟨w, hw, hdecode⟩ := Option.bind_eq_some_iff.1 hi
    rw [List.length_cons] at hstop ⊢
    have hrest := ih hreads (fun j hj => hreturn j (by simp [hj])) (by omega)
    rw [exec, if_pos (by omega), hw]
    simp only [Task.expect, pure_bind, hdecode, step_of_not_return (hreturn i (by simp)), bind_assoc,
      follow]
    rw [hrest, show offset + (is.length + 1) = offset + 1 + is.length by omega]

end Machine

/-! ## Limits -/

/-- A limit was exceeded. -/
def Stop.Limited (e : Stop RuntimeError) : Prop :=
  ∃ err, e = .error err ∧ err.errorClass = .limitExceeded

/-- The thread but for its steps. -/
structure Thread.At (s : Thread) (w : World) (st : Stack) : Prop where
  world : s.world = w
  stack : s.stack = st

namespace Machine

variable {m : Machine} {call : Caller} {ctx : Nat} {s : Thread} {w : World} {st : Stack}

/-- A step is counted, unless that exceeds a limit. -/
theorem ensures_ticked (s : Thread) :
    m.tick.Ensures s (fun _ s' => s' = { s with steps := s.steps + 1 }) fun e _ => e.Limited := by
  have hlimited (c : Cause) (hc : c.errorClass = .limitExceeded) :
      Stop.Limited (.error (RuntimeError.of c)) := ⟨_, rfl, hc⟩
  have hstack (s : Thread) : Task.Ensures (if m.limits.stackSize < s.stack.size then
      Run.fail (.stackLimit m.limits.stackSize) else pure () : Run Unit) s
      (fun _ s' => s' = s) fun e _ => e.Limited := by
    split
    · exact hlimited _ rfl
    · exact rfl
  unfold tick
  refine Task.ensures_bind.2 (Task.ensures_modify.2 (Task.ensures_bind.2 (Task.ensures_get.2 ?_)))
  cases m.limits.steps with
  | none => exact hstack { s with steps := s.steps + 1 }
  | some max =>
    dsimp only
    split
    · exact hlimited _ rfl
    · exact hstack { s with steps := s.steps + 1 }

theorem ensures_tick (h : s.At w st) :
    m.tick.Ensures s (fun _ s' => s'.At w st) fun e _ => e.Limited :=
  (ensures_ticked s).imp fun _ _ heq => heq ▸ ⟨h.world, h.stack⟩

/-! ## Instructions -/

end Machine

namespace Stack

@[simp] theorem pop?_push (st : Stack) (v : Value) : Stack.pop? (st.push v) = .ok (v, st) := by
  simp [pop?]

theorem cut_push (st : Stack) (v : Value) : Stack.cut (st.push v) st.size = st := by
  simp [cut]

end Stack

namespace Run

variable {s : Thread} {w : World} {st : Stack} {v : Value} {E : Stop RuntimeError → Thread → Prop}

theorem ensures_push (h : s.At w st) :
    (push v).Ensures s (fun _ s' => s'.At w (st.push v)) E :=
  ⟨h.world, congrArg (·.push v) h.stack⟩

theorem ensures_pop (h : s.At w (st.push v)) :
    pop.Ensures s (fun x s' => x = v ∧ s'.At w st) E := by
  unfold pop
  refine Task.ensures_bind.2 (Task.ensures_get.2 ?_)
  rw [h.stack, Stack.pop?_push]
  exact ⟨rfl, h.world, rfl⟩

theorem ensures_drop (h : s.At w (st.push v)) :
    (drop 1).Ensures s (fun _ s' => s'.At w st) E := by
  have hsize : s.stack.size = st.size + 1 := by rw [h.stack, Array.size_push]
  unfold drop
  refine Task.ensures_bind.2 (Task.ensures_get.2 ?_)
  dsimp only
  rw [if_neg (by omega), hsize, Nat.add_sub_cancel, h.stack, Stack.cut_push]
  exact ⟨h.world, rfl⟩

theorem ensures_onWorld {α : Type} {t : HostTask α} {Q : α → Thread → Prop} :
    (onWorld t).Ensures s Q E ↔ t.Ensures s.world (fun a w => Q a { s with world := w })
      fun e w => E e { s with world := w } := by
  unfold Task.Ensures
  have hexec : (onWorld t).exec s = ((t.exec s.world).1, { s with world := (t.exec s.world).2 }) :=
    rfl
  rw [hexec]
  rcases t.exec s.world with ⟨_ | _, _⟩ <;> rfl

theorem ensures_load {p : Place} (hv : w.store.load? p = some v) (h : s.At w st) :
    (load p).Ensures s (fun x s' => x = v ∧ s'.At w st) E := by
  refine ensures_onWorld.2 ?_
  unfold HostTask.load
  refine Task.ensures_bind.2 (Task.ensures_get.2 ?_)
  rw [h.world, hv]
  exact ⟨rfl, rfl, h.stack⟩

theorem ensures_store {p : Place} {store : Store} (hv : w.store.store? v p = some store)
    (h : s.At w st) : (Run.store p v).Ensures s (fun _ s' => s'.At { w with store } st) E := by
  refine ensures_onWorld.2 ?_
  unfold HostTask.store
  refine Task.ensures_bind.2 (Task.ensures_get.2 ?_)
  rw [h.world, hv]
  exact ⟨rfl, h.stack⟩

theorem ensures_convert {k : Kind} {u : Value} (hu : v.convert k = some u) (h : s.At w st) :
    (convert v k).Ensures s (fun x s' => x = u ∧ s'.At w st) E := by
  unfold convert
  rw [hu]
  exact ⟨rfl, h⟩

end Run

namespace Machine

variable {m : Machine} {call : Caller} {ctx : Nat} {s : Thread} {w : World} {st : Stack}
  {v : Value} {E : Stop RuntimeError → Thread → Prop}

/-- The instruction pushes a value that it holds or the pool has. -/
theorem ensures_pushed {i : Instr} (hi : i.pushed? m.program.consts = some v) (h : s.At w st) :
    (m.perform call ctx i).Ensures s (fun _ s' => s'.At w (st.push v)) E := by
  cases i with
  | pushInt k n =>
    cases k with
    | none => cases hi
    | some k =>
      cases hi
      exact Run.ensures_push h
  | pushConst index =>
    have hi : m.program.consts[index]? = some v := hi
    unfold perform
    dsimp only
    rw [hi]
    exact Run.ensures_push h
  | _ => cases hi

theorem ensures_pop_one (h : s.At w (st.push v)) :
    (m.perform call ctx (.pop 1)).Ensures s (fun _ s' => s'.At w st) E := Run.ensures_drop h

theorem ensures_converted {k : Kind} {u : Value} (hu : v.convert k = some u)
    (h : s.At w (st.push v)) :
    (m.perform call ctx (.convert (some k))).Ensures s (fun _ s' => s'.At w (st.push u)) E := by
  refine (Run.ensures_pop h).bind fun x s' ⟨hx, hs'⟩ => ?_
  subst hx
  refine (Run.ensures_convert hu hs').bind fun y s'' ⟨hy, hs''⟩ => ?_
  subst hy
  exact Run.ensures_push hs''

/-! ## Variables of the main body -/

/-- The frame of the main body, which has some variables. -/
def MainFrame (w : World) (ctx : Nat) (vars : Array Value) : Prop :=
  ∃ fr : Frame, w.store.frames[ctx]? = some fr ∧ fr.func = none ∧ fr.parent = none ∧ fr.vars = vars

variable {vars : Array Value} {index : Nat}

theorem MainFrame.load? (h : MainFrame w ctx vars) :
    w.store.load? (.slot ctx index) = vars[index]? := by
  obtain ⟨fr, hfr, -, -, rfl⟩ := h
  show w.store.frames[ctx]?.bind (·.vars[index]?) = _
  rw [hfr, Option.bind_some]

/-- Writing to a slot changes that slot alone. -/
theorem MainFrame.store? (h : MainFrame w ctx vars) (hindex : index < vars.size) :
    ∃ store, w.store.store? v (.slot ctx index) = some store ∧
      MainFrame { w with store } ctx (vars.setIfInBounds index v) := by
  obtain ⟨fr, hfr, hfunc, hparent, rfl⟩ := h
  refine ⟨_, by rw [Store.store?, hfr]; exact if_pos hindex,
    { fr with vars := fr.vars.setIfInBounds index v }, ?_, hfunc, hparent, rfl⟩
  rw [Array.getElem?_modify, if_pos rfl, hfr, Option.map_some]

theorem ensures_frameOf (h : MainFrame w ctx vars) (hs : s.At w st) :
    (Run.frameOf ctx .global).Ensures s (fun x s' => x = ctx ∧ s'.At w st) E := by
  obtain ⟨fr, hfr, -, hparent, -⟩ := h
  refine Task.ensures_bind.2 (Task.ensures_get.2 ⟨?_, hs⟩)
  rw [hs.world, Store.root, hfr, Option.bind_some, hparent]

theorem ensures_loadVar (h : MainFrame w ctx vars) (hv : vars[index]? = some v)
    (hs : s.At w st) :
    (m.perform call ctx (.loadVar .global index)).Ensures s (fun _ s' => s'.At w (st.push v)) E := by
  refine (ensures_frameOf h hs).bind fun f s' ⟨hf, hs'⟩ => ?_
  subst hf
  refine (Run.ensures_load (h.load?.trans hv) hs').bind fun x s'' ⟨hx, hs''⟩ => ?_
  subst hx
  exact Run.ensures_push hs''

theorem ensures_storeVar (h : MainFrame w ctx vars) (hindex : index < vars.size)
    (hs : s.At w (st.push v)) :
    (m.perform call ctx (.storeVar .global index)).Ensures s
      (fun _ s' => ∃ w', s'.At w' st ∧ MainFrame w' ctx (vars.setIfInBounds index v)) E := by
  refine (Run.ensures_pop hs).bind fun x s₁ ⟨hx, hs₁⟩ => ?_
  subst hx
  refine (ensures_frameOf h hs₁).bind fun f s₂ ⟨hf, hs₂⟩ => ?_
  subst hf
  obtain ⟨store, hstore, hmain⟩ := h.store? (v := x) hindex
  exact (Run.ensures_store hstore hs₂).imp fun _ s₃ hs₃ => ⟨_, hs₃, hmain⟩

/-- The address of a variable of the main body. -/
theorem ensures_addrVar {d : Var} {id : Nat} (h : MainFrame w ctx vars)
    (hid : m.program.mainVars[index]? = some id) (hd : m.program.vars[id]? = some d)
    (hs : s.At w st) :
    (m.perform call ctx (.addrVar .global index)).Ensures s (fun _ s' => ∃ w' n, MainFrame w' ctx vars ∧
      s'.At w' (st.push (.ptr n d.ty (.slot ctx index)))) E := by
  refine (ensures_frameOf h hs).bind fun f s₁ ⟨hf, hs₁⟩ => ?_
  subst hf
  have htype : (m.varType f index).Ensures s₁ (fun t s' => t = d.ty ∧ s'.At w st) E := by
    obtain ⟨fr, hfr, hfunc, -, -⟩ := h
    have hvar : m.program.var id = .ok d := by rw [Program.var, hd]
    unfold varType
    refine Task.ensures_bind.2 (Task.ensures_get.2 ?_)
    rw [hs₁.world, hfr]
    simp only [Task.expect, hfunc, pure_bind, hid, hvar, Task.ofChecked]
    exact ⟨rfl, hs₁⟩
  refine htype.bind fun t s₂ htyped => ?_
  obtain ⟨rfl, hs₂⟩ := htyped
  obtain ⟨fr, hfr, hfunc, hparent, hvars⟩ := h
  have hnew : (Run.onWorld (HostTask.allocate (·.newPtr d.ty (.slot f index)))).Ensures s₂
      (fun x s' => x = .ptr w.store.fresh d.ty (.slot f index) ∧
        s'.At { w with store := { w.store with fresh := w.store.fresh + 1 } } st) E := by
    refine Run.ensures_onWorld.2 ?_
    rw [hs₂.world]
    exact ⟨rfl, rfl, hs₂.stack⟩
  refine hnew.bind fun x s₃ hallocated => ?_
  obtain ⟨rfl, hs₃⟩ := hallocated
  have hmain : MainFrame { w with store := { w.store with fresh := w.store.fresh + 1 } } f vars :=
    ⟨fr, hfr, hfunc, hparent, hvars⟩
  exact (Run.ensures_push hs₃).imp fun _ _ hs₄ => ⟨_, _, hmain, hs₄⟩

end Machine

end StackScript
