import StackScript.Proofs.Folding.Mistakes
import StackScript.Proofs.Translation.Growth

/-!
# Reasoning about the compiler

`Compile.Ensures` is the judgment on tasks for steps of the compiler. A step may stop in the ways of
`Compile.Stops` only: an error that is neither a failure to put the program together nor a defect of
the compiler, or a fault where a number does not fit its field of a word, or where folding divides the
least integer by minus one. Defects are excused where folding fails as an operator at run time does,
and where the registry lacks what its symbols stand for.

`Compile.After env I t Q` does not look at how a step fails: from a state of `I` the step `t` ends, if it
goes through, in `Q`.
-/

namespace StackScript

/-! ## Ways to stop -/

/-- How the texts of faults of an overflowing field begin. -/
def Fault.overflowHeads : List String :=
  ["operand 0x", "patch bits 0x", "scope distance ", "variable index ", "inline push of non-integer kind ",
    "inline integer ", "funcv arity ", "funcv index ", "variadic table overflow"]

/-- A number does not fit its field of a word. -/
def Fault.Overflows (f : Fault) : Prop :=
  ∃ head ∈ Fault.overflowHeads, ∃ rest : String, f.text = some (head ++ rest)

theorem Fault.overflows_because (head : String) {rest : String} (i : Nat)
    (h : Fault.overflowHeads[i]? = some head) : (Fault.because (head ++ rest)).Overflows :=
  ⟨head, List.mem_of_getElem? h, rest, rfl⟩

/-- How the compiler stops on a file that it refuses. -/
def Compile.Refuses (folds : Bool) : Stop CompileError → Prop
  | .error (.build _) => False
  | .error _ => True
  | .fault f => f.Overflows ∨ (folds = true ∧ f = .outOfRange)

/-- Symbols of the registry have entries, and methods take a receiver. -/
structure Registry.Complete (r : Registry) : Prop where
  entry : ∀ path name x, r.find? path name = some x → x.addr < match x.kind with
    | .var => r.natives.vars.size
    | .func => r.natives.funcs.size
    | .funcv => r.natives.funcvs.size
  receiver : ∀ t name addr variadic sig, Method r t name addr variadic sig → sig.params ≠ []

/-- What a defect that is reported comes of. -/
def Compile.Excused (env : CompileEnv) (what : String) : Prop :=
  (env.folds = true ∧ ∃ op x y e, Constant.fold op x y = .error (.error (.evaluation e)) ∧
    what = e.message) ∨ ¬env.registry.Complete

/-- How the compiler stops. -/
def Compile.Stops (env : CompileEnv) : Stop CompileError → Prop
  | .error (.build _) => False
  | .error (.internal what) => Excused env what
  | .error (.constant e) => e.OfFile
  | .error _ => True
  | .fault f => f.Overflows ∨ (env.folds = true ∧ f = .outOfRange)

theorem Compile.Stops.refuses {env : CompileEnv} {e : Stop CompileError} (h : Stops env e) :
    Refuses env.folds e := by
  cases e with
  | fault f => exact h
  | error e =>
    cases e with
    | build b => exact h
    | _ => trivial

theorem Compile.Stops.incomplete {env : CompileEnv} {what : String} (h : ¬env.registry.Complete) :
    Stops env (.error (.internal what)) := Or.inr h

namespace Word

theorem overflows_of_make {op : Opcode} {n : Nat} {f : Fault} (h : make op n = .error f) :
    f.Overflows := by
  unfold make at h
  split at h
  · cases h
  · cases h
    simp only [String.append_assoc]
    exact Fault.overflows_because _ 0 rfl

theorem overflows_of_withOperandBits {w : Word} {bits : Nat} {f : Fault}
    (h : w.withOperandBits bits = .error f) : f.Overflows := by
  unfold withOperandBits at h
  split at h
  · cases h
  · cases h
    simp only [String.append_assoc]
    exact Fault.overflows_because _ 1 rfl

theorem overflows_of_makeAddress {scope index : Nat} {f : Fault}
    (h : makeAddress scope index = .error f) : f.Overflows := by
  unfold makeAddress at h
  split at h
  · cases h
    simp only [String.append_assoc]
    exact Fault.overflows_because _ 2 rfl
  · split at h
    · cases h
      simp only [String.append_assoc]
      exact Fault.overflows_because _ 3 rfl
    · cases h

theorem overflows_of_makeVar {op : Opcode} {scope index : Nat} {f : Fault}
    (h : makeVar op scope index = .error f) : f.Overflows := by
  unfold makeVar at h
  cases ha : makeAddress scope index with
  | error g =>
    rw [ha] at h
    cases h
    exact overflows_of_makeAddress ha
  | ok n =>
    rw [ha] at h
    exact overflows_of_make h

theorem overflows_of_makeInt {k : Kind} {n : Int} {f : Fault} (h : makeInt k n = .error f) :
    f.Overflows := by
  unfold makeInt at h
  split at h
  · cases h
    exact Fault.overflows_because _ 4 rfl
  · split at h
    · cases h
      simp only [String.append_assoc]
      exact Fault.overflows_because _ 5 rfl
    · exact overflows_of_make h

theorem overflows_of_makeVariadicCall {op : Opcode} {arity index : Nat} {f : Fault}
    (h : makeVariadicCall op arity index = .error f) : f.Overflows := by
  unfold makeVariadicCall at h
  split at h
  · cases h
    simp only [String.append_assoc]
    exact Fault.overflows_because _ 6 rfl
  · split at h
    · cases h
      simp only [String.append_assoc]
      exact Fault.overflows_because _ 7 rfl
    · exact overflows_of_make h

end Word

/-! ## The judgment -/

namespace Compile

variable {α β : Type}

/-- From `s` the step gives a result and a state of `Q`, or the compiler stops. -/
def Ensures (env : CompileEnv) (t : Compile α) (s : CompileState)
    (Q : α → CompileState → Prop) : Prop :=
  Task.Ensures (t env) s Q fun e _ => Stops env e

namespace Ensures

variable {env : CompileEnv} {s s' : CompileState} {t : Compile α} {Q Q' : α → CompileState → Prop}

theorem imp (h : Ensures env t s Q) (hQ : ∀ a s', Q a s' → Q' a s') : Ensures env t s Q' :=
  Task.Ensures.imp h hQ

theorem bind {f : α → Compile β} {R : β → CompileState → Prop} (h : Ensures env t s Q)
    (hf : ∀ a s', Q a s' → Ensures env (f a) s' R) : Ensures env (t >>= f) s R :=
  Task.Ensures.bind h hf

theorem of_exec (h : Ensures env t s Q) {a : α} (ht : (t env).exec s = (.ok a, s')) : Q a s' :=
  Task.Ensures.ok h ht

end Ensures

variable {env : CompileEnv} {s : CompileState}

theorem ensures_bind {t : Compile α} {f : α → Compile β} {R : β → CompileState → Prop} :
    Ensures env (t >>= f) s R ↔ Ensures env t s fun a s' => Ensures env (f a) s' R :=
  Task.ensures_bind

@[simp] theorem ensures_pure {a : α} {Q : α → CompileState → Prop} :
    Ensures env (pure a) s Q ↔ Q a s := Iff.rfl

@[simp] theorem ensures_read {Q : CompileEnv → CompileState → Prop} :
    Ensures env read s Q ↔ Q env s := Iff.rfl

@[simp] theorem ensures_get {Q : CompileState → CompileState → Prop} :
    Ensures env get s Q ↔ Q s s := Iff.rfl

@[simp] theorem ensures_set {s' : CompileState} {Q : PUnit → CompileState → Prop} :
    Ensures env (set s') s Q ↔ Q ⟨⟩ s' := Iff.rfl

@[simp] theorem ensures_modify {f : CompileState → CompileState}
    {Q : PUnit → CompileState → Prop} : Ensures env (modify f) s Q ↔ Q ⟨⟩ (f s) := Iff.rfl

@[simp] theorem ensures_discard {t : Compile α} {Q : PUnit → CompileState → Prop} :
    Ensures env (discard t) s Q ↔ Ensures env t s fun _ => Q ⟨⟩ :=
  Task.ensures_map

@[simp] theorem ensures_fail {e : CompileError} {Q : α → CompileState → Prop} :
    Ensures env (fail e : Compile α) s Q ↔ Stops env (.error e) := Iff.rfl

theorem ensures_ofExcept {r : Except CompileError α} {Q : α → CompileState → Prop} :
    Ensures env (ofExcept r) s Q ↔
      (∀ a, r = .ok a → Q a s) ∧ ∀ e, r = .error e → Stops env (.error e) :=
  Task.ensures_ofExcept

theorem ensures_ofChecked {r : Except Fault α} {Q : α → CompileState → Prop} :
    Ensures env (ofChecked r) s Q ↔
      (∀ a, r = .ok a → Q a s) ∧ ∀ f, r = .error f → Stops env (.fault f) :=
  Task.ensures_ofChecked

theorem stops_ofConstant {e : ConstantError} (h : e.OfFile) : Stops env (.error (.ofConstant e)) := by
  cases e <;> trivial

theorem ensures_ofConstant {r : Except ConstantError α} {Q : α → CompileState → Prop}
    (hr : ∀ e, r = .error e → e.OfFile) (h : ∀ a, r = .ok a → Q a s) : Ensures env (ofConstant r) s Q := by
  cases r with
  | ok a => exact h a rfl
  | error e => exact stops_ofConstant (hr e rfl)

theorem ensures_ofOperands {r : Except OperandError α} {Q : α → CompileState → Prop}
    (h : ∀ a, r = .ok a → Q a s) : Ensures env (ofOperands r) s Q := by
  cases r with
  | ok a => exact h a rfl
  | error e => trivial

/-- Steps of assembling change the assembly alone. They stop where a field overflows. -/
theorem ensures_asm {t : Asm α} {Q : α → CompileState → Prop}
    (h : t.Ensures s.asm (fun a asm => Q a { s with asm })
      fun e _ => ∃ f, e = .fault f ∧ f.Overflows) : Ensures env (asm t) s Q := by
  refine Task.ensures_zoom.2 (Task.Ensures.mapError h ?_ ?_)
  · rintro e _ ⟨f, hf, -⟩
    cases hf
  · rintro x _ ⟨f, hf, hover⟩
    cases hf
    exact .inl hover

theorem exec_bind_eq_ok {t : Compile α} {f : α → Compile β} {s'' : CompileState} {b : β} :
    ((t >>= f) env).exec s = (.ok b, s'') ↔
      ∃ a s', (t env).exec s = (.ok a, s') ∧ (f a env).exec s' = (.ok b, s'') :=
  Task.exec_bind_eq_ok

/-- A step that goes through has passed the check before it. -/
theorem exec_check_eq_ok {c : Prop} [Decidable c] {e : CompileError} {t : Compile α}
    {s' : CompileState} {a : α}
    (h : ((if c then (do Compile.fail (α := PUnit) e; t) else t) env).exec s = (.ok a, s')) :
    ¬c ∧ (t env).exec s = (.ok a, s') := by
  split at h
  · obtain ⟨_, _, hfail, -⟩ := exec_bind_eq_ok.1 h
    cases hfail
  · exact ⟨‹_›, h⟩

theorem exec_bind_error {t : Compile α} {f : α → Compile β} {s' : CompileState}
    {e : Stop CompileError} (h : (t env).exec s = (.error e, s')) :
    ((t >>= f) env).exec s = (.error e, s') :=
  Task.exec_bind_error h

theorem exec_bind_ok {t : Compile α} {f : α → Compile β} {s' : CompileState} {a : α}
    (h : (t env).exec s = (.ok a, s')) : ((t >>= f) env).exec s = (f a env).exec s' :=
  Task.exec_bind_ok h

theorem ensures_bind_ok {t : Compile α} {f : α → Compile β} {s' : CompileState} {a : α}
    {Q : β → CompileState → Prop} (h : (t env).exec s = (.ok a, s')) (hf : Ensures env (f a) s' Q) :
    Ensures env (t >>= f) s Q := by
  unfold Ensures Task.Ensures at *
  rwa [exec_bind_ok h]

theorem exec_asm {t : Asm α} : ((asm t) env).exec s = match t.exec s.asm with
    | (.ok a, asm) => (.ok a, { s with asm })
    | (.error (.error e), asm) => (.error (.error (.build e)), { s with asm })
    | (.error (.fault f), asm) => (.error (.fault f), { s with asm }) := by
  show ((t.mapError CompileError.build).zoom CompileState.asm fun asm s => { s with asm }).exec s = _
  rw [Task.exec_zoom, Task.exec_mapError]
  rcases t.exec s.asm with ⟨(e | f) | a, asm⟩ <;> rfl

/-- Steps of assembling one after another are steps of the compiler one after another. -/
theorem ensures_asm_bind {t : Asm α} {f : α → Asm β} {Q : β → CompileState → Prop} :
    Ensures env (asm (t >>= f)) s Q ↔
      Ensures env (asm t) s fun a s' => Ensures env (asm (f a)) s' Q := by
  unfold Ensures Task.Ensures
  rw [exec_asm, exec_asm, Task.exec_bind]
  rcases t.exec s.asm with ⟨(e | x) | a, a'⟩
  · rfl
  · rfl
  · simp only [exec_asm]

@[simp] theorem ensures_asm_discard {t : Asm α} {Q : PUnit → CompileState → Prop} :
    Ensures env (asm (discard t)) s Q ↔ Ensures env (asm t) s fun _ => Q ⟨⟩ := by
  unfold Ensures Task.Ensures
  rw [exec_asm, exec_asm]
  have h : (discard t).exec s.asm = ((t.exec s.asm).1.map fun _ => ⟨⟩, (t.exec s.asm).2) :=
    Task.exec_map ..
  rw [h]
  rcases t.exec s.asm with ⟨(e | x) | a, a'⟩ <;> rfl

@[simp] theorem ensures_asm_pure {a : α} {Q : α → CompileState → Prop} :
    Ensures env (asm (pure a)) s Q ↔ Q a s := Iff.rfl

/-! ## Steps that may fail in any way -/

/-- From a state of `I` the step gives a result and a state of `Q`, unless it fails. -/
def After (env : CompileEnv) (I : CompileState → Prop) (t : Compile α)
    (Q : α → CompileState → Prop) : Prop :=
  ∀ s, I s → Task.Ensures (t env) s Q fun _ _ => True

/-- The step leaves a state of `I` behind where it finds one, unless it fails. -/
abbrev Keeps (env : CompileEnv) (I : CompileState → Prop) (t : Compile α) : Prop :=
  After env I t fun _ => I

namespace After

variable {I : CompileState → Prop} {t : Compile α} {P : α → Prop} {Q Q' : α → CompileState → Prop}

theorem imp (h : After env I t Q) (hQ : ∀ a s, Q a s → Q' a s) : After env I t Q' :=
  fun s hs => (h s hs).imp hQ

theorem bind {f : α → Compile β} {R : β → CompileState → Prop} (h : After env I t Q)
    (hf : ∀ a, After env (Q a) (f a) R) : After env I (t >>= f) R :=
  fun s hs => (h s hs).bind fun a s' ha => hf a s' ha

/-- A step that keeps `I`, and what follows it. -/
theorem andThen {f : α → Compile β} {R : β → CompileState → Prop}
    (h : After env I t fun a s => I s ∧ P a) (hf : ∀ a, P a → After env I (f a) R) :
    After env I (t >>= f) R :=
  h.bind fun a s hs => hf a hs.2 s hs.1

theorem pure {a : α} (h : ∀ s, I s → Q a s) : After env I (pure a) Q := h

theorem fail {e : CompileError} : After env I (fail e : Compile α) Q := fun _ _ => trivial

theorem get {Q : CompileState → CompileState → Prop} (h : ∀ s, I s → Q s s) :
    After env I get Q := h

theorem read {f : CompileEnv → Compile β} {R : β → CompileState → Prop}
    (h : After env I (f env) R) : After env I (read >>= f) R := h

theorem modify {f : CompileState → CompileState} {Q : PUnit → CompileState → Prop}
    (h : ∀ s, I s → Q ⟨⟩ (f s)) : After env I (modify f) Q := h

theorem ofExcept {r : Except CompileError α} (h : ∀ a, r = .ok a → P a) :
    After env I (ofExcept r) fun a s => I s ∧ P a := fun s hs => by
  cases r with
  | ok a => exact ⟨hs, h a rfl⟩
  | error e => trivial

theorem ofChecked {r : Except Fault α} (h : ∀ a, r = .ok a → P a) :
    After env I (ofChecked r) fun a s => I s ∧ P a := fun s hs => by
  cases r with
  | ok a => exact ⟨hs, h a rfl⟩
  | error e => trivial

theorem ofConstant {r : Except ConstantError α} (h : ∀ a, r = .ok a → P a) :
    After env I (ofConstant r) fun a s => I s ∧ P a := fun s hs => by
  cases r with
  | ok a => exact ⟨hs, h a rfl⟩
  | error e => trivial

theorem ofOperands {r : Except OperandError α} (h : ∀ a, r = .ok a → P a) :
    After env I (ofOperands r) fun a s => I s ∧ P a := fun s hs => by
  cases r with
  | ok a => exact ⟨hs, h a rfl⟩
  | error e => trivial

theorem ofFolded {r : Except (Stop ConstantError) α} (h : ∀ a, r = .ok a → P a) :
    After env I (ofFolded r) fun a s => I s ∧ P a := fun s hs => by
  rcases r with (e | f) | a
  · trivial
  · trivial
  · exact ⟨hs, h a rfl⟩

theorem asm {t : Asm α} (h : ∀ s, I s → t.Ensures s.asm (fun a asm => Q a { s with asm })
    fun _ _ => True) : After env I (asm t) Q := fun s hs =>
  Task.ensures_zoom.2 (Task.Ensures.mapError (h s hs) (fun _ _ _ => trivial) fun _ _ _ => trivial)

theorem discard {J : CompileState → Prop} (h : After env I t fun _ => J) :
    After env I (discard t) fun _ => J := fun s hs => Task.ensures_discard.2 (h s hs)

theorem forM {f : α → Compile PUnit} {l : List α} (h : ∀ a ∈ l, After env I (f a) fun _ => I) :
    After env I (l.forM f) fun _ => I := by
  induction l with
  | nil => exact fun s hs => hs
  | cons a l ih =>
    exact (h a (by simp)).bind fun _ => ih fun b hb => h b (by simp [hb])

end After

end Compile

end StackScript
