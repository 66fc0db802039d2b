import StackScript.Proofs.Running.Safe
import StackScript.Proofs.Translation.Resolving

/-!
# Assembled programs

Whatever is done to an assembly, frames only list variables that are there and functions end within
the code (`Assembly.Sound`). That is all a machine asks of its program: what resolves can be linked
unchecked, and runs to a result or an error, however its words were put together
(`Assembled.run_ends`).
-/

namespace StackScript

/-! ## What is done to an assembly -/

/-- The ways to add to an assembly. -/
inductive Operation : {α : Type} → Asm α → Prop
  | newFunc (name : String) (depth : Nat) : Operation (Assembly.newFunc name depth)
  | setVariadic (id : Nat) (variadic : Bool) : Operation (Assembly.setVariadic id variadic)
  | setSignature (id : Nat) (sig : Signature) : Operation (Assembly.setSignature id sig)
  | setParams (id : Nat) (params : List Ty) : Operation (Assembly.setParams id params)
  | setVariadicParams (id : Nat) (params : List Ty) :
    Operation (Assembly.setVariadicParams id params)
  | results (id : Nat) (vars : List Var) : Operation (Assembly.results id vars)
  | defineVar (owner : Option Nat) (v : Var) : Operation (Assembly.defineVar owner v)
  | defineFunc (id : Nat) : Operation (Assembly.defineFunc id)
  | endFunc (id : Nat) : Operation (Assembly.endFunc id)
  | emit (w : Word) : Operation (Assembly.emit w)
  | reserve : Operation Assembly.reserve
  | patch (offset : Nat) (w : Word) : Operation (Assembly.patch offset w)
  | valueWord (v : Value) : Operation (Assembly.valueWord v)
  | pushValue (v : Value) : Operation (Assembly.pushValue v)
  | pop (n : Nat) : Operation (Assembly.pop n)
  | loadVar (scope index : Nat) : Operation (Assembly.loadVar scope index)
  | storeVar (scope index : Nat) : Operation (Assembly.storeVar scope index)
  | addrVar (scope index : Nat) : Operation (Assembly.addrVar scope index)
  | addrOp (k : Kind) (op : AddressOperator) : Operation (Assembly.addrOp k op)
  | loadArg (below : Nat) : Operation (Assembly.loadArg below)
  | storeArg (below : Nat) : Operation (Assembly.storeArg below)
  | loadNativeVar (addr : Nat) : Operation (Assembly.loadNativeVar addr)
  | builtinOp (k : Kind) (op : Operator) : Operation (Assembly.builtinOp k op)
  | convert (k : Kind) : Operation (Assembly.convert k)
  | callFunc (id : Nat) : Operation (Assembly.callFunc id)
  | callFuncv (id : Nat) (arity : Arity) : Operation (Assembly.callFuncv id arity)
  | callNative (addr : Nat) : Operation (Assembly.callNative addr)
  | callNativev (addr : Nat) (arity : Arity) : Operation (Assembly.callNativev addr arity)
  | pushNative (addr : Nat) : Operation (Assembly.pushNative addr)
  | pushNativev (addr : Nat) : Operation (Assembly.pushNativev addr)
  | closure (id : Nat) : Operation (Assembly.closure id)
  | hostClosure (id : Nat) : Operation (Assembly.hostClosure id)
  | callClosure (arity : Arity) : Operation (Assembly.callClosure arity)
  | callValue (arity : Arity) : Operation (Assembly.callValue arity)
  | deref : Operation Assembly.deref
  | field (index : Nat) : Operation (Assembly.field index)
  | ret (n : Nat) : Operation (Assembly.ret n)
  | retVars : Operation Assembly.retVars

/-- The assemblies that operations lead to. One that ends in an error leaves what it had done; one
that ends in a fault leaves nothing. -/
inductive Assembled : Assembly → Prop
  | empty : Assembled .empty
  | step {α : Type} {t : Asm α} {a a' : Assembly} {r : Except (Stop BuildError) α} :
    Assembled a → Operation t → t.exec a = (r, a') → (∀ x, r ≠ .error (.fault x)) → Assembled a'

/-! ## Sound assemblies -/

/-- The frame of a function lists variables that are there, its results among them, and the function
ends within the code. -/
structure FuncInfo.Sound (vars code : Nat) (f : FuncInfo) : Prop where
  vars : ∀ id ∈ f.vars, id < vars
  results : f.numOut ≤ f.vars.size
  stop : ∀ stop ∈ f.stop, stop ≤ code

theorem FuncInfo.Sound.mono {f : FuncInfo} {vars vars' code code' : Nat} (h : f.Sound vars code)
    (hvars : vars ≤ vars') (hcode : code ≤ code') : f.Sound vars' code' where
  vars id hid := Nat.lt_of_lt_of_le (h.vars id hid) hvars
  results := h.results
  stop stop hstop := Nat.le_trans (h.stop stop hstop) hcode

structure Assembly.Sound (a : Assembly) : Prop where
  funcs : ∀ f ∈ a.funcs, f.Sound a.vars.size a.code.size
  mainVars : ∀ id ∈ a.mainVars, id < a.vars.size

namespace Asm

variable {α β : Type}

/-- The step leads from sound assemblies to sound ones, also if it ends in an error. -/
def Sound (t : Asm α) : Prop :=
  ∀ a : Assembly, a.Sound → t.Ensures a (fun _ => Assembly.Sound) fun e a' => e.IsError → a'.Sound

namespace Sound

variable {t : Asm α}

theorem pure (x : α) : Sound (pure x : Asm α) := fun _ ha => ha

theorem bind {f : α → Asm β} (h : t.Sound) (hf : ∀ x, (f x).Sound) : (t >>= f).Sound :=
  fun a ha => Task.Ensures.bind (h a ha) fun x a' ha' => hf x a' ha'

theorem get : Sound (MonadState.get : Asm Assembly) := fun _ ha => ha

theorem fail (e : BuildError) : Sound (Task.fail e : Asm α) := fun _ ha _ => ha

theorem ofExcept (r : Except BuildError α) : Sound (Task.ofExcept r : Asm α) := by
  cases r with
  | ok x => exact pure x
  | error e => exact fail e

theorem ofChecked (r : Except Fault α) : Sound (Task.ofChecked r : Asm α) := by
  cases r with
  | ok x => exact pure x
  | error x => exact fun _ _ h => nomatch h

theorem discard (h : t.Sound) : Sound (discard t) := fun a ha => Task.ensures_discard.2 (h a ha)

theorem modify {f : Assembly → Assembly} (h : ∀ a : Assembly, a.Sound → (f a).Sound) :
    Sound (modify f : Asm PUnit) := h

end Sound

end Asm

namespace Assembly

open Asm (Sound)

variable {a : Assembly} {id : Nat}

/-- Another descriptor that is sound. -/
theorem Sound.setFunc {f : FuncInfo} (h : a.Sound) (id : Nat) (hf : f.Sound a.vars.size a.code.size) :
    Assembly.Sound { a with funcs := a.funcs.setIfInBounds id f } where
  funcs g hg := by
    obtain hg | rfl := Array.mem_or_eq_of_mem_setIfInBounds hg
    · exact h.funcs g hg
    · exact hf
  mainVars := h.mainVars

/-- More code keeps what ended within it. -/
theorem Sound.push {w : Word} (h : a.Sound) : Assembly.Sound { a with code := a.code.push w } where
  funcs f hf := (h.funcs f hf).mono (Nat.le_refl _) (by simp)
  mainVars := h.mainVars

/-! ### Functions and variables -/

/-- A step that reads a descriptor goes on with that of the function, if there is one. -/
theorem ensures_func_bind {α : Type} {k : FuncInfo → Asm α} {Q : α → Assembly → Prop}
    (h : ∀ f, a.funcs[id]? = some f → (k f).Ensures a Q fun e a' => e.IsError → a'.Sound) :
    (func id >>= k).Ensures a Q fun e a' => e.IsError → a'.Sound :=
  Task.ensures_bind.2 (Task.ensures_bind.2 (Task.ensures_get.2 (Task.ensures_expect.2
    ⟨fun f hf => h f hf, fun _ hx => nomatch hx⟩)))

theorem sound_func : (func id).Sound := fun a ha => by
  rw [← bind_pure (func id)]
  exact ensures_func_bind fun _ _ => ha

theorem sound_newFunc (name : String) (depth : Nat) : (newFunc name depth).Sound := fun a ha =>
  { funcs := fun f hf => by
      obtain hf | rfl := Array.mem_push.1 hf
      · exact ha.funcs f hf
      · exact ⟨fun id hid => by simp [FuncInfo.new] at hid, Nat.zero_le _, fun _ h => nomatch h⟩
    mainVars := ha.mainVars }

theorem ensures_updateFunc {change : FuncInfo → Except BuildError FuncInfo} (ha : a.Sound)
    (h : ∀ f g, f.Sound a.vars.size a.code.size → change f = .ok g →
      g.Sound a.vars.size a.code.size) :
    (updateFunc id change).Ensures a (fun _ => Assembly.Sound) fun e a' => e.IsError → a'.Sound := by
  unfold updateFunc
  refine ensures_func_bind fun f hf => ?_
  refine Task.ensures_bind.2 (Task.ensures_ofExcept.2 ⟨fun g hg => ?_, fun _ _ _ => ha⟩)
  exact ha.setFunc id (h f g (ha.funcs f (Array.mem_of_getElem? hf)) hg)

theorem sound_of_setVariadic {f g : FuncInfo} {variadic : Bool} {vars code : Nat}
    (hf : f.Sound vars code) (h : f.setVariadic variadic = .ok g) : g.Sound vars code := by
  unfold FuncInfo.setVariadic at h
  generalize (if variadic then Variadicity.variadic else .fixed) = want at h
  dsimp only at h
  split at h
  · cases h
    exact ⟨hf.vars, hf.results, hf.stop⟩
  · split at h <;> cases h
    exact hf

theorem sound_setVariadic (variadic : Bool) : (setVariadic id variadic).Sound :=
  fun _ ha => ensures_updateFunc ha fun _ _ hf h => sound_of_setVariadic hf h

theorem sound_setSignature (sig : Signature) : (setSignature id sig).Sound :=
  fun _ ha => ensures_updateFunc ha fun f g hf h => by
    cases h
    exact ⟨hf.vars, hf.results, hf.stop⟩

theorem sound_setParams (params : List Ty) : (setParams id params).Sound :=
  fun _ ha => ensures_updateFunc ha fun f g hf h => by
    obtain ⟨f', hf', h⟩ := bind_eq_ok h
    have hsound := sound_of_setVariadic hf hf'
    cases h
    exact ⟨hsound.vars, hsound.results, hsound.stop⟩

theorem sound_setVariadicParams (params : List Ty) : (setVariadicParams id params).Sound :=
  fun _ ha => ensures_updateFunc ha fun f g hf h => by
    unfold FuncInfo.setVariadicParams at h
    split at h
    · obtain ⟨f', hf', h⟩ := bind_eq_ok h
      have hsound := sound_of_setVariadic hf hf'
      cases h
      exact ⟨hsound.vars, hsound.results, hsound.stop⟩
    · cases h

/-- A new variable comes last in its frame. -/
theorem ensures_defineLocal {f : FuncInfo} (ha : a.Sound) (hf : a.funcs[id]? = some f) (v : Var) :
    (defineVar (some id) v).Ensures a (fun _ a' => a'.Sound ∧
      ∃ g, a'.funcs[id]? = some g ∧ g.vars.size = f.vars.size + 1) fun e _ => ¬e.IsError := by
  have hlt := (Array.getElem?_eq_some_iff.1 hf).1
  have hsound := ha.funcs f (Array.mem_of_getElem? hf)
  unfold defineVar
  refine Task.ensures_bind.2 (Task.ensures_get.2 ?_)
  dsimp only
  refine Task.ensures_bind.2 (Task.ensures_bind.2 (Task.ensures_get.2 (Task.ensures_expect.2
    ⟨fun f' hf' => ?_, fun _ => not_false⟩)))
  cases hf.symm.trans hf'
  refine Task.ensures_bind.2 (Task.ensures_modify.2 (Task.ensures_bind.2 (Task.ensures_pure.2
    (Task.ensures_bind.2 (Task.ensures_ofChecked.2 ⟨fun v' _ => ?_, fun _ _ => not_false⟩)))))
  refine Task.ensures_bind.2 (Task.ensures_modify.2 (Task.ensures_pure.2 ⟨⟨fun g hg => ?_, ?_⟩, ?_⟩))
  · rw [Array.size_push]
    obtain hg | rfl := Array.mem_or_eq_of_mem_setIfInBounds hg
    · exact (ha.funcs g hg).mono (Nat.le_succ _) (Nat.le_refl _)
    · refine ⟨fun i hi => ?_, ?_, hsound.stop⟩
      · obtain hi | rfl := Array.mem_push.1 hi
        · exact Nat.lt_succ_of_lt (hsound.vars i hi)
        · exact Nat.lt_succ_self _
      · rw [Array.size_push]
        exact Nat.le_succ_of_le hsound.results
  · intro i hi
    rw [Array.size_push]
    exact Nat.lt_succ_of_lt (ha.mainVars i hi)
  · exact ⟨_, Array.getElem?_setIfInBounds_self_of_lt hlt, Array.size_push _⟩

theorem sound_defineVar (owner : Option Nat) (v : Var) : (defineVar owner v).Sound := by
  intro a ha
  cases owner with
  | some id =>
    cases hf : a.funcs[id]? with
    | some f => exact (ensures_defineLocal ha hf v).mono (fun _ _ h => h.1) fun _ _ h h' => absurd h' h
    | none =>
      have hfunc : (func id).exec a = (.error (.fault .outOfRange), a) := by
        show (Task.expect a.funcs[id]? : Asm FuncInfo).exec a = _
        rw [hf]
        rfl
      unfold defineVar
      refine Task.ensures_bind.2 (Task.ensures_get.2 ?_)
      dsimp only
      unfold Task.Ensures
      rw [Task.exec_bind_error hfunc]
      exact fun h => nomatch h
  | none =>
    unfold defineVar
    refine Task.ensures_bind.2 (Task.ensures_get.2 ?_)
    dsimp only
    refine Task.ensures_bind.2 (Task.ensures_get.2 (Task.ensures_bind.2 (Task.ensures_modify.2
      (Task.ensures_bind.2 (Task.ensures_pure.2 (Task.ensures_bind.2 (Task.ensures_ofChecked.2
      ⟨fun v' _ => ?_, fun _ _ h => nomatch h⟩)))))))
    refine Task.ensures_bind.2 (Task.ensures_modify.2 (Task.ensures_pure.2
      ⟨fun f hf => ?_, fun i hi => ?_⟩))
    · rw [Array.size_push]
      exact (ha.funcs f hf).mono (Nat.le_succ _) (Nat.le_refl _)
    · rw [Array.size_push]
      obtain hi | rfl := Array.mem_push.1 hi
      · exact Nat.lt_succ_of_lt (ha.mainVars i hi)
      · exact Nat.lt_succ_self _

/-- New variables of one function come one after another. -/
theorem ensures_defineLocals {f : FuncInfo} (ha : a.Sound) (hf : a.funcs[id]? = some f)
    (vs : List Var) :
    (vs.mapM (defineVar (some id))).Ensures a (fun ids a' => a'.Sound ∧
      ∃ g, a'.funcs[id]? = some g ∧ g.vars.size = f.vars.size + ids.length)
      fun e _ => ¬e.IsError := by
  induction vs generalizing a f with
  | nil => exact ⟨ha, f, hf, rfl⟩
  | cons v vs ih =>
    rw [List.mapM_cons]
    refine (ensures_defineLocal ha hf v).bind fun i a₁ ⟨ha₁, g, hg, hsize⟩ => ?_
    refine (ih ha₁ hg).bind fun is a₂ ⟨ha₂, k, hk, hsize'⟩ => ⟨ha₂, k, hk, ?_⟩
    rw [List.length_cons]
    omega

theorem sound_results (vars : List Var) : (results id vars).Sound := by
  intro a ha
  unfold results
  refine ensures_func_bind fun f hf => ?_
  split
  · exact fun _ => ha
  · refine Task.Ensures.bind ((ensures_defineLocals ha hf vars).mono (fun _ _ h => h)
      fun _ _ h h' => absurd h' h) fun ids a₁ ⟨ha₁, g, hg, hsize⟩ => ?_
    refine Task.Ensures.bind (Q := fun _ => Assembly.Sound) ?_ fun _ _ h => h
    refine ensures_func_bind fun k hk => ?_
    cases hg.symm.trans hk
    have hsound := ha₁.funcs g (Array.mem_of_getElem? hg)
    exact ha₁.setFunc id ⟨hsound.vars, by
      show ids.length ≤ g.vars.size
      omega, hsound.stop⟩

theorem sound_defineFunc : (defineFunc id).Sound := by
  intro a ha
  unfold defineFunc
  refine ensures_func_bind fun f hf => ?_
  have hsound := ha.funcs f (Array.mem_of_getElem? hf)
  split
  · exact fun _ => ha
  · have hset := ha.setFunc (f := { f with entry := some a.code.size }) id
      ⟨hsound.vars, hsound.results, hsound.stop⟩
    exact ⟨hset.funcs, hset.mainVars⟩

theorem sound_endFunc : (endFunc id).Sound := by
  intro a ha
  unfold endFunc
  refine Task.ensures_bind.2 (Task.ensures_get.2 ?_)
  split
  · exact (sound_func.bind fun _ => .fail _) a ha
  · refine Task.ensures_bind.2 (Task.ensures_modify.2 ?_)
    have hclosed (opened : List Nat) : Assembly.Sound { a with opened } := ⟨ha.funcs, ha.mainVars⟩
    split
    · refine Task.ensures_bind.2 (Task.ensures_get.2 ?_)
      refine ensures_updateFunc (hclosed _) fun f g hf h => ?_
      cases h
      exact ⟨hf.vars, hf.results, fun stop hstop => by
        cases hstop
        exact Nat.le_refl _⟩
    · exact (sound_func.bind fun _ => sound_func.bind fun _ => .fail _) _ (hclosed _)

/-! ### Words -/

theorem sound_emit (w : Word) : (emit w).Sound := fun _ ha => ha.push

theorem sound_emitChecked (w : Except Fault Word) : (emitChecked w).Sound :=
  (Asm.Sound.ofChecked w).bind fun w => (sound_emit w).discard

theorem sound_emitRef (w : Except Fault Word) : (emitRef w id).Sound :=
  (Asm.Sound.ofChecked w).bind fun w => (sound_emit w).bind fun _ => sound_func.discard.bind
    fun _ => .modify fun _ ha => ⟨ha.funcs, ha.mainVars⟩

theorem sound_reserve : reserve.Sound :=
  (Asm.Sound.ofChecked _).bind fun w => (sound_emit w).bind fun offset =>
    .bind (.modify (f := fun a => { a with reserved := offset :: a.reserved })
      fun _ ha => ⟨ha.funcs, ha.mainVars⟩) fun _ => .pure _

theorem sound_patch (offset : Nat) (w : Word) : (patch offset w).Sound :=
  Asm.Sound.get.bind fun a => by
    split
    · refine .modify fun b hb => ⟨fun f hf => ?_, hb.mainVars⟩
      rw [Array.size_setIfInBounds]
      exact hb.funcs f hf
    · exact .fail _

theorem sound_poolIndex (v : Value) : (poolIndex v).Sound := fun a ha => by
  unfold poolIndex
  refine Task.ensures_bind.2 (Task.ensures_get.2 ?_)
  split
  · exact ha
  · exact ⟨ha.funcs, ha.mainVars⟩

theorem sound_valueWord (v : Value) : (valueWord v).Sound := by
  unfold valueWord
  split
  · split
    · exact .ofChecked _
    · exact (sound_poolIndex _).bind fun _ => .ofChecked _
  · exact (sound_poolIndex _).bind fun _ => .ofChecked _

theorem sound_pushValue (v : Value) : (pushValue v).Sound :=
  (sound_valueWord v).bind fun w => sound_emit w

theorem sound_arityField (arity : Arity) : (arityField arity).Sound := by
  cases arity with
  | spread => exact .pure _
  | count n =>
    unfold arityField
    dsimp only
    split
    · exact (sound_pushValue _).discard.bind fun _ => .pure _
    · exact .pure _

/-- Every operation keeps assemblies sound. -/
theorem sound_of_operation {α : Type} {t : Asm α} (h : Operation t) : t.Sound := by
  cases h with
  | newFunc name depth => exact sound_newFunc name depth
  | setVariadic id variadic => exact sound_setVariadic variadic
  | setSignature id sig => exact sound_setSignature sig
  | setParams id params => exact sound_setParams params
  | setVariadicParams id params => exact sound_setVariadicParams params
  | results id vars => exact sound_results vars
  | defineVar owner v => exact sound_defineVar owner v
  | defineFunc id => exact sound_defineFunc
  | endFunc id => exact sound_endFunc
  | emit w => exact sound_emit w
  | reserve => exact sound_reserve
  | patch offset w => exact sound_patch offset w
  | valueWord v => exact sound_valueWord v
  | pushValue v => exact sound_pushValue v
  | pop n =>
    unfold Assembly.pop
    split
    · exact sound_emitChecked _
    · exact .pure _
  | callFunc id | closure id | hostClosure id => exact sound_emitRef _
  | callFuncv id arity => exact (sound_arityField arity).bind fun _ => sound_emitRef _
  | callNativev addr arity => exact (sound_arityField arity).bind fun _ => sound_emitChecked _
  | _ => exact sound_emitChecked _

end Assembly

theorem Assembled.sound {a : Assembly} (h : Assembled a) : a.Sound := by
  induction h with
  | empty =>
    exact ⟨fun f hf => by simp [Assembly.empty] at hf, fun i hi => by simp [Assembly.empty] at hi⟩
  | @step α t a a' r _ ht hexec hfault ih =>
    have hends := Assembly.sound_of_operation ht a ih
    unfold Task.Ensures at hends
    rw [hexec] at hends
    obtain (e | x) | x := r
    · exact hends trivial
    · exact absurd rfl (hfault x)
    · exact hends

/-! ## Sound programs -/

namespace Assembly

theorem size_of_pointAll {f : FuncInfo} {place : Nat} {offsets : List Nat} {code code' : Array Word}
    (h : pointAll f place code offsets = .ok code') : code'.size = code.size := by
  induction offsets generalizing code with
  | nil =>
    cases h
    rfl
  | cons offset offsets ih =>
    rw [pointAll_cons] at h
    split at h
    · obtain ⟨w, -, h⟩ := bind_eq_ok h
      exact (ih h).trans Array.size_setIfInBounds
    · cases h

/-- Words are pointed in place. -/
theorem size_of_pointRefs {refs : List (Nat × Nat)} {places : Array (Option Nat)}
    {fs : List FuncInfo} {id : Nat} {code code' : Array Word}
    (h : pointRefs refs places fs id code = .ok code') : code'.size = code.size := by
  induction fs generalizing id code with
  | nil =>
    cases h
    rfl
  | cons f fs ih =>
    unfold pointRefs at h
    split at h
    · exact ih h
    · split at h
      · cases h
      · split at h
        · cases h
        · exact (ih h).trans (size_of_pointAll ‹_›)

/-- What resolves from a sound assembly is a sound program. -/
theorem Sound.program {a : Assembly} {mainEnd : Nat} {p : Program} (ha : a.Sound)
    (hmain : mainEnd ≤ a.code.size) (h : a.resolve mainEnd = .ok p) : p.Sound := by
  unfold resolve at h
  split at h
  · cases h
  · split at h
    · cases h
    · obtain ⟨code, hcode, rfl⟩ := map_eq_ok h
      have hsize := size_of_pointRefs hcode
      refine ⟨fun variadic place id hid => ?_, fun f hf => (ha.funcs f hf).vars,
        fun f hf => (ha.funcs f hf).results, fun f hf stop hstop => ?_, ha.mainVars, ?_⟩
      · obtain ⟨f, hf, -⟩ := (lists_tables a.funcs).entry variadic place id
          (by cases variadic <;> exact hid)
        exact (List.getElem?_eq_some_iff.1 hf).1
      · exact hsize.symm ▸ (ha.funcs f hf).stop stop hstop
      · exact hsize.symm ▸ hmain

end Assembly

/-! ## Running them -/

/-- What values refer to where a program is linked to host functions in a world. -/
def Program.extent (p : Program) (n : Natives) (w : World) : Extent :=
  ⟨w.store.cells.size, w.store.frames.size, p.funcs.size, n.bodies.size⟩

/-- All that the values of a program, of the host side and of the world refer to is there. -/
structure Program.Grounded (p : Program) (n : Natives) (w : World) : Prop where
  consts : ∀ v ∈ p.consts, v.Within (p.extent n w)
  vars : ∀ v ∈ n.vars, v.cell.Within (p.extent n w)
  funcs : ∀ f ∈ n.funcs, f.func.Within (p.extent n w)
  funcvs : ∀ f ∈ n.funcvs, f.func.Within (p.extent n w)
  cells : ∀ v ∈ w.store.cells, v.Within (p.extent n w)
  frames : ∀ f ∈ w.store.frames, f.Within (p.extent n w)

/-- Where nothing has been made yet there is nothing but constants. -/
theorem Program.grounded_of_isScalar {p : Program} (h : ∀ v ∈ p.consts, v.IsScalar) :
    p.Grounded .empty default where
  consts v hv := (h v hv).within
  vars _ h := nomatch Array.not_mem_empty _ h
  funcs _ h := nomatch Array.not_mem_empty _ h
  funcvs _ h := nomatch Array.not_mem_empty _ h
  cells _ h := nomatch Array.not_mem_empty _ h
  frames _ h := nomatch Array.not_mem_empty _ h

namespace Machine

variable {m : Machine} {p : Program} {limits : Limits} {n : Natives} {w : World}

/-- A run from the world calls no host function: what they do does not matter to it. -/
def Hostless (m : Machine) (w : World) : Prop :=
  ∀ bodies : Array HostBody, bodies.size = m.natives.bodies.size →
    (m.withBodies bodies).run.exec w = m.run.exec w

/-- There is no host function to call. -/
theorem hostless_of_isEmpty (h : m.natives.bodies = #[]) (w : World) : m.Hostless w :=
  fun bodies hsize => by
    rw [h] at hsize
    obtain rfl := Array.eq_empty_of_size_eq_zero hsize
    unfold withBodies
    rw [← h]

/-- Sound programs can be linked unchecked. -/
theorem exists_builds (hp : p.Sound) : ∃ m, Builds p limits n m := by
  have described {id : Nat} (h : id < p.vars.size) : (p.vars[id]?).isSome := by
    rw [Array.getElem?_eq_getElem h]
    rfl
  exact exists_builds_of_vars (fun id hid => described (hp.mainVars id (Array.mem_toList_iff.1 hid)))
    (fun g hg id hid => described (hp.vars g (Array.mem_toList_iff.1 hg) id (Array.mem_toList_iff.1 hid)))
    limits n

/-- Zero values refer to nothing. -/
theorem Zeros.within {vars : Array Nat} {vs : Array Value} (h : Zeros p vars vs) {v : Value}
    (hv : v ∈ vs) (x : Extent) : v.Within x := by
  obtain ⟨id, -, d, -, rfl⟩ := exists_of_forall₂_of_mem h (Array.mem_toList_iff.2 hv)
  exact Value.within_zero d.ty

/-- A machine built from a sound program is sound with host functions that do nothing but fail. -/
theorem Builds.sound (h : Builds p limits n m) (hp : p.Sound) (hw : p.Grounded n w) {c : Cause}
    {bodies : Array HostBody} (hsize : bodies.size = n.bodies.size)
    (hbodies : ∀ body ∈ bodies, body = fun _ _ => HostTask.fail c) :
    (m.withBodies bodies).Sound (p.extent n w) := by
  obtain ⟨rfl, rfl, rfl, hglobals, hframes⟩ := h
  exact
    { program := hp
      frames := hframes.length_eq.symm
      zeros := fun vs hvs v hv x => by
        obtain ⟨g, -, hzeros⟩ := exists_of_forall₂_of_mem hframes (Array.mem_toList_iff.2 hvs)
        exact hzeros.within hv x
      globals := fun v hv x => hglobals.within hv x
      consts := hw.consts
      vars := hw.vars
      funcs := hw.funcs
      funcvs := hw.funcvs
      bodies := fun body hbody call args w _ _ => by
        rw [hbodies body hbody]
        trivial }

/-- A sound program that calls no host function runs to a result or an error. -/
theorem Builds.no_fault (h : Builds p limits n m) (hp : p.Sound) (hw : p.Grounded n w)
    (hhost : m.Hostless w) :
    (∃ frame, (m.run.exec w).1 = .ok frame) ∨ ∃ e, (m.run.exec w).1 = .error (.error e) := by
  generalize hbodies : (Array.replicate n.bodies.size fun _ _ => HostTask.fail .nilCall :
    Array HostBody) = bodies
  have hsize : bodies.size = n.bodies.size := by rw [← hbodies, Array.size_replicate]
  have hm := h.sound hp hw hsize fun body hbody => by
    subst hbodies
    exact (Array.mem_replicate.1 hbody).2
  have hextent : (m.withBodies bodies).extent w.store = p.extent n w := by
    unfold extent withBodies Program.extent
    rw [h.program, hsize]
  have hends := safe_run hm (w := w) ⟨hextent ▸ hw.cells, hextent ▸ hw.frames, hextent ▸ .refl _⟩
  unfold HostTask.Safe Task.Ensures at hends
  rw [hhost bodies (h.natives ▸ hsize)] at hends
  generalize m.run.exec w = r at hends ⊢
  obtain ⟨(e | f) | frame, w'⟩ := r
  · exact .inr ⟨e, rfl⟩
  · exact hends.elim
  · exact .inl ⟨frame, rfl⟩

end Machine

/-- What is put together by the operations of an assembly and resolves can be linked unchecked, and
if it calls no host function, it runs to a result or an error: nothing in it leads to a fault. -/
theorem Assembled.run_ends {a : Assembly} {mainEnd : Nat} {p : Program} (ha : Assembled a)
    (hmain : mainEnd ≤ a.code.size) (hp : a.resolve mainEnd = .ok p) (limits : Limits) (n : Natives)
    (w : World) (hw : p.Grounded n w) :
    (limits.verifyStack = false → ∃ m, Machine.link p limits n = .ok m) ∧
    ∀ m, Machine.link p limits n = .ok m → m.Hostless w →
      (∃ frame, (m.run.exec w).1 = .ok frame) ∨ ∃ e, (m.run.exec w).1 = .error (.error e) := by
  have hsound := ha.sound.program hmain hp
  refine ⟨fun hverify => ?_, fun m hm hhost => (Machine.link_eq_ok.1 hm).1.no_fault hsound hw hhost⟩
  obtain ⟨m, hm⟩ : ∃ m, Machine.Builds p limits n m := Machine.exists_builds hsound
  exact ⟨m, Machine.link_eq_ok.2 ⟨hm, fun h => by rw [hverify] at h; cases h⟩⟩

/-- A function that drops a value it was not given, and a main body that calls it. -/
def Assembly.greedy : Asm Unit := do
  let f ← newFunc "f" 1
  callFunc f
  defineFunc f
  pop 1
  endFunc f

theorem Assembled.greedy : Assembled (Assembly.greedy.exec .empty).2 :=
  let named := step empty (.newFunc "f" 1) rfl fun _ => nofun
  let called := step named (.callFunc 0) rfl fun _ => nofun
  let defined := step called (.defineFunc 0) rfl fun _ => nofun
  let dropped := step defined (.pop 1) rfl fun _ => nofun
  step dropped (.endFunc 0) rfl fun _ => nofun

/-- An unbalanced program cannot be linked after a check, but it runs to its error. -/
theorem Assembled.greedy_run_ends :
    ∃ p m, (Assembly.greedy.exec .empty).2.resolve 1 = .ok p ∧
      Machine.link p { verifyStack := false } .empty = .ok m ∧
      ((∃ frame, (m.run.exec default).1 = .ok frame) ∨
        ∃ e, (m.run.exec default).1 = .error (.error e)) := by
  have hconsts (v : Value) (hv : v ∈ (#[] : Array Value)) : v.IsScalar :=
    nomatch Array.not_mem_empty _ hv
  have hmain : 1 ≤ (Assembly.greedy.exec .empty).2.code.size := by decide
  obtain ⟨hlink, hends⟩ := Assembled.run_ends Assembled.greedy hmain rfl
    { verifyStack := false } .empty default (Program.grounded_of_isScalar hconsts)
  obtain ⟨m, hm⟩ := hlink rfl
  exact ⟨_, m, rfl, hm, hends m hm (Machine.hostless_of_isEmpty
    (congrArg Natives.bodies (Machine.link_eq_ok.1 hm).1.natives) default)⟩

end StackScript
