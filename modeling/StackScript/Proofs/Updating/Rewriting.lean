import StackScript.Proofs.Typing.Moments
import StackScript.Proofs.Updating.Glancing

/-!
# Writing back

A variable, or what a pointer points to, is replaced by what an operator makes of it. One instruction can
do that, given the address; or the old value is loaded, and after the operator the new one is stored. Both
write the same value to the same place (`Machine.agree_update`).
-/

namespace StackScript

/-! ## Runs that agree -/

/-- If one of the runs ends without an error then so does the other, unless that exceeds a limit, and the
two leave the same thread but for counts. -/
structure Run.Matches (x y : Except (Stop RuntimeError) Unit × Thread) : Prop where
  left : ∀ t, x = (.ok (), t) → (∃ u, y = (.ok (), u) ∧ t.Same u) ∨ ∃ e u, y = (.error e, u) ∧ e.Limited
  right : ∀ u, y = (.ok (), u) → (∃ t, x = (.ok (), t) ∧ t.Same u) ∨ ∃ e t, x = (.error e, t) ∧ e.Limited

namespace Thread

variable {t u u' : Thread}

theorem Same.refl (t : Thread) : t.Same t := ⟨t.world.store.fresh, t.steps, rfl⟩

theorem Same.of_common (h : t.Same u) (h' : t.Same u') : u.Same u' := by
  obtain ⟨fresh, steps, rfl⟩ := h
  obtain ⟨fresh', steps', rfl⟩ := h'
  exact ⟨fresh', steps', rfl⟩

end Thread

theorem Run.Matches.refl (x : Except (Stop RuntimeError) Unit × Thread) : Matches x x :=
  ⟨fun t h => .inl ⟨t, h, .refl t⟩, fun t h => .inl ⟨t, h, .refl t⟩⟩

/-- The task leads to the thread, but for counts. If there is none it fails. Before that a limit may be
exceeded. -/
def Run.Makes (r : Run Unit) (t : Thread) (goal : Option Thread) : Prop :=
  r.Ensures t (fun _ u => ∃ t', goal = some t' ∧ t'.Same u) fun e _ => e.Limited ∨ goal = none

theorem Run.Makes.agree {r r' : Run Unit} {t : Thread} {goal : Option Thread} (h : r.Makes t goal)
    (h' : r'.Makes t goal) : Matches (r.exec t) (r'.exec t) := by
  have half {r r' : Run Unit} (h : r.Makes t goal) (h' : r'.Makes t goal) (u : Thread)
      (hu : r.exec t = (.ok (), u)) : (∃ u', r'.exec t = (.ok (), u') ∧ u.Same u') ∨
        ∃ e u', r'.exec t = (.error e, u') ∧ e.Limited := by
    obtain ⟨t', hgoal, hsame⟩ := h.ok hu
    rcases hexec : r'.exec t with ⟨e | a, u'⟩
    · obtain hlimited | hnone := h'.error hexec
      · exact .inr ⟨e, u', rfl, hlimited⟩
      · cases hgoal.symm.trans hnone
    · obtain ⟨t'', hgoal', hsame'⟩ := h'.ok hexec
      cases hgoal.symm.trans hgoal'
      exact .inl ⟨u', rfl, hsame.of_common hsame'⟩
  refine ⟨half h h', fun u hu => ?_⟩
  obtain ⟨u', hexec, hsame⟩ | hlimited := half h' h u hu
  · refine .inl ⟨u', hexec, ?_⟩
    obtain ⟨fresh, steps, rfl⟩ := hsame
    exact ⟨u.world.store.fresh, u.steps, rfl⟩
  · exact .inr hlimited

/-! ## Places -/

/-- The place that a pointer leads to. -/
def Value.place? : Value → Option Place
  | .ptr _ _ p => some p
  | _ => none

theorem Thread.behind?_eq (t : Thread) (v : Value) :
    t.behind? v = v.place?.bind t.world.store.load? := by
  cases v <;> rfl

/-- The thread after the value in a place was replaced by what an operator makes of it and of another one. -/
def Thread.rewritten? (t : Thread) (op : Operator) (k : Kind) (place : Option Place)
    (operand : Option Value) : Option Thread := do
  let p ← place
  let x ← t.world.store.load? p
  let y ← operand
  let z ← (op.eval k x y).toOption
  let store ← t.world.store.store? z p
  return { t with world.store := store }

theorem Thread.rewritten?_none (t : Thread) (op : Operator) (k : Kind) (place : Option Place) :
    t.rewritten? op k place none = none := by
  simp [rewritten?]

section

variable {t u : Thread} {ops : List Value} {v w z : Value} {op : Operator} {k : Kind} {p : Place}

namespace Thread.Bears

theorem store (h : t.Bears [] u) (p : Place) (z : Value) :
    (Run.store p z).Ensures u (fun _ u' => ∃ store, t.world.store.store? z p = some store ∧
      ({ t with world.store := store } : Thread).Same u') fun _ _ => t.world.store.store? z p = none := by
  obtain ⟨fresh, steps, rfl⟩ := h.same
  refine Run.ensures_onWorld.2 (Task.ensures_bind.2 (Task.ensures_get.2 ?_))
  rw [store?_recounted]
  cases hstore : t.world.store.store? z p with
  | some s => exact ⟨s, rfl, fresh, steps, rfl⟩
  | none => cases p <;> rfl

/-- The pointer on top is followed to its place. -/
theorem pointee (h : t.Bears (v :: ops) u) :
    (do Run.pointee (← Run.pop) : Run Place).Ensures u
      (fun p u' => v.place? = some p ∧ t.Bears ops u') fun _ _ => v.place? = none := by
  refine h.pop.bind fun w u' hw => ?_
  obtain ⟨hw, hu'⟩ := hw
  cases hw with
  | ptr id id' elem p => exact ⟨rfl, hu'⟩
  | refl =>
    unfold Run.pointee
    split
    · exact ⟨rfl, hu'⟩
    · rfl
    · rename_i hptr _
      cases v with
      | ptr id elem p => exact absurd rfl (hptr id elem p)
      | _ => rfl

/-- What an operator makes of two values. -/
theorem evaluate (h : t.Bears ops u) {x y y' : Value} (hy : y.Same y') :
    (Run.evaluate op k x y').Ensures u (fun z u' => (op.eval k x y).toOption = some z ∧ t.Bears ops u')
      fun _ _ => (op.eval k x y).toOption = none := by
  rw [← Value.Same.toOption_eval (.refl x) hy]
  unfold Run.evaluate
  cases op.eval k x y' with
  | error e => rfl
  | ok z => exact ⟨rfl, h⟩

theorem updatePlace (h : t.Bears [] u) (hv : v.Same w) (p : Place) :
    (Run.updatePlace op k p w).Ensures u
      (fun _ u' => ∃ t', t.rewritten? op k (some p) (some v) = some t' ∧ t'.Same u')
      fun _ _ => t.rewritten? op k (some p) (some v) = none := by
  unfold Run.updatePlace
  refine Task.ensures_bind.2 ((h.load p).mono (fun x u₁ hx => ?_) fun _ _ hnone => ?_)
  · obtain ⟨hx, hu₁⟩ := hx
    refine Task.ensures_bind.2 ((hu₁.evaluate hv).mono (fun z u₂ hz => ?_) fun _ _ hnone => ?_)
    · obtain ⟨hz, hu₂⟩ := hz
      refine (hu₂.store p z).mono (fun _ u₃ hs => ?_) fun _ _ hnone => ?_
      · obtain ⟨s, hs, hsame⟩ := hs
        exact ⟨_, by simp [rewritten?, hx, hz, hs], hsame⟩
      · simp [rewritten?, hx, hz, hnone]
    · simp [rewritten?, hx, hnone]
  · simp [rewritten?, hnone]

end Thread.Bears

namespace Machine

variable {m : Machine} {call : Caller} {ctx : Nat} {is : List Instr} {r operand : Option Value}

/-- One instruction that writes back what lies behind the pointer on top. -/
theorem ensures_update (h : t.Bears [w, v] u) :
    (m.perform call ctx (.addrOp (some k) (some (.update op)))).Ensures u
      (fun _ u' => ∃ t', t.rewritten? op k w.place? (some v) = some t' ∧ t'.Same u')
      fun _ _ => t.rewritten? op k w.place? (some v) = none := by
  have hpointee := h.pointee
  show (do
    let p ← Run.pointee (← Run.pop)
    Run.applyAddress k (.update op) p : Run Unit).Ensures _ _ _
  rw [← bind_assoc]
  refine Task.ensures_bind.2 (hpointee.mono (fun p u₁ hp => ?_) fun _ _ hnone => ?_)
  · obtain ⟨hp, hu₁⟩ := hp
    rw [hp]
    exact hu₁.pop.bind fun y u₂ hy => hy.2.updatePlace hy.1 p
  · rw [hnone]
    rfl

/-- One instruction that adds a unit to what lies behind the pointer on top, or takes one off. -/
theorem ensures_step (up : Bool) (h : t.Bears [w] u) :
    (m.perform call ctx (.addrOp (some k) (some (if up then .increment else .decrement)))).Ensures u
      (fun _ u' => ∃ t', t.rewritten? (if up then .add else .sub) k w.place? ((Value.int 1).convert k) =
        some t' ∧ t'.Same u')
      fun _ _ => t.rewritten? (if up then .add else .sub) k w.place? ((Value.int 1).convert k) = none := by
  have hpointee := h.pointee
  have hperform : m.perform call ctx (.addrOp (some k) (some (if up then .increment else .decrement))) = (do
      let p ← (do Run.pointee (← Run.pop) : Run Place)
      Run.updatePlace (if up then .add else .sub) k p (← Run.convert (.int 1) k)) := by
    rw [bind_assoc]
    cases up <;> rfl
  rw [hperform]
  refine Task.ensures_bind.2 (hpointee.mono (fun p u₁ hp => ?_) fun _ _ hnone => ?_)
  · obtain ⟨hp, hu₁⟩ := hp
    rw [hp]
    unfold Run.convert
    cases (Value.int 1).convert k with
    | none =>
      rw [Thread.rewritten?_none]
      rfl
    | some one => exact hu₁.updatePlace (.refl one) p
  · rw [hnone]
    rfl

/-! ## Code that writes back -/

/-- The code stores the value on top to the place. If it cannot then it fails. Before that a limit may be
exceeded. -/
def Writes (m : Machine) (call : Caller) (ctx : Nat) (t : Thread) (is : List Instr) (place : Option Place) :
    Prop :=
  ∀ (z : Scalar) u, t.Bears [.scalar z] u → (m.follow call ctx is).Ensures u
    (fun _ u' => ∃ store, place.bind (t.world.store.store? (.scalar z)) = some store ∧
      ({ t with world.store := store } : Thread).Same u')
    fun e _ => e.Limited ∨ place.bind (t.world.store.store? (.scalar z)) = none

variable {A E L S : List Instr} {pointer : Option Value} {place : Option Place}

theorem writes_var (scope : Scope) (index : Nat) : m.Writes call ctx t [.storeVar scope index]
    ((t.world.store.frameAt? ctx scope).map (.slot · index)) := by
  intro z u hu
  refine ensures_follow_one hu (fun _ _ he => .inl he) fun u₁ hu₁ => ?_
  refine hu₁.pop.bind fun z' u₂ hz => ?_
  obtain ⟨hz, hu₂⟩ := hz
  obtain rfl := hz.scalar
  refine Task.ensures_bind.2 ((hu₂.frameOf ctx scope).mono (fun f u₃ hf => ?_) fun _ _ hnone => ?_)
  · rw [hf.1]
    exact (hf.2.store _ _).mono (fun _ _ h => h) fun _ _ hnone => .inr hnone
  · rw [hnone]
    exact .inr rfl

theorem writes_pointee (hA : m.Sees call ctx t A pointer) : m.Writes call ctx t
    (A ++ [.addrOp (some k) (some .store)]) (pointer.bind Value.place?) := by
  intro z u hu
  rw [follow_append]
  refine Task.ensures_bind.2 ((hA _ u hu).mono (fun _ u₁ h₁ => ?_) fun e _ he => ?_)
  · obtain ⟨w, rfl, hu₁⟩ := h₁
    refine ensures_follow_one hu₁ (fun _ _ he => .inl he) fun u₂ hu₂ => ?_
    show (do
      let p ← Run.pointee (← Run.pop)
      Run.store p (← Run.pop) : Run Unit).Ensures _ _ _
    rw [← bind_assoc, Option.bind_some]
    refine Task.ensures_bind.2 (hu₂.pointee.mono (fun p u₃ hp => ?_) fun _ _ hnone => ?_)
    · rw [hp.1]
      refine hp.2.pop.bind fun z' u₄ hz => ?_
      obtain ⟨hz, hu₄⟩ := hz
      obtain rfl := hz.scalar
      exact (hu₄.store _ _).mono (fun _ _ h => h) fun _ _ hnone => .inr hnone
    · rw [hnone]
      exact .inr rfl
  · refine he.imp_right fun hnone => ?_
    rw [hnone]
    rfl

/-- The new value is found, then the pointer, and one instruction does the rest. -/
theorem makes_update (op : Operator) (hE : m.Sees call ctx t E operand) (hA : m.Sees call ctx t A pointer) :
    (m.follow call ctx (E ++ A ++ [.addrOp (some k) (some (.update op))])).Makes t
      (t.rewritten? op k (pointer.bind Value.place?) operand) := by
  have hself := Thread.Bears.self t
  rw [List.append_assoc, follow_append]
  refine Task.ensures_bind.2 ((hE _ t hself).mono (fun _ u₁ h₁ => ?_) fun e _ he => ?_)
  · obtain ⟨v, rfl, hu₁⟩ := h₁
    rw [follow_append]
    refine Task.ensures_bind.2 ((hA _ u₁ hu₁).mono (fun _ u₂ h₂ => ?_) fun e _ he => ?_)
    · obtain ⟨w, rfl, hu₂⟩ := h₂
      refine ensures_follow_one hu₂ (fun _ _ he => .inl he) fun u₃ hu₃ => ?_
      exact (ensures_update hu₃).mono (fun _ _ h => h) fun _ _ hnone => .inr hnone
    · refine he.imp_right fun hnone => ?_
      rw [hnone]
      rfl
  · refine he.imp_right fun hnone => ?_
    rw [hnone, Thread.rewritten?_none]

/-- The pointer is found, and one instruction does the rest. -/
theorem makes_step (up : Bool) (hA : m.Sees call ctx t A pointer) :
    (m.follow call ctx (A ++ [.addrOp (some k) (some (if up then .increment else .decrement))])).Makes t
      (t.rewritten? (if up then .add else .sub) k (pointer.bind Value.place?) ((Value.int 1).convert k)) := by
  rw [follow_append]
  refine Task.ensures_bind.2 ((hA _ t (.self t)).mono (fun _ u₁ h₁ => ?_) fun e _ he => ?_)
  · obtain ⟨w, rfl, hu₁⟩ := h₁
    refine ensures_follow_one hu₁ (fun _ _ he => .inl he) fun u₂ hu₂ => ?_
    exact (ensures_step up hu₂).mono (fun _ _ h => h) fun _ _ hnone => .inr hnone
  · refine he.imp_right fun hnone => ?_
    rw [hnone]
    rfl

/-- The old value is found, then the other operand, and what the operator makes of them is stored. -/
theorem makes_assign (hL : m.Sees call ctx t L (place.bind t.world.store.load?))
    (hE : m.Sees call ctx t E operand) (hS : m.Writes call ctx t S place) :
    (m.follow call ctx (L ++ E ++ [.builtinOp (some k) (some op)] ++ S)).Makes t
      (t.rewritten? op k place operand) := by
  have hjoined := hL.join hE (some k) (some op)
  rw [follow_append]
  refine Task.ensures_bind.2 ((hjoined _ t (.self t)).mono (fun _ u₁ h₁ => ?_) fun e _ he => ?_)
  · obtain ⟨z, hz, hu₁⟩ := h₁
    obtain ⟨x, hx, hoperand⟩ := Option.bind_eq_some_iff.1 hz
    obtain ⟨y, rfl, heval⟩ := Option.bind_eq_some_iff.1 hoperand
    obtain ⟨p, rfl, hload⟩ := Option.bind_eq_some_iff.1 hx
    replace heval : (op.eval k x y).toOption = some z := heval
    obtain ⟨z, rfl⟩ : ∃ s, z = .scalar s := by
      cases hop : op.eval k x y with
      | error e =>
        rw [hop] at heval
        cases heval
      | ok z' =>
        rw [hop] at heval
        cases heval
        exact Operator.isScalar_of_eval hop
    refine (hS z u₁ hu₁).mono (fun _ u₂ h₂ => ?_) fun e _ he => he.imp_right fun hnone => ?_
    · obtain ⟨s, hs, hsame⟩ := h₂
      have hs : t.world.store.store? (.scalar z) p = some s := hs
      exact ⟨_, by simp [Thread.rewritten?, hload, heval, hs], hsame⟩
    · have hnone : t.world.store.store? (.scalar z) p = none := hnone
      simp [Thread.rewritten?, hload, heval, hnone]
  · refine he.imp_right fun hnone => ?_
    cases place with
    | none => rfl
    | some p =>
      have hnone : ((t.world.store.load? p).bind fun x => operand.bind fun y => (op.eval k x y).toOption) =
          none := hnone
      simp only [Option.bind_eq_none_iff] at hnone
      simp only [Thread.rewritten?, Option.bind_eq_bind, Option.bind_some, Option.bind_eq_none_iff]
      exact fun x hx y hy z hz => absurd (hnone x hx y hy) (by simp [hz])

/-! ### Both ways -/

/-- Code for one place: for its address, to load from it, and to store to it. -/
inductive Locates (k : Kind) : List Instr → List Instr → List Instr → Prop
  | var (scope : Scope) (index : Nat) :
    Locates k [.addrVar scope index] [.loadVar scope index] [.storeVar scope index]
  | pointee {is : List Instr} (h : Glance is) :
    Locates k is (is ++ [.addrOp (some k) (some .load)]) (is ++ [.addrOp (some k) (some .store)])

/-- The arguments of the running function lie on the stack, and its variables have types. -/
structure Hosts (m : Machine) (ctx : Nat) (t : Thread) : Prop where
  seats : t.Seats ctx
  types : ∀ f i v, t.world.store.load? (.slot f i) = some v → (m.slotType? t.world.store f i).isSome

section

variable {p : Program} {limits : Limits} {natives : Natives}

theorem Zeros.isSome_typeOf? {vars : Array Nat} {vs : Array Value} (h : Zeros p vars vs) (hm : m.program = p)
    {index : Nat} (hi : index < vars.size) : (m.typeOf? vars index).isSome := by
  have hget : vars.toList[index]? = some vars[index] := by simp [hi]
  obtain ⟨v, -, d, hd, -⟩ := exists_getElem?_of_forall₂ h hget
  unfold typeOf?
  rw [Array.getElem?_eq_getElem hi, hm]
  simp [hd]

/-- The frames of a machine that was built have variables with types. -/
theorem Builds.isSome_typeOf? (h : Builds p limits natives m) {func : Option Nat} {index : Nat}
    (hi : index < (p.frameVars func).size) : (m.typeOf? (p.frameVars func) index).isSome := by
  cases func with
  | none => exact h.globals.isSome_typeOf? h.program hi
  | some id =>
    rw [Program.frameVars] at hi ⊢
    cases hfunc : p.funcs[id]? with
    | none =>
      rw [hfunc] at hi
      cases hi
    | some f =>
      rw [hfunc] at hi
      rw [← Array.getElem?_toList] at hfunc
      obtain ⟨vs, -, hzeros⟩ := exists_getElem?_of_forall₂ h.frames hfunc
      exact hzeros.isSome_typeOf? h.program hi

theorem Builds.hosts (h : Builds p limits natives m) (hsized : ∀ frame ∈ t.world.store.frames, frame.Sized p)
    (hseats : t.Seats ctx) : m.Hosts ctx t where
  seats := hseats
  types f i v hload := by
    obtain ⟨frame, hframe, hv⟩ := Option.bind_eq_some_iff.1 hload
    have hi : i < (p.frameVars frame.func).size := by
      rw [← hsized frame (Array.mem_of_getElem? hframe)]
      exact (Array.getElem?_eq_some_iff.1 hv).1
    have htype := h.isSome_typeOf? hi
    unfold slotType?
    rw [hframe, h.program]
    exact htype

/-- Wherever a run of a typed program comes to code, that is so. -/
theorem hosts_of_meets {g : Setting} {D : TypeNames} {file : File} {labels : Nat} {cells : Array Ty}
    {may : HostRely} {w : World} {own : List Nat} {room stop offset : Nat}
    (h : g.Compiled D file labels) (hm : m.Typed g) (hlink : link g.out.program limits natives = .ok m)
    (hw : w.store.Typed g cells) (hmay : may.Typed g)
    (hx : m.Meets may w own (.code room ctx stop offset t)) : m.Hosts ctx t := by
  cases typed_of_meets h hm hw hmay hx with
  | code _ _ _ hs =>
    refine (link_eq_ok.1 hlink).1.hosts hs.typed.sized fun frame hframe => ?_
    have hsize := congrArg List.length hs.stack
    rw [Array.length_toList, List.length_append] at hsize
    simp only [Thread.holding, Thread.above, Array.size_append, List.size_toArray,
      hs.base frame hframe, hsize]
    omega

end

/-- That an address needs the type of the variable makes no difference. -/
theorem rewritten?_addrVar (ht : m.Hosts ctx t) (scope : Scope) (index : Nat) :
    t.rewritten? op k ((m.shown? ctx t (.addrVar scope index)).bind Value.place?) operand =
      t.rewritten? op k ((t.world.store.frameAt? ctx scope).map (.slot · index)) operand := by
  have hshown : m.shown? ctx t (.addrVar scope index) = (t.world.store.frameAt? ctx scope).bind fun f =>
      (m.slotType? t.world.store f index).bind fun elem => some (.ptr 0 elem (.slot f index)) := rfl
  rw [hshown]
  cases t.world.store.frameAt? ctx scope with
  | none => rfl
  | some f =>
    rw [Option.bind_some, Option.map_some]
    cases hload : t.world.store.load? (.slot f index) with
    | none => cases m.slotType? t.world.store f index <;> simp [Thread.rewritten?, Value.place?, hload]
    | some v =>
      obtain ⟨ty, hty⟩ := Option.isSome_iff_exists.1 (ht.types f index v hload)
      rw [hty]
      rfl

/-- The code of an update and that of the assignment it abbreviates agree. -/
theorem agree_update (ht : m.Hosts ctx t) (h : Locates k A L S) (hE : Glance E) (op : Operator) : Run.Matches
    ((m.follow call ctx (E ++ A ++ [.addrOp (some k) (some (.update op))])).exec t)
    ((m.follow call ctx (L ++ E ++ [.builtinOp (some k) (some op)] ++ S)).exec t) := by
  obtain ⟨operand, hE⟩ := m.sees_of_glance call ht.seats hE
  cases h with
  | var scope index =>
    have hA : m.Sees call ctx t _ _ := .push ht.seats (.addr scope index)
    have hL : m.Sees call ctx t _ _ := .push ht.seats (.var scope index)
    have hload : m.shown? ctx t (.loadVar scope index) =
        ((t.world.store.frameAt? ctx scope).map (.slot · index)).bind t.world.store.load? := by
      rw [Option.bind_map]
      rfl
    have hupdate := makes_update (k := k) op hE hA
    rw [rewritten?_addrVar ht] at hupdate
    rw [hload] at hL
    exact hupdate.agree (makes_assign hL hE (writes_var scope index))
  | pointee hA =>
    obtain ⟨pointer, hA⟩ := m.sees_of_glance call ht.seats hA
    have hL := hA.turn (.load (some k))
    have hload : pointer.bind (turned? t (.addrOp (some k) (some .load))) =
        (pointer.bind Value.place?).bind t.world.store.load? := by
      rw [Option.bind_assoc]
      congr 1
      funext v
      exact t.behind?_eq v
    rw [hload] at hL
    exact (makes_update op hE hA).agree (makes_assign hL hE (writes_pointee hA))

/-- The code that adds a unit, or takes one off, agrees with the update by a constant that is the unit. -/
theorem agree_step (ht : m.Hosts ctx t) (h : Locates k A L S) (up : Bool) {i : Instr} (hi : i.Pushes)
    (hone : m.shown? ctx t i = (Value.int 1).convert k) : Run.Matches
    ((m.follow call ctx (A ++ [.addrOp (some k) (some (if up then .increment else .decrement))])).exec t)
    ((m.follow call ctx ([i] ++ A ++ [.addrOp (some k) (some (.update (if up then .add else .sub)))])).exec
      t) := by
  obtain ⟨pointer, hA⟩ : ∃ r, m.Sees call ctx t A r := by
    cases h with
    | var scope index => exact ⟨_, .push ht.seats (.addr scope index)⟩
    | pointee hA => exact m.sees_of_glance call ht.seats hA
  have hE : m.Sees call ctx t [i] _ := .push ht.seats hi
  rw [hone] at hE
  exact (makes_step up hA).agree (makes_update _ hE hA)

end Machine

end

end StackScript
