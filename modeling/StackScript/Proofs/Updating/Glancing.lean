import StackScript.Proofs.Assigning.Spots

/-!
# Code that only looks

The code of an expression without calls looks at the state and leaves one value on the stack (`Glance`).
It changes nothing but two counts: that of the steps, and the number that the next pointer gets. What it
leaves depends on neither, nor on what lies on the stack above the arguments of the running function
(`Machine.Sees`). So it may be run again, earlier or later, and shows the same.
-/

namespace StackScript

/-! ## The same but for counts -/

/-- The same value, but for the number of a pointer. -/
inductive Value.Same : Value → Value → Prop
  | refl (v : Value) : Same v v
  | ptr (id id' : Nat) (elem : Ty) (p : Place) : Same (.ptr id elem p) (.ptr id' elem p)

/-- The thread with other counts: of its steps, and of what was made so far. -/
def Thread.recounted (t : Thread) (fresh steps : Nat) : Thread :=
  { t with world.store.fresh := fresh, steps }

/-- The threads differ in counts only. -/
def Thread.Same (t u : Thread) : Prop := ∃ fresh steps, u = t.recounted fresh steps

/-- The second thread is the first one with operands on its stack, but for counts. -/
def Thread.Bears (t : Thread) (ops : List Value) (u : Thread) : Prop :=
  ∃ (fresh steps : Nat) (vs : List Value), List.Forall₂ Value.Same ops vs ∧
    u = (t.recounted fresh steps).holding vs

theorem Value.Same.scalar {s : Scalar} {w : Value} (h : Value.Same (.scalar s) w) : w = .scalar s := by
  cases h
  rfl

theorem Value.Same.of_scalar {s : Scalar} {v : Value} (h : v.Same (.scalar s)) : v = .scalar s := by
  cases h
  rfl

/-- Operators are defined on scalars. -/
theorem Operator.scalars_of_eval {op : Operator} {k : Kind} {x y z : Value} (h : op.eval k x y = .ok z) :
    (∃ s, x = .scalar s) ∧ ∃ s, y = .scalar s := by
  unfold eval at h
  split at h
  · cases h
  split at h
  · obtain ⟨i, a, j, b, rfl, rfl⟩ := eq_int_of_evalShift h
    exact ⟨⟨_, rfl⟩, _, rfl⟩
  split at h
  · cases h
  split at h
  · exact ⟨⟨_, rfl⟩, _, rfl⟩
  · cases h

/-- An operator does not see the number of a pointer. -/
theorem Value.Same.toOption_eval {x x' y y' : Value} (hx : x.Same x') (hy : y.Same y') (op : Operator)
    (k : Kind) : (op.eval k x' y').toOption = (op.eval k x y).toOption := by
  have hnone {x y : Value} (h : ¬∃ z, op.eval k x y = .ok z) : (op.eval k x y).toOption = none := by
    cases hz : op.eval k x y with
    | error e => rfl
    | ok z => exact absurd ⟨z, hz⟩ h
  by_cases h : ∃ z, op.eval k x y = .ok z
  · obtain ⟨z, hz⟩ := h
    obtain ⟨⟨s, rfl⟩, s', rfl⟩ := Operator.scalars_of_eval hz
    rw [hx.scalar, hy.scalar]
  · rw [hnone h, hnone]
    rintro ⟨z, hz⟩
    obtain ⟨⟨s, rfl⟩, s', rfl⟩ := Operator.scalars_of_eval hz
    rw [hx.of_scalar, hy.of_scalar] at h
    exact h ⟨z, hz⟩

theorem Value.Same.convert {v w : Value} (h : v.Same w) (k : Kind) :
    (v.convert k = none ∧ w.convert k = none) ∨
      ∃ x y, v.convert k = some x ∧ w.convert k = some y ∧ x.Same y := by
  cases h with
  | refl =>
    cases hv : v.convert k with
    | none => exact .inl ⟨rfl, rfl⟩
    | some x => exact .inr ⟨x, x, rfl, rfl, .refl x⟩
  | ptr id id' elem p =>
    by_cases hk : Kind.ptr = k
    · exact .inr ⟨_, _, if_pos hk, if_pos hk, .ptr id id' elem p⟩
    · exact .inl ⟨if_neg hk, if_neg hk⟩

/-! ## What instructions see -/

/-- The frame that an address counts from. -/
def Store.frameAt? (s : Store) (ctx : Nat) : Scope → Option Nat
  | .global => some (s.root ctx)
  | .up n => s.ancestor? ctx n

/-- The value behind a pointer. -/
def Thread.behind? (t : Thread) : Value → Option Value
  | .ptr _ _ p => t.world.store.load? p
  | _ => none

namespace Machine

/-- The type of one of some variables. -/
def typeOf? (m : Machine) (vars : Array Nat) (index : Nat) : Option Ty := do
  let id ← vars[index]?
  let v ← m.program.vars[id]?
  return v.ty

/-- The type of the variable in a slot. -/
def slotType? (m : Machine) (s : Store) (frame index : Nat) : Option Ty := do
  let f ← s.frames[frame]?
  m.typeOf? (m.program.frameVars f.func) index

/-- The value that an instruction finds and pushes. -/
def shown? (m : Machine) (ctx : Nat) (t : Thread) : Instr → Option Value
  | .pushInt k n => k.map (.ofWord .int · n)
  | .pushConst index => m.program.consts[index]?
  | .loadVar scope index => do
    let frame ← t.world.store.frameAt? ctx scope
    t.world.store.load? (.slot frame index)
  | .addrVar scope index => do
    let frame ← t.world.store.frameAt? ctx scope
    let elem ← m.slotType? t.world.store frame index
    return .ptr 0 elem (.slot frame index)
  | .loadArg below => do
    let frame ← t.world.store.frames[ctx]?
    if below = 0 ∨ frame.base < below then none else t.stack[frame.base - below]?
  | .loadNativeVar addr => do
    let var ← m.natives.vars[addr]?
    t.world.store.load? var.cell
  | _ => none

/-- The value that an instruction puts in place of another one. -/
def turned? (t : Thread) : Instr → Value → Option Value
  | .addrOp (some _) (some .load), v => t.behind? v
  | .deref, v => t.behind? v
  | .field index, .struct _ _ fields => fields[index]?
  | .convert (some k), v => v.convert k
  | _, _ => none

/-- The value that an operator makes of two. -/
def joined? (k : Option Kind) (op : Option Operator) (x y : Value) : Option Value := do
  let k ← k
  let op ← op
  (op.eval k x y).toOption

end Machine

/-! ### Counts are not seen -/

section

variable {t u : Thread} {ops : List Value} {v w : Value}

theorem Store.root_of_frames {s s' : Store} (h : s'.frames = s.frames) (f : Nat) : s'.root f = s.root f := by
  induction f using Nat.strongRecOn with
  | ind f ih =>
    rw [root, root, h]
    split
    · split
      · exact ih _ ‹_›
      · rfl
    · rfl

theorem Store.ancestor?_of_frames {s s' : Store} (h : s'.frames = s.frames) (f n : Nat) :
    s'.ancestor? f n = s.ancestor? f n := by
  induction n generalizing f with
  | zero => rfl
  | succ n ih =>
    rw [ancestor?, ancestor?, h]
    congr 1
    funext q
    exact ih q

namespace Thread

variable {fresh steps : Nat}

theorem load?_recounted (p : Place) :
    (t.recounted fresh steps).world.store.load? p = t.world.store.load? p := by
  cases p <;> rfl

theorem store?_recounted (p : Place) :
    (t.recounted fresh steps).world.store.store? v p =
      (t.world.store.store? v p).map fun s => { s with fresh } := by
  cases p with
  | cell i =>
    by_cases hi : i < t.world.store.cells.size
    · simp [Store.store?, recounted, hi]
    · simp [Store.store?, recounted, hi]
  | slot f i =>
    simp only [Store.store?, recounted]
    cases t.world.store.frames[f]? with
    | none => rfl
    | some frame =>
      by_cases hi : i < frame.vars.size
      · simp [hi]
      · simp [hi]

theorem frameAt?_recounted (ctx : Nat) (scope : Scope) :
    (t.recounted fresh steps).world.store.frameAt? ctx scope = t.world.store.frameAt? ctx scope := by
  have hframes : (t.recounted fresh steps).world.store.frames = t.world.store.frames := rfl
  cases scope with
  | global => exact congrArg some (Store.root_of_frames hframes ctx)
  | up n => exact Store.ancestor?_of_frames hframes ctx n

/-! ### Operands -/

namespace Bears

variable {Q : Unit → Thread → Prop} {E : Stop RuntimeError → Thread → Prop}

theorem self (t : Thread) : t.Bears [] t := ⟨t.world.store.fresh, t.steps, [], .nil, Thread.holding_nil.symm⟩

theorem same (h : t.Bears [] u) : t.Same u := by
  obtain ⟨fresh, steps, vs, hvs, rfl⟩ := h
  cases hvs
  exact ⟨fresh, steps, holding_nil⟩

theorem tick (h : t.Bears ops u) (m : Machine) :
    m.tick.Ensures u (fun _ u' => t.Bears ops u') fun e _ => e.Limited := by
  obtain ⟨fresh, steps, vs, hvs, rfl⟩ := h
  refine (Machine.ensures_ticked _).imp fun _ u' hu' => ?_
  subst hu'
  exact ⟨fresh, steps + 1, vs, hvs, rfl⟩

theorem push (h : t.Bears ops u) (hw : v.Same w) :
    (Run.push w).Ensures u (fun _ u' => t.Bears (v :: ops) u') E := by
  obtain ⟨fresh, steps, vs, hvs, rfl⟩ := h
  unfold Task.Ensures
  rw [Run.exec_push_holding]
  exact ⟨fresh, steps, w :: vs, .cons hw hvs, rfl⟩

theorem pop (h : t.Bears (v :: ops) u) :
    Run.pop.Ensures u (fun w u' => v.Same w ∧ t.Bears ops u') E := by
  obtain ⟨fresh, steps, _, hvs, rfl⟩ := h
  cases hvs with
  | cons hw hvs =>
    unfold Task.Ensures
    rw [Run.exec_pop_holding]
    exact ⟨hw, fresh, steps, _, hvs, rfl⟩

theorem load (h : t.Bears ops u) (p : Place) :
    (Run.load p).Ensures u (fun w u' => t.world.store.load? p = some w ∧ t.Bears ops u')
      fun _ _ => t.world.store.load? p = none := by
  obtain ⟨fresh, steps, vs, hvs, rfl⟩ := h
  refine Run.ensures_onWorld.2 (Task.ensures_bind.2 (Task.ensures_get.2 ?_))
  rw [holding_world, load?_recounted]
  cases t.world.store.load? p with
  | some w => exact ⟨rfl, fresh, steps, vs, hvs, rfl⟩
  | none => cases p <;> rfl

theorem frameOf (h : t.Bears ops u) (ctx : Nat) (scope : Scope) :
    (Run.frameOf ctx scope).Ensures u
      (fun f u' => t.world.store.frameAt? ctx scope = some f ∧ t.Bears ops u')
      fun _ _ => t.world.store.frameAt? ctx scope = none := by
  have hu := h
  obtain ⟨fresh, steps, vs, hvs, rfl⟩ := hu
  have hframe : (t.recounted fresh steps).world.store.frameAt? ctx scope = _ := frameAt?_recounted ctx scope
  cases scope with
  | global =>
    refine Task.ensures_bind.2 (Task.ensures_get.2 ⟨?_, h⟩)
    exact hframe.symm
  | up n =>
    refine Task.ensures_bind.2 (Task.ensures_get.2 ?_)
    rw [← hframe, holding_world]
    unfold Store.frameAt?
    dsimp only
    cases (t.recounted fresh steps).world.store.ancestor? ctx n with
    | some f => exact ⟨rfl, h⟩
    | none => rfl

theorem varType {m : Machine} (h : t.Bears ops u) (frame index : Nat) :
    (m.varType frame index).Ensures u
      (fun ty u' => m.slotType? t.world.store frame index = some ty ∧ t.Bears ops u')
      fun _ _ => m.slotType? t.world.store frame index = none := by
  have hframes : u.world.store.frames = t.world.store.frames := by
    obtain ⟨fresh, steps, vs, -, rfl⟩ := h
    rfl
  have hvar (id : Nat) : (do return (← Task.ofChecked (m.program.var id)).ty : Run Ty).Ensures u
      (fun ty u' => ((m.program.vars[id]?).bind fun v => some v.ty) = some ty ∧ t.Bears ops u')
      fun _ _ => ((m.program.vars[id]?).bind fun v => some v.ty) = none := by
    unfold Program.var
    cases m.program.vars[id]? with
    | none => rfl
    | some v => exact ⟨rfl, h⟩
  unfold Machine.varType Machine.slotType?
  refine Task.ensures_bind.2 (Task.ensures_get.2 (Task.ensures_bind.2 (Task.ensures_expect.2 ?_)))
  rw [hframes]
  refine ⟨fun fr hfr => ?_, fun hnone => by rw [hnone]; rfl⟩
  rw [hfr]
  dsimp only [Option.bind_eq_bind, Option.bind_some]
  cases fr.func with
  | none =>
    rw [show m.program.frameVars none = m.program.mainVars from rfl]
    dsimp only
    rw [pure_bind, Machine.typeOf?]
    cases m.program.mainVars[index]? with
    | none => rfl
    | some id => exact hvar id
  | some id =>
    dsimp only
    unfold Program.func
    cases hinfo : m.program.funcs[id]? with
    | none =>
      have hvars : m.program.frameVars (some id) = #[] := by rw [Program.frameVars, hinfo]; rfl
      rw [hvars]
      rfl
    | some info =>
      have hvars : m.program.frameVars (some id) = info.vars := by rw [Program.frameVars, hinfo]; rfl
      refine Task.ensures_bind.2 ?_
      rw [hvars, Machine.typeOf?]
      dsimp only
      show Task.Ensures (pure info.vars >>= _) u _ _
      rw [pure_bind]
      cases info.vars[index]? with
      | none => rfl
      | some id => exact hvar id

theorem newPtr (h : t.Bears ops u) (id : Nat) (elem : Ty) (p : Place) :
    (Run.onWorld (HostTask.allocate (·.newPtr elem p))).Ensures u
      (fun w u' => (Value.ptr id elem p).Same w ∧ t.Bears ops u') E := by
  obtain ⟨fresh, steps, vs, hvs, rfl⟩ := h
  exact Run.ensures_onWorld.2 ⟨.ptr id fresh elem p, fresh + 1, steps, vs, hvs, rfl⟩

theorem behind (h : t.Bears ops u) (hw : v.Same w) :
    (do Run.push (← Run.load (← Run.pointee w)) : Run Unit).Ensures u
      (fun _ u' => ∃ x, t.behind? v = some x ∧ t.Bears (x :: ops) u')
      fun _ _ => t.behind? v = none := by
  have hptr (id : Nat) (elem : Ty) (p : Place) :
      (do Run.push (← Run.load p) : Run Unit).Ensures u
        (fun _ u' => ∃ x, t.behind? (.ptr id elem p) = some x ∧ t.Bears (x :: ops) u')
        fun _ _ => t.behind? (.ptr id elem p) = none := by
    refine (h.load p).bind fun x u' hx => ?_
    obtain ⟨hload, hu'⟩ := hx
    exact (hu'.push (.refl x)).imp fun _ _ hu'' => ⟨x, hload, hu''⟩
  cases hw with
  | ptr id id' elem p => exact hptr id elem p
  | refl =>
    refine Task.ensures_bind.2 ?_
    unfold Run.pointee
    split
    · exact hptr _ _ _
    · rfl
    · rename_i hptr _
      cases v with
      | ptr id elem p => exact absurd rfl (hptr id elem p)
      | _ => rfl

end Bears

end Thread

end

/-! ## Code that leaves one value -/

/-- The instruction pushes a value that it finds. -/
inductive Instr.Pushes : Instr → Prop
  | inline (k : Option Kind) (n : Int) : Pushes (.pushInt k n)
  | const (index : Nat) : Pushes (.pushConst index)
  | var (scope : Scope) (index : Nat) : Pushes (.loadVar scope index)
  | addr (scope : Scope) (index : Nat) : Pushes (.addrVar scope index)
  | arg (below : Nat) : Pushes (.loadArg below)
  | native (addr : Nat) : Pushes (.loadNativeVar addr)

/-- The instruction puts a value in place of the top one. -/
inductive Instr.Turns : Instr → Prop
  | load (k : Option Kind) : Turns (.addrOp k (some .load))
  | deref : Turns .deref
  | field (index : Nat) : Turns (.field index)
  | convert (k : Option Kind) : Turns (.convert k)

/-- Code in the shape of an expression that calls nothing. -/
inductive Glance : List Instr → Prop
  | push {i : Instr} (h : i.Pushes) : Glance [i]
  | turn {is : List Instr} {i : Instr} (h : Glance is) (hi : i.Turns) : Glance (is ++ [i])
  | join {is js : List Instr} (h : Glance is) (h' : Glance js) (k : Option Kind) (op : Option Operator) :
    Glance (is ++ js ++ [.builtinOp k op])

/-- The arguments of the function that runs in the frame lie on the stack. -/
def Thread.Seats (t : Thread) (ctx : Nat) : Prop :=
  ∀ frame, t.world.store.frames[ctx]? = some frame → frame.base ≤ t.stack.size

namespace Machine

variable {m : Machine} {call : Caller} {ctx : Nat} {t u : Thread} {ops : List Value} {v w : Value}
  {i : Instr} {is js : List Instr} {r r' : Option Value}

theorem ensures_push_shown {E : Stop RuntimeError → Thread → Prop} (hu : t.Bears ops u)
    (hv : m.shown? ctx t i = some v) (hw : v.Same w) : (Run.push w).Ensures u
      (fun _ u' => ∃ v, m.shown? ctx t i = some v ∧ t.Bears (v :: ops) u') E :=
  (hu.push hw).imp fun _ _ h => ⟨v, hv, h⟩

/-- An argument lies below what the thread has put on its stack since. -/
theorem ensures_shown_arg (ht : t.Seats ctx) (hu : t.Bears ops u) (below : Nat) :
    (m.perform call ctx (.loadArg below)).Ensures u
      (fun _ u' => ∃ v, m.shown? ctx t (.loadArg below) = some v ∧ t.Bears (v :: ops) u')
      fun _ _ => m.shown? ctx t (.loadArg below) = none := by
  have hu' := hu
  obtain ⟨fresh, steps, vs, -, rfl⟩ := hu'
  refine Task.ensures_bind.2 ?_
  unfold Run.argumentHeight
  refine Task.ensures_bind.2 (Task.ensures_get.2 (Task.ensures_bind.2 (Task.ensures_expect.2 ?_)))
  refine ⟨fun frame hframe => ?_, fun hnone => ?_⟩
  · have hframe : t.world.store.frames[ctx]? = some frame := hframe
    have hbase := ht frame hframe
    by_cases hbelow : below = 0 ∨ frame.base < below
    · rw [if_pos hbelow]
      simp only [shown?, hframe, Option.bind_eq_bind, Option.bind_some, if_pos hbelow]
      trivial
    · rw [if_neg hbelow]
      have hread : ((t.recounted fresh steps).holding vs).stack[frame.base - below]? =
          t.stack[frame.base - below]? := by
        have hlt : frame.base - below < t.stack.size := by omega
        simp only [Thread.holding, Thread.above]
        exact Array.getElem?_append_left hlt
      have hshown : m.shown? ctx t (.loadArg below) = t.stack[frame.base - below]? := by
        simp only [shown?, hframe, Option.bind_eq_bind, Option.bind_some, if_neg hbelow]
      refine Task.ensures_bind.2 (Task.ensures_get.2 ?_)
      unfold Stack.read?
      rw [hread]
      cases hv : t.stack[frame.base - below]? with
      | none => exact hshown.trans hv
      | some v => exact ensures_push_shown hu (hshown.trans hv) (.refl v)
  · have hnone : t.world.store.frames[ctx]? = none := hnone
    simp [shown?, hnone]

/-- An instruction that pushes finds the same wherever the thread has come to. -/
theorem ensures_shown (ht : t.Seats ctx) (hi : i.Pushes) (hu : t.Bears ops u) :
    (m.perform call ctx i).Ensures u
      (fun _ u' => ∃ v, m.shown? ctx t i = some v ∧ t.Bears (v :: ops) u')
      fun _ _ => m.shown? ctx t i = none := by
  cases hi with
  | inline k n =>
    cases k with
    | none => rfl
    | some k => exact ensures_push_shown hu rfl (.refl _)
  | const index =>
    unfold perform
    dsimp only
    split
    · exact ensures_push_shown hu ‹_› (.refl _)
    · assumption
  | var scope index =>
    refine Task.ensures_bind.2 ((hu.frameOf ctx scope).mono (fun f u₁ h₁ => ?_) fun _ _ hnone => ?_)
    · obtain ⟨hf, hu₁⟩ := h₁
      refine Task.ensures_bind.2 ((hu₁.load _).mono (fun w u₂ h₂ => ?_) fun _ _ hnone => ?_)
      · obtain ⟨hw, hu₂⟩ := h₂
        exact ensures_push_shown hu₂ (by simp [shown?, hf, hw]) (.refl w)
      · simp [shown?, hf, hnone]
    · simp [shown?, hnone]
  | addr scope index =>
    refine Task.ensures_bind.2 ((hu.frameOf ctx scope).mono (fun f u₁ h₁ => ?_) fun _ _ hnone => ?_)
    · obtain ⟨hf, hu₁⟩ := h₁
      refine Task.ensures_bind.2 ((hu₁.varType f index).mono (fun elem u₂ h₂ => ?_) fun _ _ hnone => ?_)
      · obtain ⟨helem, hu₂⟩ := h₂
        refine (hu₂.newPtr 0 elem (.slot f index)).bind fun w u₃ h₃ => ?_
        exact ensures_push_shown h₃.2 (by simp [shown?, hf, helem]) h₃.1
      · simp [shown?, hf, hnone]
    · simp [shown?, hnone]
  | arg below => exact ensures_shown_arg ht hu below
  | native addr =>
    unfold perform
    dsimp only
    split
    · rename_i var hvar
      refine Task.ensures_bind.2 ((hu.load _).mono (fun w u₁ h₁ => ?_) fun _ _ hnone => ?_)
      · exact ensures_push_shown h₁.2 (by simp [shown?, hvar, h₁.1]) (.refl w)
      · simp [shown?, hvar, hnone]
    · rename_i hvar
      simp [shown?, hvar, Run.defect, Run.fail]

/-- An instruction that turns the top value finds the same wherever the thread has come to. -/
theorem ensures_turned (hi : i.Turns) (hu : t.Bears (v :: ops) u) :
    (m.perform call ctx i).Ensures u
      (fun _ u' => ∃ w, turned? t i v = some w ∧ t.Bears (w :: ops) u')
      fun _ _ => turned? t i v = none := by
  cases hi with
  | load k =>
    cases k with
    | none => rfl
    | some k => exact hu.pop.bind fun w u₁ h₁ => h₁.2.behind h₁.1
  | deref => exact hu.pop.bind fun w u₁ h₁ => h₁.2.behind h₁.1
  | field index =>
    refine hu.pop.bind fun w u₁ h₁ => ?_
    obtain ⟨hw, hu₁⟩ := h₁
    cases hw with
    | ptr id id' elem p => rfl
    | refl =>
      split
      · rename_i id ty fields
        have hturned : turned? t (.field index) (.struct id ty fields) = fields[index]? := rfl
        split
        · exact (hu₁.push (.refl _)).imp fun _ _ hu₂ => ⟨_, hturned.trans ‹_›, hu₂⟩
        · exact hturned.trans ‹_›
      · rename_i hstruct
        cases v with
        | struct id ty fields => exact absurd rfl (hstruct id ty fields)
        | _ => rfl
  | convert k =>
    cases k with
    | none => rfl
    | some k =>
      refine hu.pop.bind fun w u₁ h₁ => ?_
      obtain ⟨hw, hu₁⟩ := h₁
      have hturned : turned? t (.convert (some k)) v = v.convert k := rfl
      unfold Run.convert
      obtain ⟨hv, hw⟩ | ⟨x, y, hv, hw, hxy⟩ := hw.convert k
      · rw [hw]
        exact hturned.trans hv
      · rw [hw]
        exact (hu₁.push hxy).imp fun _ _ hu₂ => ⟨x, hturned.trans hv, hu₂⟩

/-- An operator makes the same of two values. -/
theorem ensures_joined (k : Option Kind) (op : Option Operator) (hu : t.Bears (w :: v :: ops) u) :
    (m.perform call ctx (.builtinOp k op)).Ensures u
      (fun _ u' => ∃ x, joined? k op v w = some x ∧ t.Bears (x :: ops) u')
      fun _ _ => joined? k op v w = none := by
  cases k with
  | none => rfl
  | some k =>
  cases op with
  | none => rfl
  | some op =>
  refine hu.pop.bind fun w' u₁ h₁ => h₁.2.pop.bind fun v' u₂ h₂ => ?_
  have heval : (op.eval k v' w').toOption = (op.eval k v w).toOption := h₂.1.toOption_eval h₁.1 op k
  have hjoined : joined? (some k) (some op) v w = (op.eval k v w).toOption := rfl
  rw [hjoined, ← heval]
  unfold Run.evaluate
  cases op.eval k v' w' with
  | error e => rfl
  | ok x => exact (h₂.2.push (.refl x)).imp fun _ _ hu₃ => ⟨x, rfl, hu₃⟩

/-! ### Sequences -/

/-- Wherever the thread has come to with its counts and operands, the code leaves the value there; if there
is none it fails. Before that a limit may be exceeded. -/
def Sees (m : Machine) (call : Caller) (ctx : Nat) (t : Thread) (is : List Instr) (r : Option Value) : Prop :=
  ∀ ops u, t.Bears ops u → (m.follow call ctx is).Ensures u
    (fun _ u' => ∃ v, r = some v ∧ t.Bears (v :: ops) u') fun e _ => e.Limited ∨ r = none

/-- One instruction, for which a step is counted. -/
theorem ensures_follow_one {Q : Thread → Prop} {E : Stop RuntimeError → Thread → Prop} (hu : t.Bears ops u)
    (hlimited : ∀ e u', e.Limited → E e u')
    (h : ∀ u', t.Bears ops u' → (m.perform call ctx i).Ensures u' (fun _ => Q) E) :
    (m.follow call ctx [i]).Ensures u (fun _ => Q) E := by
  refine Task.ensures_bind.2 ((hu.tick m).mono (fun _ u' hu' => ?_) hlimited)
  exact (h u' hu').bind fun _ _ hQ => hQ

theorem Sees.push (ht : t.Seats ctx) (hi : i.Pushes) : m.Sees call ctx t [i] (m.shown? ctx t i) := by
  intro ops u hu
  refine ensures_follow_one hu (fun _ _ he => .inl he) fun u' hu' => ?_
  exact (ensures_shown ht hi hu').mono (fun _ _ h => h) fun _ _ hnone => .inr hnone

theorem Sees.turn (h : m.Sees call ctx t is r) (hi : i.Turns) :
    m.Sees call ctx t (is ++ [i]) (r.bind (turned? t i)) := by
  intro ops u hu
  rw [follow_append]
  refine Task.ensures_bind.2 ((h ops u hu).mono (fun _ u₁ h₁ => ?_) fun e _ he => ?_)
  · obtain ⟨v, rfl, hu₁⟩ := h₁
    refine ensures_follow_one hu₁ (fun _ _ he => .inl he) fun u' hu' => ?_
    exact (ensures_turned hi hu').mono (fun _ _ h => h) fun _ _ hnone => .inr hnone
  · exact he.imp_right fun hnone => by rw [hnone]; rfl

theorem Sees.join (h : m.Sees call ctx t is r) (h' : m.Sees call ctx t js r') (k : Option Kind)
    (op : Option Operator) : m.Sees call ctx t (is ++ js ++ [.builtinOp k op])
      (r.bind fun v => r'.bind fun w => joined? k op v w) := by
  intro ops u hu
  rw [List.append_assoc, follow_append]
  refine Task.ensures_bind.2 ((h ops u hu).mono (fun _ u₁ h₁ => ?_) fun e _ he => ?_)
  · obtain ⟨v, rfl, hu₁⟩ := h₁
    rw [follow_append]
    refine Task.ensures_bind.2 ((h' _ u₁ hu₁).mono (fun _ u₂ h₂ => ?_) fun e _ he => ?_)
    · obtain ⟨w, rfl, hu₂⟩ := h₂
      refine ensures_follow_one hu₂ (fun _ _ he => .inl he) fun u' hu' => ?_
      exact (ensures_joined k op hu').mono (fun _ _ h => h) fun _ _ hnone => .inr hnone
    · exact he.imp_right fun hnone => by rw [hnone]; rfl
  · exact he.imp_right fun hnone => by rw [hnone]; rfl

/-- Code that glances sees one value or none. -/
theorem sees_of_glance (m : Machine) (call : Caller) (ht : t.Seats ctx) (h : Glance is) :
    ∃ r, m.Sees call ctx t is r := by
  induction h with
  | push hi => exact ⟨_, .push ht hi⟩
  | turn _ hi ih =>
    obtain ⟨r, hr⟩ := ih
    exact ⟨_, hr.turn hi⟩
  | join _ _ k op ih ih' =>
    obtain ⟨r, hr⟩ := ih
    obtain ⟨r', hr'⟩ := ih'
    exact ⟨_, hr.join hr' k op⟩

end Machine

end StackScript
