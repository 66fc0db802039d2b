import StackScript.Proofs.Running.Alike

/-!
# The same code on another stack

Two threads run the same code, the second one above further values and at another depth
(`Thread.Beside`). Step by step they stay beside each other, unless the first one finds too little on
its stack or the second one too much (`Run.Ends`): what lies below is neither read nor changed.
-/

namespace StackScript

/-! ## Stacks -/

section

variable {α : Type} (xs ys : Array α)

/-- A part of what lies above. -/
theorem extract_above (i j : Nat) :
    (xs ++ ys).extract (xs.size + i) (xs.size + j) = ys.extract i j := by
  simp [Array.extract_append]

/-- What lies below stays where what lies above is cut. -/
theorem cut_above (i : Nat) : (xs ++ ys).extract 0 (xs.size + i) = xs ++ ys.extract 0 i := by
  simp only [Array.extract_append, Nat.zero_sub, Nat.add_sub_cancel_left]
  rw [Array.extract_eq_self_of_le (Nat.le_add_right ..)]

end

/-! ## Threads -/

/-- How the second of two threads differs from the first: by the values below, and by the depth,
which is `depth` for the first and `depth'` for the second. Neither may hold more than `most`
values. -/
structure Shift where
  below : Stack
  depth : Nat
  depth' : Nat
  most : Nat

structure Thread.Beside (x : Shift) (pins : List Pin) (t t' : Thread) : Prop where
  world : t.world.Alike pins t'.world
  stack : t'.stack = x.below ++ t.stack
  depth : t.depth = x.depth
  depth' : t'.depth = x.depth'

/-- Too few values on the stack. -/
def Stop.IsUnderflow : Stop RuntimeError → Prop
  | .error e => e.errorClass = .stackUnderflow
  | .fault _ => False

/-- Too many values on the stack. -/
def Stop.IsCrowded (most : Nat) : Stop RuntimeError → Prop
  | .error e => e.cause = .stackLimit most
  | .fault _ => False

namespace Run

variable {α α' β β' : Type}

/-- Both give results, of `Q`, and threads beside each other, or both stop alike; or else there is
something below, and the first stops for want of values or the second for want of room. -/
inductive Ends (x : Shift) (pins : List Pin) (Q : α → α' → Prop) :
    Except (Stop RuntimeError) α × Thread → Except (Stop RuntimeError) α' × Thread → Prop
  | ok {a : α} {a' : α'} {u u' : Thread} (hu : u.Beside x pins u') (h : Q a a') :
    Ends x pins Q (.ok a, u) (.ok a', u')
  | stop {e e' : Stop RuntimeError} {u u' : Thread} (he : e.Alike e')
    (hu : u.world.Alike pins u'.world) : Ends x pins Q (.error e, u) (.error e', u')
  | starves {e : Stop RuntimeError} {u : Thread} {r' : Except (Stop RuntimeError) α' × Thread}
    (hbelow : x.below ≠ #[]) (he : e.IsUnderflow) : Ends x pins Q (.error e, u) r'
  | crowds {r : Except (Stop RuntimeError) α × Thread} {e' : Stop RuntimeError} {u' : Thread}
    (hbelow : x.below ≠ #[]) (he' : e'.IsCrowded x.most) : Ends x pins Q r (.error e', u')

/-- Run from the threads, the tasks end beside each other. -/
def Beside (x : Shift) (pins : List Pin) (t : Run α) (t' : Run α') (s s' : Thread)
    (Q : α → α' → Prop) : Prop :=
  Ends x pins Q (t.exec s) (t'.exec s')

/-- And they give the same results. -/
abbrev Agree (x : Shift) (pins : List Pin) (t t' : Run α) (s s' : Thread) : Prop :=
  Beside x pins t t' s s' fun a a' => a' = a

variable {x : Shift} {pins : List Pin} {t : Run α} {t' : Run α'} {s s' : Thread} {Q : α → α' → Prop}

namespace Beside

/-! ### Rules -/

theorem imp (h : Beside x pins t t' s s' Q) {R : α → α' → Prop} (hQ : ∀ a a', Q a a' → R a a') :
    Beside x pins t t' s s' R := by
  unfold Beside at h ⊢
  generalize t.exec s = r, t'.exec s' = r' at h
  cases h with
  | ok hu h => exact .ok hu (hQ _ _ h)
  | stop he hu => exact .stop he hu
  | starves hbelow he => exact .starves hbelow he
  | crowds hbelow he => exact .crowds hbelow he

theorem bind {f : α → Run β} {f' : α' → Run β'} {R : β → β' → Prop}
    (h : Beside x pins t t' s s' Q)
    (hf : ∀ a a' u u', u.Beside x pins u' → Q a a' → Beside x pins (f a) (f' a') u u' R) :
    Beside x pins (t >>= f) (t' >>= f') s s' R := by
  unfold Beside at h ⊢
  rw [Task.exec_bind, Task.exec_bind]
  generalize t.exec s = r, t'.exec s' = r' at h
  cases h with
  | ok hu h => exact hf _ _ _ _ hu h
  | stop he hu => exact .stop he hu
  | starves hbelow he => exact .starves hbelow he
  | crowds hbelow he => exact .crowds hbelow he

/-- What follows the same result. -/
theorem andThen {t t' : Run α} {f f' : α → Run β} {R : β → β → Prop} (h : Agree x pins t t' s s')
    (hf : ∀ a u u', u.Beside x pins u' → Beside x pins (f a) (f' a) u u' R) :
    Beside x pins (t >>= f) (t' >>= f') s s' R :=
  h.bind fun a a' u u' hu ha => by
    subst ha
    exact hf a' u u' hu

theorem pure {a : α} {a' : α'} (hs : s.Beside x pins s') (h : Q a a') :
    Beside x pins (pure a) (pure a') s s' Q := .ok hs h

theorem fail (hs : s.Beside x pins s') (c : Cause) :
    Beside x pins (Run.fail c) (Run.fail c) s s' Q := .stop (.refl _) hs.world

/-- What would follow a failure is not run. -/
theorem failBind (hs : s.Beside x pins s') {c : Cause} {f : α → Run β} {f' : α' → Run β'}
    {R : β → β' → Prop} : Beside x pins (Run.fail c >>= f) (Run.fail c >>= f') s s' R :=
  .stop (.refl _) hs.world

theorem defect (hs : s.Beside x pins s') (d : Defect) :
    Beside x pins (Run.defect d) (Run.defect d) s s' Q := fail hs _

theorem get {f f' : Thread → Run β} {R : β → β → Prop} (h : Beside x pins (f s) (f' s') s s' R) :
    Beside x pins (MonadState.get >>= f) (MonadState.get >>= f') s s' R := h

theorem ofExcept (hs : s.Beside x pins s') (r : Except Cause α) :
    Agree x pins (Run.ofExcept r) (Run.ofExcept r) s s' := by
  cases r with
  | ok a => exact pure hs rfl
  | error c => exact fail hs c

theorem ofChecked (hs : s.Beside x pins s') (r : Except Fault α) :
    Agree x pins (Task.ofChecked r) (Task.ofChecked r) s s' := by
  cases r with
  | ok a => exact pure hs rfl
  | error f => exact .stop (.refl _) hs.world

theorem expect (hs : s.Beside x pins s') (r : Option α) :
    Agree x pins (Task.expect r) (Task.expect r) s s' := by
  cases r with
  | some a => exact pure hs rfl
  | none => exact .stop (.refl _) hs.world

theorem expectBind {r : Option α} (hs : s.Beside x pins s') {f f' : α → Run β} {R : β → β → Prop}
    (hf : ∀ a, r = some a → Beside x pins (f a) (f' a) s s' R) :
    Beside x pins (Task.expect r >>= f) (Task.expect r >>= f') s s' R := by
  cases r with
  | some a => exact hf a rfl
  | none => exact .stop (.refl _) hs.world

theorem checkedBind {r : Except Fault α} (hs : s.Beside x pins s') {f f' : α → Run β}
    {R : β → β → Prop} (hf : ∀ a, r = .ok a → Beside x pins (f a) (f' a) s s' R) :
    Beside x pins (Task.ofChecked r >>= f) (Task.ofChecked r >>= f') s s' R := by
  cases r with
  | ok a => exact hf a rfl
  | error e => exact .stop (.refl _) hs.world

/-- What the host side does on worlds that are alike. -/
theorem onWorld {t : HostTask α} {t' : HostTask α'} (hs : s.Beside x pins s')
    (h : t.Matches t' s.world s'.world (fun a u a' u' => u.Alike pins u' ∧ Q a a')
      fun e u e' u' => e.Alike e' ∧ u.Alike pins u') :
    Beside x pins (Run.onWorld t) (Run.onWorld t') s s' Q := by
  have hrun {γ : Type} (t : HostTask γ) (s : Thread) : (Run.onWorld t).exec s =
      ((t.exec s.world).1, ⟨(t.exec s.world).2, s.stack, s.steps, s.depth⟩) := rfl
  unfold Task.Matches at h
  unfold Beside
  rw [hrun, hrun]
  generalize t.exec s.world = r, t'.exec s'.world = r' at h
  obtain ⟨e | a, w⟩ := r <;> obtain ⟨e' | a', w'⟩ := r'
  · exact .stop h.1 h.2
  · exact h.elim
  · exact h.elim
  · exact .ok ⟨h.1, hs.stack, hs.depth, hs.depth'⟩ h.2

theorem within {t t' : Run α} {Q : α → α → Prop} (h : Beside x pins t t' s s' Q) (name : String) :
    Beside x pins (t.within name) (t'.within name) s s' Q := by
  unfold Beside at h ⊢
  unfold Run.within
  rw [Task.exec_mapError, Task.exec_mapError]
  generalize t.exec s = r, t'.exec s' = r' at h
  cases h with
  | ok hu h => exact .ok hu h
  | stop he hu =>
    cases he with
    | error he => exact .stop (.error ⟨he.cause, congrArg (· ++ [name]) he.trace⟩) hu
    | fault f => exact .stop (.fault f) hu
  | @starves e _ _ hbelow he =>
    cases e with
    | error e => exact .starves hbelow he
    | fault f => exact he.elim
  | @crowds _ e' _ hbelow he =>
    cases e' with
    | error e => exact .crowds hbelow he
    | fault f => exact he.elim

/-- Pins that are no longer needed. -/
theorem unpin {p : Pin} (h : Beside x (p :: pins) t t' s s' Q) : Beside x pins t t' s s' Q := by
  have hsub : pins ⊆ p :: pins := List.subset_cons_self p pins
  unfold Beside at h ⊢
  generalize t.exec s = r, t'.exec s' = r' at h
  cases h with
  | ok hu h => exact .ok ⟨hu.world.mono hsub, hu.stack, hu.depth, hu.depth'⟩ h
  | stop he hu => exact .stop he (hu.mono hsub)
  | starves hbelow he => exact .starves hbelow he
  | crowds hbelow he => exact .crowds hbelow he

/-! ### The stack -/

theorem setStack {st st' : Stack} (hs : s.Beside x pins s') (hst : st' = x.below ++ st) :
    Agree x pins (Run.setStack st) (Run.setStack st') s s' :=
  .ok ⟨hs.world, hst, hs.depth, hs.depth'⟩ rfl

theorem push (hs : s.Beside x pins s') (v : Value) :
    Agree x pins (Run.push v) (Run.push v) s s' := by
  refine .ok ⟨hs.world, ?_, hs.depth, hs.depth'⟩ rfl
  show s'.stack.push v = x.below ++ s.stack.push v
  rw [hs.stack, Array.append_push]

theorem pushAll (hs : s.Beside x pins s') (vs : List Value) :
    Agree x pins (Run.pushAll vs) (Run.pushAll vs) s s' := by
  refine .ok ⟨hs.world, ?_, hs.depth, hs.depth'⟩ rfl
  show s'.stack ++ vs = x.below ++ (s.stack ++ vs)
  rw [hs.stack]
  exact Array.ext' (by simp)

/-- What is done to a stack above others is done alike, or there are too few values above. -/
theorem onStack (f : Stack → Except Cause (α × Stack)) (hs : s.Beside x pins s')
    (hf : (∃ use, f s.stack = .error (.underflow use)) ∨
      f (x.below ++ s.stack) = (f s.stack).map fun r => (r.1, x.below ++ r.2)) :
    Agree x pins (do let r ← Run.ofExcept (f s.stack); Run.setStack r.2; return r.1)
      (do let r ← Run.ofExcept (f s'.stack); Run.setStack r.2; return r.1) s s' := by
  rw [hs.stack]
  by_cases hbelow : x.below = #[]
  · rw [hbelow, Array.empty_append]
    refine (ofExcept hs _).andThen fun r u u' hu => (setStack hu ?_).andThen
      fun _ _ _ hu => pure hu rfl
    rw [hbelow, Array.empty_append]
  · obtain ⟨use, huse⟩ | hf := hf
    · rw [huse]
      exact .starves hbelow rfl
    · rw [hf]
      cases f s.stack with
      | error c => exact failBind hs
      | ok r => exact .ok ⟨hs.world, rfl, hs.depth, hs.depth'⟩ rfl

theorem pop (hs : s.Beside x pins s') : Agree x pins Run.pop Run.pop s s' := by
  refine get (onStack Stack.pop? hs ?_)
  unfold Stack.pop?
  cases hback : s.stack.back? with
  | none => exact .inl ⟨_, rfl⟩
  | some v =>
    refine .inr ?_
    have hne : s.stack ≠ #[] := by
      rintro heq
      rw [heq] at hback
      cases hback
    rw [Array.back?_append, hback, Option.some_or, Array.pop_append]
    rw [if_neg (by simpa using hne)]
    rfl

theorem size_stack (hs : s.Beside x pins s') : s'.stack.size = x.below.size + s.stack.size := by
  rw [hs.stack, Array.size_append]

theorem popMany (hs : s.Beside x pins s') (n : Nat) :
    Agree x pins (Run.popMany n) (Run.popMany n) s s' := by
  refine get (onStack (Stack.popMany? · n) hs ?_)
  unfold Stack.popMany?
  split
  · exact .inl ⟨_, rfl⟩
  · refine .inr ?_
    rw [if_neg (by rw [Array.size_append]; omega), Array.size_append,
      Nat.add_sub_assoc (by omega), extract_above, cut_above]
    rfl

theorem drop (hs : s.Beside x pins s') (n : Nat) :
    Agree x pins (Run.drop n) (Run.drop n) s s' := by
  refine get ?_
  dsimp only
  rw [size_stack hs]
  by_cases hn : s.stack.size < n
  · rw [if_pos hn]
    by_cases hbelow : x.below = #[]
    · rw [if_pos (by rw [hbelow]; simpa using hn)]
      exact fail hs _
    · exact .starves hbelow rfl
  · rw [if_neg hn, if_neg (by omega), Nat.add_sub_assoc (by omega)]
    refine setStack hs ?_
    unfold Stack.cut
    rw [hs.stack, cut_above]

/-! ### Frames and places -/

theorem frameOf (hs : s.Beside x pins s') (ctx : Nat) (scope : Scope) :
    Agree x pins (Run.frameOf ctx scope) (Run.frameOf ctx scope) s s' := by
  cases scope with
  | global => exact get (pure hs (hs.world.store.root ctx))
  | up n =>
    refine get ?_
    rw [hs.world.store.ancestor n ctx]
    split
    · exact pure hs rfl
    · exact defect hs _

theorem load (hs : s.Beside x pins s') (p : Place) :
    Agree x pins (Run.load p) (Run.load p) s s' := by
  refine onWorld hs ?_
  have hload := hs.world.store.load p
  unfold HostTask.load Task.Matches
  rw [Task.exec_bind, Task.exec_bind, Task.exec_get, Task.exec_get]
  dsimp only
  rw [hload]
  cases s.world.store.load? p with
  | some v => exact ⟨hs.world, rfl⟩
  | none => cases p <;> exact ⟨.refl _, hs.world⟩

theorem store (hs : s.Beside x pins s') (p : Place) (v : Value) :
    Agree x pins (Run.store p v) (Run.store p v) s s' := by
  refine onWorld hs ?_
  unfold HostTask.store Task.Matches
  rw [Task.exec_bind, Task.exec_bind, Task.exec_get, Task.exec_get]
  dsimp only
  obtain ⟨hnone, hnone'⟩ | ⟨u, u', hu, hu', halike⟩ := hs.world.store.store v p
  · rw [hnone, hnone']
    cases p <;> exact ⟨.refl _, hs.world⟩
  · rw [hu, hu']
    exact ⟨⟨halike, hs.world.output⟩, rfl⟩

theorem pointee (hs : s.Beside x pins s') (v : Value) :
    Agree x pins (Run.pointee v) (Run.pointee v) s s' := by
  unfold Run.pointee
  split
  · exact pure hs rfl
  · exact fail hs _
  · exact fail hs _

/-- Something new under the next number. -/
theorem allocate (hs : s.Beside x pins s') (make : Nat → α) {t t' : Store → α × Store}
    (ht : ∀ st : Store, t st = (make st.fresh, st.number.2)) (ht' : t' = t) :
    Agree x pins (Run.onWorld (HostTask.allocate t)) (Run.onWorld (HostTask.allocate t')) s s' := by
  subst ht'
  refine onWorld hs ?_
  have hrun (w : World) : (HostTask.allocate t').exec w =
      (.ok (make w.store.fresh), { w with store := w.store.number.2 }) := by
    show (Except.ok (t' w.store).1, { w with store := (t' w.store).2 }) = _
    rw [ht]
  unfold Task.Matches
  rw [hrun, hrun]
  exact ⟨⟨hs.world.store.numbered, hs.world.output⟩, congrArg make hs.world.store.fresh⟩

/-! ### Operators -/

theorem evaluate (hs : s.Beside x pins s') (op : Operator) (k : Kind) (v w : Value) :
    Agree x pins (Run.evaluate op k v w) (Run.evaluate op k v w) s s' := ofExcept hs _

theorem convert (hs : s.Beside x pins s') (v : Value) (k : Kind) :
    Agree x pins (Run.convert v k) (Run.convert v k) s s' := by
  unfold Run.convert
  split
  · exact pure hs rfl
  · exact fail hs _

theorem updatePlace (hs : s.Beside x pins s') (op : Operator) (k : Kind) (p : Place) (v : Value) :
    Agree x pins (Run.updatePlace op k p v) (Run.updatePlace op k p v) s s' :=
  (load hs p).andThen fun _ _ _ hu => (evaluate hu ..).andThen fun _ _ _ hu => store hu ..

theorem applyAddress (hs : s.Beside x pins s') (k : Kind) (op : AddressOperator) (p : Place) :
    Agree x pins (Run.applyAddress k op p) (Run.applyAddress k op p) s s' := by
  cases op with
  | load => exact (load hs p).andThen fun _ _ _ hu => push hu _
  | store => exact (pop hs).andThen fun _ _ _ hu => store hu ..
  | increment => exact (convert hs ..).andThen fun _ _ _ hu => updatePlace hu ..
  | decrement => exact (convert hs ..).andThen fun _ _ _ hu => updatePlace hu ..
  | update op => exact (pop hs).andThen fun _ _ _ hu => updatePlace hu ..

/-! ### Arguments -/

theorem readArity (hs : s.Beside x pins s') (field : ArityField) :
    Agree x pins (Run.readArity field) (Run.readArity field) s s' := by
  cases field with
  | spread => exact pure hs rfl
  | count n => exact pure hs rfl
  | overflow =>
    refine (pop hs).andThen fun v u u' hu => ?_
    split
    · split
      · exact fail hu _
      · exact pure hu rfl
    · exact fail hu _

theorem lastParam (hs : s.Beside x pins s') (params : List Ty) (numIn : Nat) (callee : String) :
    Agree x pins (Run.lastParam params numIn callee) (Run.lastParam params numIn callee) s s' := by
  unfold Run.lastParam
  split
  · exact defect hs _
  · split
    · exact pure hs rfl
    · exact defect hs _

theorem newSlice (hs : s.Beside x pins s') (elem : Ty) (items : List Value) :
    Agree x pins (Run.onWorld (HostTask.newSlice elem items))
      (Run.onWorld (HostTask.newSlice elem items)) s s' :=
  allocate hs (.slice · elem items) (fun _ => rfl) rfl

theorem newPtr (hs : s.Beside x pins s') (elem : Ty) (p : Place) :
    Agree x pins (Run.onWorld (HostTask.allocate (·.newPtr elem p)))
      (Run.onWorld (HostTask.allocate (·.newPtr elem p))) s s' :=
  allocate hs (.ptr · elem p) (fun _ => rfl) rfl

theorem pack (hs : s.Beside x pins s') (last : Ty) (fixed : Nat) (callee : String) (arity : Arity) :
    Agree x pins (Run.pack last fixed callee arity) (Run.pack last fixed callee arity) s s' := by
  unfold Run.pack
  dsimp only
  cases arity with
  | spread =>
    refine (pop hs).andThen fun v u u' hu => ?_
    split
    · exact (newSlice hu ..).andThen fun _ _ _ hu => push hu _
    · exact push hu _
    · exact fail hu _
  | count n =>
    dsimp only
    split
    · exact failBind hs
    · refine (popMany hs _).andThen fun items u u' hu => ?_
      split
      · exact fail hu _
      · exact (newSlice hu ..).andThen fun _ _ _ hu => push hu _

theorem checkCount (hs : s.Beside x pins s') (callee : String) (numIn : Nat) (arity : Arity) :
    Agree x pins (Run.checkCount callee numIn arity) (Run.checkCount callee numIn arity) s s' := by
  unfold Run.checkCount
  split
  · split
    · exact pure hs rfl
    · exact fail hs _
  · exact fail hs _

theorem takeArgs (hs : s.Beside x pins s') (sig : Signature) (callee : String) (arity : Arity) :
    Agree x pins (Run.takeArgs sig callee arity) (Run.takeArgs sig callee arity) s s' := by
  unfold Run.takeArgs
  split
  · exact (lastParam hs ..).andThen fun _ _ _ hu => (pack hu ..).andThen fun _ _ _ hu =>
      popMany hu _
  · exact (checkCount hs ..).andThen fun _ _ _ hu => popMany hu _

/-! ### Arguments of the running function -/

/-- The running function was entered above all that lies below, and above its own arguments. -/
structure Entered (x : Shift) (p : Pin) (ctx numIn : Nat) : Prop where
  frame : p.frame = ctx
  height : p.height' = x.below.size + p.height
  args : numIn ≤ p.height

theorem argumentHeight {p : Pin} {ctx numIn below : Nat} (hs : s.Beside x pins s') (hp : p ∈ pins)
    (hentered : Entered x p ctx numIn) (hpos : 0 < below) (hle : below ≤ numIn) :
    Beside x pins (Run.argumentHeight ctx below) (Run.argumentHeight ctx below) s s'
      fun h h' => h' = x.below.size + h := by
  obtain ⟨f, f', hf, hf', hbase, hbase', -⟩ := hs.world.store.pinned p hp
  rw [hentered.frame] at hf hf'
  have hargs := hentered.args
  have hheight := hentered.height
  unfold Run.argumentHeight
  refine get ?_
  rw [hf, hf']
  show Beside x pins (if _ then _ else _) (if _ then _ else _) s s' _
  rw [if_neg (by omega), if_neg (by omega)]
  exact pure hs (by omega)

theorem loadArg {p : Pin} {ctx numIn below : Nat} (hs : s.Beside x pins s') (hp : p ∈ pins)
    (hentered : Entered x p ctx numIn) (hpos : 0 < below) (hle : below ≤ numIn) :
    Agree x pins (do
        let h ← Run.argumentHeight ctx below
        Run.push (← Run.ofExcept ((← MonadState.get).stack.read? h)))
      (do
        let h ← Run.argumentHeight ctx below
        Run.push (← Run.ofExcept ((← MonadState.get).stack.read? h))) s s' := by
  refine (argumentHeight hs hp hentered hpos hle).bind fun h h' u u' hu hh => get ?_
  have hread : u'.stack[h']? = u.stack[h]? := by
    rw [hu.stack, hh, Array.getElem?_append_right (Nat.le_add_right ..), Nat.add_sub_cancel_left]
  unfold Stack.read?
  rw [hread]
  cases u.stack[h]? with
  | some v => exact push hu v
  | none =>
    by_cases hbelow : x.below = #[]
    · rw [hh, hbelow, Array.size_empty, Nat.zero_add]
      exact failBind hu
    · exact .starves hbelow rfl

theorem storeArg {p : Pin} {ctx numIn below : Nat} (hs : s.Beside x pins s') (hp : p ∈ pins)
    (hentered : Entered x p ctx numIn) (hpos : 0 < below) (hle : below ≤ numIn) :
    Agree x pins (do
        let h ← Run.argumentHeight ctx below
        let v ← Run.pop
        Run.setStack (← Run.ofExcept ((← MonadState.get).stack.write? h v)))
      (do
        let h ← Run.argumentHeight ctx below
        let v ← Run.pop
        Run.setStack (← Run.ofExcept ((← MonadState.get).stack.write? h v))) s s' := by
  refine (argumentHeight hs hp hentered hpos hle).bind fun h h' u u' hu hh => ?_
  refine (pop hu).andThen fun v w w' hw => get ?_
  unfold Stack.write?
  rw [size_stack hw]
  by_cases hlt : h < w.stack.size
  · rw [if_pos hlt, if_pos (by omega)]
    refine setStack hw ?_
    rw [hw.stack, hh, Array.setIfInBounds_append_right (Nat.le_add_right ..),
      Nat.add_sub_cancel_left]
  · rw [if_neg hlt, if_neg (by omega)]
    by_cases hbelow : x.below = #[]
    · rw [hh, hbelow, Array.size_empty, Nat.zero_add]
      exact failBind hw
    · exact .starves hbelow rfl

end Beside

end Run

end StackScript
