import StackScript.Proofs.Translation.Emitting

/-!
# Constants, slots and coercions

What an entry of the shadow stack promises of a finished program (`Inferred.Shows`), and the steps
that bring the top entry to a kind or a type. Each of them fills the slot of an open constant once
and leaves an entry without a slot.
-/

namespace StackScript

open CompileState

/-! ## Entries and values -/

/-- What an entry says of the value that lies on the stack of the finished program. -/
inductive Inferred.Shows (o : Output) : Inferred → Pushed → Prop
  | slot {c : Constant} {offset : Nat} {i : Instr} {v : Value}
    (hi : o.program.instr? offset = some i) (hpush : i.pushed? o.program.consts = some v)
    (hc : c.Yields v) : Shows o (.const c (.reserved offset)) (.const c v)
  | emitted {u v : Value} (h : (Constant.bound u).Yields v) :
    Shows o (.const (.bound u) .emitted) (.const (.bound u) v)
  | value (t : Ty) : Shows o (.value t) (.value t)
  | results (ts : List Ty) : Shows o (.results ts) (.results ts)
  | package (path name : String) : Shows o (.package path name) (.package path name)

/-- The entry that code leaves, for what the look-ahead has found. -/
inductive Inferred.Agrees : Inferred → Inferred → Prop
  | slot {c : Constant} {offset : Nat} (h : c.operandKind.isBound = false) :
    Agrees (.const c .pending) (.const c (.reserved offset))
  | emitted {v : Value} (h : v.IsScalar) :
    Agrees (.const (.bound v) .pending) (.const (.bound v) .emitted)
  | value (t : Ty) : Agrees (.value t) (.value t)
  | results (ts : List Ty) : Agrees (.results ts) (.results ts)
  | func (f : FuncRef) (sig : Signature) : Agrees (.func f sig) (.value (.func sig))
  | package (path name : String) : Agrees (.package path name) (.package path name)

theorem Inferred.Agrees.lies {i e : Inferred} (h : i.Agrees e) : e.Lies := by
  cases h with
  | slot h => exact .slot h
  | emitted h => exact .emitted h
  | value t => exact .value t
  | results ts => exact .results ts
  | func f sig => exact .value _
  | package path name => exact .package path name

theorem Inferred.Agrees.operandKind? {i e : Inferred} (h : i.Agrees e) :
    e.operandKind? = i.operandKind? := by
  cases h <;> rfl

theorem Inferred.Shows.operandKind? {o : Output} {e : Inferred} {p : Pushed} (h : e.Shows o p) :
    p.operandKind? = e.operandKind? := by
  cases h <;> rfl

/-! ## Kinds of constants -/

namespace Constant

theorem kind_of_bindInt {n : Int} {k : Kind} {s : Scalar} (h : bindInt n k = .ok s) :
    s.kind = k := by
  unfold bindInt at h
  split at h
  · split at h
    · cases h
      rfl
    · cases h
  all_goals cases h
  all_goals rfl

theorem kind_of_bindFloat {x : Binary .double} {k : Kind} {s : Scalar}
    (h : bindFloat x k = .ok s) : s.kind = k := by
  unfold bindFloat at h
  split at h
  · split at h
    · exact kind_of_bindInt h
    · cases h
  all_goals cases h
  all_goals rfl

theorem kind_of_bindComplex {z : Complex .double} {k : Kind} {s : Scalar}
    (h : bindComplex z k = .ok s) : s.kind = k := by
  unfold bindComplex at h
  split at h
  · cases h
    rfl
  · split at h
    · exact kind_of_bindFloat h
    · cases h

/-- A constant takes on the kind it is bound to. -/
theorem kind_of_bind {c : Constant} {k : Kind} {v : Value} (h : c.bind k = .ok v) : v.kind = k := by
  unfold bind at h
  split at h
  · split at h
    · cases h
      assumption
    · cases h
  · obtain ⟨s, hs, rfl⟩ := map_eq_ok h
    exact kind_of_bindInt hs
  · obtain ⟨s, hs, rfl⟩ := map_eq_ok h
    exact kind_of_bindFloat hs
  · obtain ⟨s, hs, rfl⟩ := map_eq_ok h
    exact kind_of_bindComplex hs

theorem Yields.of_bind {c : Constant} {k : Kind} {v u : Value} (h : c.bind k = .ok v)
    (hu : v.Alike u) : c.Yields u := by
  have hk : u.kind = k := hu.1.trans (kind_of_bind h)
  exact ⟨v, hk ▸ h, hu⟩

theorem Yields.bound {v u : Value} (hu : v.Alike u) : (Constant.bound v).Yields u :=
  ⟨v, by rw [Constant.bind, if_pos hu.1.symm], hu⟩

theorem Yields.kind_eq {u v : Value} (h : (Constant.bound u).Yields v) : v.kind = u.kind := by
  obtain ⟨w, hw, halike⟩ := h
  unfold Constant.bind at hw
  simp only at hw
  split at hw
  · cases hw
    exact halike.1
  · cases hw

end Constant

variable {L : Layout} {s s' : CompileState}

/-! ## Filling a slot -/

section Fill

variable {c : Constant} {offset : Nat} {rest : Shadow} {w : Word} {i : Instr} {v : Value}
  {consts : Array Value} {e : Inferred}

/-- The state after the slot of the top entry was filled. -/
def CompileState.filled (s : CompileState) (offset : Nat) (w : Word) (consts : Array Value)
    (shadow : Shadow) : CompileState := (s.withFilled offset w consts).withShadow shadow

theorem sameDecls_filled {shadow : Shadow} : SameDecls s (s.filled offset w consts shadow) :=
  ⟨rfl, rfl, rfl, rfl, rfl, rfl, rfl, rfl⟩

theorem reserved_of_slot (ht : s.Tidy) (hs : s.shadow = .const c (.reserved offset) :: rest) :
    s.asm.reserved = offset :: rest.filterMap Inferred.slot? := by
  rw [ht.reserved, hs]
  rfl

/-- A slot is kept for an open constant. -/
theorem simple_of_slot (ht : s.Tidy) (hs : s.shadow = .const c (.reserved offset) :: rest) :
    c.Simple := by
  cases ht.entries _ (by rw [hs]; exact List.mem_cons_self ..) with
  | slot hopen => exact .of_isBound hopen

theorem getElem?_filled {shadow : Shadow} {offset' : Nat} (h : offset' ≠ offset) :
    (s.filled offset w consts shadow).asm.code[offset']? = s.asm.code[offset']? := by
  show (s.asm.code.setIfInBounds offset w)[offset']? = _
  rw [Array.getElem?_setIfInBounds_ne (Ne.symm h)]

theorem filled_slot (ht : s.Tidy) (hs : s.shadow = .const c (.reserved offset) :: rest)
    (hw : w.decode? = some i) (hpush : i.pushed? consts = some v) (hc : c.Yields v) :
    (s.filled offset w consts (e :: rest)).asm.Filled offset c where
  free hr := by
    have hnodup := ht.slot_nodup
    exact (List.Nodup.not_mem_erase hnodup) hr
  noRef id hr := by
    refine ht.ref_free (offset, id) hr ?_
    rw [reserved_of_slot ht hs]
    exact List.mem_cons_self ..
  word := by
    refine ⟨w, i, v, ?_, hw, hpush, hc⟩
    show (s.asm.code.setIfInBounds offset w)[offset]? = some w
    rw [Array.getElem?_setIfInBounds_self]
    have hlt := ht.slot_lt offset (by rw [reserved_of_slot ht hs]; exact List.mem_cons_self ..)
    simp [hlt]

theorem grows_filled (ht : s.Tidy) (hs : s.shadow = .const c (.reserved offset) :: rest)
    (hw : w.decode? = some i) (hpush : i.pushed? consts = some v) (hc : c.Yields v)
    (hconsts : Extends s.asm.consts consts) :
    Grows s (s.filled offset w consts (e :: rest)) :=
  { Grows.refl s with
    size := by simp [filled, withFilled, withShadow]
    code := fun offset' w' hw' hr => by
      rw [getElem?_filled]
      · exact hw'
      · rintro rfl
        exact hr (by rw [reserved_of_slot ht hs]; exact List.mem_cons_self ..)
    refCode := fun offset' id w' hr hw' => by
      rw [getElem?_filled]
      · exact hw'
      · rintro rfl
        exact ht.ref_free _ hr (by rw [reserved_of_slot ht hs]; exact List.mem_cons_self ..)
    reserved := fun offset' hr _ => List.mem_of_mem_erase hr
    consts := hconsts
    slots := fun offset' c' h => by
      obtain h | h := h
      · rw [hs] at h
        obtain heq | h := List.mem_cons.1 h
        · cases heq
          exact .inr (filled_slot ht hs hw hpush hc)
        · exact .inl (List.mem_cons_of_mem _ h)
      · have hne : offset' ≠ offset := by
          rintro rfl
          exact h.free (by rw [reserved_of_slot ht hs]; exact List.mem_cons_self ..)
        obtain ⟨w', i', v', hw', hi', hv', hc'⟩ := h.word
        exact .inr
          { free := fun hr => h.free (List.mem_of_mem_erase hr)
            noRef := h.noRef
            word := ⟨w', i', v', by rwa [getElem?_filled hne], hi',
              Instr.pushed?_of_extends hconsts hv', hc'⟩ } }

theorem tidy_filled (ht : s.Tidy) (hs : s.shadow = .const c (.reserved offset) :: rest)
    (hall : AllScalar consts) (he : e.Lies) (hslot : e.slot? = none) :
    (s.filled offset w consts (e :: rest)).Tidy where
  reserved := by
    show s.asm.reserved.erase offset = _
    rw [reserved_of_slot ht hs, List.erase_cons_head]
    exact (List.filterMap_cons_none hslot).symm
  slot_lt := fun offset' hr => by
    show offset' < (s.asm.code.setIfInBounds offset w).size
    rw [Array.size_setIfInBounds]
    exact ht.slot_lt _ (List.mem_of_mem_erase hr)
  slot_nodup := ht.slot_nodup.erase _
  ref_lt := fun r hr => by
    show r.1 < (s.asm.code.setIfInBounds offset w).size ∧ _
    rw [Array.size_setIfInBounds]
    exact ht.ref_lt r hr
  ref_free := fun r hr hres => ht.ref_free r hr (List.mem_of_mem_erase hres)
  ref_nodup := ht.ref_nodup
  entries := fun e' he' => by
    obtain rfl | he' := List.mem_cons.1 he'
    · exact he
    · exact ht.entries e' (by rw [hs]; exact List.mem_cons_of_mem _ he')
  scalars := hall

/-- Filling a slot decides what the constant in it is pushed as. -/
theorem step_filled (ht : s.Tidy) (hs : s.shadow = .const c (.reserved offset) :: rest)
    (hw : w.decode? = some i) (hpush : i.pushed? consts = some v) (hc : c.Yields v)
    (hconsts : Extends s.asm.consts consts) (hall : AllScalar consts) (he : e.Lies)
    (hslot : e.slot? = none) :
    Step L s (s.filled offset w consts (e :: rest)) fun o is =>
      is = [] ∧ ∀ p, (Inferred.const c (.reserved offset)).Shows o p → p = .const c v where
  grows := grows_filled ht hs hw hpush hc hconsts
  tidy := tidy_filled ht hs hall he hslot
  same := sameDecls_filled
  emitted := by
    have hfilled := filled_slot (e := e) ht hs hw hpush hc
    intro o ho
    refine ⟨[], by simp [filled, withFilled, withShadow], trivial, rfl, fun p hp => ?_⟩
    obtain ⟨w', i', v', hw', hi', hv', -⟩ := hfilled.word
    have hcode := ho.code _ _ hw' hfilled.free hfilled.noRef
    have hsame : w' = w := by
      have hlt := ht.slot_lt offset (by rw [reserved_of_slot ht hs]; exact List.mem_cons_self ..)
      have : (s.asm.code.setIfInBounds offset w)[offset]? = some w' := hw'
      rw [Array.getElem?_setIfInBounds_self, if_pos hlt] at this
      exact (Option.some.inj this).symm
    cases hp with
    | slot hi hpush' hc' =>
      rw [Program.instr?, hcode, Option.bind_some, hsame, hw] at hi
      cases hi
      rw [Instr.pushed?_of_extends ho.consts hpush] at hpush'
      cases hpush'
      rfl

end Fill

namespace Compile

variable {env : CompileEnv}

/-! ## The top entry -/

theorem ensures_pop {e : Inferred} {rest : Shadow} {Q : Inferred → CompileState → Prop}
    (hs : s.shadow = e :: rest) (h : Q e (s.withShadow rest)) : Ensures env pop s Q := by
  unfold pop
  refine ensures_bind.2 ?_
  simp only [ensures_get]
  refine ensures_bind.2 (ensures_ofChecked.2 ⟨fun r hr => ?_, fun f hf => ?_⟩)
  · rw [hs, Shadow.pop?] at hr
    cases hr
    exact h
  · rw [hs, Shadow.pop?] at hf
    cases hf

theorem ensures_top {e : Inferred} {rest : Shadow} {Q : Inferred → CompileState → Prop}
    (hs : s.shadow = e :: rest) (h : Q e s) : Ensures env top s Q := by
  unfold top
  refine ensures_bind.2 ?_
  simp only [ensures_get]
  refine ensures_ofChecked.2 ⟨fun r hr => ?_, fun f hf => ?_⟩
  · rw [hs, Shadow.top?] at hr
    cases hr
    exact h
  · rw [hs, Shadow.top?] at hf
    cases hf

theorem withShadow_self {shadow : Shadow} (h : s.shadow = shadow) : s.withShadow shadow = s := by
  subst h
  rfl

/-- The entry on top was replaced by one without a slot, with code as described. -/
structure Replaces (L : Layout) (s : CompileState) (rest : Shadow) (e : Inferred)
    (s' : CompileState) (R : Output → List Instr → Prop) : Prop where
  shadow : s'.shadow = e :: rest
  lies : e.Lies
  slot : e.slot? = none
  step : Step L s s' R

/-- Fills the slot of the entry that was on top, and pushes another entry. -/
theorem ensures_fill {c : Constant} {offset : Nat} {rest : Shadow} {k : Kind} {v : Value}
    {e : Inferred} {Q : PUnit → CompileState → Prop} (ht : s.Tidy)
    (hs : s.shadow = .const c (.reserved offset) :: rest) (hv : c.bind k = .ok v) (he : e.Lies)
    (hslot : e.slot? = none)
    (hQ : ∀ s', Replaces L s rest e s' (fun o is => is = [] ∧
      ∀ p, (Inferred.const c (.reserved offset)).Shows o p → ∃ u, p = .const c u ∧ u.kind = k) →
      Q ⟨⟩ s') :
    Ensures env (fillSlot offset v >>= fun _ => push e) (s.withShadow rest) Q := by
  unfold fillSlot
  refine ensures_bind.2 (ensures_bind.2 (ensures_asm ?_))
  have hscalar : v.IsScalar := (simple_of_slot ht hs).bind hv
  refine (ensures_valueWord hscalar ht.scalars).imp fun w a' hword => ?_
  obtain ⟨consts, i, u, rfl, hext, hall, hw, hpush, hu⟩ := hword
  refine ensures_asm ?_
  unfold Assembly.patch
  refine Task.ensures_bind.2 ?_
  simp only [Task.ensures_get]
  have hmem : offset ∈ s.asm.reserved := by
    rw [reserved_of_slot ht hs]
    exact List.mem_cons_self ..
  have hcontains : ({ s.asm with consts } : Assembly).reserved.contains offset = true := by
    simpa using hmem
  show Task.Ensures (if ({ s.asm with consts } : Assembly).reserved.contains offset = true then _
    else _) _ _ _
  rw [if_pos hcontains]
  refine hQ (s.filled offset w consts (e :: rest)) ⟨rfl, he, hslot, ?_⟩
  exact (step_filled ht hs hw hpush (.of_bind hv hu) hext hall he hslot).mono fun o is _ hfilled =>
    ⟨hfilled.1, fun p hshow => ⟨u, hfilled.2 p hshow, hu.1.trans (Constant.kind_of_bind hv)⟩⟩

/-! ## Constants -/

theorem ensures_reserve {c : Constant} (ht : s.Tidy) (hopen : c.operandKind.isBound = false) :
    Ensures env (asm Assembly.reserve >>= fun offset => push (.const c (.reserved offset))) s
      fun _ s' => ∃ e, s'.shadow = e :: s.shadow ∧ (Inferred.const c .pending).Agrees e ∧
        Step L s s' fun o is => ∃ i v, is = [i] ∧ i.pushed? o.program.consts = some v ∧
          c.Yields v ∧ e.Shows o (.const c v) := by
  refine ensures_bind.2 (ensures_asm ?_)
  unfold Assembly.reserve
  refine Task.ensures_bind.2 (Task.ensures_ofChecked.2 ⟨fun w hw => ?_, fun f hf => ?_⟩)
  · have hemit : (Assembly.emit w).exec s.asm =
        (.ok s.asm.code.size, { s.asm with code := s.asm.code.push w }) := rfl
    refine Task.ensures_bind.2 (Task.Ensures.of_exec (fun a a' ha => ?_) fun e a' ha => ?_)
    · rw [hemit] at ha
      cases ha
      show ∃ e, (s.withSlot w c).shadow = e :: s.shadow ∧ _ ∧ Step L s (s.withSlot w c) _
      refine ⟨_, rfl, .slot hopen, ?_⟩
      exact
        { grows := grows_withSlot
          tidy := tidy_withSlot ht hopen
          same := sameDecls_withSlot
          emitted := emitted_withSlot.mono fun o is _ ⟨i, v, his, hi, hpush, hv⟩ =>
            ⟨i, v, his, hpush, hv, .slot hi hpush hv⟩ }
    · rw [hemit] at ha
      cases ha
  · exact ⟨f, rfl, Word.overflows_of_make hf⟩

/-- A constant is pushed: its value, or a slot for it. -/
theorem ensures_pushConstant {c : Constant} (ht : s.Tidy) (hc : c.Simple) :
    Ensures env (pushConstant c) s fun _ s' => ∃ e, s'.shadow = e :: s.shadow ∧
      (Inferred.const c .pending).Agrees e ∧ Step L s s' fun o is => ∃ i v, is = [i] ∧
        i.pushed? o.program.consts = some v ∧ c.Yields v ∧ e.Shows o (.const c v) := by
  cases c with
  | bound v =>
    refine ensures_bind.2 (ensures_discard.2 ?_)
    refine (ensures_pushValue (L := L) ht hc).imp fun _ s' ⟨hshadow, hstep⟩ => ?_
    show ∃ e, _ :: s'.shadow = e :: s.shadow ∧ _
    refine ⟨_, by rw [hshadow], .emitted hc, ?_⟩
    refine (hstep.seq (step_push hstep.tidy (.emitted hc) rfl)).mono
      fun o is _ ⟨js, ks, his, ⟨i, u, hjs, hpush, hu⟩, hks⟩ => ?_
    refine ⟨i, u, by rw [his, hjs, hks]; rfl, hpush, .bound hu, .emitted (.bound hu)⟩
  | int n => exact ensures_reserve ht rfl
  | float x => exact ensures_reserve ht rfl
  | complex z => exact ensures_reserve ht rfl

/-- The slot on top is filled with its constant at a kind. -/
theorem ensures_coerceSlot {c : Constant} {offset : Nat} {rest : Shadow} {k : Kind} (ht : s.Tidy)
    (hs : s.shadow = .const c (.reserved offset) :: rest) :
    Ensures env (coerceTop k) s fun _ s' => ∃ v, v.kind = k ∧
      Replaces L s rest (.const (.bound v) .emitted) s' fun o is => is = [] ∧
        ∀ p, (Inferred.const c (.reserved offset)).Shows o p → ∃ u, p = .const c u ∧ u.kind = k := by
  unfold coerceTop
  refine ensures_bind.2 (ensures_pop hs ?_)
  refine ensures_bind.2 (ensures_ofConstant (fun _ => Constant.ofFile_bind) fun v hv => ?_)
  exact ensures_fill (L := L) ht hs hv (.emitted ((simple_of_slot ht hs).bind hv)) rfl fun s' h =>
    ⟨v, Constant.kind_of_bind hv, h⟩

/-- The top value is brought to a kind, by its slot or by an instruction. -/
theorem ensures_coerceTop {e : Inferred} {rest : Shadow} {k : Kind} (ht : s.Tidy)
    (hs : s.shadow = e :: rest) {kind : OperandKind} (hkind : e.operandKind? = some kind) :
    Ensures env (coerceTop k) s fun _ s' => ∃ e', Replaces L s rest e' s' fun o is =>
      ∀ p, e.Shows o p → p.Coerced k is := by
  have hlies : e.Lies := ht.entries e (by rw [hs]; exact List.mem_cons_self ..)
  have unchanged (h : ∀ o p, e.Shows o p → p.Coerced k []) (hslot : e.slot? = none) :
      Replaces L s rest e s fun o is => ∀ p, e.Shows o p → p.Coerced k is :=
    ⟨hs, hlies, hslot, .refl _, ht, .refl _, (Emitted.nil rfl).mono fun o is _ his p hp => by
      subst his
      exact h o p hp⟩
  have converted (h : ∀ o p, e.Shows o p → p.Coerced k [.convert k.nameable])
      (hslot : e.slot? = none) : Ensures env (asm (Assembly.convert k) >>= fun _ =>
        push (.value (.basic k))) (s.withShadow rest) fun _ s' => ∃ e', Replaces L s rest e' s'
          fun o is => ∀ p, e.Shows o p → p.Coerced k is := by
    have hpop : Step L s (s.withShadow rest) fun _ is => is = [] :=
      step_drop ht hs hslot
    refine ensures_bind.2 ?_
    refine (ensures_convert (L := L) hpop.tidy).imp fun _ s' ⟨hshadow, hstep⟩ => ?_
    refine ⟨.value (.basic k), congrArg (_ :: ·) hshadow, .value _, rfl, ?_⟩
    refine ((hpop.seq hstep).seq (step_push hstep.tidy (.value _) rfl)).mono ?_
    rintro o is - ⟨_, js, rfl, ⟨_, ks, rfl, rfl, rfl⟩, rfl⟩ p hp
    exact h o p hp
  cases hlies with
  | slot hopen =>
    refine (ensures_coerceSlot (L := L) ht hs).imp fun _ s' ⟨v, _, h⟩ => ?_
    refine ⟨_, h.shadow, h.lies, h.slot, h.step.mono fun o is _ ⟨his, hp⟩ p hshow => ?_⟩
    obtain ⟨u, rfl, hu⟩ := hp p hshow
    subst his
    exact .const hu
  | emitted =>
    unfold coerceTop
    refine ensures_bind.2 (ensures_pop hs ?_)
    simp only
    split
    · rename_i hk
      show ∃ e', Replaces L s rest e' (s.withShadow (_ :: rest)) _
      rw [withShadow_self hs]
      refine ⟨_, unchanged (fun o p hp => ?_) rfl⟩
      cases hp with
      | emitted h => exact .const (h.kind_eq.trans hk)
    · rename_i hk
      rw [if_neg (by simp)]
      refine converted (fun o p hp => ?_) rfl
      cases hp with
      | emitted h => exact .convertConst fun hu => hk (h.kind_eq.symm.trans hu)
  | value t =>
    unfold coerceTop
    refine ensures_bind.2 (ensures_pop hs ?_)
    simp only
    split
    · rename_i hk
      show ∃ e', Replaces L s rest e' (s.withShadow (_ :: rest)) _
      rw [withShadow_self hs]
      refine ⟨_, unchanged (fun o p hp => ?_) rfl⟩
      cases hp
      exact .value hk
    · rename_i hk
      refine converted (fun o p hp => ?_) rfl
      cases hp
      exact .convert hk
  | results ts => cases hkind
  | package path name => cases hkind

/-- The type of a variable that is declared with the value of an entry. -/
def declaredType? : Inferred → Option Ty
  | .const (.bound v) _ => some (.basic v.kind)
  | .value t => some t
  | _ => none

/-- An open constant on top takes on its default kind. -/
theorem ensures_bindDefaultTop {e : Inferred} {rest : Shadow} (ht : s.Tidy)
    (hs : s.shadow = e :: rest) :
    Ensures env bindDefaultTop s fun _ s' => ∃ e', Replaces L s rest e' s' fun o is => is = [] ∧
      ∀ p, e.Shows o p → p.Default ∧ p.declared? = declaredType? e' := by
  have unchanged (hslot : e.slot? = none)
      (h : ∀ o p, e.Shows o p → p.Default ∧ p.declared? = declaredType? e) :
      ∃ e', Replaces L s rest e' s fun o is => is = [] ∧
        ∀ p, e.Shows o p → p.Default ∧ p.declared? = declaredType? e' :=
    ⟨e, hs, ht.entries e (by rw [hs]; exact List.mem_cons_self ..), hslot, .refl _, ht, .refl _,
      (Emitted.nil rfl).mono fun o is _ his => ⟨his, h o⟩⟩
  unfold bindDefaultTop
  refine ensures_bind.2 (ensures_top hs ?_)
  cases ht.entries e (by rw [hs]; exact List.mem_cons_self ..) with
  | slot hopen =>
    refine (ensures_coerceSlot (L := L) ht hs).imp fun _ s' ⟨v, hv, h⟩ => ?_
    refine ⟨_, h.shadow, h.lies, h.slot, h.step.mono fun o is _ ⟨his, hp⟩ => ⟨his, fun p hshow => ?_⟩⟩
    obtain ⟨u, rfl, hu⟩ := hp p hshow
    exact ⟨hu, by rw [Pushed.declared?, declaredType?, hu, hv]⟩
  | emitted =>
    refine unchanged rfl fun o p hp => ?_
    cases hp with
    | emitted h => exact ⟨h.kind_eq, by rw [Pushed.declared?, declaredType?, h.kind_eq]⟩
  | value t => exact unchanged rfl fun o p hp => by cases hp; exact ⟨trivial, rfl⟩
  | results ts => exact unchanged rfl fun o p hp => by cases hp; exact ⟨trivial, rfl⟩
  | package path name => exact unchanged rfl fun o p hp => by cases hp; exact ⟨trivial, rfl⟩

/-- The top value becomes the second operand of an operator. -/
theorem ensures_coerceSecond {e : Inferred} {rest : Shadow} {r : Resolution} (ht : s.Tidy)
    (hs : s.shadow = e :: rest) {kind : OperandKind} (hkind : e.operandKind? = some kind) :
    Ensures env (coerceSecond r) s fun _ s' => ∃ e', Replaces L s rest e' s' fun o is =>
      ∀ p, e.Shows o p → p.CoercedSecond r.second is := by
  unfold coerceSecond
  split
  · rename_i k hk
    rw [hk]
    exact ensures_coerceTop ht hs hkind
  · rename_i hk
    rw [hk]
    refine (ensures_bindDefaultTop (L := L) ht hs).imp fun _ s' ⟨e', h⟩ => ?_
    exact ⟨e', h.shadow, h.lies, h.slot, h.step.mono fun o is _ ⟨his, hp⟩ p hshow =>
      ⟨his, (hp p hshow).1⟩⟩

/-! ## Fitting -/

theorem ensures_constantKind {c : Constant} {target : Ty} {context : String}
    {Q : Kind → CompileState → Prop}
    (h : ∀ k, (∀ v : Value, v.kind = k → (Pushed.const c v).Fits target) → Q k s) :
    Ensures env (constantKind c target context) s Q := by
  unfold constantKind
  split
  · exact h _ fun v hv => hv
  · rename_i t hany
    split
    · rename_i hbasic
      refine h _ fun v hv => ?_
      cases target with
      | any => exact (hany rfl).elim
      | _ => exact And.intro hbasic hv
    · trivial

/-- The top value fits a type, which it then has. -/
theorem ensures_fitTop {e : Inferred} {rest : Shadow} {target : Ty} {context : String}
    (ht : s.Tidy) (hs : s.shadow = e :: rest) :
    Ensures env (fitTop target context) s fun _ s' => Replaces L s rest (.value target) s'
      fun o is => is = [] ∧ ∀ p, e.Shows o p → p.Fits target := by
  have replaced (h : ∀ o p, e.Shows o p → p.Fits target) (hslot : e.slot? = none) :
      Replaces L s rest (.value target) (s.withShadow (.value target :: rest)) fun o is =>
        is = [] ∧ ∀ p, e.Shows o p → p.Fits target :=
    ⟨rfl, .value _, rfl, (step_swap ht hs hslot (.value _) rfl).mono fun o is _ his =>
      ⟨his, h o⟩⟩
  unfold fitTop
  refine ensures_bind.2 (ensures_pop hs ?_)
  cases ht.entries e (by rw [hs]; exact List.mem_cons_self ..) with
  | slot hopen =>
    rename_i c offset
    refine ensures_bind.2 (ensures_bind.2 (ensures_constantKind fun k hk => ?_))
    refine ensures_bind.2 (ensures_ofConstant (fun _ => Constant.ofFile_bind) fun v hv => ensures_bind.1 ?_)
    refine ensures_fill (L := L) ht hs hv (.value target) rfl fun s' h => ?_
    refine ⟨h.shadow, h.lies, h.slot, h.step.mono fun o is _ ⟨his, hp⟩ => ⟨his, fun p hshow => ?_⟩⟩
    obtain ⟨u, rfl, hu⟩ := hp p hshow
    exact hk u hu
  | emitted =>
    refine ensures_bind.2 (ensures_bind.2 (ensures_constantKind fun k hk => ?_))
    simp only
    split
    · rename_i hv
      refine replaced (fun o p hp => ?_) rfl
      cases hp with
      | emitted h => exact hk _ (h.kind_eq.trans hv)
    · trivial
  | value t =>
    simp only [checkAssignable]
    refine ensures_bind.2 ?_
    split
    · refine replaced (fun o p hp => ?_) rfl
      cases hp
      assumption
    · trivial
  | results ts =>
    cases ts <;> trivial
  | package path name => trivial

/-- The top value is dropped. -/
theorem ensures_discardTop {e : Inferred} {rest : Shadow} (ht : s.Tidy)
    (hs : s.shadow = e :: rest) :
    Ensures env discardTop s fun _ s' => s'.shadow = rest ∧ Step L s s' fun o is =>
      is = [.pop 1] ∧ ∀ p, e.Shows o p → p.Default := by
  unfold discardTop
  refine ensures_bind.2 ((ensures_bindDefaultTop (L := L) ht hs).imp fun _ s₁ ⟨e', h⟩ => ?_)
  refine ensures_bind.2 (ensures_discard.2 (ensures_pop h.shadow ?_))
  have hdrop : Step L s₁ (s₁.withShadow rest) fun _ is => is = [] :=
    step_drop h.step.tidy h.shadow h.slot
  refine (ensures_popWords (L := L) (n := 1) hdrop.tidy).imp fun _ s' ⟨hshadow, hpop⟩ => ?_
  refine ⟨hshadow, ((h.step.seq hdrop).seq hpop).mono ?_⟩
  rintro o is - ⟨_, js, rfl, ⟨_, ks, rfl, ⟨rfl, hp⟩, rfl⟩, rfl⟩
  exact ⟨rfl, fun p hshow => (hp p hshow).1⟩

end Compile

end StackScript
