import StackScript.Proofs.Running.Following

/-!
# Running without faults

From a sound thread every step of a sound machine leads to a sound thread or to an error: no index is
out of range, whatever the words are and however the values on the stack came there. One lemma for each
instruction says so (`Machine.safe_perform`). A call checks the limit of the depth before the room for
calls is used up, so no bound on the recursion of calls is met (`Machine.safe_call`).
-/

namespace StackScript

variable {m : Machine} {floor : Extent}

namespace Machine

variable {s : Thread} {ctx : Nat} {call : Caller}

open Run

theorem safe_parentOf {f : FuncInfo} (hs : s.Sound m floor)
    (hctx : ctx < s.world.store.frames.size) :
    Safe m floor (parentOf f ctx) s fun p s' => p < s'.world.store.frames.size := by
  unfold parentOf
  split
  · exact .get (.pure hs (Nat.lt_of_le_of_lt (Store.Sound.root_le _ _) hctx))
  · exact .pure hs hctx

theorem safe_func {id : Nat} (hs : s.Sound m floor) (hid : id < m.program.funcs.size) :
    Safe m floor (Task.ofChecked (m.program.func id)) s
      fun f s' => s = s' ∧ f = m.program.funcs[id] :=
  .ofChecked hs (Program.func_of_lt hid) ⟨rfl, rfl⟩

theorem safe_varType (hm : m.Sound floor) {frame index : Nat} (hs : s.Sound m floor)
    (hframe : frame < s.world.store.frames.size) :
    Safe m floor (m.varType frame index) s fun _ _ => True := by
  unfold varType
  refine .get (.bind (Q := fun f s' => s = s' ∧ f ∈ s.world.store.frames)
    (.expect hs (Array.getElem?_eq_getElem hframe) ⟨rfl, Array.getElem_mem hframe⟩) ?_)
  rintro f _ - ⟨rfl, hf⟩
  have listed {vars : Array Nat} (hvars : ∀ id ∈ vars, id < m.program.vars.size) :
      Safe m floor (pure vars : Run (Array Nat)) s
        fun vars s' => s = s' ∧ ∀ id ∈ vars, id < m.program.vars.size := .pure hs ⟨rfl, hvars⟩
  split
  on_goal 1 =>
    rename_i id hid
    have hlt : id < m.program.funcs.size := (hs.store.frames f hf).func id hid
    refine .bind (safe_func hs hlt) ?_
    rintro g _ - ⟨rfl, rfl⟩
    refine .bind (listed (hm.program.vars _ (Array.getElem_mem hlt))) ?_
  on_goal 2 => refine .bind (listed hm.program.mainVars) ?_
  all_goals
    rintro vars _ - ⟨rfl, hvars⟩
    dsimp only
    split
    · have hlt := hvars _ (Array.mem_of_getElem? ‹_›)
      exact .bind (.ofChecked (Q := fun _ _ => True) hs (Program.var_of_lt hlt) trivial)
        fun _ _ h _ => .pure h.sound trivial
    · exact .defect _

theorem safe_tableEntry (hm : m.Sound floor) {variadic : Bool} {index : Nat}
    (hs : s.Sound m floor) :
    Safe m floor (m.tableEntry variadic index) s fun id _ => id < m.program.funcs.size := by
  unfold tableEntry
  split
  · exact .defect _
  · exact .pure hs (hm.program.tables _ _ _ ‹_›)

theorem safe_makeClosure (hm : m.Sound floor) {variadic : Bool} {index : Nat}
    (hs : s.Sound m floor) (hctx : ctx < s.world.store.frames.size) :
    Safe m floor (m.makeClosure ctx variadic index) s fun c s' => c.Within (m.extentOf s') := by
  unfold makeClosure
  split
  · exact .defect _
  · rename_i id hid
    have hlt := hm.program.tables _ _ _ hid
    obtain ⟨sig, hsig⟩ := hm.program.signature hlt
    refine .bind (safe_func hs hlt) ?_
    rintro f _ - ⟨rfl, rfl⟩
    refine .bind (safe_parentOf hs hctx) fun parent s₁ h₁ hparent => ?_
    refine .bind (.ofChecked (Q := fun _ _ => True) h₁.sound hsig trivial) fun _ s₂ h₂ _ => ?_
    refine .bind (.onWorld (Q := fun _ _ => True) h₂.sound ?_) fun number s₃ h₃ _ => ?_
    · exact ⟨⟨h₂.sound.store.cells, h₂.sound.store.frames, h₂.sound.store.floor⟩, .refl _, trivial⟩
    · exact .pure h₃.sound
        ⟨hlt, Nat.lt_of_lt_of_le hparent (h₂.grows.trans h₃.grows).frames⟩

theorem safe_packScript {f : FuncInfo} {arity : Arity} (hs : s.Sound m floor) :
    Safe m floor (packScript f arity) s fun _ _ => True :=
  .bind (.lastParam hs) fun _ _ h _ => .pack h.sound

theorem safe_openFrame (hm : m.Sound floor) {id parent : Nat} {f : FuncInfo}
    (hs : s.Sound m floor) (hid : id < m.program.funcs.size)
    (hparent : parent < s.world.store.frames.size) :
    Safe m floor (m.openFrame id parent f) s
      fun frame s' => frame < s'.world.store.frames.size := by
  unfold openFrame
  refine .bind (Q := fun _ s' => s = s') (.get (.pure hs rfl)) ?_
  rintro base _ - rfl
  split
  · exact .failBind
  · have hframe : id < m.frames.size := hm.frames ▸ hid
    refine .bind (Q := fun vars s' => s = s' ∧ vars ∈ m.frames)
      (.expect hs (Array.getElem?_eq_getElem hframe) ⟨rfl, Array.getElem_mem hframe⟩) ?_
    rintro vars _ - ⟨rfl, hvars⟩
    refine .onWorld (Q := fun frame w => frame < w.store.frames.size) hs ?_
    exact hs.store.newFrame
      { func := fun _ h => by cases h; exact hid
        parent := fun _ h => by cases h; exact hparent
        vars := fun v hv => hm.zeros _ hvars v hv _ }

theorem safe_finish {height numOut frame : Nat} {n : Option Nat} (hs : s.Sound m floor)
    (hframe : frame < s.world.store.frames.size) :
    Safe m floor (finish height numOut frame n) s fun _ _ => True := by
  cases n with
  | some n =>
    refine .get (.bind (Q := fun st s' => s = s' ∧ ∀ v ∈ st, v ∈ s.stack)
      (.ofExcept hs fun st hst => ⟨rfl, ?_⟩) ?_)
    · unfold Stack.keepTop? at hst
      split at hst <;> cases hst
      intro v hv
      exact (Array.mem_append.1 hv).elim mem_of_mem_extract mem_of_mem_extract
    · rintro st _ - ⟨rfl, hst⟩
      exact .setStack hs fun v hv => hs.stack v (hst v hv)
  | none =>
    refine .get (.bind (Q := fun f s' => s = s' ∧ f ∈ s.world.store.frames)
      (.expect hs (Array.getElem?_eq_getElem hframe) ⟨rfl, Array.getElem_mem hframe⟩) ?_)
    rintro f _ - ⟨rfl, hf⟩
    refine .setStack hs fun v hv => ?_
    obtain hv | hv := Array.mem_append.1 hv
    · exact hs.stack v (mem_of_mem_extract hv)
    · exact (hs.store.frames f hf).vars v (mem_of_mem_extract hv)

/-! ### Calls -/

/-- Calls of functions that are there are safe where `d` functions are active. -/
def SafeCaller (m : Machine) (floor : Extent) (d : Nat) (call : Caller) : Prop :=
  ∀ id parent s, s.Sound m floor → s.depth = d → id < m.program.funcs.size →
    parent < s.world.store.frames.size → Safe m floor (call id parent) s fun _ _ => True

theorem SafeCaller.later {s' : Thread} (hcall : m.SafeCaller floor s.depth call)
    (h : s.Follows m floor s') : m.SafeCaller floor s'.depth call :=
  h.depth.symm ▸ hcall

theorem safe_callClosure (hcall : m.SafeCaller floor s.depth call) {c : Closure} {arity : Arity}
    (hs : s.Sound m floor) (hc : c.Within (m.extentOf s)) :
    Safe m floor (m.callClosure call c arity) s fun _ _ => True := by
  unfold callClosure
  refine .bind (safe_func hs hc.func) ?_
  rintro f _ - ⟨rfl, rfl⟩
  have called {t : Run Unit} (ht : Safe m floor t s fun _ _ => True) :
      Safe m floor (t >>= fun _ => call c.func c.parent) s fun _ _ => True :=
    .bind ht fun _ s' h _ => hcall _ _ s' h.sound h.depth hc.func
      (Nat.lt_of_lt_of_le hc.parent h.grows.frames)
  split
  · exact called (safe_packScript hs)
  · exact called (.checkCount hs)

/-- A function called back runs at the depth that is published. -/
theorem safe_callFresh {w : World} {c : Closure} {args : List Value}
    (hcall : m.SafeCaller floor w.store.hostDepth call) (hw : w.store.Sound m floor)
    (hc : c.Within (m.extent w.store)) (hargs : ∀ v ∈ args, v.Within (m.extent w.store)) :
    HostTask.Safe m floor (m.callFresh call c args) w
      fun vs w' => ∀ v ∈ vs, v.Within (m.extent w'.store) := by
  have hlt : c.func < m.program.funcs.size := hc.func
  have hf := Program.func_of_lt hlt
  by_cases hlen : args.length = m.program.funcs[c.func].numIn
  · have hends := hcall c.func c.parent ⟨w, args.toArray, 0, w.store.hostDepth⟩
      ⟨hw, fun v hv => hargs v (List.mem_toArray.1 hv)⟩ rfl hc.func hc.parent
    unfold HostTask.Safe Task.Ensures
    rw [exec_callFresh call c args w hf hlen]
    unfold Safe Task.Ensures at hends
    generalize (call c.func c.parent).exec _ = r at hends ⊢
    obtain ⟨e | u, t⟩ := r
    · exact hends
    · exact ⟨hends.1.sound.store, hends.1.grows, fun v hv =>
        hends.1.sound.stack v (Array.mem_toList_iff.1 hv)⟩
  · unfold callFresh
    rw [hf]
    simp only [Task.ofChecked, pure_bind, ne_eq]
    rw [if_pos hlen]
    trivial

/-- Host functions do not nest. -/
theorem safe_invoke (hm : m.Sound floor) {w : World} {f : FuncValue} {args : List Value}
    (hcall : m.SafeCaller floor w.store.hostDepth call) (hw : w.store.Sound m floor)
    (hf : f.Within (m.extent w.store)) (hargs : ∀ v ∈ args, v.Within (m.extent w.store)) :
    HostTask.Safe m floor (m.invoke call f args) w
      fun vs w' => ∀ v ∈ vs, v.Within (m.extent w'.store) := by
  unfold invoke
  rw [show Natives.hostNesting = 9999 + 1 from rfl, Natives.invoke]
  cases Natives.checkArgs f.sig args with
  | error e => trivial
  | ok u =>
    have counted {t : HostTask (List Value)} (ht : HostTask.Safe m floor t w
        fun vs w' => ∀ v ∈ vs, v.Within (m.extent w'.store)) :
        HostTask.Safe m floor (do
          let results ← t
          if results.length ≠ f.sig.results.length then
            HostTask.fail (.resultCount results.length f.sig.results.length)
          return results) w fun vs w' => ∀ v ∈ vs, v.Within (m.extent w'.store) := by
      refine Task.Ensures.bind ht fun vs w' hvs => ?_
      split
      · trivial
      · exact hvs
    obtain ⟨sig, i | c⟩ := f
    · have hi : i < m.natives.bodies.size := hf
      refine Task.ensures_bind.2 (Task.ensures_pure.2 (Task.ensures_bind.2
        (Task.ensures_expect.2 ⟨fun body hbody => ?_, fun hnone => ?_⟩)))
      · exact counted (hm.bodies body (Array.mem_of_getElem? hbody) _ args w hw hargs)
      · exact absurd (Array.getElem?_eq_none_iff.1 hnone) (Nat.not_le.2 hi)
    · exact counted (safe_callFresh hcall hw hf hargs)

theorem safe_callHost (hm : m.Sound floor) (hcall : m.SafeCaller floor s.depth call) {f : FuncValue}
    {name : String} {args : List Value} (hs : s.Sound m floor) (hf : f.Within (m.extentOf s))
    (hargs : ∀ v ∈ args, v.Within (m.extentOf s)) :
    Safe m floor (m.callHost call f name args) s fun _ _ => True := by
  unfold callHost
  refine .get (.bind (.within (.onWorld (Q := fun vs w => ∀ v ∈ vs, v.Within (m.extent w.store))
    hs ?_)) fun vs s₁ h₁ hvs => .pushAll h₁.sound hvs)
  have hends := safe_invoke (w := s.world.publishing s.depth) hm hcall (hs.store.publishing _) hf
    hargs
  unfold HostTask.Safe Task.Ensures at hends ⊢
  rw [HostTask.exec_atDepth]
  generalize (m.invoke call f args).exec (s.world.publishing s.depth) = r at hends ⊢
  obtain ⟨e | vs, w⟩ := r
  · exact hends
  · exact ⟨hends.1.publishing _, hends.2⟩

theorem safe_callValue (hm : m.Sound floor) (hcall : m.SafeCaller floor s.depth call) {v : Value}
    {arity : Arity} (hs : s.Sound m floor) (hv : v.Within (m.extentOf s)) :
    Safe m floor (m.callValue call v arity) s fun _ _ => True := by
  unfold callValue
  split
  · exact safe_callClosure hcall hs hv
  · rename_i f
    obtain ⟨sig, i | c⟩ := f
    · exact .bind (.takeArgs hs) fun args s₁ h₁ hargs =>
        safe_callHost hm (hcall.later h₁) h₁.sound (Value.within_func_mono hv h₁.grows) hargs
    · exact safe_callClosure hcall hs hv
  · exact .fail _
  · exact .fail _

/-! ### Instructions -/

section

variable {scope : Scope} {index addr below : Nat} {field : ArityField}

theorem safe_pushConst (hm : m.Sound floor) (hs : s.Sound m floor) :
    Safe m floor (m.perform call ctx (.pushConst index)) s fun _ _ => True := by
  unfold perform
  dsimp only
  split
  · rename_i v hv
    exact .push hs ((hm.consts v (Array.mem_of_getElem? hv)).mono hs.store.floor)
  · exact .defect _

theorem safe_loadVar (hs : s.Sound m floor) (hctx : ctx < s.world.store.frames.size) :
    Safe m floor (m.perform call ctx (.loadVar scope index)) s fun _ _ => True :=
  .bind (.frameOf hs hctx) fun _ _ h₁ hf => .bind (.load h₁.sound hf) fun _ _ h₂ hv => .push h₂.sound hv

theorem safe_storeVar (hs : s.Sound m floor) (hctx : ctx < s.world.store.frames.size) :
    Safe m floor (m.perform call ctx (.storeVar scope index)) s fun _ _ => True :=
  .bind (.pop hs) fun _ _ h₁ hv => .bind (.frameOf h₁.sound (h₁.lt_frames hctx))
    fun _ _ h₂ hf => .store h₂.sound hf (hv.mono h₂.grows)

theorem safe_addrVar (hm : m.Sound floor) (hs : s.Sound m floor)
    (hctx : ctx < s.world.store.frames.size) :
    Safe m floor (m.perform call ctx (.addrVar scope index)) s fun _ _ => True := by
  refine .bind (.frameOf hs hctx) fun frame s₁ h₁ hf => ?_
  refine .bind (safe_varType hm h₁.sound hf) fun elem s₂ h₂ _ => ?_
  exact .bind (.allocate h₂.sound (fun _ => rfl) fun st hst => h₂.lt_frames hf)
    fun _ s₃ h₃ hv => .push h₃.sound hv

theorem safe_addrOp {k : Option Kind} {op : Option AddressOperator} (hs : s.Sound m floor) :
    Safe m floor (m.perform call ctx (.addrOp k op)) s fun _ _ => True := by
  unfold perform
  dsimp only
  split
  · exact .bind (.pop hs) fun _ s₁ h₁ hv => .bind (.pointee h₁.sound hv)
      fun _ s₂ h₂ hp => .applyAddress h₂.sound hp
  · exact .defect _

theorem safe_loadArg (hs : s.Sound m floor) (hctx : ctx < s.world.store.frames.size) :
    Safe m floor (m.perform call ctx (.loadArg below)) s fun _ _ => True := by
  refine .bind (.argumentHeight hs hctx) fun h s₁ h₁ _ => .get ?_
  refine .bind (Q := fun v s' => v.Within (m.extentOf s')) (.ofExcept h₁.sound fun v hv => ?_)
    fun _ s₂ h₂ hv => .push h₂.sound hv
  unfold Stack.read? at hv
  split at hv <;> cases hv
  exact h₁.sound.stack v (Array.mem_of_getElem? ‹_›)

theorem safe_storeArg (hs : s.Sound m floor) (hctx : ctx < s.world.store.frames.size) :
    Safe m floor (m.perform call ctx (.storeArg below)) s fun _ _ => True := by
  refine .bind (.argumentHeight hs hctx) fun h s₁ h₁ _ => .bind (.pop h₁.sound)
    fun v s₂ h₂ hv => .get ?_
  refine .bind (Q := fun st s' => ∀ u ∈ st, u.Within (m.extentOf s'))
    (.ofExcept h₂.sound fun st hst => ?_) fun _ s₃ h₃ hst => .setStack h₃.sound hst
  unfold Stack.write? at hst
  split at hst <;> cases hst
  intro u hu
  obtain hu | rfl := Array.mem_or_eq_of_mem_setIfInBounds hu
  · exact h₂.sound.stack u hu
  · exact hv

theorem safe_loadNativeVar (hm : m.Sound floor) (hs : s.Sound m floor) :
    Safe m floor (m.perform call ctx (.loadNativeVar addr)) s fun _ _ => True := by
  unfold perform
  dsimp only
  split
  · rename_i var hvar
    exact .bind (.load hs (Value.within_place_mono (hm.vars var (Array.mem_of_getElem? hvar))
      hs.store.floor)) fun _ s₁ h₁ hv => .push h₁.sound hv
  · exact .defect _

theorem safe_builtinOp {k : Option Kind} {op : Option Operator} (hs : s.Sound m floor) :
    Safe m floor (m.perform call ctx (.builtinOp k op)) s fun _ _ => True := by
  unfold perform
  dsimp only
  split
  · exact .bind (.pop hs) fun _ s₁ h₁ _ => .bind (.pop h₁.sound) fun _ s₂ h₂ _ =>
      .bind (.evaluate h₂.sound) fun _ s₃ h₃ hv => .push h₃.sound hv
  · exact .defect _

theorem safe_callFunc (hm : m.Sound floor) (hcall : m.SafeCaller floor s.depth call)
    (hs : s.Sound m floor) (hctx : ctx < s.world.store.frames.size) :
    Safe m floor (m.perform call ctx (.callFunc index)) s fun _ _ => True := by
  refine .bind (safe_tableEntry hm hs) fun id s₁ h₁ hid => .bind (safe_func h₁.sound hid) ?_
  rintro f _ - ⟨rfl, rfl⟩
  exact .bind (safe_parentOf h₁.sound (h₁.lt_frames hctx)) fun p s₂ h₂ hp =>
    hcall _ _ s₂ h₂.sound (h₂.depth.trans h₁.depth) hid hp

theorem safe_callFuncv (hm : m.Sound floor) (hcall : m.SafeCaller floor s.depth call)
    (hs : s.Sound m floor) (hctx : ctx < s.world.store.frames.size) :
    Safe m floor (m.perform call ctx (.callFuncv field index)) s fun _ _ => True := by
  refine .bind (safe_tableEntry hm hs) fun id s₁ h₁ hid => ?_
  refine .bind (.readArity h₁.sound) fun arity s₂ h₂ _ => .bind (safe_func h₂.sound hid) ?_
  rintro f _ - ⟨rfl, rfl⟩
  refine .bind (safe_packScript h₂.sound) fun _ s₃ h₃ _ => ?_
  have hlater := h₁.trans (h₂.trans h₃)
  exact .bind (safe_parentOf h₃.sound (hlater.lt_frames hctx)) fun p s₄ h₄ hp =>
    hcall _ _ s₄ h₄.sound (h₄.depth.trans hlater.depth) hid hp

theorem safe_callNative (hm : m.Sound floor) (hcall : m.SafeCaller floor s.depth call)
    (hs : s.Sound m floor) :
    Safe m floor (m.perform call ctx (.callNative addr)) s fun _ _ => True := by
  unfold perform
  dsimp only
  split
  · exact .defect _
  · rename_i entry hentry
    have hfunc := hm.funcs entry (Array.mem_of_getElem? hentry)
    exact .bind (.takeArgs hs) fun args s₁ h₁ hargs =>
      safe_callHost hm (hcall.later h₁) h₁.sound (h₁.sound.func hfunc) hargs

theorem safe_callNativev (hm : m.Sound floor) (hcall : m.SafeCaller floor s.depth call)
    (hs : s.Sound m floor) :
    Safe m floor (m.perform call ctx (.callNativev field addr)) s fun _ _ => True := by
  unfold perform
  dsimp only
  split
  · exact .defect _
  · rename_i entry hentry
    have hfunc := hm.funcvs entry (Array.mem_of_getElem? hentry)
    refine .bind (.readArity hs) fun arity s₁ h₁ _ => .bind (.lastParam h₁.sound)
      fun last s₂ h₂ _ => .bind (.pack h₂.sound) fun _ s₃ h₃ _ => .bind (.popMany h₃.sound)
      fun args s₄ h₄ hargs => ?_
    have hlater := h₁.trans (h₂.trans (h₃.trans h₄))
    exact safe_callHost hm (hcall.later hlater) h₄.sound (h₄.sound.func hfunc) hargs

theorem safe_pushNative (hm : m.Sound floor) (hs : s.Sound m floor) :
    Safe m floor (m.perform call ctx (.pushNative addr)) s fun _ _ => True := by
  unfold perform
  dsimp only
  split
  · exact .defect _
  · rename_i entry hentry
    exact .push hs (hs.func (hm.funcs entry (Array.mem_of_getElem? hentry)))

theorem safe_pushNativev (hm : m.Sound floor) (hs : s.Sound m floor) :
    Safe m floor (m.perform call ctx (.pushNativev addr)) s fun _ _ => True := by
  unfold perform
  dsimp only
  split
  · exact .defect _
  · rename_i entry hentry
    exact .push hs (hs.func (hm.funcvs entry (Array.mem_of_getElem? hentry)))

theorem safe_deref (hs : s.Sound m floor) :
    Safe m floor (m.perform call ctx .deref) s fun _ _ => True :=
  .bind (.pop hs) fun _ _ h₁ hv => .bind (.pointee h₁.sound hv)
    fun _ _ h₂ hp => .bind (.load h₂.sound hp) fun _ _ h₃ hw => .push h₃.sound hw

theorem safe_field (hs : s.Sound m floor) :
    Safe m floor (m.perform call ctx (.field index)) s fun _ _ => True := by
  refine .bind (.pop hs) fun v s₁ h₁ hv => ?_
  split
  · split
    · rename_i fields _ w hw
      exact .push h₁.sound (Value.allWithin_iff.1 hv w (List.mem_of_getElem? hw))
    · exact .defect _
  · exact .fail _

end

/-- Instructions are safe, whatever they name. -/
theorem safe_perform (hm : m.Sound floor) (hcall : m.SafeCaller floor s.depth call)
    (hs : s.Sound m floor) (hctx : ctx < s.world.store.frames.size) (i : Instr) :
    Safe m floor (m.perform call ctx i) s fun _ _ => True := by
  cases i with
  | nop | ret _ | retVars => exact .pure hs trivial
  | pushInt k n =>
    cases k with
    | some k => exact .push hs (Value.isScalar_ofWord ..).within
    | none => exact .defect _
  | pushConst => exact safe_pushConst hm hs
  | pop n => exact .drop hs
  | loadVar => exact safe_loadVar hs hctx
  | storeVar => exact safe_storeVar hs hctx
  | addrVar => exact safe_addrVar hm hs hctx
  | addrOp => exact safe_addrOp hs
  | loadArg => exact safe_loadArg hs hctx
  | storeArg => exact safe_storeArg hs hctx
  | loadNativeVar => exact safe_loadNativeVar hm hs
  | builtinOp => exact safe_builtinOp hs
  | convert k =>
    cases k with
    | some k =>
      exact .bind (.pop hs) fun _ s₁ h₁ hv => .bind (.convert h₁.sound hv)
        fun _ s₂ h₂ hw => .push h₂.sound hw
    | none => exact .defect _
  | callFunc => exact safe_callFunc hm hcall hs hctx
  | callFuncv => exact safe_callFuncv hm hcall hs hctx
  | callNative => exact safe_callNative hm hcall hs
  | callNativev => exact safe_callNativev hm hcall hs
  | pushNative => exact safe_pushNative hm hs
  | pushNativev => exact safe_pushNativev hm hs
  | closure | hostClosure =>
    exact .bind (safe_makeClosure hm hs hctx) fun _ s₁ h₁ hc => .push h₁.sound hc
  | callClosure arity =>
    refine .bind (.pop hs) fun v s₁ h₁ hv => ?_
    split
    · exact safe_callClosure (hcall.later h₁) h₁.sound hv
    · exact .fail _
  | callValue arity =>
    exact .bind (.pop hs) fun v s₁ h₁ hv => safe_callValue hm (hcall.later h₁) h₁.sound hv
  | deref => exact safe_deref hs
  | field => exact safe_field hs

theorem safe_tick (hs : s.Sound m floor) : Safe m floor m.tick s fun _ _ => True := by
  unfold tick
  have hcounted : Thread.Sound m floor { s with steps := s.steps + 1 } := ⟨hs.store, hs.stack⟩
  have hfollows : s.Follows m floor { s with steps := s.steps + 1 } := ⟨hcounted, .refl _, rfl⟩
  refine Task.ensures_bind.2 (Task.ensures_modify.2 (Task.ensures_bind.2 (Task.ensures_get.2 ?_)))
  dsimp only
  split
  · split
    · trivial
    · split
      · trivial
      · exact ⟨hfollows, trivial⟩
  · split
    · trivial
    · exact ⟨hfollows, trivial⟩

/-- The words of a function run one by one, each within the code. -/
theorem safe_exec (hm : m.Sound floor) {stop offset : Nat} (hstop : stop ≤ m.program.code.size)
    (hcall : m.SafeCaller floor s.depth call) (hs : s.Sound m floor)
    (hctx : ctx < s.world.store.frames.size) :
    Safe m floor (m.exec call ctx stop offset) s fun _ _ => True := by
  induction hn : stop - offset generalizing offset s with
  | zero =>
    rw [exec, if_neg (by omega)]
    exact .pure hs trivial
  | succ n ih =>
    rw [exec, if_pos (by omega)]
    refine .bind (safe_tick hs) fun _ s₁ h₁ _ => ?_
    have hoffset : offset < m.program.code.size := by omega
    have hword := Array.getElem?_eq_getElem hoffset
    refine .bind (Q := fun _ s' => s₁ = s') (.expect h₁.sound hword rfl) ?_
    rintro w _ - rfl
    split
    · exact .defect _
    · rename_i i _
      have hstep : Safe m floor (m.step call ctx i) s₁ fun _ _ => True := by
        unfold step
        split
        · exact .pure h₁.sound trivial
        · exact .pure h₁.sound trivial
        · exact .bind (safe_perform hm (hcall.later h₁) h₁.sound (h₁.lt_frames hctx) _)
            fun _ _ h _ => .pure h.sound trivial
      refine .bind hstep fun going s₂ h₂ _ => ?_
      have hlater := h₁.trans h₂
      cases going with
      | next =>
        exact ih (hcall.later hlater) hlater.sound (hlater.lt_frames hctx) (by omega)
      | ret n => exact .pure h₂.sound trivial

/-- Only functions with code run any. -/
theorem safe_call_of_defined {room id parent : Nat} (hid : id < m.program.funcs.size)
    (h : ∀ entry stop, m.program.funcs[id].entry = some entry → m.program.funcs[id].stop = some stop →
      Safe m floor (m.call room id parent) s fun _ _ => True) :
    Safe m floor (m.call room id parent) s fun _ _ => True := by
  cases hentry : m.program.funcs[id].entry with
  | none =>
    unfold Machine.call
    simp only [Program.func_of_lt hid, Task.ofChecked, pure_bind, hentry]
    exact .defect _
  | some entry =>
    cases hstop : m.program.funcs[id].stop with
    | none =>
      unfold Machine.call
      simp only [Program.func_of_lt hid, Task.ofChecked, pure_bind, hentry, hstop]
      exact .defect _
    | some stop => exact h entry stop hentry hstop

/-- Calls are safe at every depth: where there is no room left, the limit has been met. -/
theorem safe_call (hm : m.Sound floor) {room d : Nat} (hroom : room + d = m.limits.callDepth) :
    m.SafeCaller floor d (m.call room) := by
  induction room generalizing d with
  | zero =>
    intro id parent s hs hd hid _
    refine safe_call_of_defined hid fun entry stop hentry hstop => ?_
    have hdescend := m.exec_descend s m.program.funcs[id].name
    rw [if_pos (by omega)] at hdescend
    unfold Safe Task.Ensures
    rw [call_zero (Program.func_of_lt hid) hentry hstop, Task.exec_bind_error hdescend]
    trivial
  | succ room ih =>
    intro id parent s hs hd hid hparent
    refine safe_call_of_defined hid fun entry stop hentry hstop => ?_
    have hdescend := m.exec_descend s m.program.funcs[id].name
    rw [if_neg (by omega)] at hdescend
    have hdeeper : Thread.Sound m floor { s with depth := s.depth + 1 } := ⟨hs.store, hs.stack⟩
    have hbound := hm.program.stops _ (Array.getElem_mem hid) stop hstop
    have henter : Safe m floor (m.enter (m.call room) id parent m.program.funcs[id] entry stop)
        { s with depth := s.depth + 1 } fun _ _ => True := by
      unfold enter
      refine .bind (Q := fun _ s' => ({ s with depth := s.depth + 1 } : Thread) = s')
        (.get (.pure hdeeper rfl)) ?_
      rintro base _ - rfl
      refine .bind (safe_openFrame hm hdeeper hid hparent) fun frame s₁ h₁ hframe => ?_
      refine .bind (.within (safe_exec hm hbound (ih ?_) h₁.sound hframe))
        fun n s₂ h₂ _ => safe_finish h₂.sound (h₂.lt_frames hframe)
      rw [h₁.depth]
      show room + (s.depth + 1) = _
      omega
    unfold Safe
    rw [call_succ (Program.func_of_lt hid) hentry hstop]
    refine Task.ensures_bind.2 ?_
    unfold Task.Ensures
    rw [hdescend]
    refine Task.ensures_bind.2 (Task.Ensures.imp henter fun _ s₁ h₁ => ?_)
    refine ⟨⟨⟨h₁.1.sound.store, h₁.1.sound.stack⟩, h₁.1.grows, ?_⟩, trivial⟩
    show s₁.depth - 1 = s.depth
    rw [h₁.1.depth]
    rfl

/-- A sound machine ends with a result or with an error from any sound world. -/
theorem safe_run (hm : m.Sound floor) {w : World} (hw : w.store.Sound m floor) :
    HostTask.Safe m floor m.run w fun frame w' => frame < w'.store.frames.size := by
  obtain ⟨hsound, hgrows, hframe⟩ := hw.newFrame (f := ⟨none, none, 0, m.globals⟩)
    { func := fun _ h => nomatch h
      parent := fun _ h => nomatch h
      vars := fun v hv => hm.globals v hv _ }
  have hends : Safe m floor (m.exec m.callTop w.store.frames.size m.program.mainEnd 0)
      ⟨m.entered w, #[], 0, 0⟩ fun _ _ => True :=
    safe_exec hm hm.program.mainEnd (safe_call hm rfl) ⟨hsound, fun v hv => by simp at hv⟩ hframe
  unfold HostTask.Safe Task.Ensures
  rw [exec_run]
  unfold Safe Task.Ensures at hends
  generalize Task.exec _ _ = r at hends ⊢
  obtain ⟨e | n, t⟩ := r
  · exact hends
  · exact ⟨hends.1.sound.store, hgrows.trans hends.1.grows,
      Nat.lt_of_lt_of_le hframe hends.1.grows.frames⟩

end Machine

end StackScript
