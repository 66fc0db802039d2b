import StackScript.Proofs.Translation.Steps

/-!
# The words that assembling steps add

One lemma for each way to append a word: which instruction it is, and that nothing else changes
(`Step`). Constants go through the pool, which may hand out an entry that it does not tell apart.
-/

namespace StackScript

open CompileState

variable {L : Layout} {s s' s'' : CompileState}

/-! ## Steps -/

/-- A step that adds code as described and declares nothing. -/
structure Step (L : Layout) (s s' : CompileState) (R : Output → List Instr → Prop) : Prop where
  grows : Grows s s'
  tidy : s'.Tidy
  same : SameDecls s s'
  emitted : Emitted L s s' R

namespace Step

variable {R R' : Output → List Instr → Prop}

theorem mono (h : Step L s s' R) (hR : ∀ o is, Completes L s' o → R o is → R' o is) :
    Step L s s' R' :=
  { h with emitted := h.emitted.mono hR }

theorem seq (h : Step L s s' R) (h' : Step L s' s'' R') :
    Step L s s'' fun o is => ∃ is₁ is₂, is = is₁ ++ is₂ ∧ R o is₁ ∧ R' o is₂ where
  grows := h.grows.trans h'.grows
  tidy := h'.tidy
  same := h.same.trans h'.same
  emitted := h.emitted.seq h'.emitted h'.grows

end Step

theorem step_push {e : Inferred} (ht : s.Tidy) (he : e.Lies) (hslot : e.slot? = none) :
    Step L s (s.withShadow (e :: s.shadow)) fun _ is => is = [] where
  grows := grows_push
  tidy := tidy_push ht he hslot
  same := sameDecls_withShadow
  emitted := .nil rfl

theorem step_replace {es rest : Shadow} (es' : Shadow) (ht : s.Tidy) (hs : s.shadow = es ++ rest)
    (hes : ∀ e ∈ es, e.slot? = none) (hes' : ∀ e ∈ es', e.slot? = none ∧ e.Lies) :
    Step L s (s.withShadow (es' ++ rest)) fun _ is => is = [] where
  grows := grows_replace hs hes
  tidy := tidy_replace ht hs hes hes'
  same := sameDecls_withShadow
  emitted := .nil rfl

theorem step_drop {e : Inferred} {rest : Shadow} (ht : s.Tidy) (hs : s.shadow = e :: rest)
    (he : e.slot? = none) : Step L s (s.withShadow rest) fun _ is => is = [] :=
  step_replace [] ht (show s.shadow = [e] ++ rest from hs) (by simpa using he) (by simp)

theorem step_swap {e e' : Inferred} {rest : Shadow} (ht : s.Tidy) (hs : s.shadow = e :: rest)
    (he : e.slot? = none) (hlies : e'.Lies) (he' : e'.slot? = none) :
    Step L s (s.withShadow (e' :: rest)) fun _ is => is = [] :=
  step_replace [e'] ht (show s.shadow = [e] ++ rest from hs) (by simpa using he) (by simpa using ⟨he', hlies⟩)

namespace Compile

variable {env : CompileEnv}

/-! ## Plain words -/

/-- The step adds one instruction and leaves the shadow stack as it is. -/
def Adds (L : Layout) (s : CompileState) (i : Instr) (s' : CompileState) : Prop :=
  s'.shadow = s.shadow ∧ Step L s s' fun _ is => is = [i]

theorem ensures_emitChecked {r : Except Fault Word} {i : Instr} (ht : s.Tidy)
    (hok : ∀ w, r = .ok w → w.decode? = some i) (herror : ∀ f, r = .error f → f.Overflows) :
    Ensures env (asm (Assembly.emitChecked r)) s fun _ => Adds L s i := by
  refine ensures_asm ?_
  unfold Assembly.emitChecked
  refine Task.ensures_bind.2 (Task.ensures_ofChecked.2 ⟨fun w hw => ?_, fun f hf => ?_⟩)
  · show Adds L s i (s.withWord w s.asm.consts)
    exact ⟨rfl, grows_withWord (.refl _), tidy_withWord ht ht.scalars, sameDecls_withWord,
      emitted_withWord ht (hok w hw)⟩
  · exact ⟨f, rfl, herror f hf⟩

/-- A word made of an opcode and an operand. -/
theorem ensures_make {op : Opcode} {n : Nat} {i : Instr} (ht : s.Tidy)
    (hi : ∀ w : Word, w.Fields op n → Instr.ofOpcode w op = i) :
    Ensures env (asm (Assembly.emitChecked (Word.make op n))) s fun _ => Adds L s i :=
  ensures_emitChecked ht
    (fun w hw => by rw [(Word.fields_of_make hw).decode?, hi w (Word.fields_of_make hw)])
    fun _ => Word.overflows_of_make

/-- A word with the address of a variable. -/
theorem ensures_makeVar {op : Opcode} {scope index : Nat} {i : Instr} (ht : s.Tidy)
    (hi : ∀ w : Word, w.address = (scope, index) → Instr.ofOpcode w op = i) :
    Ensures env (asm (Assembly.emitChecked (Word.makeVar op scope index))) s fun _ => Adds L s i :=
  ensures_emitChecked ht
    (fun w hw => by
      obtain ⟨hop, haddress⟩ := Word.fields_of_makeVar hw
      rw [Word.decode?, hop, Option.map_some, hi w haddress])
    fun _ => Word.overflows_of_makeVar

theorem ensures_loadVar {scope index : Nat} (ht : s.Tidy) :
    Ensures env (asm (Assembly.loadVar scope index)) s fun _ =>
      Adds L s (.loadVar (.ofField scope) index) :=
  ensures_makeVar ht fun w h => by rw [Instr.ofOpcode, h]

theorem ensures_storeVar {scope index : Nat} (ht : s.Tidy) :
    Ensures env (asm (Assembly.storeVar scope index)) s fun _ =>
      Adds L s (.storeVar (.ofField scope) index) :=
  ensures_makeVar ht fun w h => by rw [Instr.ofOpcode, h]

theorem ensures_addrVar {scope index : Nat} (ht : s.Tidy) :
    Ensures env (asm (Assembly.addrVar scope index)) s fun _ =>
      Adds L s (.addrVar (.ofField scope) index) :=
  ensures_makeVar ht fun w h => by rw [Instr.ofOpcode, h]

theorem ensures_addrOp {k : Kind} {op : AddressOperator} (ht : s.Tidy) :
    Ensures env (asm (Assembly.addrOp k op)) s fun _ =>
      Adds L s (.addrOp k.nameable op.nameable) :=
  ensures_emitChecked ht (fun _ => Word.decode?_of_makeAddressOperator)
    fun _ => Word.overflows_of_make

theorem ensures_loadArg {below : Nat} (ht : s.Tidy) :
    Ensures env (asm (Assembly.loadArg below)) s fun _ => Adds L s (.loadArg below) :=
  ensures_make ht fun w h => by rw [Instr.ofOpcode, h.operand]

theorem ensures_storeArg {below : Nat} (ht : s.Tidy) :
    Ensures env (asm (Assembly.storeArg below)) s fun _ => Adds L s (.storeArg below) :=
  ensures_make ht fun w h => by rw [Instr.ofOpcode, h.operand]

theorem ensures_loadNativeVar {addr : Nat} (ht : s.Tidy) :
    Ensures env (asm (Assembly.loadNativeVar addr)) s fun _ => Adds L s (.loadNativeVar addr) :=
  ensures_make ht fun w h => by rw [Instr.ofOpcode, h.operand]

theorem ensures_builtinOp {k : Kind} {op : Operator} (ht : s.Tidy) :
    Ensures env (asm (Assembly.builtinOp k op)) s fun _ =>
      Adds L s (.builtinOp k.nameable (some op)) :=
  ensures_emitChecked ht (fun _ => Word.decode?_of_makeOperator) fun _ => Word.overflows_of_make

theorem ensures_convert {k : Kind} (ht : s.Tidy) :
    Ensures env (asm (Assembly.convert k)) s fun _ => Adds L s (.convert k.nameable) :=
  ensures_emitChecked ht (fun _ => Word.decode?_of_makeConvert) fun _ => Word.overflows_of_make

theorem ensures_callNative {addr : Nat} (ht : s.Tidy) :
    Ensures env (asm (Assembly.callNative addr)) s fun _ => Adds L s (.callNative addr) :=
  ensures_make ht fun w h => by rw [Instr.ofOpcode, h.operand]

theorem ensures_pushNative {addr : Nat} (ht : s.Tidy) :
    Ensures env (asm (Assembly.pushNative addr)) s fun _ => Adds L s (.pushNative addr) :=
  ensures_make ht fun w h => by rw [Instr.ofOpcode, h.operand]

theorem ensures_pushNativev {addr : Nat} (ht : s.Tidy) :
    Ensures env (asm (Assembly.pushNativev addr)) s fun _ => Adds L s (.pushNativev addr) :=
  ensures_make ht fun w h => by rw [Instr.ofOpcode, h.operand]

theorem ensures_callClosure {arity : Arity} (ht : s.Tidy) :
    Ensures env (asm (Assembly.callClosure arity)) s fun _ =>
      Adds L s (.callClosure (.ofOperand (Assembly.dynamicOperand arity))) :=
  ensures_make ht fun w h => by rw [Instr.ofOpcode, h.operand]

theorem ensures_callValue {arity : Arity} (ht : s.Tidy) :
    Ensures env (asm (Assembly.callValue arity)) s fun _ =>
      Adds L s (.callValue (.ofOperand (Assembly.dynamicOperand arity))) :=
  ensures_make ht fun w h => by rw [Instr.ofOpcode, h.operand]

theorem ensures_deref (ht : s.Tidy) :
    Ensures env (asm Assembly.deref) s fun _ => Adds L s .deref :=
  ensures_make ht fun _ _ => rfl

theorem ensures_field {index : Nat} (ht : s.Tidy) :
    Ensures env (asm (Assembly.field index)) s fun _ =>
      Adds L s (.field (Assembly.narrow index)) :=
  ensures_make ht fun w h => by rw [Instr.ofOpcode, h.operand]

theorem ensures_ret {n : Nat} (ht : s.Tidy) :
    Ensures env (asm (Assembly.ret n)) s fun _ => Adds L s (.ofReturn (Assembly.narrow n)) :=
  ensures_make ht fun w h => by rw [Instr.ofOpcode, h.operand]; rfl

theorem ensures_retVars (ht : s.Tidy) :
    Ensures env (asm Assembly.retVars) s fun _ => Adds L s .retVars :=
  ensures_make ht fun w h => by rw [Instr.ofOpcode, h.operand, if_pos rfl]

theorem ensures_popWords {n : Nat} (ht : s.Tidy) :
    Ensures env (asm (Assembly.pop n)) s fun _ s' =>
      s'.shadow = s.shadow ∧ Step L s s' fun _ is => is = Instr.popping n := by
  unfold Assembly.pop
  split
  · refine (ensures_make (L := L) (i := .pop (Assembly.narrow n)) ht fun w h => ?_).imp
      fun _ s' h => ⟨h.1, h.2.mono fun o is _ hi => ?_⟩
    · rw [Instr.ofOpcode, h.operand]
    · rw [hi, Instr.popping, if_pos ‹_›]
  · refine ⟨rfl, .refl _, ht, .refl _, (Emitted.nil rfl).mono fun o is _ hi => ?_⟩
    rw [hi, Instr.popping, if_neg ‹_›]

/-! ## Constants -/

theorem alike_refl (v : Value) : v.Alike v := ⟨rfl, .inl rfl⟩

/-- A constant has a place in the pool, which only grows. -/
theorem ensures_poolIndex {v : Value} {a : Assembly} {E : Stop BuildError → Assembly → Prop}
    (hv : v.IsScalar) (ha : AllScalar a.consts) :
    (Assembly.poolIndex v).Ensures a (fun index a' => ∃ consts u,
      a' = { a with consts } ∧ Extends a.consts consts ∧ AllScalar consts ∧
        consts[index]? = some u ∧ v.Alike u) E := by
  unfold Assembly.poolIndex
  refine Task.ensures_bind.2 ?_
  simp only [Task.ensures_get]
  split
  · rename_i index hindex
    obtain ⟨hlt, hfound, -⟩ := Array.findIdx?_eq_some_iff_getElem.1 hindex
    simp only [Bool.and_eq_true, beq_iff_eq] at hfound
    exact ⟨a.consts, a.consts[index], rfl, .refl _, ha, Array.getElem?_eq_getElem hlt, hfound.2,
      .inr hfound.1⟩
  · exact ⟨a.consts.push v, v, rfl, .push _ _, ha.push hv, by simp, alike_refl v⟩

theorem ofWord_toInt (k : IntKind) (n : BitVec k.width) :
    Value.ofWord .int (.int k) (k.toInt n) = .scalar (.int k n) := by
  show Value.scalar (.int k (BitVec.ofInt k.width (k.toInt n))) = _
  unfold IntKind.toInt
  split
  · rw [BitVec.ofInt_toInt]
  · rw [BitVec.ofInt_natCast, BitVec.ofNat_toNat, BitVec.setWidth_eq]

/-- The word of a value pushes it, or what the pool has for it. -/
theorem ensures_valueWord {v : Value} {a : Assembly} (hv : v.IsScalar) (ha : AllScalar a.consts) :
    (Assembly.valueWord v).Ensures a (fun w a' => ∃ consts i u,
      a' = { a with consts } ∧ Extends a.consts consts ∧ AllScalar consts ∧ w.decode? = some i ∧
        i.pushed? consts = some u ∧ v.Alike u) fun e _ => ∃ f, e = .fault f ∧ f.Overflows := by
  have pooled : (do Task.ofChecked (Word.make .pushConst (← Assembly.poolIndex v)) : Asm Word).Ensures
      a (fun w a' => ∃ consts i u, a' = { a with consts } ∧ Extends a.consts consts ∧
        AllScalar consts ∧ w.decode? = some i ∧ i.pushed? consts = some u ∧ v.Alike u)
      fun e _ => ∃ f, e = .fault f ∧ f.Overflows := by
    refine (ensures_poolIndex hv ha).bind fun index a' ⟨consts, u, ha, hext, hall, hindex, hu⟩ => ?_
    refine Task.ensures_ofChecked.2 ⟨fun w hw => ?_, fun f hf => ⟨f, rfl, Word.overflows_of_make hf⟩⟩
    have hfields := Word.fields_of_make hw
    refine ⟨consts, .pushConst index, u, ha, hext, hall, ?_, hindex, hu⟩
    rw [hfields.decode?, Instr.ofOpcode, hfields.operand]
  unfold Assembly.valueWord
  split
  · rename_i k n
    split
    · refine Task.ensures_ofChecked.2
        ⟨fun w hw => ?_, fun f hf => ⟨f, rfl, Word.overflows_of_makeInt hf⟩⟩
      refine ⟨a.consts, _, _, rfl, .refl _, ha, Word.decode?_of_makeInt hw, rfl, ?_⟩
      rw [ofWord_toInt]
      exact alike_refl _
    · exact pooled
  · exact pooled

/-- A value is pushed as it is, or as what the pool has for it. -/
theorem ensures_pushValue {v : Value} (ht : s.Tidy) (hv : v.IsScalar) :
    Ensures env (asm (Assembly.pushValue v)) s fun _ s' => s'.shadow = s.shadow ∧
      Step L s s' fun o is => ∃ i u, is = [i] ∧ i.pushed? o.program.consts = some u ∧
        v.Alike u := by
  refine ensures_asm ?_
  unfold Assembly.pushValue
  refine (ensures_valueWord hv ht.scalars).bind
    fun w a' ⟨consts, i, u, ha, hext, hall, hw, hpush, hu⟩ => ?_
  subst ha
  show _ ∧ Step L s (s.withWord w consts) _
  refine ⟨rfl, grows_withWord hext, tidy_withWord ht hall, sameDecls_withWord, ?_⟩
  refine (emitted_withWord ht hw).mono fun o is ho his => ⟨i, u, his, ?_, hu⟩
  exact Instr.pushed?_of_extends ho.consts hpush

/-! ## References to functions -/

/-- A word that refers to a function. -/
theorem ensures_emitRef {r : Except Fault Word} {id : Nat} {R : Output → List Instr → Prop}
    (ht : s.Tidy) (hid : id < s.asm.funcs.size) (herror : ∀ f, r = .error f → f.Overflows)
    (hok : ∀ w, r = .ok w → ∀ o f place w', o.program.funcs[id]? = some f →
      o.program.At id f.isVariadic place → place < Word.closureRange →
      Assembly.pointTo f place w = .ok w' → ∃ i, w'.decode? = some i ∧ R o [i]) :
    Ensures env (asm (Assembly.emitRef r id)) s fun _ s' =>
      s'.shadow = s.shadow ∧ Step L s s' R := by
  refine ensures_asm ?_
  unfold Assembly.emitRef
  refine Task.ensures_bind.2 (Task.ensures_ofChecked.2 ⟨fun w hw => ?_, fun f hf => ?_⟩)
  · have hfunc : (s.asm.funcs[id]?).isSome := by simp [hid]
    obtain ⟨f, hf⟩ := Option.isSome_iff_exists.1 hfunc
    have hemit : (Assembly.emit w).exec s.asm =
        (.ok s.asm.code.size, { s.asm with code := s.asm.code.push w }) := rfl
    refine Task.ensures_bind.2 (Task.Ensures.of_exec (fun a a' ha => ?_) fun e a' ha => ?_)
    · rw [hemit] at ha
      cases ha
      refine Task.ensures_bind.2 (Task.ensures_discard.2 ?_)
      refine Task.ensures_bind.2 (Task.ensures_expect.2 ⟨fun g _ => ?_, fun hnone => ?_⟩)
      · show _ ∧ Step L s (s.withRef w id) R
        exact ⟨rfl, grows_withRef, tidy_withRef ht hid, sameDecls_withRef,
          emitted_withRef fun o f place w' _ => hok w hw o f place w'⟩
      · rw [hf] at hnone
        cases hnone
    · rw [hemit] at ha
      cases ha
  · exact ⟨f, rfl, herror f hf⟩

theorem decode?_of_pointTo_callFunc {f : FuncInfo} {place : Nat} {w w' : Word}
    (h : Word.make .callFunc 0 = .ok w) (hp : Assembly.pointTo f place w = .ok w')
    (hlt : place < Word.closureRange) : w'.decode? = some (.callFunc place) := by
  have hfields := Word.fields_of_make h
  rw [Assembly.pointTo, hfields.opcode] at hp
  have hw' := Word.fields_of_setBits h hp (by simp) (by
    rw [Word.operandRange_eq]; rw [Word.closureRange_eq] at hlt; omega)
  rw [hw'.decode?, Instr.ofOpcode, hw'.operand, Nat.zero_add]

/-- The flag of a variadic closure is set beside its place. -/
theorem closure_of_operand {w : Word} {variadic : Bool} {place : Nat}
    (hlt : place < Word.closureRange)
    (h : w.operand = if variadic then place ||| Word.closureRange else place) :
    w.closure = (variadic, place) := by
  cases variadic with
  | true =>
    have hor : place ||| Word.closureRange = Word.closureRange + place := by
      rw [Nat.or_comm]
      exact (Nat.two_pow_add_eq_or_of_lt (i := 25) hlt 1).symm
    rw [if_pos rfl, hor] at h
    rw [Word.closure, h, Nat.add_mod_left, Nat.mod_eq_of_lt hlt]
    simp
  | false =>
    rw [if_neg (by simp)] at h
    rw [Word.closure, h, Nat.mod_eq_of_lt hlt]
    simpa using hlt

theorem fields_of_pointTo_closure {op : Opcode} (hop : op = .closure ∨ op = .hostClosure)
    {f : FuncInfo} {place : Nat} {w w' : Word} (h : Word.make op 0 = .ok w)
    (hp : Assembly.pointTo f place w = .ok w') (hlt : place < Word.closureRange) :
    w'.opcode? = some op ∧ w'.closure = (f.isVariadic, place) := by
  have hfields := Word.fields_of_make h
  have hset : w.withOperandBits (if f.isVariadic then place ||| Word.closureRange else place) =
      .ok w' := by
    obtain rfl | rfl := hop <;>
    · rw [Assembly.pointTo, hfields.opcode] at hp
      exact hp
  have hbits := Word.lt_of_withOperandBits hset
  have hw' := Word.fields_of_setBits h hset (by simp) (by rwa [Nat.zero_add])
  refine ⟨hw'.opcode, closure_of_operand hlt ?_⟩
  rw [hw'.operand, Nat.zero_add]

theorem decode?_of_pointTo_callFuncv {f : FuncInfo} {field place : Nat} {w w' : Word}
    (h : Word.makeVariadicCall .callFuncv field 0 = .ok w)
    (hp : Assembly.pointTo f place w = .ok w') :
    w'.decode? = some (.callFuncv (.ofField field) place) := by
  obtain ⟨hfields, -, hfield⟩ := Word.fields_of_makeVariadicCall h
  rw [Assembly.pointTo, hfields.opcode] at hp
  simp only at hp
  split at hp
  · rename_i hplace
    have hmake := Word.make_of_makeVariadicCall h
    rw [Nat.add_zero] at hmake
    have hor : field * Word.tableRange ||| place = field * Word.tableRange + place := by
      rw [Nat.mul_comm]
      exact (Nat.two_pow_add_eq_or_of_lt (i := 16) hplace field).symm
    have hlt : field * Word.tableRange + place < Word.operandRange := by
      rw [Word.tableRange_eq] at *
      rw [Word.operandRange_eq]
      have : Word.spreadArity = 1023 := rfl
      omega
    have hw' := Word.fields_of_setBits hmake hp hor hlt
    rw [hw'.decode?, Instr.ofOpcode, Word.variadicCall_of_operand hplace hw'.operand]
  · cases hp

theorem ensures_callFunc {id : Nat} (ht : s.Tidy) (hid : id < s.asm.funcs.size) :
    Ensures env (asm (Assembly.callFunc id)) s fun _ s' => s'.shadow = s.shadow ∧
      Step L s s' fun o is => ∃ f place, o.program.funcs[id]? = some f ∧
        o.program.At id f.isVariadic place ∧ is = [.callFunc place] :=
  ensures_emitRef ht hid (fun _ => Word.overflows_of_make) fun _ hw _ f place _ hf hat hlt hp =>
    ⟨.callFunc place, decode?_of_pointTo_callFunc hw hp hlt, f, place, hf, hat, rfl⟩

theorem ensures_closure {id : Nat} (ht : s.Tidy) (hid : id < s.asm.funcs.size) :
    Ensures env (asm (Assembly.closure id)) s fun _ s' => s'.shadow = s.shadow ∧
      Step L s s' fun o is => ∃ variadic place, o.program.At id variadic place ∧
        is = [.closure variadic place] :=
  ensures_emitRef ht hid (fun _ => Word.overflows_of_make) fun _ hw _ f place _ _ hat hlt hp => by
    obtain ⟨hop, hclosure⟩ := fields_of_pointTo_closure (.inl rfl) hw hp hlt
    refine ⟨.closure f.isVariadic place, ?_, f.isVariadic, place, hat, rfl⟩
    rw [Word.decode?, hop, Option.map_some, Instr.ofOpcode, hclosure]

theorem ensures_hostClosure {id : Nat} (ht : s.Tidy) (hid : id < s.asm.funcs.size) :
    Ensures env (asm (Assembly.hostClosure id)) s fun _ s' => s'.shadow = s.shadow ∧
      Step L s s' fun o is => ∃ variadic place, o.program.At id variadic place ∧
        is = [.hostClosure variadic place] :=
  ensures_emitRef ht hid (fun _ => Word.overflows_of_make) fun _ hw _ f place _ _ hat hlt hp => by
    obtain ⟨hop, hclosure⟩ := fields_of_pointTo_closure (.inr rfl) hw hp hlt
    refine ⟨.hostClosure f.isVariadic place, ?_, f.isVariadic, place, hat, rfl⟩
    rw [Word.decode?, hop, Option.map_some, Instr.ofOpcode, hclosure]

/-! ## Variadic calls -/

theorem ofField_of_lt {n : Nat} (h : n < Word.overflowArity) : ArityField.ofField n = .count n := by
  have h' : n < 1022 := h
  have hspread : ¬n = Word.spreadArity := fun heq => by
    have : n = 1023 := heq
    omega
  have hoverflow : ¬n = Word.overflowArity := fun heq => by
    have : n = 1022 := heq
    omega
  rw [ArityField.ofField, if_neg hspread, if_neg hoverflow]

/-- The argument count of a variadic call is in its field, or in part on the stack. -/
theorem ensures_arityField {arity : Arity} (ht : s.Tidy) :
    Ensures env (asm (Assembly.arityField arity)) s fun n s' => s'.shadow = s.shadow ∧
      Step L s s' fun o is => ArityCode o.program arity is (.ofField n) := by
  have none {n : Nat} (h : ∀ p, ArityCode p arity [] (.ofField n)) : Step L s s fun o is =>
      ArityCode o.program arity is (.ofField n) :=
    ⟨.refl _, ht, .refl _, (Emitted.nil rfl).mono fun o is _ his => by subst his; exact h _⟩
  cases arity with
  | spread => exact ⟨rfl, none fun _ => .spread⟩
  | count n =>
    simp only [Assembly.arityField]
    split
    · rename_i hn
      refine ensures_asm_bind.2 (ensures_asm_discard.2 ?_)
      refine (ensures_pushValue (L := L) ht ⟨_, rfl⟩).imp fun _ s' ⟨hshadow, hstep⟩ => ?_
      refine ⟨hshadow, hstep.mono fun o is _ ⟨i, u, his, hpush, hu⟩ => ?_⟩
      subst his
      exact .overflow hn hpush hu
    · rename_i hn
      have hlt : Assembly.narrow n < Word.overflowArity := Nat.lt_of_not_le hn
      exact ⟨rfl, none fun _ => ofField_of_lt hlt ▸ .count hlt⟩

theorem ensures_callFuncv {id : Nat} {arity : Arity} (ht : s.Tidy)
    (hid : id < s.asm.funcs.size) :
    Ensures env (asm (Assembly.callFuncv id arity)) s fun _ s' => s'.shadow = s.shadow ∧
      Step L s s' fun o is => ∃ f place js field, o.program.funcs[id]? = some f ∧
        o.program.At id f.isVariadic place ∧ ArityCode o.program arity js field ∧
        is = js ++ [.callFuncv field place] := by
  unfold Assembly.callFuncv
  refine ensures_asm_bind.2 ?_
  refine (ensures_arityField (L := L) ht).imp fun n s' ⟨hshadow, hstep⟩ => ?_
  have hcall : Ensures env (asm (Assembly.emitRef (Word.makeVariadicCall .callFuncv n 0) id)) s'
      fun _ s'' => s''.shadow = s'.shadow ∧ Step L s' s'' fun o is => ∃ f place,
        o.program.funcs[id]? = some f ∧ o.program.At id f.isVariadic place ∧
          is = [.callFuncv (.ofField n) place] :=
    ensures_emitRef hstep.tidy (by rwa [hstep.same.funcs]) (fun _ => Word.overflows_of_makeVariadicCall)
      fun w hw o f place w' hf hat _ hp =>
        ⟨_, decode?_of_pointTo_callFuncv hw hp, f, place, hf, hat, rfl⟩
  refine hcall.imp fun _ s'' ⟨hshadow', hstep'⟩ => ⟨hshadow'.trans hshadow, ?_⟩
  refine (hstep.seq hstep').mono fun o is _ ⟨js, ks, his, hjs, f, place, hf, hat, hks⟩ => ?_
  exact ⟨f, place, js, _, hf, hat, hjs, by rw [his, hks]⟩

theorem ensures_callNativev {addr : Nat} {arity : Arity} (ht : s.Tidy) :
    Ensures env (asm (Assembly.callNativev addr arity)) s fun _ s' => s'.shadow = s.shadow ∧
      Step L s s' fun o is => ∃ js field, ArityCode o.program arity js field ∧
        is = js ++ [.callNativev field addr] := by
  unfold Assembly.callNativev
  refine ensures_asm_bind.2 ?_
  refine (ensures_arityField (L := L) ht).imp fun n s' hfield => ?_
  obtain ⟨hshadow, hstep⟩ := hfield
  have hcall : Ensures env (asm (Assembly.emitChecked (Word.makeVariadicCall .callNativev n addr)))
      s' fun _ => Adds L s' (.callNativev (.ofField n) addr) :=
    ensures_emitChecked hstep.tidy (fun w hw => by
      obtain ⟨hfields, haddr, -⟩ := Word.fields_of_makeVariadicCall hw
      rw [hfields.decode?, Instr.ofOpcode, Word.variadicCall_of_operand haddr hfields.operand])
      fun _ => Word.overflows_of_makeVariadicCall
  refine hcall.imp fun _ s'' hcalled => ?_
  obtain ⟨hshadow', hstep'⟩ := hcalled
  refine ⟨hshadow'.trans hshadow, (hstep.seq hstep').mono fun o is _ hseq => ?_⟩
  obtain ⟨js, ks, his, hjs, hks⟩ := hseq
  exact ⟨js, _, hjs, by rw [his, hks]⟩

end Compile

end StackScript
