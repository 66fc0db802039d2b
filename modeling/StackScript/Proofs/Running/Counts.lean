import StackScript.Proofs.Running.Variadic
import StackScript.Proofs.Updating.Looking

/-!
# Counts in instructions

Argument counts and numbers of results are written into words, from which the machine reads them back.
Words keep the low thirty-two bits of a count. A call of a variadic function gives all of these back
(`Assembly.brings_callFuncv`, `Assembly.brings_callNativev`). A call whose callee is known at run time
only, and a return, give back just the counts below the one that stands for a spread slice and for the
result variables (`Assembly.callValue_keeps_iff`, `Assembly.ret_keeps_iff`): that one is accepted too,
and read as what it stands for.
-/

namespace StackScript

/-! ## Counts as words keep them -/

/-- The count as a word keeps it. -/
def Arity.narrowed : Arity → Arity
  | .count n => .count (Assembly.narrow n)
  | .spread => .spread

theorem narrow_eq_iff {n : Nat} : Assembly.narrow n = n ↔ n < 1 <<< 32 :=
  ⟨fun h => h ▸ Nat.mod_lt n (by decide), Nat.mod_eq_of_lt⟩

theorem Arity.narrowed_eq_iff {arity : Arity} :
    arity.narrowed = arity ↔ ∀ n, arity = .count n → n < 1 <<< 32 := by
  cases arity with
  | count n =>
    rw [narrowed, Arity.count.injEq, narrow_eq_iff]
    exact ⟨fun h k hk => Arity.count.inj hk ▸ h, fun h => h n rfl⟩
  | spread => simp [narrowed]

namespace Assembly

variable {a a' : Assembly} {arity : Arity} {n : Nat}

/-! ## Counts in the last word -/

/-- The last word as an instruction. -/
def last? (a : Assembly) : Option Instr := a.code.back?.bind Word.decode?

theorem exec_discard_eq_ok {α : Type} {t : Asm α} (h : (discard t).exec a = (.ok ⟨⟩, a')) :
    ∃ x, t.exec a = (.ok x, a') := by
  obtain ⟨x, a₁, ht, h⟩ := Task.exec_bind_eq_ok.1 h
  cases h
  exact ⟨x, ht⟩

theorem exec_emitChecked_eq_ok {w : Except Fault Word} (h : (emitChecked w).exec a = (.ok ⟨⟩, a')) :
    ∃ word, w = .ok word ∧ a' = { a with code := a.code.push word } := by
  cases w with
  | error f => cases h
  | ok word =>
    cases h
    exact ⟨word, rfl, rfl⟩

/-- The last word has the fields that it was made of. -/
theorem last?_of_make {op : Opcode} (h : (emitChecked (Word.make op n)).exec a = (.ok ⟨⟩, a')) :
    n < Word.operandRange ∧ ∃ w : Word, w.operand = n ∧ a'.last? = some (.ofOpcode w op) := by
  obtain ⟨word, hword, rfl⟩ := exec_emitChecked_eq_ok h
  have hfields := Word.fields_of_make hword
  refine ⟨(Word.toNat_of_make hword).1, word, hfields.operand, ?_⟩
  rw [last?, Array.back?_push, Option.bind_some, hfields.decode?]

/-- A count that fits into an operand is read back unless it is the one that stands for a spread
slice. -/
theorem ofOperand_eq_iff (h : dynamicOperand arity < Word.operandRange) :
    Arity.ofOperand (dynamicOperand arity) = arity ↔ Machine.Countable arity := by
  refine ⟨fun heq k hk => ?_, Machine.ofOperand_dynamicOperand⟩
  subst hk
  have hrange : Word.spreadCall + 1 = Word.operandRange := rfl
  unfold dynamicOperand at h heq
  dsimp only at h heq
  unfold Arity.ofOperand at heq
  split at heq
  · cases heq
  case isFalse hne =>
    have hnarrow : narrow k = k := Arity.count.inj heq
    omega

theorem callClosure_keeps_iff (h : (callClosure arity).exec a = (.ok ⟨⟩, a')) :
    a'.last? = some (.callClosure arity) ↔ Machine.Countable arity := by
  obtain ⟨hlt, w, hw, hlast⟩ := last?_of_make h
  rw [hlast, ← ofOperand_eq_iff hlt, ← hw, Option.some.injEq]
  exact Instr.callClosure.injEq _ _ ▸ Iff.rfl

theorem callValue_keeps_iff (h : (callValue arity).exec a = (.ok ⟨⟩, a')) :
    a'.last? = some (.callValue arity) ↔ Machine.Countable arity := by
  obtain ⟨hlt, w, hw, hlast⟩ := last?_of_make h
  rw [hlast, ← ofOperand_eq_iff hlt, ← hw, Option.some.injEq]
  exact Instr.callValue.injEq _ _ ▸ Iff.rfl

theorem last?_ret (h : (ret n).exec a = (.ok ⟨⟩, a')) : a'.last? = some (.ofReturn (narrow n)) := by
  obtain ⟨-, w, hw, hlast⟩ := last?_of_make h
  rw [hlast, Instr.ofReturn, Instr.ofOpcode, hw]

theorem ret_keeps_iff (h : (ret n).exec a = (.ok ⟨⟩, a')) :
    a'.last? = some (.ret n) ↔ n < Word.returnVars := by
  obtain ⟨hlt, -⟩ := last?_of_make h
  have hrange : Word.returnVars + 1 = Word.operandRange := rfl
  rw [last?_ret h, Instr.ofReturn, Option.some.injEq]
  constructor
  · intro heq
    split at heq
    · cases heq
    case isFalse hne =>
      have hnarrow : narrow n = n := Instr.ret.inj heq
      omega
  · intro hn
    have hlimit : Word.returnVars < 1 <<< 32 := by decide
    rw [narrow_eq_iff.2 (Nat.lt_trans hn hlimit), if_neg (Nat.ne_of_lt hn)]

/-- The return of as many values as the mark says is the return of the result variables. -/
example : ((ret Word.returnVars).exec .empty).2.last? = some .retVars := by decide

/-! ## Counts ahead of a call -/

/-- From the instructions and the field of the call that follows them a machine reads the count, whatever
else lies on the stack. -/
def Reads (consts : Array Value) (arity : Arity) (is : List Instr) (field : ArityField) : Prop :=
  ∀ (m : Machine) (caller : Caller) (ctx : Nat), Extends consts m.program.consts →
    ∃ top, (∀ s, (m.carryOut caller ctx is).exec s = (.ok (), s.above top)) ∧
      ∀ s, (Run.readArity field).exec (s.above top) = (.ok arity, s)

/-- More words, the last a call that brings the count. -/
def Brings (a a' : Assembly) (arity : Arity) (call : ArityField → Instr) : Prop :=
  ∃ ws is field, a'.code = a.code ++ ws.toArray ∧ Word.Spell ws (is ++ [call field]) ∧
    Reads a'.consts arity is field

theorem reads_nil {consts : Array Value} {field : ArityField}
    (h : ∀ s, (Run.readArity field).exec s = (.ok arity, s)) : Reads consts arity [] field :=
  fun _ _ _ _ => ⟨[], fun s => by rw [Thread.above_nil]; rfl, fun s => by rw [Thread.above_nil, h]⟩

theorem exec_pushValue_eq_ok {v : Value} {offset : Nat} (h : (pushValue v).exec a = (.ok offset, a')) :
    ∃ w i u, a'.code = a.code.push w ∧ w.decode? = some i ∧ i.pushed? a'.consts = some u ∧
      (u = v ∨ u.equal v = true) := by
  obtain ⟨w, a₁, hword, hemit⟩ := Task.exec_bind_eq_ok.1 h
  cases hemit
  obtain ⟨index, cs', u, -, -, hu, hequal, hindex⟩ := Compile.exists_poolIndex v a.consts
  have pooled (hpool : (do Task.ofChecked (Word.make .pushConst (← poolIndex v)) : Asm Word).exec a =
      (.ok w, a₁)) : a₁.code = a.code ∧ ∃ i u, w.decode? = some i ∧ i.pushed? a₁.consts = some u ∧
        (u = v ∨ u.equal v = true) := by
    rw [Task.exec_bind_ok (hindex a rfl), Task.exec_ofChecked] at hpool
    cases hmake : Word.make .pushConst index with
    | error f =>
      rw [hmake] at hpool
      cases hpool
    | ok w' =>
      rw [hmake] at hpool
      cases hpool
      exact ⟨rfl, .pushConst index, u, Word.decode?_of_make hmake fun w hw => by rw [Instr.ofOpcode, hw],
        hu, hequal.imp_right And.right⟩
  have inlined {k : IntKind} {x : BitVec k.width} (hv : v = .scalar (.int k x))
      (hinline : (Task.ofChecked (Word.makeInt (.int k) (k.toInt x)) : Asm Word).exec a = (.ok w, a₁)) :
      a₁.code = a.code ∧ ∃ i u, w.decode? = some i ∧ i.pushed? a₁.consts = some u ∧
        (u = v ∨ u.equal v = true) := by
    rw [Task.exec_ofChecked] at hinline
    cases hmake : Word.makeInt (.int k) (k.toInt x) with
    | error f =>
      rw [hmake] at hinline
      cases hinline
    | ok w' =>
      rw [hmake] at hinline
      cases hinline
      exact ⟨rfl, _, _, Word.decode?_of_makeInt hmake, rfl, .inl (hv ▸ Compile.ofWord_toInt k x)⟩
  obtain ⟨hcode, i, u, hi, hpushed, hu⟩ : a₁.code = a.code ∧ ∃ i u, w.decode? = some i ∧
      i.pushed? a₁.consts = some u ∧ (u = v ∨ u.equal v = true) := by
    unfold valueWord at hword
    split at hword
    · split at hword
      · exact inlined rfl hword
      · exact pooled hword
    · exact pooled hword
  exact ⟨w, i, u, congrArg (·.push w) hcode, hi, hpushed, hu⟩

/-- The field of a call, and the words ahead of it, give the count as words keep it. -/
theorem exec_arityField_eq_ok {field : Nat} (h : (arityField arity).exec a = (.ok field, a')) :
    ∃ ws is, a'.code = a.code ++ ws.toArray ∧ Word.Spell ws is ∧
      Reads a'.consts arity.narrowed is (.ofField field) := by
  cases arity with
  | spread =>
    cases h
    exact ⟨[], [], by simp, Word.spell_nil, reads_nil fun _ => rfl⟩
  | count n =>
    unfold arityField at h
    dsimp only at h
    split at h
    case isFalse hlt =>
      cases h
      refine ⟨[], [], by simp, Word.spell_nil, ?_⟩
      rw [Compile.ofField_of_lt (Nat.lt_of_not_le hlt)]
      exact reads_nil fun _ => rfl
    case isTrue hle =>
      obtain ⟨⟨⟩, a₁, hpush, h⟩ := Task.exec_bind_eq_ok.1 h
      cases h
      obtain ⟨offset, hpush⟩ := exec_discard_eq_ok hpush
      obtain ⟨w, i, u, hcode, hw, hi, hu⟩ := exec_pushValue_eq_ok hpush
      have hlt : narrow n < 1 <<< 32 := Nat.mod_lt n (by decide)
      have hsigned : u.scalar?.bind Scalar.signed? = some ((narrow n - Word.overflowArity : Nat) : Int) :=
        Machine.signed_of_equal (Nat.lt_of_le_of_lt (Nat.sub_le _ _) (Nat.lt_trans hlt (by decide)))
          (by rwa [Int.ofNat_sub hle])
      refine ⟨[w], [i], by rw [hcode, Array.push_eq_append], Word.spell_one hw, fun m caller ctx hm => ?_⟩
      refine ⟨[u], fun s => ?_, fun s => ?_⟩
      · rw [Machine.carryOut_singleton, Machine.exec_pushed (Instr.pushed?_of_extends hm hi)]
      · show (Run.readArity .overflow).exec _ = _
        rw [Run.exec_readArity_overflow hsigned, Nat.add_sub_cancel' hle]
        rfl

theorem brings_callNativev {addr : Nat} (h : (callNativev addr arity).exec a = (.ok ⟨⟩, a')) :
    a.Brings a' arity.narrowed (.callNativev · addr) := by
  obtain ⟨field, a₁, hfield, hcall⟩ := Task.exec_bind_eq_ok.1 h
  obtain ⟨ws, is, hcode, hspell, hreads⟩ := exec_arityField_eq_ok hfield
  obtain ⟨word, hword, rfl⟩ := exec_emitChecked_eq_ok hcall
  obtain ⟨hfields, haddr, -⟩ := Word.fields_of_makeVariadicCall hword
  refine ⟨ws ++ [word], is, .ofField field, by simp [hcode], hspell.append (Word.spell_one ?_), hreads⟩
  rw [hfields.decode?, Instr.ofOpcode, Word.variadicCall_of_operand haddr hfields.operand]

theorem exec_func_eq_ok {id : Nat} {f : FuncInfo} (h : (func id).exec a = (.ok f, a')) : a' = a := by
  obtain ⟨a₁, _, hget, h⟩ := Task.exec_bind_eq_ok.1 h
  cases hget
  cases hf : a.funcs[id]? with
  | some f =>
    rw [hf] at h
    cases h
    rfl
  | none =>
    rw [hf] at h
    cases h

theorem exec_emitRef_eq_ok {w : Except Fault Word} {id : Nat}
    (h : (emitRef w id).exec a = (.ok ⟨⟩, a')) :
    ∃ word, w = .ok word ∧ a'.code = a.code.push word ∧ a'.consts = a.consts := by
  cases w with
  | error f => cases h
  | ok word =>
    obtain ⟨_, a₀, hword, h⟩ := Task.exec_bind_eq_ok.1 h
    cases hword
    obtain ⟨offset, a₁, hemit, h⟩ := Task.exec_bind_eq_ok.1 h
    cases hemit
    obtain ⟨⟨⟩, a₂, hfunc, h⟩ := Task.exec_bind_eq_ok.1 h
    obtain ⟨f, hfunc⟩ := exec_discard_eq_ok hfunc
    cases exec_func_eq_ok hfunc
    cases h
    exact ⟨word, rfl, rfl, rfl⟩

theorem brings_callFuncv {id : Nat} (h : (callFuncv id arity).exec a = (.ok ⟨⟩, a')) :
    a.Brings a' arity.narrowed (.callFuncv · 0) := by
  obtain ⟨field, a₁, hfield, hcall⟩ := Task.exec_bind_eq_ok.1 h
  obtain ⟨ws, is, hcode, hspell, hreads⟩ := exec_arityField_eq_ok hfield
  obtain ⟨word, hword, hpush, hconsts⟩ := exec_emitRef_eq_ok hcall
  obtain ⟨hfields, hplace, -⟩ := Word.fields_of_makeVariadicCall hword
  refine ⟨ws ++ [word], is, .ofField field, by simp [hpush, hcode],
    hspell.append (Word.spell_one ?_), hconsts ▸ hreads⟩
  rw [hfields.decode?, Instr.ofOpcode, Word.variadicCall_of_operand hplace hfields.operand]

end Assembly

end StackScript
