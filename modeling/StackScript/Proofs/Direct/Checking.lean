import StackScript.Proofs.Direct.Fragment
import StackScript.Proofs.Balance.Accepting

/-!
# Straight code passes the balance check

Instructions that call nothing take and leave known numbers of values, one at most each, so the check
follows a main body without calls to its end, whatever host functions there are
(`check_of_callFree`).
-/

namespace StackScript

namespace Balance

section

variable (p : Program) (known : Known)

/-- The check goes on behind the instructions; they turn `a` values on top into `b`. -/
structure Passes (is : List Instr) (a b : Nat) : Prop where
  grows : b ≤ a + is.length
  returns : ∀ i ∈ is, isReturn i = false
  check : ∀ stop offset h : Nat, p.Reads offset is → offset + is.length ≤ stop →
    h + a + is.length < 1 <<< 63 → checkFrom p known 0 stop offset ((h + a : Nat) : Int) =
      checkFrom p known 0 stop (offset + is.length) ((h + b : Nat) : Int)

end

variable {p : Program} {known : Known} {is js : List Instr} {i : Instr} {a b c : Nat}

namespace Passes

theorem nil : Passes p known [] a a :=
  ⟨Nat.le_refl _, fun _ h => (nomatch h), fun _ _ _ _ _ _ => rfl⟩

theorem single (hslot : argumentSlot? i = none)
    (heffect : effect p known i = .ok (some ((a : Int), (b : Int)))) (hb : b ≤ 1)
    (hreturn : isReturn i = false) : Passes p known [i] a b := by
  refine ⟨Nat.le_trans hb (Nat.le_add_left _ _), fun j hj => List.mem_singleton.1 hj ▸ hreturn,
    fun stop offset h hreads hstop hsmall => ?_⟩
  obtain ⟨hi, -⟩ := hreads
  obtain ⟨w, hw, hdecode⟩ := Option.bind_eq_some_iff.1 hi
  rw [List.length_singleton] at hstop hsmall ⊢
  have hbefore : height (((h + a : Nat) : Int) - a) = .ok (h : Int) := by
    rw [show ((h + a : Nat) : Int) - a = h by omega]
    exact height_of_nat (by omega)
  have hbehind : height ((h : Int) + b) = .ok ((h + b : Nat) : Int) :=
    height_of_nat (by omega)
  have hpositive : ¬(h : Int) < 0 := by omega
  rw [checkFrom, if_pos (by omega)]
  simp only [hw, hdecode, hslot, heffect, ofFault, bind, Except.bind, pure, Except.pure, hbefore,
    hbehind, if_neg hpositive, hreturn, Bool.false_eq_true, if_false]

theorem append (h : Passes p known is a b) (h' : Passes p known js b c) :
    Passes p known (is ++ js) a c := by
  have hgrows := h.grows
  have hgrows' := h'.grows
  refine ⟨by rw [List.length_append]; omega, fun i hi => (List.mem_append.1 hi).elim (h.returns i)
    (h'.returns i), fun stop offset n hreads hstop hsmall => ?_⟩
  obtain ⟨hreads, hreads'⟩ := Program.reads_append.1 hreads
  rw [List.length_append] at hstop hsmall ⊢
  rw [h.check stop offset n hreads (by omega) (by omega),
    h'.check stop _ n hreads' (by omega) (by omega), Nat.add_assoc]

/-- Values below stay where they are. -/
theorem frame (h : Passes p known is a b) (n : Nat) : Passes p known is (n + a) (n + b) := by
  have hgrows := h.grows
  refine ⟨by omega, h.returns, fun stop offset m hreads hstop hsmall => ?_⟩
  rw [← Nat.add_assoc m, ← Nat.add_assoc m]
  exact h.check stop offset (m + n) hreads hstop (by omega)

/-- Values on top of others. -/
theorem push (h : Passes p known is 0 a) (h' : Passes p known js 0 b) :
    Passes p known (is ++ js) 0 (a + b) := h.append (h'.frame a)

end Passes

end Balance

namespace Direct

open Balance

variable {p : Program} {known : Balance.Known} {taken : List String} {ns : Names} {S S' : Site}
  {e : Expr} {pushed : Pushed} {is : List Instr} {defines : Bool}

/-! ## Expressions -/

theorem passes_push {i : Instr} (hslot : argumentSlot? i = none)
    (heffect : effect p known i = .ok (some (0, 1))) (hreturn : isReturn i = false) :
    Passes p known [i] 0 1 := .single hslot heffect (Nat.le_refl _) hreturn

theorem passes_pushed {i : Instr} {v : Value} {consts : Array Value}
    (h : i.pushed? consts = some v) : Passes p known [i] 0 1 := by
  cases i with
  | pushInt | pushConst => exact passes_push rfl rfl rfl
  | _ => cases h

theorem passes_coerced {k : Kind} (h : pushed.Coerced k is) : Passes p known is 1 1 := by
  cases h with
  | const | value => exact .nil
  | convertConst | convert => exact .single rfl rfl (Nat.le_refl _) rfl

theorem passes_coercedSecond {second : Option Kind} (h : pushed.CoercedSecond second is) :
    Passes p known is 1 1 := by
  cases second with
  | some k => exact passes_coerced h
  | none =>
    obtain ⟨rfl, -⟩ := h
    exact .nil

theorem passes_code (hmain : S.body.func = none) :
    ∀ {e : Expr} {pushed : Pushed} {is : List Instr}, e.CallFree taken ns → Code S e pushed is →
      Passes p known is 0 pushed.types.length
  | e, _, _, he, hcode => by
    cases hcode with
    | const _ _ hpush => exact passes_pushed hpush
    | var | func => exact passes_push rfl rfl rfl
    | package => exact .nil
    | param hparam =>
      obtain ⟨-, hfunc, -, -⟩ := hparam
      cases hmain.symm.trans hfunc
    | native _ hcode => cases hcode <;> exact passes_push rfl rfl rfl
    | @binary op x y p q kx ky r is₁ is₂ is₃ is₄ hx hy _ hkx hky _ hp hq =>
      have hx := passes_code hmain he.1 hx
      have hy := passes_code hmain he.2 hy
      rw [Pushed.length_types_of_operandKind? hkx] at hx
      rw [Pushed.length_types_of_operandKind? hky] at hy
      exact ((hx.append (passes_coerced hp)).push (hy.append (passes_coercedSecond hq))).append
        (.single rfl rfl (Nat.le_refl _) rfl)
    | _ => exact he.elim

theorem not_results {types : List Ty} (he : e.CallFree taken ns) :
    ¬Code S e (.results types) is := fun hcode => by
  generalize hp : Pushed.results types = pushed at hcode
  cases hcode with
  | call | callMethod | callValue => exact he.elim
  | _ => cases hp

/-! ## Assignments -/

theorem passes_given (hmain : S.body.func = none) {t : Expr} (ht : isName t = true)
    (hcode : Given S defines t pushed is S') : Passes p known is 1 0 := by
  cases hcode with
  | blank | var | define => exact .single rfl rfl (Nat.zero_le _) rfl
  | param _ hparam =>
    obtain ⟨-, hfunc, -, -⟩ := hparam
    cases hmain.symm.trans hfunc
  | through => cases ht

theorem passes_givenAll {ts : List Expr} {qs : List Pushed} (hcode : GivenAll S defines ts qs is S') :
    S.body.func = none → (∀ t ∈ ts, isName t = true) → Passes p known is qs.length 0 := by
  induction hcode with
  | nil => exact fun _ _ => .nil
  | @cons _ _ _ _ t ts q qs _ _ h _ ih =>
    intro hmain hts
    exact ((passes_given hmain (hts t (by simp)) h).frame qs.length).append
      (ih (h.leads.body ▸ hmain) fun t ht => hts t (by simp [ht]))

theorem passes_singles (hmain : S.body.func = none) {es : List Expr} {qs : List Pushed}
    (hcode : Singles S es qs is) :
    (∀ e ∈ es, e.CallFree taken ns) → Passes p known is 0 qs.length := by
  induction hcode with
  | nil => exact fun _ => .nil
  | @cons e es q qs _ _ h hq _ ih =>
    intro hes
    have hfirst : Passes p known _ 0 q.types.length := passes_code hmain (hes e (by simp)) h
    rw [Pushed.length_types_of_isSingle hq] at hfirst
    rw [List.length_append, List.length_singleton, Nat.add_comm]
    exact hfirst.push (ih fun e he => hes e (by simp [he]))

theorem passes_values (hmain : S.body.func = none) {n : Nat} {es : List Expr} {qs : List Pushed}
    (hes : ∀ e ∈ es, e.CallFree taken ns) (hcode : Values S n es qs is) :
    Passes p known is 0 qs.length := by
  cases hcode with
  | sole h => exact absurd h (not_results (hes _ (by simp)))
  | each _ h => exact passes_singles hmain h hes

/-! ## Updates -/

theorem passes_addressed {x : Expr} {t : Ty} (hx : isName x = true) (hcode : Addressed S x t is) :
    Passes p known is 0 1 := by
  cases hcode with
  | var => exact passes_push rfl rfl rfl
  | through => cases hx

theorem passes_updated (hmain : S.body.func = none) {op : Operator} {x value : Expr}
    (hop : op.hasUpdateForm = true) (hx : isName x = true) (hvalue : value.CallFree taken ns)
    (hcode : Updated S op x value is) : Passes p known is 0 0 := by
  cases hcode with
  | param hparam =>
    obtain ⟨-, hfunc, -, -⟩ := hparam
    cases hmain.symm.trans hfunc
  | @addr _ _ t q k r _ _ _ hv haddr hk _ _ hsecond =>
    have hv : Passes p known _ 0 q.types.length := passes_code hmain hvalue hv
    rw [Pushed.length_types_of_operandKind? hk] at hv
    have haddr : Passes p known _ 0 1 := passes_addressed hx haddr
    have hname : (AddressOperator.update op).nameable = some (.update op) := if_pos hop
    rw [hname]
    exact ((hv.append (passes_coercedSecond hsecond)).push haddr).append
      (.single rfl rfl (Nat.zero_le _) rfl)

theorem passes_stepped (hmain : S.body.func = none) {up : Bool} {x : Expr} (hx : isName x = true)
    (hcode : Stepped S up x is) : Passes p known is 0 0 := by
  cases hcode with
  | param hparam =>
    obtain ⟨-, hfunc, -, -⟩ := hparam
    cases hmain.symm.trans hfunc
  | addr haddr =>
    refine (passes_addressed hx haddr).append ?_
    cases up <;> exact .single rfl rfl (Nat.zero_le _) rfl

/-! ## Statements -/

theorem passes_dropped (hmain : S.body.func = none) (he : e.CallFree taken ns)
    (hcode : Dropped S e is) : Passes p known is 0 0 := by
  cases hcode with
  | results h => exact absurd h (not_results he)
  | @single q _ h hq =>
    have hfirst : Passes p known _ 0 q.types.length := passes_code hmain he h
    rw [Pushed.length_types_of_isSingle hq] at hfirst
    exact hfirst.append (.single rfl rfl (Nat.zero_le _) rfl)

mutual

theorem passes_stmt : ∀ {stmt : Stmt} {S S' : Site} {ns : Names} {is : List Instr},
    StmtCode S stmt is S' → S.body.func = none → stmt.CallFree taken ns → Passes p known is 0 0
  | .expr _, _, _, _, _, .expr hcode, hmain, hfree => passes_dropped hmain hfree hcode
  | .assign .., _, _, _, _, .assign _ hvalues htargets, hmain, hfree =>
    (passes_values hmain hfree.2 hvalues).append
      (passes_givenAll htargets hmain fun t ht => hfree.1 t (List.mem_reverse.1 ht))
  | .assign .., _, _, _, _, .update hform hcode, hmain, hfree =>
    passes_updated hmain hform (hfree.1 _ (by simp)) (hfree.2 _ (by simp)) hcode
  | .block _, _, _, _, _, .block hcode, hmain, hfree => passes_stmts hcode hmain hfree
  | .increment _, _, _, _, _, .increment hcode, hmain, hfree => passes_stepped hmain hfree hcode
  | .decrement _, _, _, _, _, .decrement hcode, hmain, hfree => passes_stepped hmain hfree hcode
  | .ret _, _, _, _, _, _, _, hfree => hfree.elim

theorem passes_stmts : ∀ {ss : List Stmt} {S S' : Site} {ns : Names} {is : List Instr},
    StmtsCode S ss is S' → S.body.func = none → CallFreeStmts taken ns ss → Passes p known is 0 0
  | [], _, _, _, _, .nil, _, _ => .nil
  | _ :: _, _, _, _, _, .cons hcode hrest, hmain, hfree =>
    (passes_stmt hcode hmain hfree.1).append (passes_stmts hrest (hcode.leads.body ▸ hmain) hfree.2)

end

end Direct

open Direct Balance

/-- A main body without calls passes the check against any host functions. -/
theorem check_of_callFree {p : Program} {known : Balance.Known} {f : File} {S S' : Site}
    {is : List Instr} (hf : f.CallFree) (hfuncs : p.funcs = #[]) (hmain : S.body.func = none)
    (hcode : StmtsCode S f.stmts is S') (hreads : p.Reads 0 is) (hend : p.mainEnd = is.length)
    (hsmall : is.length < 1 <<< 63) : Balance.check p known = .ok () := by
  have hpasses : Passes p known is 0 0 := passes_stmts hcode hmain hf.stmts
  have hreturn : firstReturn p p.mainEnd 0 = .ok none :=
    firstReturn_eq_none hreads (by rw [hend, Nat.zero_add]) hpasses.returns
  have hbody : checkFrom p known 0 p.mainEnd 0 0 = .ok () := by
    have hcheck := hpasses.check is.length 0 0 hreads (by omega) (by omega)
    rw [Nat.zero_add] at hcheck
    rw [hend]
    refine hcheck.trans ?_
    rw [checkFrom, if_neg (by omega)]
  unfold Balance.check
  rw [hreturn]
  show (checkFrom p known 0 p.mainEnd 0 0 >>= fun _ => _) = _
  rw [hbody, hfuncs]
  rfl

end StackScript
