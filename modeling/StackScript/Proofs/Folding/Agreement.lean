import StackScript.Proofs.Folding.Choosing
import StackScript.Proofs.Translation.Coercing

/-!
# Folding agrees with running

What an operator folds two constants to is what it computes at run time from the values that stand
for them, if integers that are computed fit in the kind `int` (`bindDefault_of_fold`).
-/

namespace StackScript

namespace Constant

variable {op : Operator} {a b a' b' c d : Constant} {r : Resolution} {k : Kind} {u v w : Value}

/-! ## Operands -/

/-- What an operand is at run time that folds to a constant: the constant itself, or the value that
was computed for it. -/
def Stands (c d : Constant) : Prop := d = c ∨ ∃ v, c.bindDefault = .ok v ∧ d = .bound v

theorem bindDefault_bound (v : Value) : (bound v).bindDefault = .ok v := if_pos rfl

theorem Stands.operandKind (h : c.Stands d) : c.operandKind.Stands d.operandKind := by
  obtain rfl | ⟨v, hv, rfl⟩ := h
  · exact .inl rfl
  · exact .inr (congrArg OperandKind.bound (kind_of_bind hv))

theorem Stands.eq_of_bound (h : c.Stands d) (hc : c.operandKind.isBound = true) : d = c := by
  obtain rfl | ⟨v, hv, rfl⟩ := h
  · rfl
  · cases c with
    | bound u =>
      cases (bindDefault_bound u).symm.trans hv
      rfl
    | _ => cases hc

theorem Stands.eq_of_kind (h : c.Stands d) (hkind : d.operandKind = c.operandKind) : d = c := by
  cases hc : c.operandKind.isBound with
  | true => exact h.eq_of_bound hc
  | false =>
    obtain rfl | ⟨v, -, rfl⟩ := h
    · rfl
    · rw [← hkind] at hc
      cases hc

/-- A constant brought to what an operator takes as its second operand. -/
def coerceSecond (c : Constant) : Option Kind → Except ConstantError Value
  | some k => c.coerce k
  | none => c.bindDefault

/-- An operator that works on two operands, brought to the kinds chosen for them. -/
inductive Works (op : Operator) (r : Resolution) (x y : Constant) : Value → Prop
  | mk {u v w : Value} (hx : x.coerce r.first = .ok v) (hy : y.coerceSecond r.second = .ok w)
    (h : op.eval r.operand v w = .ok u) : Works op r x y u

theorem foldBound_eq_ok (h : foldBound op a b = .ok c) :
    ∃ r u, op.resolve a.operandKind b.operandKind = .ok r ∧ Works op r a b u ∧ c = .bound u := by
  unfold foldBound at h
  obtain ⟨r, hr, h⟩ := bind_eq_ok h
  obtain ⟨v, hv, h⟩ := bind_eq_ok h
  have hlast : ∀ w u, b.coerceSecond r.second = .ok w → op.eval r.operand v w = .ok u →
      ∃ r u', op.resolve a.operandKind b.operandKind = .ok r ∧ Works op r a b u' ∧
        bound u = .bound u' :=
    fun w u hw hu => ⟨r, u, mapError_eq_ok hr, ⟨hv, hw, hu⟩, rfl⟩
  dsimp only at h
  cases hsecond : r.second with
  | some k =>
    rw [hsecond] at h
    obtain ⟨w, hw, h⟩ := bind_eq_ok h
    split at h <;> cases h
    exact hlast w _ (by rw [hsecond]; exact hw) ‹_›
  | none =>
    rw [hsecond] at h
    obtain ⟨w, hw, h⟩ := bind_eq_ok h
    split at h <;> cases h
    exact hlast w _ (by rw [hsecond]; exact hw) ‹_›

/-! ## Operands of one kind -/

/-- What stands for a constant is brought to a kind as the constant is. -/
theorem coerce_stands (hc : c.Plain) (h : c.Stands d) (hk : k.Wide)
    (hrank : d.operandKind ≠ c.operandKind → c.operandKind.rank ≤ k.rank)
    (hv : c.coerce k = .ok v) (hw : d.coerce k = .ok w) : v = w := by
  by_cases hkind : d.operandKind = c.operandKind
  · cases h.eq_of_kind hkind
    cases hv.symm.trans hw
    rfl
  · cases hopen : c.operandKind.isBound with
    | true => exact absurd (congrArg operandKind (h.eq_of_bound hopen)) hkind
    | false =>
      obtain rfl | ⟨u, hu, rfl⟩ := h
      · exact absurd rfl hkind
      · exact coerce_default hc hopen hu hk (hrank hkind) hv hw

theorem eval_scalars {s t : Scalar} (hop : op.isShift = false) (hs : s.kind = k)
    (ht : t.kind = k) : op.eval k (.scalar s) (.scalar t) = (op.evalScalars s t).map .scalar := by
  have hs' : ¬(Value.scalar s).kind ≠ k := fun h => h hs
  have ht' : ¬(Value.scalar t).kind ≠ k := fun h => h ht
  unfold Operator.eval
  rw [if_neg hs', if_neg (by simp [hop]), if_neg ht']

theorem eval_shift (hop : op.isShift = true) (hv : v.kind = k) :
    op.eval k v w = op.evalShift v w := by
  have hv' : ¬v.kind ≠ k := fun h => h hv
  unfold Operator.eval
  rw [if_neg hv', if_pos hop]

/-- Of its second operand a shift sees the count alone. -/
theorem eval_of_shiftCount (hop : op.isShift = true)
    (h : Operator.shiftCount v = Operator.shiftCount w) : op.eval k u v = op.eval k u w := by
  unfold Operator.eval Operator.evalShift
  rw [if_pos hop, if_pos hop, h]

theorem bind_uint {n : Int} (h : (int n).bind (.int .uint) = .ok v) :
    IntKind.uint.Holds n ∧ v = .ofInt .uint n := by
  obtain ⟨s, hs, rfl⟩ := map_scalar_eq_ok h
  simp only [bindInt] at hs
  split at hs <;> cases hs
  exact ⟨by assumption, rfl⟩

theorem shiftCount_ofInt {i : IntKind} {n : Int} (hn : i.Holds n) (hpos : 0 ≤ n) :
    Operator.shiftCount (.ofInt i n) = .ok n.toNat := by
  show (if i.toInt (BitVec.ofInt i.width n) < 0 then _ else _) = _
  rw [IntKind.toInt_ofInt_of_holds hn, if_neg (by omega)]

/-! ## A known kind -/

/-- With an operand of known kind, folding is running. -/
theorem bound_of_foldBound (ha : a.Plain) (hb : b.Plain) (sa : a.Stands a') (sb : b.Stands b')
    (hbound : a.operandKind.isBound = true ∨ b.operandKind.isBound = true)
    (hfold : foldBound op a b = .ok c) (hr : op.resolve a'.operandKind b'.operandKind = .ok r)
    (hw : Works op r a' b' u) : c = .bound u := by
  obtain ⟨ra, u₀, hra, ⟨hv₀, hw₀, heval₀⟩, rfl⟩ := foldBound_eq_ok hfold
  obtain ⟨hv₁, hw₁, heval₁⟩ := hw
  rename_i v₀ w₀ v₁ w₁
  obtain ⟨hfirst, hsecond⟩ := Operator.wide_resolve ha.wide hb.wide hra
  obtain ⟨hop, hfst, hrank, hcases⟩ :=
    Operator.resolve_stands sa.operandKind sb.operandKind hbound hra hr
  rw [hfst] at hv₁
  rw [hop] at heval₁
  cases coerce_stands ha sa hfirst hrank hv₀ hv₁
  have heval : op.eval ra.operand v₀ w₀ = op.eval ra.operand v₀ w₁ := by
    obtain ⟨k, hk, hk', hrank⟩ | ⟨hkind, hsec⟩ | ⟨hshift, hopen, hint, hk, hk'⟩ := hcases
    · rw [hk] at hw₀
      rw [hk'] at hw₁
      rw [coerce_stands hb sb (hsecond k hk) hrank hw₀ hw₁]
    · rw [sb.eq_of_kind hkind, hsec] at hw₁
      rw [Except.ok.inj (hw₀.symm.trans hw₁)]
    · rw [hk] at hw₀
      rw [hk'] at hw₁
      cases b with
      | int n =>
        obtain rfl | ⟨w, hw, rfl⟩ := sb
        · cases hint
        · obtain ⟨hn, rfl⟩ := bindDefault_int hw
          cases (bindDefault_bound _).symm.trans hw₁
          obtain ⟨hu, rfl⟩ := bind_uint hw₀
          have hpos : 0 ≤ n := hu.1
          have hcount := (shiftCount_ofInt hu hpos).trans
            (shiftCount_ofInt hn hpos).symm
          exact eval_of_shiftCount hshift hcount
      | _ => cases hopen
  rw [heval] at heval₀
  cases heval₀.symm.trans heval₁
  rfl

/-! ## Open operands -/

theorem coerce_int_stands {n : Int} (h : (int n).Stands d) (hv : d.coerce (.int .int) = .ok v) :
    IntKind.int.Holds n ∧ v = .ofInt .int n := by
  obtain rfl | ⟨u, hu, rfl⟩ := h
  · exact bindDefault_int hv
  · obtain ⟨hn, rfl⟩ := bindDefault_int hu
    cases coerce_bound_eq_ok hv
    exact ⟨hn, rfl⟩

theorem coerce_float_stands (hc : c.Plain) (hopen : c.operandKind.isBound = false)
    (hrank : c.operandKind.rank ≤ 2) (h : c.Stands d)
    (hv : d.coerce (.float .double) = .ok v) : v = .scalar (.float .double c.real) := by
  have hreal : c.coerce (.float .double) = .ok (.scalar (.float .double c.real)) := by
    cases c with
    | bound u => cases hopen
    | int n =>
      show Except.ok (Value.scalar (.float .double ((Binary.ofInt .double n).convert .double))) = _
      rw [Binary.convert_self (Binary.quiet_ofInt n)]
      rfl
    | float x => exact bindDefault_float hc
    | complex z => exact absurd (show 3 ≤ 2 from hrank) (by decide)
  exact (coerce_stands (k := .float .double) hc h rfl (fun _ => hrank) hreal hv).symm

theorem coerce_complex_stands (hc : c.Plain) (hopen : c.operandKind.isBound = false)
    (h : c.Stands d) (hv : d.coerce (.complex .double) = .ok v) :
    v = .scalar (.complex .double c.asComplex) := by
  have hrank : c.operandKind.rank ≤ 3 := by
    cases c with
    | bound u => cases hopen
    | int n => exact (by decide : 1 ≤ 3)
    | float x => exact (by decide : 2 ≤ 3)
    | complex z => exact Nat.le_refl 3
  have hcomplex : c.coerce (.complex .double) = .ok (.scalar (.complex .double c.asComplex)) := by
    cases c with
    | bound u => cases hopen
    | int n =>
      show Except.ok (Value.scalar (.complex .double
        (.ofReal ((Binary.ofInt .double n).convert .double)))) = _
      rw [Binary.convert_self (Binary.quiet_ofInt n)]
      rfl
    | float x =>
      show Except.ok (Value.scalar (.complex .double (.ofReal (x.convert .double)))) = _
      rw [Binary.convert_self hc]
      rfl
    | complex z => exact bindDefault_complex hc
  exact (coerce_stands (k := .complex .double) hc h rfl (fun _ => hrank) hcomplex hv).symm

/-! ## Numbers of one format -/

theorem bindDefault_truth (b : Bool) : (truth b).bindDefault = .ok (.scalar (.bool b)) := rfl

theorem bindDefault_of_shows {s : Scalar} (h : Shows c s)
    (hfits : ∀ n, c = .int n → IntKind.int.Holds n) : c.bindDefault = .ok (.scalar s) := by
  cases h with
  | int n =>
    show (bindInt n (.int .int)).map Value.scalar = _
    rw [bindInt, if_pos (hfits n rfl)]
    rfl
  | truth b => exact bindDefault_truth b

/-- A comparison of floats comes to the same before and at run time. -/
theorem bindDefault_of_compared (op : Operator) {x y : Binary .double} {s : Scalar}
    (hf : (match op.compared (x.lt y) (y.lt x) (x.eq y) with
      | some t => .ok (truth t)
      | none => .error (.error (.operands (.notDefined op (.float .double)))) : Folded) = .ok c)
    (he : (match op.compared (x.lt y) (y.lt x) (x.eq y) with
      | some t => .ok (.bool t)
      | none => .error (.notDefined op (.float .double)) : Except EvalError Scalar) = .ok s) :
    c.bindDefault = .ok (.scalar s) := by
  cases h : op.compared (x.lt y) (y.lt x) (x.eq y) with
  | some t =>
    rw [h] at hf he
    cases hf
    cases he
    exact bindDefault_truth t
  | none =>
    rw [h] at hf
    cases hf

theorem bindDefault_of_finite {x : Binary .double} (h : finite op x = .ok c) :
    c.bindDefault = .ok (.scalar (.float .double x)) := by
  unfold finite at h
  split at h
  · rename_i hx
    cases h
    exact bindDefault_float (Binary.quiet_of_isFinite hx)
  · cases h

theorem bindDefault_of_foldFloat {x y : Binary .double} {s : Scalar}
    (hf : foldFloat op x y = .ok c) (he : op.evalFloat .double x y = .ok s) :
    c.bindDefault = .ok (.scalar s) := by
  cases op with
  | add | sub | mul =>
    cases he
    exact bindDefault_of_finite hf
  | quo =>
    simp only [foldFloat] at hf
    split at hf
    · cases hf
    · cases he
      exact bindDefault_of_finite hf
  | lt => exact bindDefault_of_compared .lt hf he
  | le => exact bindDefault_of_compared .le hf he
  | gt => exact bindDefault_of_compared .gt hf he
  | ge => exact bindDefault_of_compared .ge hf he
  | eq => exact bindDefault_of_compared .eq hf he
  | ne => exact bindDefault_of_compared .ne hf he
  | _ => cases hf

theorem bindDefault_of_foldComplex {x y : Complex .double} {s : Scalar}
    (hf : foldComplex op x y = .ok c) (he : op.evalComplex .double x y = .ok s) :
    c.bindDefault = .ok (.scalar s) := by
  cases op with
  | add =>
    cases hf
    cases he
    exact bindDefault_complex (Complex.quiet_add x y)
  | sub =>
    cases hf
    cases he
    exact bindDefault_complex (Complex.quiet_sub x y)
  | mul =>
    cases hf
    cases he
    exact bindDefault_complex (Complex.quiet_mul x y)
  | quo =>
    simp only [foldComplex] at hf
    split at hf
    · cases hf
    · cases hf
      cases he
      exact bindDefault_complex (Complex.quiet_div x y)
  | eq | ne =>
    cases hf
    cases he
    exact bindDefault_truth _
  | _ => cases hf

theorem widens_of_foldFloat {x y : Binary .double} (h : foldFloat op x y = .ok c) :
    op.widens = true := by
  cases op with
  | add | sub | mul | quo | lt | le | gt | ge | eq | ne => rfl
  | _ => cases h

theorem widens_of_foldComplex {x y : Complex .double} (h : foldComplex op x y = .ok c) :
    op.widens = true := by
  cases op with
  | add | sub | mul | quo | eq | ne => rfl
  | _ => cases h

/-! ## Two open operands -/

/-- How two open constants are folded, by the higher of their ranks. -/
inductive FoldsOpen (op : Operator) (a b c : Constant) : Prop
  | int {m n : Int} (ha : a = .int m) (hb : b = .int n) (h : foldInt op m n = .ok c)
  | float (hkind : Operator.openKind a.operandKind b.operandKind = .float .double)
    (ha : a.operandKind.rank ≤ 2) (hb : b.operandKind.rank ≤ 2)
    (h : foldFloat op a.real b.real = .ok c)
  | complex (hkind : Operator.openKind a.operandKind b.operandKind = .complex .double)
    (h : foldComplex op a.asComplex b.asComplex = .ok c)

theorem foldsOpen_of_fold (hop : op.isShift = false) (ha : a.operandKind.isBound = false)
    (hb : b.operandKind.isBound = false) (h : fold op a b = .ok c) : FoldsOpen op a b c := by
  unfold fold at h
  rw [if_neg (by simp [ha, hb]), if_neg (by simp [hop])] at h
  cases a with
  | bound v => cases ha
  | int m =>
    cases b with
    | bound v => cases hb
    | int n =>
      rw [integer, integer] at h
      exact .int rfl rfl h
    | float y => exact .float rfl (by decide : 1 ≤ 2) (Nat.le_refl 2) h
    | complex w => exact .complex rfl h
  | float x =>
    cases b with
    | bound v => cases hb
    | int n => exact .float rfl (Nat.le_refl 2) (by decide : 1 ≤ 2) h
    | float y => exact .float rfl (Nat.le_refl 2) (Nat.le_refl 2) h
    | complex w => exact .complex rfl h
  | complex z =>
    cases b with
    | bound v => cases hb
    | _ => exact .complex rfl h

/-- With both operands open, folding is running at their default kinds. -/
theorem bindDefault_of_foldsOpen (hop : op.isShift = false) (ha : a.Plain) (hb : b.Plain)
    (hopena : a.operandKind.isBound = false) (hopenb : b.operandKind.isBound = false)
    (sa : a.Stands a') (sb : b.Stands b') (hfold : FoldsOpen op a b c)
    (hr : op.settle a'.operandKind b'.operandKind = .ok r) (hw : Works op r a' b' u)
    (hfits : ∀ n, c = .int n → IntKind.int.Holds n) : c.bindDefault = .ok u := by
  have hwide : op.widens = true ∨ a.operandKind = .openInt ∧ b.operandKind = .openInt := by
    cases hfold with
    | int hka hkb h => exact .inr ⟨by rw [hka]; rfl, by rw [hkb]; rfl⟩
    | float hkind hra hrb h => exact .inl (widens_of_foldFloat h)
    | complex hkind h => exact .inl (widens_of_foldComplex h)
  obtain ⟨hoperand, hfirst, hsecond⟩ :=
    Operator.settle_open hop hopena hopenb sa.operandKind sb.operandKind hwide hr
  obtain ⟨hv, hw, heval⟩ := hw
  rw [hfirst] at hv
  rw [hsecond] at hw
  rw [hoperand] at heval
  cases hfold with
  | int hka hkb h =>
    subst hka hkb
    obtain ⟨hm, rfl⟩ := coerce_int_stands sa hv
    obtain ⟨hn, rfl⟩ := coerce_int_stands sb hw
    replace heval := (eval_scalars (k := .int .int) hop rfl rfl).symm.trans heval
    obtain ⟨s, hs, rfl⟩ := map_eq_ok heval
    exact bindDefault_of_shows (evalInt_of_foldInt hm hn h hs) hfits
  | float hkind hra hrb h =>
    rw [hkind] at hv hw heval
    rw [coerce_float_stands ha hopena hra sa hv, coerce_float_stands hb hopenb hrb sb hw] at heval
    replace heval := (eval_scalars (k := .float .double) hop rfl rfl).symm.trans heval
    obtain ⟨s, hs, rfl⟩ := map_eq_ok heval
    exact bindDefault_of_foldFloat h hs
  | complex hkind h =>
    rw [hkind] at hv hw heval
    rw [coerce_complex_stands ha hopena sa hv, coerce_complex_stands hb hopenb sb hw] at heval
    replace heval := (eval_scalars (k := .complex .double) hop rfl rfl).symm.trans heval
    obtain ⟨s, hs, rfl⟩ := map_eq_ok heval
    exact bindDefault_of_foldComplex h hs

/-! ## Shifts of open operands -/

theorem integer_of_bind {i : IntKind} {n : Int} (hn : c.integer = .ok n)
    (hv : c.bind (.int i) = .ok v) : i.Holds n ∧ v = .ofInt i n := by
  have hint {m : Int} {s : Scalar} (hs : bindInt m (.int i) = .ok s) :
      i.Holds m ∧ s = .ofInt i m := by
    simp only [bindInt] at hs
    split at hs <;> cases hs
    exact ⟨by assumption, rfl⟩
  have hfloat {x : Binary .double} {s : Scalar} (hx : (float x).integer = .ok n)
      (hs : bindFloat x (.int i) = .ok s) : i.Holds n ∧ s = .ofInt i n := by
    rw [integer] at hx
    simp only [bindFloat] at hs
    split at hs
    · rename_i hintegral
      rw [if_pos hintegral] at hx
      cases hx
      exact hint hs
    · cases hs
  cases c with
  | bound w =>
    rw [integer] at hn
    cases hn
  | int m =>
    rw [integer] at hn
    cases hn
    obtain ⟨s, hs, rfl⟩ := map_scalar_eq_ok hv
    obtain ⟨hm, rfl⟩ := hint hs
    exact ⟨hm, rfl⟩
  | float x =>
    obtain ⟨s, hs, rfl⟩ := map_scalar_eq_ok hv
    obtain ⟨hm, rfl⟩ := hfloat hn hs
    exact ⟨hm, rfl⟩
  | complex z =>
    obtain ⟨s, hs, rfl⟩ := map_scalar_eq_ok hv
    rw [integer] at hn
    simp only [bindComplex] at hs
    split at hs
    · rename_i him
      rw [if_pos him] at hn
      obtain ⟨hm, rfl⟩ := hfloat hn hs
      exact ⟨hm, rfl⟩
    · cases hs

theorem foldShift_eq_ok (h : foldShift op a b = .ok c) : ∃ m n, a.integer = .ok m ∧
    b.integer = .ok n ∧ 0 ≤ n ∧ shifted op m n.toNat = .ok c := by
  unfold foldShift at h
  obtain ⟨m, hm, h⟩ := bind_eq_ok h
  obtain ⟨n, hn, h⟩ := bind_eq_ok h
  refine ⟨m, n, mapError_eq_ok hm, mapError_eq_ok hn, ?_⟩
  by_cases hneg : n < 0
  · rw [if_pos hneg] at h
    cases h
  · rw [if_neg hneg] at h
    exact ⟨by omega, h⟩

/-- A shift of open operands is one of numbers of kind `int`. -/
theorem bindDefault_of_foldShift (hop : op.isShift = true)
    (hopena : a.operandKind.isBound = false) (hopenb : b.operandKind.isBound = false)
    (sa : a.Stands a') (sb : b.Stands b') (hfold : foldShift op a b = .ok c)
    (hr : op.settle a'.operandKind b'.operandKind = .ok r) (hw : Works op r a' b' u)
    (hfits : ∀ n, c = .int n → IntKind.int.Holds n) : c.bindDefault = .ok u := by
  have hresolve : op.resolve a'.operandKind b'.operandKind = .ok r := by
    unfold Operator.settle at hr
    rwa [if_pos (by simp [hop])] at hr
  obtain ⟨m, n, hm, hn, hpos, hshifted⟩ := foldShift_eq_ok hfold
  obtain ⟨hv, hw, heval⟩ := hw
  rename_i v w
  obtain ⟨hdef, second, hsecond, rfl⟩ := Operator.resolve_eq_ok_of_shift hop hresolve
  obtain ⟨hkind, hrank⟩ := Operator.shiftKind_stands hop sa.operandKind hdef
  have hint : Operator.shiftKind a.operandKind = .int .int := by
    cases a with
    | bound v => cases hopena
    | _ => rfl
  rw [hint] at hkind hrank
  rw [hkind] at hv heval
  have hfirst : IntKind.int.Holds m ∧ v = .ofInt .int m := by
    by_cases heq : a'.operandKind = a.operandKind
    · rw [sa.eq_of_kind heq, coerce_eq_bind hopena] at hv
      exact integer_of_bind hm hv
    · cases a with
      | bound v => cases hopena
      | int k =>
        rw [integer] at hm
        cases hm
        exact coerce_int_stands sa hv
      | float x => exact absurd (show 2 ≤ 1 from hrank heq) (by decide)
      | complex z => exact absurd (show 3 ≤ 1 from hrank heq) (by decide)
  have hcount : Operator.shiftCount w = .ok n.toNat := by
    have hopen : op.countKind b.operandKind = .ok (some (.int .uint)) := by
      cases b with
      | bound v => cases hopenb
      | _ => rfl
    obtain ⟨heq, rfl⟩ | ⟨hkind, -, -, rfl⟩ :=
      Operator.countKind_stands sb.operandKind hopen hsecond
    · rw [sb.eq_of_kind heq] at hw
      change b.coerce (.int .uint) = .ok w at hw
      rw [coerce_eq_bind hopenb] at hw
      obtain ⟨hu, rfl⟩ := integer_of_bind hn hw
      exact shiftCount_ofInt hu hpos
    · cases b with
      | int k =>
        rw [integer] at hn
        cases hn
        obtain rfl | ⟨w', hw', rfl⟩ := sb
        · obtain ⟨hu, rfl⟩ := bindDefault_int hw
          exact shiftCount_ofInt hu hpos
        · cases (bindDefault_bound _).symm.trans hw
          obtain ⟨hu, rfl⟩ := bindDefault_int hw'
          exact shiftCount_ofInt hu hpos
      | _ => cases hkind
  obtain ⟨hmholds, rfl⟩ := hfirst
  obtain ⟨k, rfl, hbits⟩ := shiftBits_of_shifted hmholds hshifted
  replace heval := (eval_shift (k := .int .int) hop rfl).symm.trans heval
  rw [Operator.evalShift, hcount] at heval
  change Except.ok (Value.scalar (.int .int (op.shiftBits .int (BitVec.ofInt 64 m) n.toNat))) =
    Except.ok u at heval
  rw [hbits] at heval
  cases heval
  show (bindInt k (.int .int)).map Value.scalar = _
  rw [bindInt, if_pos (hfits k rfl)]
  rfl

/-! ## The law -/

/-- An operator on what stands for two constants computes the value of the constant that it folds
them to. -/
theorem bindDefault_of_fold (ha : a.Plain) (hb : b.Plain) (sa : a.Stands a') (sb : b.Stands b')
    (hfold : fold op a b = .ok c) (hr : op.settle a'.operandKind b'.operandKind = .ok r)
    (hw : Works op r a' b' u) (hfits : ∀ n, c = .int n → IntKind.int.Holds n) :
    c.bindDefault = .ok u := by
  by_cases hbound : a.operandKind.isBound = true ∨ b.operandKind.isBound = true
  · have hfold : foldBound op a b = .ok c := by
      unfold fold at hfold
      rw [if_pos (by simpa using hbound)] at hfold
      exact mapError_eq_ok hfold
    have hresolve : op.resolve a'.operandKind b'.operandKind = .ok r := by
      have hbound' : (a'.operandKind.isBound || b'.operandKind.isBound) = true := by
        rw [Bool.or_eq_true]
        exact hbound.imp (fun h => by rw [sa.eq_of_bound h, h]) fun h => by rw [sb.eq_of_bound h, h]
      unfold Operator.settle at hr
      rwa [if_pos (by simp [hbound'])] at hr
    rw [bound_of_foldBound ha hb sa sb hbound hfold hresolve hw]
    exact bindDefault_bound u
  · simp only [not_or, Bool.not_eq_true] at hbound
    cases hop : op.isShift with
    | false =>
      exact bindDefault_of_foldsOpen hop ha hb hbound.1 hbound.2 sa sb
        (foldsOpen_of_fold hop hbound.1 hbound.2 hfold) hr hw hfits
    | true =>
      unfold fold at hfold
      rw [if_neg (by simp [hbound]), if_pos hop] at hfold
      exact bindDefault_of_foldShift hop hbound.1 hbound.2 sa sb hfold hr hw hfits

end Constant

end StackScript
