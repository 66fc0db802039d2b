import StackScript.Proofs.Folding.Integers
import StackScript.Proofs.Folding.Rounding

/-!
# Plain constants

Source text names no kind of single precision, and no number it comes to is a signaling NaN. On such
plain constants, binding an open constant to a kind gives what converting its default value gives
(`coerce_default`): the two ways in which an operand comes to its kind, before and at run time.
-/

namespace StackScript

/-! ## Kinds of double precision -/

/-- The kind is not one of single precision. -/
def Kind.Wide : Kind → Prop
  | .float p | .complex p => p = .double
  | _ => True

theorem OperandKind.wide_default {k : OperandKind} (h : k.isBound = false) : k.default.Wide := by
  cases k with
  | bound k => cases h
  | openInt => exact True.intro
  | openFloat => rfl
  | openComplex => rfl

theorem OperandKind.rank_default (k : OperandKind) : k.default.rank = k.rank := by cases k <;> rfl

/-! ## Plain values -/

def Scalar.Plain : Scalar → Prop
  | .float p x => p = .double ∧ x.Quiet
  | .complex p z => p = .double ∧ z.Quiet
  | _ => True

/-- A scalar of double precision that is no signaling NaN. -/
inductive Value.Plain : Value → Prop
  | scalar {s : Scalar} (h : s.Plain) : Plain (.scalar s)

def Constant.Plain : Constant → Prop
  | .bound v => v.Plain
  | .int _ => True
  | .float x => x.Quiet
  | .complex z => z.Quiet

theorem Value.Plain.wide {v : Value} (h : v.Plain) : v.kind.Wide := by
  cases h with
  | scalar h => cases ‹Scalar› <;> first | exact True.intro | exact h.1

theorem Constant.Plain.wide {c : Constant} (h : c.Plain) : c.operandKind.default.Wide := by
  cases c with
  | bound v => exact Value.Plain.wide h
  | _ => exact OperandKind.wide_default rfl

/-! ## Conversions -/

section Convert

variable {k : Kind}

theorem Scalar.plain_convertInt {n : Int} {s : Scalar} (hk : k.Wide)
    (h : convertInt n k = some s) : s.Plain := by
  cases k with
  | int k =>
    cases h
    trivial
  | float p =>
    cases h
    exact ⟨hk, Binary.quiet_ofInt n⟩
  | complex p =>
    obtain rfl : p = .double := hk
    cases h
    refine ⟨rfl, ?_⟩
    rw [Complex.convert_self (Complex.quiet_ofReal (Binary.quiet_ofInt n))]
    exact Complex.quiet_ofReal (Binary.quiet_ofInt n)
  | _ => cases h

theorem Scalar.plain_convertReal {x : Binary .double} {s : Scalar} (hx : x.Quiet) (hk : k.Wide)
    (h : convertReal x k = some s) : s.Plain := by
  cases k with
  | int k =>
    cases h
    trivial
  | float p =>
    obtain rfl : p = .double := hk
    cases h
    refine ⟨rfl, ?_⟩
    rw [Binary.convert_self hx]
    exact hx
  | complex p =>
    obtain rfl : p = .double := hk
    cases h
    refine ⟨rfl, ?_⟩
    rw [Complex.convert_self (Complex.quiet_ofReal hx)]
    exact Complex.quiet_ofReal hx
  | _ => cases h

theorem Scalar.Plain.convert {s t : Scalar} (hs : s.Plain) (hk : k.Wide)
    (h : s.convert k = some t) : t.Plain := by
  unfold Scalar.convert at h
  split at h
  · cases h
    exact hs
  · cases s with
    | int i n => exact plain_convertInt hk h
    | float p x =>
      obtain ⟨rfl, hx⟩ := hs
      refine plain_convertReal ?_ hk h
      rw [Binary.convert_self hx]
      exact hx
    | complex p z =>
      obtain ⟨rfl, hz⟩ := hs
      cases k with
      | complex q =>
        obtain rfl : q = .double := hk
        cases h
        refine ⟨rfl, ?_⟩
        rw [Complex.convert_self hz]
        exact hz
      | _ => cases h
    | _ => cases h

theorem Value.Plain.convert {v w : Value} (hv : v.Plain) (hk : k.Wide)
    (h : v.convert k = some w) : w.Plain := by
  unfold Value.convert at h
  split at h
  · cases h
    exact hv
  · cases hv with
    | scalar hs =>
      obtain ⟨t, ht, rfl⟩ := Option.map_eq_some_iff.1 h
      exact .scalar (hs.convert hk ht)

end Convert

/-! ## Binding -/

namespace Constant

variable {k : Kind}

theorem plain_bindInt {n : Int} {s : Scalar} (hk : k.Wide) (h : bindInt n k = .ok s) : s.Plain := by
  cases k with
  | int k =>
    simp only [bindInt] at h
    split at h <;> cases h
    trivial
  | float p =>
    obtain rfl : p = .double := hk
    cases h
    refine ⟨rfl, ?_⟩
    rw [Binary.convert_self (Binary.quiet_ofInt n)]
    exact Binary.quiet_ofInt n
  | complex p =>
    obtain rfl : p = .double := hk
    cases h
    refine ⟨rfl, ?_⟩
    rw [Binary.convert_self (Binary.quiet_ofInt n)]
    exact Complex.quiet_ofReal (Binary.quiet_ofInt n)
  | _ => cases h

theorem plain_bindFloat {x : Binary .double} {s : Scalar} (hx : x.Quiet) (hk : k.Wide)
    (h : bindFloat x k = .ok s) : s.Plain := by
  cases k with
  | int k =>
    simp only [bindFloat] at h
    split at h
    · exact plain_bindInt hk h
    · cases h
  | float p =>
    obtain rfl : p = .double := hk
    cases h
    refine ⟨rfl, ?_⟩
    rw [Binary.convert_self hx]
    exact hx
  | complex p =>
    obtain rfl : p = .double := hk
    cases h
    refine ⟨rfl, ?_⟩
    rw [Binary.convert_self hx]
    exact Complex.quiet_ofReal hx
  | _ => cases h

theorem plain_bindComplex {z : Complex .double} {s : Scalar} (hz : z.Quiet) (hk : k.Wide)
    (h : bindComplex z k = .ok s) : s.Plain := by
  unfold bindComplex at h
  split at h
  · rename_i p
    obtain rfl : p = .double := hk
    cases h
    refine ⟨rfl, ?_⟩
    rw [Complex.convert_self hz]
    exact hz
  · split at h
    · exact plain_bindFloat hz.re hk h
    · cases h

theorem map_scalar_eq_ok {r : Except ConstantError Scalar} {v : Value}
    (h : r.map Value.scalar = .ok v) : ∃ s, r = .ok s ∧ v = .scalar s := by
  cases r with
  | error e => cases h
  | ok s =>
    cases h
    exact ⟨s, rfl, rfl⟩

theorem Plain.bind {c : Constant} {v : Value} (hc : c.Plain) (hk : k.Wide)
    (h : c.bind k = .ok v) : v.Plain := by
  cases c with
  | bound u =>
    simp only [Constant.bind] at h
    split at h <;> cases h
    exact hc
  | int n =>
    obtain ⟨s, hs, rfl⟩ := map_scalar_eq_ok h
    exact .scalar (plain_bindInt hk hs)
  | float x =>
    obtain ⟨s, hs, rfl⟩ := map_scalar_eq_ok h
    exact .scalar (plain_bindFloat hc hk hs)
  | complex z =>
    obtain ⟨s, hs, rfl⟩ := map_scalar_eq_ok h
    exact .scalar (plain_bindComplex hc hk hs)

theorem coerce_eq_bind {c : Constant} (h : c.operandKind.isBound = false) (k : Kind) :
    c.coerce k = c.bind k := by
  cases c with
  | bound v => cases h
  | _ => rfl

theorem coerce_bound_eq_ok {u v : Value} (h : (bound u).coerce k = .ok v) : u.convert k = some v := by
  unfold coerce at h
  split at h
  · rename_i heq
    cases heq
    split at h <;> cases h
    assumption
  · rename_i hne
    exact absurd rfl (hne u)

theorem Plain.coerce {c : Constant} {v : Value} (hc : c.Plain) (hk : k.Wide)
    (h : c.coerce k = .ok v) : v.Plain := by
  cases c with
  | bound u => exact Value.Plain.convert hc hk (coerce_bound_eq_ok h)
  | _ =>
    rw [coerce_eq_bind rfl] at h
    exact Plain.bind hc hk h

theorem Plain.bindDefault {c : Constant} {v : Value} (hc : c.Plain)
    (h : c.bindDefault = .ok v) : v.Plain := hc.bind hc.wide h

/-! ## Default values -/

theorem bindDefault_int {n : Int} {u : Value} (h : (Constant.int n).bindDefault = .ok u) :
    IntKind.int.Holds n ∧ u = .scalar (.ofInt .int n) := by
  obtain ⟨s, hs, rfl⟩ := map_scalar_eq_ok h
  simp only [operandKind, OperandKind.default, bindInt] at hs
  split at hs <;> cases hs
  exact ⟨by assumption, rfl⟩

theorem bindDefault_float {x : Binary .double} (hx : x.Quiet) :
    (Constant.float x).bindDefault = .ok (.scalar (.float .double x)) := by
  show Except.ok (Value.scalar (.float .double (x.convert .double))) = _
  rw [Binary.convert_self hx]

theorem bindDefault_complex {z : Complex .double} (hz : z.Quiet) :
    (Constant.complex z).bindDefault = .ok (.scalar (.complex .double z)) := by
  show Except.ok (Value.scalar (.complex .double (z.convert .double))) = _
  rw [Complex.convert_self hz]

/-- An integer that fits its default kind is converted to what it is bound to. -/
theorem convert_int_default {n : Int} {v w : Value} (hn : IntKind.int.Holds n) (hk : k.Wide)
    (hv : (int n).bind k = .ok v) (hw : (Value.scalar (.ofInt .int n)).convert k = some w) : v = w := by
  have htoInt : IntKind.toInt .int (BitVec.ofInt 64 n) = n := IntKind.toInt_ofInt_of_holds hn
  obtain ⟨s, hs, rfl⟩ := map_scalar_eq_ok hv
  cases k with
  | int i =>
    simp only [bindInt] at hs
    split at hs <;> cases hs
    by_cases hi : i = .int
    · subst hi
      cases hw
      rfl
    · have hne : ¬(Value.scalar (.ofInt .int n)).kind = .int i := fun h => hi (Kind.int.inj h).symm
      rw [Value.convert, if_neg hne] at hw
      obtain ⟨t, ht, rfl⟩ := Option.map_eq_some_iff.1 hw
      have hne' : ¬(Scalar.ofInt .int n).kind = .int i := hne
      simp only [Value.scalar?, Option.bind_some, Scalar.convert, hne', if_false] at ht
      change some (Scalar.ofInt i (IntKind.toInt .int (BitVec.ofInt 64 n))) = some t at ht
      rw [htoInt] at ht
      cases ht
      rfl
  | float p =>
    obtain rfl : p = .double := hk
    cases hs
    change some (Value.scalar (.float .double
      (Binary.ofInt .double (IntKind.toInt .int (BitVec.ofInt 64 n))))) = some w at hw
    rw [htoInt] at hw
    cases hw
    rw [Binary.convert_self (Binary.quiet_ofInt n)]
  | complex p =>
    obtain rfl : p = .double := hk
    cases hs
    change some (Value.scalar (.complex .double ((Complex.ofReal
      (Binary.ofInt .double (IntKind.toInt .int (BitVec.ofInt 64 n)))).convert .double))) =
        some w at hw
    rw [htoInt, Complex.convert_self (Complex.quiet_ofReal (Binary.quiet_ofInt n))] at hw
    cases hw
    rw [Binary.convert_self (Binary.quiet_ofInt n)]
  | _ => cases hs

/-- The default value of an open constant, converted to a kind of at least its rank, is the constant
bound to that kind. -/
theorem coerce_default {c : Constant} {u v w : Value} (hc : c.Plain)
    (hopen : c.operandKind.isBound = false) (hu : c.bindDefault = .ok u) (hk : k.Wide)
    (hrank : c.operandKind.rank ≤ k.rank) (hv : c.coerce k = .ok v)
    (hw : (bound u).coerce k = .ok w) : v = w := by
  rw [coerce_eq_bind hopen] at hv
  replace hw := coerce_bound_eq_ok hw
  cases c with
  | bound v => cases hopen
  | int n =>
    obtain ⟨hn, rfl⟩ := bindDefault_int hu
    exact convert_int_default hn hk hv hw
  | float x =>
    cases (bindDefault_float hc).symm.trans hu
    obtain ⟨s, hs, rfl⟩ := map_scalar_eq_ok hv
    cases k with
    | float p =>
      obtain rfl : p = .double := hk
      cases hs
      cases hw
      rw [Binary.convert_self hc]
    | complex p =>
      obtain rfl : p = .double := hk
      cases hs
      cases hw
      rw [Binary.convert_self hc, Complex.convert_self (Complex.quiet_ofReal hc)]
    | int i => exact absurd (show 2 ≤ 1 from hrank) (by decide)
    | _ => cases hs
  | complex z =>
    cases (bindDefault_complex hc).symm.trans hu
    obtain ⟨s, hs, rfl⟩ := map_scalar_eq_ok hv
    cases k with
    | complex p =>
      obtain rfl : p = .double := hk
      cases hs
      cases hw
      rw [Complex.convert_self hc]
    | float p => exact absurd (show 3 ≤ 2 from hrank) (by decide)
    | int i => exact absurd (show 3 ≤ 1 from hrank) (by decide)
    | _ => exact absurd (show 3 ≤ 0 from hrank) (by decide)

end Constant

end StackScript
