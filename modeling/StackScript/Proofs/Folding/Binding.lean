import StackScript.Proofs.Arithmetic.Overflowing
import StackScript.Proofs.Folding.Shifts

/-!
# Binding untyped constants

An untyped constant is a number (`Constant.exact`). An integer kind takes it where it is an integer of
the kind, and yields that integer (`Constant.bind_int_iff`). A real kind takes real numbers only. A
float or complex kind does not ask for the range: what is too large for single precision is bound to
infinity (`Constant.bind_infinite_iff`), and nothing else is.
-/

namespace StackScript

namespace Constant

variable {c : Constant} {k : Kind} {v : Value}

/-- Real and imaginary part of an untyped constant, which are exact. -/
def exact : Constant → ℚ × ℚ
  | bound _ => (0, 0)
  | int n => (n, 0)
  | float x => (x.value, 0)
  | complex z => (z.re.value, z.im.value)

/-- The untyped constants that there are: integers in range, and floats that are finite. -/
def Finite : Constant → Prop
  | bound _ => False
  | int n => inRange n = true
  | float x => x.isFinite = true
  | complex z => z.re.isFinite = true ∧ z.im.isFinite = true

theorem denotes_iff (hc : c.Finite) {n : Int} : c.Denotes n ↔ c.exact = (↑n, 0) := by
  have hfloat {x : Binary .double} (hx : x.isFinite = true) : Denotes (.float x) n ↔ x.value = n := by
    constructor
    · rintro ⟨⟩
      obtain ⟨m, hm⟩ := (Binary.isIntegral_iff hx).1 ‹_›
      rw [hm, Binary.trunc_of_value hm]
    · intro hn
      exact Binary.trunc_of_value hn ▸ .float ((Binary.isIntegral_iff hx).2 ⟨n, hn⟩)
  cases c with
  | bound v => exact hc.elim
  | int m =>
    rw [exact, Prod.mk.injEq, Int.cast_inj, eq_self, and_true]
    exact ⟨fun h => by cases h; rfl, fun h => h ▸ .int m⟩
  | float x => rw [exact, Prod.mk.injEq, eq_self, and_true, hfloat hc]
  | complex z =>
    rw [exact, Prod.mk.injEq, Binary.value_eq_zero_iff, ← hfloat hc.1]
    constructor
    · intro h
      cases h with
      | complex him hre => exact ⟨hre, him⟩
    · exact fun ⟨hre, him⟩ => .complex him hre

/-! ## Integer kinds -/

/-- A kind holds what was moved into the range of untyped integers if it held it before. -/
theorem holds_clamped_iff {k : IntKind} {n : Int} : k.Holds (clamped n) ↔ k.Holds n := by
  have hlimit : (limit : Int) = 2 ^ 127 := rfl
  have hleast : -2 ^ 63 ≤ k.least := by cases k <;> decide
  have hgreatest : k.greatest < 2 ^ 64 := by cases k <;> decide
  unfold IntKind.Holds clamped
  omega

theorem clamped_of_holds {k : IntKind} {n : Int} (h : k.Holds n) : clamped n = n := by
  have hlimit : (limit : Int) = 2 ^ 127 := rfl
  have hleast : -2 ^ 63 ≤ k.least := by cases k <;> decide
  have hgreatest : k.greatest < 2 ^ 64 := by cases k <;> decide
  obtain ⟨hlow, hhigh⟩ := h
  exact clamped_of_inRange (inRange_iff.2 (by omega))

theorem bindInt_eq_ok_iff {k : IntKind} {n : Int} {s : Scalar} :
    bindInt n (.int k) = .ok s ↔ k.Holds n ∧ s = .ofInt k n := by
  unfold bindInt
  dsimp only
  split <;> simp_all [eq_comm]

theorem bindFloat_eq_ok_iff {k : IntKind} {x : Binary .double} {s : Scalar} :
    bindFloat x (.int k) = .ok s ↔
      ∃ n, Denotes (.float x) n ∧ k.Holds n ∧ s = .ofInt k n := by
  unfold bindFloat
  dsimp only
  split
  · rename_i h
    rw [bindInt_eq_ok_iff, clampReal_of_isIntegral h, holds_clamped_iff]
    constructor
    · rintro ⟨hk, rfl⟩
      exact ⟨_, .float h, hk, by rw [clamped_of_holds hk]⟩
    · rintro ⟨_, ⟨⟩, hk, rfl⟩
      exact ⟨hk, by rw [clamped_of_holds hk]⟩
  · rename_i h
    refine iff_of_false nofun ?_
    rintro ⟨_, hn, -⟩
    cases hn with
    | float h' => exact h h'

/-- An integer kind takes the constants that are integers of the kind, and yields these. -/
theorem bind_int_iff {k : IntKind} (hc : c.Finite) : c.bind (.int k) = .ok v ↔
    ∃ n : Int, c.exact = (↑n, 0) ∧ k.Holds n ∧ v = .scalar (.ofInt k n) := by
  have hmap {r : Except ConstantError Scalar} :
      r.map Value.scalar = .ok v ↔ ∃ s, r = .ok s ∧ v = .scalar s := by
    constructor
    · intro h
      obtain ⟨s, hs, rfl⟩ := map_eq_ok h
      exact ⟨s, hs, rfl⟩
    · rintro ⟨s, rfl, rfl⟩
      rfl
  simp only [← denotes_iff hc]
  cases c with
  | bound v => exact hc.elim
  | int n =>
    rw [bind, hmap]
    simp only [bindInt_eq_ok_iff]
    constructor
    · rintro ⟨_, ⟨hk, rfl⟩, rfl⟩
      exact ⟨n, .int n, hk, rfl⟩
    · rintro ⟨_, ⟨⟩, hk, rfl⟩
      exact ⟨_, ⟨hk, rfl⟩, rfl⟩
  | float x =>
    rw [bind, hmap]
    simp only [bindFloat_eq_ok_iff]
    constructor
    · rintro ⟨_, ⟨n, hn, hk, rfl⟩, rfl⟩
      exact ⟨n, hn, hk, rfl⟩
    · rintro ⟨n, hn, hk, rfl⟩
      exact ⟨_, ⟨n, hn, hk, rfl⟩, rfl⟩
  | complex z =>
    rw [bind, hmap]
    unfold bindComplex
    dsimp only
    by_cases him : z.im.isZero = true
    · simp only [if_pos him, bindFloat_eq_ok_iff]
      constructor
      · rintro ⟨_, ⟨n, hn, hk, rfl⟩, rfl⟩
        exact ⟨n, .complex him hn, hk, rfl⟩
      · rintro ⟨n, hn, hk, rfl⟩
        cases hn with
        | complex _ hn => exact ⟨_, ⟨n, hn, hk, rfl⟩, rfl⟩
    · simp only [if_neg him]
      refine iff_of_false ?_ ?_
      · rintro ⟨_, ⟨⟩, -⟩
      · rintro ⟨n, hn, -⟩
        cases hn with
        | complex him' _ => exact him him'

/-! ## Real kinds -/

/-- A constant that is not real has a complex kind. -/
theorem real_of_bind (hc : c.Finite) (hk : ∀ p, k ≠ .complex p) (h : c.bind k = .ok v) :
    c.exact.2 = 0 := by
  cases c with
  | bound v => exact hc.elim
  | int n => rfl
  | float x => rfl
  | complex z =>
    obtain ⟨s, hs, -⟩ := map_eq_ok h
    unfold bindComplex at hs
    split at hs
    · exact absurd rfl (hk _)
    · split at hs
      · exact Binary.value_eq_zero_iff.2 ‹_›
      · cases hs

/-! ## Float and complex kinds -/

/-- The real part of an untyped constant, as it is bound. -/
def realPart : Constant → Binary .double
  | bound _ => Binary.zero _
  | int n => Binary.ofInt _ n
  | float x => x
  | complex z => z.re

/-- The imaginary part of an untyped constant. -/
def imagPart : Constant → Binary .double
  | complex z => z.im
  | _ => Binary.zero _

theorem bind_float_iff {p : Precision} (hc : c.Finite) : c.bind (.float p) = .ok v ↔
    c.exact.2 = 0 ∧ v = .scalar (.float p (c.realPart.convert p)) := by
  cases c with
  | bound v => exact hc.elim
  | int n | float x =>
    rw [exact, eq_self, true_and, bind]
    exact ⟨fun h => by cases h; rfl, fun h => h ▸ rfl⟩
  | complex z =>
    rw [exact, Binary.value_eq_zero_iff, bind]
    unfold bindComplex
    dsimp only
    split
    · rename_i him
      rw [eq_true him, true_and]
      exact ⟨fun h => by cases h; rfl, fun h => h ▸ rfl⟩
    · rename_i him
      exact iff_of_false (fun h => by cases h) fun h => him h.1

theorem bind_complex_iff {p : Precision} (hc : c.Finite) : c.bind (.complex p) = .ok v ↔
    v = .scalar (.complex p ⟨c.realPart.convert p, c.imagPart.convert p⟩) := by
  have hzero : (Binary.zero .double).convert p = Binary.zero p := by cases p <;> decide +kernel
  cases c with
  | bound v => exact hc.elim
  | int n | float x =>
    rw [show imagPart _ = Binary.zero .double from rfl, hzero, bind]
    exact ⟨fun h => by cases h; rfl, fun h => h ▸ rfl⟩
  | complex z => exact ⟨fun h => by cases h; rfl, fun h => h ▸ rfl⟩

/-! ## Infinities -/

/-- Untyped integers do not reach the bound of either format. -/
theorem lt_overflow (p : Precision) : (2 : ℚ) ^ 127 < p.overflow :=
  lt_of_le_of_lt (pow_le_pow_right₀ one_le_two (by cases p <;> decide)) p.half_lt_overflow

/-- The real part becomes infinite where single precision does not reach it. -/
theorem realPart_infinite_iff {p : Precision} (hc : c.Finite) :
    (c.realPart.convert p).Infinite ↔ p = .single ∧ Precision.single.overflow ≤ |c.exact.1| := by
  have hfloat {x : Binary .double} (hx : x.isFinite = true) :
      (x.convert p).Infinite ↔ p = .single ∧ Precision.single.overflow ≤ |x.value| := by
    rw [Binary.convert_infinite_iff hx]
    cases p with
    | single => simp
    | double => simpa using Binary.abs_value_lt_overflow hx
  cases c with
  | bound v => exact hc.elim
  | float x => exact hfloat hc
  | complex z => exact hfloat hc.1
  | int n =>
    have hn : |(n : ℚ)| ≤ 2 ^ 127 := by
      obtain ⟨hlow, hhigh⟩ := inRange_iff.1 hc
      have hlimit : (limit : Int) = 2 ^ 127 := rfl
      rw [abs_le]
      constructor
      · exact_mod_cast (show -2 ^ 127 ≤ n by omega)
      · exact_mod_cast (show n ≤ 2 ^ 127 by omega)
    have hvalue : |(Binary.ofInt .double n).value| < p.overflow :=
      lt_of_le_of_lt (Binary.abs_value_ofInt_le hn) (lt_overflow p)
    refine iff_of_false (fun h => ?_) fun h =>
      absurd h.2 (not_le.2 (lt_of_le_of_lt hn (lt_overflow _)))
    exact absurd ((Binary.convert_infinite_iff (Binary.isFinite_ofInt
      (lt_of_le_of_lt hn (lt_overflow _)))).1 h) (not_le.2 hvalue)

theorem imagPart_infinite_iff {p : Precision} (hc : c.Finite) :
    (c.imagPart.convert p).Infinite ↔ p = .single ∧ Precision.single.overflow ≤ |c.exact.2| := by
  have hfloat {x : Binary .double} (hx : x.isFinite = true) :
      (x.convert p).Infinite ↔ p = .single ∧ Precision.single.overflow ≤ |x.value| :=
    realPart_infinite_iff (c := .float x) hx
  have hzero : (Binary.zero .double).value = 0 := Binary.value_eq_zero_iff.2 rfl
  cases c with
  | bound v => exact hc.elim
  | int n | float x =>
    rw [exact, ← hzero]
    exact hfloat (x := Binary.zero .double) rfl
  | complex z => exact hfloat hc.2

/-- A part of the value is infinite. -/
def HasInfinity : Scalar → Prop
  | .float _ x => x.Infinite
  | .complex _ z => z.re.Infinite ∨ z.im.Infinite
  | _ => False

/-- Single precision binds what it does not reach to infinity, and no other binding yields one. -/
theorem bind_infinite_iff {s : Scalar} (hc : c.Finite) (h : c.bind k = .ok (.scalar s)) :
    HasInfinity s ↔ (k = .float .single ∧ Precision.single.overflow ≤ |c.exact.1|) ∨
      (k = .complex .single ∧ (Precision.single.overflow ≤ |c.exact.1| ∨
        Precision.single.overflow ≤ |c.exact.2|)) := by
  cases k with
  | float p =>
    obtain ⟨-, hs⟩ := (bind_float_iff hc).1 h
    cases hs
    simp [HasInfinity, realPart_infinite_iff hc]
  | complex p =>
    cases (bind_complex_iff hc).1 h
    simp [HasInfinity, realPart_infinite_iff hc, imagPart_infinite_iff hc, ← and_or_left]
  | int k =>
    obtain ⟨n, -, -, hs⟩ := (bind_int_iff hc).1 h
    cases hs
    simp [HasInfinity, Scalar.ofInt]
  | _ =>
    cases c with
    | bound v => exact hc.elim
    | int n | float x => cases h
    | complex z =>
      obtain ⟨s, hs, -⟩ := map_eq_ok h
      unfold bindComplex at hs
      dsimp only at hs
      split at hs <;> cases hs

/-- Ten to the thirty-ninth is bound to infinity. -/
example : (float ⟨0x48078287f49c4a1d⟩).bind (.float .single) =
    .ok (.scalar (.float .single ⟨0x7f800000⟩)) := by
  have hconvert : Binary.convert .single (⟨0x48078287f49c4a1d⟩ : Binary .double) = ⟨0x7f800000⟩ := by
    decide +kernel
  rw [bind, bindFloat, hconvert]
  rfl

end Constant

end StackScript
