import Mathlib.Algebra.Order.Field.Power
import Mathlib.Data.Rat.Cast.Order
import Mathlib.Tactic.FieldSimp
import Mathlib.Tactic.Linarith
import StackScript.Proofs.Folding.Rounding

/-!
# Numbers beyond a format

A finite number is a rational (`Binary.value`), and an integer exactly where `isIntegral` says so
(`Binary.isIntegral_iff`). Rounding to a format gives infinity from halfway between the greatest number
of the format and the next power of two on (`nearest_eq_infinity_iff`), so a conversion does so for just
those numbers (`Binary.convert_infinite_iff`).
-/

namespace StackScript

/-! ## Rounding to integers -/

variable {n d k : Nat}

theorem divNearest_le (hd : 0 < d) (h : (n : ℚ) / d ≤ k) : divNearest n d ≤ k := by
  rw [div_le_iff₀ (by exact_mod_cast hd)] at h
  norm_cast at h
  have hq : n / d ≤ k := Nat.div_le_of_le_mul (by rwa [Nat.mul_comm])
  have hnd := Nat.div_add_mod n d
  unfold divNearest
  dsimp only
  split
  · refine Nat.lt_of_le_of_ne hq fun heq => ?_
    rw [heq, Nat.mul_comm] at hnd
    omega
  · exact hq

theorem le_divNearest (hd : 0 < d) (h : (k : ℚ) ≤ (n : ℚ) / d) : k ≤ divNearest n d := by
  rw [le_div_iff₀ (by exact_mod_cast hd)] at h
  norm_cast at h
  have hq : k ≤ n / d := (Nat.le_div_iff_mul_le hd).2 h
  unfold divNearest
  dsimp only
  split <;> omega

/-- Rounding reaches an even number from halfway below it on. -/
theorem even_le_divNearest_iff (hd : 0 < d) (hk : k % 2 = 0) :
    k ≤ divNearest n d ↔ (k : ℚ) - 1 / 2 ≤ (n : ℚ) / d := by
  have hcast : (k : ℚ) - 1 / 2 ≤ (n : ℚ) / d ↔ 2 * (k * d) ≤ 2 * n + d := by
    rw [le_div_iff₀ (by exact_mod_cast hd), ← Nat.cast_le (α := ℚ)]
    push_cast
    constructor <;> intro h <;> linarith
  have hnd := Nat.div_add_mod n d
  have hr := Nat.mod_lt n hd
  rw [hcast]
  unfold divNearest
  dsimp only
  generalize n / d = q at hnd ⊢
  generalize n % d = r at hnd hr ⊢
  rw [Nat.mul_comm d q] at hnd
  obtain hle | rfl | hlt : k ≤ q ∨ k = q + 1 ∨ q + 2 ≤ k := by omega
  · have := Nat.mul_le_mul_right d hle
    refine iff_of_true ?_ (by omega)
    split <;> omega
  · rw [Nat.add_mul, Nat.one_mul]
    split <;> omega
  · have := Nat.mul_le_mul_right d hlt
    rw [Nat.add_mul] at this
    refine iff_of_false ?_ (by omega)
    split <;> omega

/-! ## Rounding to a format -/

/-- A positive quotient lies between two powers of two. -/
theorem binaryExponent_spec {num den : Nat} (hnum : 0 < num) (hden : 0 < den) :
    (2 : ℚ) ^ binaryExponent num den ≤ (num : ℚ) / den ∧
      (num : ℚ) / den < 2 ^ (binaryExponent num den + 1) := by
  have hdenq : (0 : ℚ) < den := by exact_mod_cast hden
  have hlow : (2 : ℚ) ^ num.log2 ≤ num := by exact_mod_cast Nat.log2_self_le (Nat.ne_of_gt hnum)
  have hhigh : (num : ℚ) < 2 ^ (num.log2 + 1) := by exact_mod_cast Nat.lt_log2_self
  have hlow' : (2 : ℚ) ^ den.log2 ≤ den := by exact_mod_cast Nat.log2_self_le (Nat.ne_of_gt hden)
  have hhigh' : (den : ℚ) < 2 ^ (den.log2 + 1) := by exact_mod_cast Nat.lt_log2_self
  generalize he : (num.log2 : Int) - den.log2 = e
  have hpow : (2 : ℚ) ^ num.log2 = 2 ^ e * 2 ^ den.log2 := by
    rw [← zpow_natCast, ← zpow_natCast, ← zpow_add₀ two_ne_zero]
    congr 1
    omega
  have hreached : (if 0 ≤ e then den <<< e.toNat ≤ num else den ≤ num <<< (-e).toNat) ↔
      (2 : ℚ) ^ e ≤ (num : ℚ) / den := by
    rw [le_div_iff₀ hdenq]
    split
    · rename_i h
      obtain ⟨k, rfl⟩ := Int.eq_ofNat_of_zero_le h
      rw [Int.toNat_natCast, Nat.shiftLeft_eq, zpow_natCast, mul_comm]
      norm_cast
    · rename_i h
      obtain ⟨k, rfl⟩ : ∃ k : Nat, e = -k := ⟨(-e).toNat, by omega⟩
      rw [Int.neg_neg, Int.toNat_natCast, Nat.shiftLeft_eq, zpow_neg, zpow_natCast,
        inv_mul_le_iff₀ (by positivity), mul_comm]
      norm_cast
  unfold binaryExponent
  rw [he]
  dsimp only
  by_cases h : (2 : ℚ) ^ e ≤ (num : ℚ) / den
  · rw [if_pos (hreached.2 h)]
    refine ⟨h, ?_⟩
    rw [div_lt_iff₀ hdenq, zpow_add_one₀ two_ne_zero]
    calc (num : ℚ) < 2 ^ num.log2 * 2 := by rwa [← pow_succ]
      _ = 2 ^ e * 2 * 2 ^ den.log2 := by rw [hpow]; ring
      _ ≤ 2 ^ e * 2 * den := by gcongr
  · rw [if_neg (mt hreached.1 h), sub_add_cancel]
    refine ⟨?_, not_le.1 h⟩
    rw [le_div_iff₀ hdenq, zpow_sub_one₀ two_ne_zero]
    calc (2 : ℚ) ^ e * 2⁻¹ * den ≤ 2 ^ e * 2⁻¹ * (2 ^ den.log2 * 2) := by
          rw [← pow_succ]
          gcongr
      _ = 2 ^ num.log2 := by rw [hpow]; ring
      _ ≤ num := hlow

namespace Precision

/-- The exponent of the least power of two above all numbers of the format. -/
def top : Precision → Nat
  | single => 128
  | double => 1024

/-- Halfway between the greatest number of the format and the next power of two. -/
def overflow (p : Precision) : ℚ := 2 ^ p.top - 2 ^ (p.top - p.fractionBits - 2)

variable (p : Precision)

theorem lowest_eq : p.lowest = 2 - p.top - p.fractionBits := by cases p <;> rfl

theorem infinity_eq : p.infinity = (2 * p.top - 1) * 2 ^ p.fractionBits := by
  cases p <;> rfl

theorem fractionBits_lt_top : p.fractionBits + 2 < p.top := by cases p <;> decide

/-- Most of the numbers below the power of two are below the bound. -/
theorem half_lt_overflow : (2 : ℚ) ^ (p.top - 1) < p.overflow := by
  have hbits := p.fractionBits_lt_top
  have htop : p.top = p.top - 1 + 1 := by omega
  have hlt : (2 : ℚ) ^ (p.top - p.fractionBits - 2) < 2 ^ (p.top - 1) :=
    pow_lt_pow_right₀ one_lt_two (by omega)
  have hdouble : (2 : ℚ) ^ p.top = 2 ^ (p.top - 1) * 2 := by rw [← pow_succ, ← htop]
  rw [overflow, hdouble]
  linarith

theorem overflow_pos : 0 < p.overflow := lt_trans (by positivity) p.half_lt_overflow

end Precision

/-- The last place of a rounded quotient, as one quotient that is rounded to an integer. -/
theorem exists_scaled (num : Nat) {den : Nat} (hden : 0 < den) (place : Int) : ∃ n d : Nat, 0 < d ∧
    (if 0 ≤ place then divNearest num (den <<< place.toNat)
      else divNearest (num <<< (-place).toNat) den) = divNearest n d ∧
    (n : ℚ) / d = (num : ℚ) / den / 2 ^ place := by
  have hdenq : (den : ℚ) ≠ 0 := by exact_mod_cast Nat.ne_of_gt hden
  split
  · rename_i h
    obtain ⟨k, rfl⟩ := Int.eq_ofNat_of_zero_le h
    refine ⟨num, den <<< k, ?_, rfl, ?_⟩
    · rw [Nat.shiftLeft_eq]
      positivity
    · rw [Nat.shiftLeft_eq, zpow_natCast]
      push_cast
      rw [div_div]
  · rename_i h
    obtain ⟨k, rfl⟩ : ∃ k : Nat, place = -k := ⟨(-place).toNat, by omega⟩
    refine ⟨num <<< k, den, hden, by rw [Int.neg_neg, Int.toNat_natCast], ?_⟩
    rw [Nat.shiftLeft_eq, zpow_neg, zpow_natCast]
    push_cast
    field_simp

/-- What a positive quotient is rounded to: the place of its last bit, counted from the lowest one, and
a significand. Quotients below the numbers that have an exponent keep the lowest place. -/
theorem nearest_spec (p : Precision) {num den : Nat} (hnum : 0 < num) (hden : 0 < den) :
    ∃ (e : Int) (t n d : Nat), 0 < d ∧ (2 : ℚ) ^ e ≤ (num : ℚ) / den ∧
      (num : ℚ) / den < 2 ^ (e + 1) ∧
      nearest p num den = min (t * 2 ^ p.fractionBits + divNearest n d) p.infinity ∧
      (e + p.top < 2 ∧ t = 0 ∧ divNearest n d ≤ 2 ^ p.fractionBits ∨
        e + p.top - 2 = t ∧ (n : ℚ) / d = (num : ℚ) / den / 2 ^ (e - p.fractionBits)) := by
  obtain ⟨hlow, hhigh⟩ := binaryExponent_spec hnum hden
  obtain ⟨n, d, hd, hsig, hscaled⟩ := exists_scaled num hden
    (max (binaryExponent num den - p.fractionBits) p.lowest)
  unfold nearest
  rw [if_neg (Nat.ne_of_gt hnum)]
  dsimp only
  rw [hsig, Nat.shiftLeft_eq, Precision.lowest_eq]
  rw [Precision.lowest_eq] at hscaled
  generalize binaryExponent num den = e at hlow hhigh hscaled ⊢
  refine ⟨e, _, n, d, hd, hlow, hhigh, rfl, ?_⟩
  by_cases hsmall : e + p.top < 2
  · rw [max_eq_right (by omega)] at hscaled ⊢
    refine .inl ⟨hsmall, by rw [sub_self, Int.toNat_zero], divNearest_le hd ?_⟩
    rw [hscaled, div_le_iff₀ (by positivity)]
    refine le_trans hhigh.le ?_
    push_cast
    rw [← zpow_natCast, ← zpow_add₀ two_ne_zero]
    exact zpow_le_zpow_right₀ one_le_two (by omega)
  · rw [max_eq_left (by omega)] at hscaled ⊢
    exact .inr ⟨by omega, hscaled⟩

/-- A quotient divided by the place of its last bit has just the bits of a significand. -/
theorem significand_bounds {b n d : Nat} {e : Int} {v : ℚ} (hd : 0 < d) (hlow : (2 : ℚ) ^ e ≤ v)
    (hhigh : v < 2 ^ (e + 1)) (hv : (n : ℚ) / d = v / 2 ^ (e - b)) :
    2 ^ b ≤ divNearest n d ∧ divNearest n d ≤ 2 ^ (b + 1) := by
  have hpos : (0 : ℚ) < 2 ^ (e - b) := by positivity
  constructor
  · refine le_divNearest hd ?_
    rw [hv, le_div_iff₀ hpos]
    push_cast
    rwa [← zpow_natCast, ← zpow_add₀ two_ne_zero, add_sub_cancel]
  · refine divNearest_le hd ?_
    rw [hv, div_le_iff₀ hpos]
    push_cast
    rw [← zpow_natCast, ← zpow_add₀ two_ne_zero]
    refine le_trans hhigh.le (zpow_le_zpow_right₀ one_le_two ?_)
    push_cast
    omega

/-- A quotient rounds to infinity from the bound of the format on. -/
theorem nearest_eq_infinity_iff (p : Precision) {num den : Nat} (hden : 0 < den) :
    nearest p num den = p.infinity ↔ p.overflow ≤ (num : ℚ) / den := by
  have hbits := p.fractionBits_lt_top
  have hpow : 0 < 2 ^ p.fractionBits := by positivity
  obtain rfl | hnum := Nat.eq_zero_or_pos num
  · refine iff_of_false (fun h => ?_) ?_
    · rw [p.infinity_eq] at h
      exact absurd h (Nat.ne_of_lt (Nat.mul_pos (by omega) hpow))
    · rw [Nat.cast_zero, zero_div]
      exact not_le.2 p.overflow_pos
  obtain ⟨e, t, n, d, hd, hlow, hhigh, hnearest, hplace⟩ := nearest_spec p hnum hden
  rw [hnearest, min_eq_right_iff, p.infinity_eq]
  generalize (num : ℚ) / den = v at hlow hhigh hplace ⊢
  obtain ⟨hsmall, rfl, hsig⟩ | ⟨ht, hscaled⟩ := hplace
  · refine iff_of_false (not_le.2 ?_) (not_le.2 (lt_of_lt_of_le hhigh ?_))
    · have := Nat.mul_le_mul_right (2 ^ p.fractionBits) (show 2 ≤ 2 * p.top - 1 by omega)
      omega
    · refine le_trans ?_ p.half_lt_overflow.le
      rw [← zpow_natCast]
      exact zpow_le_zpow_right₀ one_le_two (by omega)
  obtain ⟨hge, hle⟩ := significand_bounds hd hlow hhigh hscaled
  have hdouble : 2 ^ (p.fractionBits + 1) = 2 * 2 ^ p.fractionBits := by rw [pow_succ, Nat.mul_comm]
  obtain hlt | heq | hgt : t + 4 ≤ 2 * p.top ∨ t + 3 = 2 * p.top ∨ 2 * p.top ≤ t + 2 := by omega
  · refine iff_of_false (not_le.2 ?_) (not_le.2 (lt_of_lt_of_le hhigh ?_))
    · have := Nat.mul_le_mul_right (2 ^ p.fractionBits) (show t + 3 ≤ 2 * p.top - 1 by omega)
      rw [Nat.add_mul] at this
      omega
    · refine le_trans ?_ p.half_lt_overflow.le
      rw [← zpow_natCast]
      exact zpow_le_zpow_right₀ one_le_two (by omega)
  · -- The greatest exponent: the significand carries into the next power of two, or it does not.
    have hcarry : (2 * p.top - 1) * 2 ^ p.fractionBits ≤ t * 2 ^ p.fractionBits + divNearest n d ↔
        2 ^ (p.fractionBits + 1) ≤ divNearest n d := by
      rw [show 2 * p.top - 1 = t + 2 by omega, Nat.add_mul, hdouble]
      omega
    rw [hcarry, even_le_divNearest_iff hd (by rw [hdouble, Nat.mul_mod_right]), hscaled,
      le_div_iff₀ (by positivity), Precision.overflow]
    push_cast
    have hplace : (2 : ℚ) ^ (e - p.fractionBits) = 2 ^ (p.top - p.fractionBits - 2) * 2 := by
      rw [← pow_succ, ← zpow_natCast]
      congr 1
      omega
    have htop : (2 : ℚ) ^ p.top = 2 ^ (p.fractionBits + 1) * (2 ^ (p.top - p.fractionBits - 2) * 2) := by
      rw [← pow_succ, ← pow_add]
      congr 1
      omega
    rw [hplace, htop]
    constructor <;> intro h <;> linarith
  · refine iff_of_true ?_ (le_trans ?_ hlow)
    · have := Nat.mul_le_mul_right (2 ^ p.fractionBits) (show 2 * p.top - 1 ≤ t + 1 by omega)
      rw [Nat.add_mul, Nat.one_mul] at this
      omega
    · have hpos : (0 : ℚ) < 2 ^ (p.top - p.fractionBits - 2) := by positivity
      have htop : (2 : ℚ) ^ p.top ≤ 2 ^ e := by
        rw [← zpow_natCast]
        exact zpow_le_zpow_right₀ one_le_two (by omega)
      rw [Precision.overflow]
      linarith

/-- Rounding does not pass a power of two. -/
theorem nearest_le_of_le_pow (p : Precision) {num den k : Nat} (hden : 0 < den)
    (h : (num : ℚ) / den ≤ 2 ^ k) : nearest p num den ≤ (k + p.top - 1) * 2 ^ p.fractionBits := by
  have hbits := p.fractionBits_lt_top
  obtain rfl | hnum := Nat.eq_zero_or_pos num
  · exact Nat.zero_le _
  obtain ⟨e, t, n, d, hd, hlow, hhigh, hnearest, hplace⟩ := nearest_spec p hnum hden
  rw [hnearest]
  refine le_trans (min_le_left ..) ?_
  generalize (num : ℚ) / den = v at h hlow hhigh hplace
  have hmul {a b : Nat} (hab : a ≤ b) := Nat.mul_le_mul_right (2 ^ p.fractionBits) hab
  obtain ⟨hsmall, rfl, hsig⟩ | ⟨ht, hscaled⟩ := hplace
  · have := hmul (show 1 ≤ k + p.top - 1 by omega)
    omega
  have he : e ≤ k := by
    have hpow := le_trans hlow h
    rw [← zpow_natCast] at hpow
    exact (zpow_le_zpow_iff_right₀ one_lt_two).1 hpow
  obtain ⟨-, hle⟩ := significand_bounds hd hlow hhigh hscaled
  rw [pow_succ] at hle
  obtain hlt | rfl : e < k ∨ e = k := by omega
  · have := hmul (show t + 2 ≤ k + p.top - 1 by omega)
    rw [Nat.add_mul] at this
    omega
  · -- The quotient is the power of two itself.
    have hsig : divNearest n d ≤ 2 ^ p.fractionBits := by
      refine divNearest_le hd ?_
      rw [hscaled, div_le_iff₀ (by positivity)]
      push_cast
      rwa [← zpow_natCast, ← zpow_add₀ two_ne_zero, add_sub_cancel, zpow_natCast]
    have := hmul (show t + 1 ≤ k + p.top - 1 by omega)
    rw [Nat.add_mul, Nat.one_mul] at this
    omega

/-! ## Numbers as rationals -/

namespace Binary

variable {p q : Precision} {x : Binary p}

/-- The number without its sign. -/
def size (x : Binary p) : ℚ := x.parts.1 * 2 ^ x.parts.2

/-- A finite number as the rational that it is. -/
def value (x : Binary p) : ℚ := if x.negative then -x.size else x.size

/-- Whether a number is an infinity of its format. -/
def Infinite (x : Binary p) : Prop := x.magnitude = p.infinity

theorem size_nonneg (x : Binary p) : 0 ≤ x.size := by
  unfold size
  positivity

theorem abs_value (x : Binary p) : |x.value| = x.size := by
  unfold value
  split
  · rw [abs_neg, abs_of_nonneg x.size_nonneg]
  · exact abs_of_nonneg x.size_nonneg

/-- The number without its sign, as the quotient that is rounded. -/
theorem size_eq (x : Binary p) : x.size = if 0 ≤ x.parts.2 then
    ((x.parts.1 <<< x.parts.2.toNat : Nat) : ℚ) / (1 : Nat)
    else (x.parts.1 : ℚ) / ((1 <<< (-x.parts.2).toNat : Nat) : ℚ) := by
  unfold size
  generalize x.parts.2 = e
  split
  · rename_i h
    obtain ⟨k, rfl⟩ := Int.eq_ofNat_of_zero_le h
    simp [Nat.shiftLeft_eq]
  · rename_i h
    obtain ⟨k, rfl⟩ : ∃ k : Nat, e = -k := ⟨(-e).toNat, by omega⟩
    simp [Nat.shiftLeft_eq, zpow_neg, div_eq_mul_inv]

/-- A conversion gives infinity for the numbers that are not below the bound of the format. -/
theorem convert_infinite_iff (h : x.isFinite = true) :
    (x.convert q).Infinite ↔ q.overflow ≤ |x.value| := by
  have hnan : x.isNaN = false := by
    simp only [isFinite, isNaN, decide_eq_true_eq, decide_eq_false_iff_not] at h ⊢
    omega
  unfold Infinite convert
  rw [if_neg (by rw [hnan]; exact Bool.false_ne_true), if_pos h, abs_value, size_eq]
  dsimp only
  split
  · rw [magnitude_ofMagnitude (nearest_le ..), nearest_eq_infinity_iff q Nat.one_pos]
  · rw [magnitude_ofMagnitude (nearest_le ..), nearest_eq_infinity_iff q (by
      rw [Nat.shiftLeft_eq]
      positivity)]

theorem ofInt_infinite_iff (n : Int) : (ofInt p n).Infinite ↔ p.overflow ≤ |(n : ℚ)| := by
  unfold Infinite ofInt
  rw [magnitude_ofMagnitude (nearest_le ..), nearest_eq_infinity_iff p Nat.one_pos, Nat.cast_one,
    div_one, Nat.cast_natAbs, Int.cast_abs]

theorem isFinite_ofInt {n : Int} (h : |(n : ℚ)| < p.overflow) : (ofInt p n).isFinite = true := by
  have hinfinite := mt (ofInt_infinite_iff n).1 (not_le.2 h)
  unfold Infinite ofInt at hinfinite
  rw [magnitude_ofMagnitude (nearest_le ..)] at hinfinite
  simp only [isFinite, decide_eq_true_eq, ofInt, magnitude_ofMagnitude (nearest_le ..)]
  exact Nat.lt_of_le_of_ne (nearest_le ..) hinfinite

/-- A number whose places below one are empty is its integer part. -/
theorem value_eq_trunc (h : 0 ≤ x.parts.2 ∨ x.parts.1 % 1 <<< (-x.parts.2).toNat = 0) :
    x.value = x.trunc := by
  have hsize : x.size = ((if 0 ≤ x.parts.2 then x.parts.1 <<< x.parts.2.toNat
      else x.parts.1 >>> (-x.parts.2).toNat : Nat) : ℚ) := by
    rw [size_eq]
    split
    · rw [Nat.cast_one, div_one]
    · obtain ⟨m, hm⟩ := Nat.dvd_of_mod_eq_zero (h.resolve_left ‹_›)
      rw [Nat.shiftRight_eq_div_pow, ← Nat.one_shiftLeft, hm, Nat.mul_div_cancel_left _ (by
        rw [Nat.shiftLeft_eq]; positivity), Nat.cast_mul, mul_div_cancel_left₀ _ (by
        rw [Nat.shiftLeft_eq]; positivity)]
  unfold value trunc
  dsimp only
  rw [hsize]
  generalize (if 0 ≤ x.parts.2 then x.parts.1 <<< x.parts.2.toNat
    else x.parts.1 >>> (-x.parts.2).toNat : Nat) = whole
  split <;> simp

/-- A number that is an integer has no places below one. -/
theorem parts_of_value {n : Int} (hn : x.value = n) :
    0 ≤ x.parts.2 ∨ x.parts.1 % 1 <<< (-x.parts.2).toNat = 0 := by
  refine or_iff_not_imp_left.2 fun hneg => ?_
  have hsize : x.size = n.natAbs := by rw [← abs_value, hn, Nat.cast_natAbs, Int.cast_abs]
  rw [size_eq, if_neg hneg, div_eq_iff (by rw [Nat.shiftLeft_eq]; positivity)] at hsize
  norm_cast at hsize
  rw [hsize, Nat.mul_mod_left]

/-- A finite number is an integer where `isIntegral` says so. -/
theorem isIntegral_iff (h : x.isFinite = true) : x.isIntegral = true ↔ ∃ n : Int, x.value = n := by
  have hparts : x.isIntegral = true ↔
      0 ≤ x.parts.2 ∨ x.parts.1 % 1 <<< (-x.parts.2).toNat = 0 := by
    simp [isIntegral, h]
  rw [hparts]
  exact ⟨fun h => ⟨x.trunc, value_eq_trunc h⟩, fun ⟨_, hn⟩ => parts_of_value hn⟩

theorem trunc_of_value {n : Int} (hn : x.value = n) : x.trunc = n := by
  have htrunc := value_eq_trunc (parts_of_value hn)
  rw [hn] at htrunc
  exact_mod_cast htrunc.symm

theorem value_eq_zero_iff : x.value = 0 ↔ x.isZero = true := by
  have hsize : x.value = 0 ↔ x.parts.1 = 0 := by
    rw [← abs_eq_zero, abs_value, size, mul_eq_zero, Nat.cast_eq_zero]
    exact or_iff_left (by positivity)
  rw [hsize, isZero, beq_iff_eq]
  obtain ⟨hzero, hmag⟩ | ⟨hpos, -, hmag⟩ := x.parts_spec
  · exact iff_of_true hzero hmag
  · refine iff_of_false (Nat.ne_of_gt hpos) (Nat.ne_of_gt (Nat.lt_of_lt_of_le hpos ?_))
    rw [← hmag]
    exact Nat.le_add_left ..

/-- A number of the format is below the bound. -/
theorem abs_value_lt_overflow (h : x.isFinite = true) : |x.value| < p.overflow := by
  refine not_le.1 fun hle => ?_
  have hinfinite := (convert_infinite_iff (q := p) h).2 hle
  rw [convert_self (quiet_of_isFinite h)] at hinfinite
  simp only [isFinite, decide_eq_true_eq] at h
  exact absurd hinfinite (Nat.ne_of_lt h)

/-- A number with the bits of a power of two, or with less, is not above it. -/
theorem size_le_of_magnitude_le {k : Nat} (h : x.magnitude ≤ (k + p.top - 1) * 2 ^ p.fractionBits) :
    x.size ≤ 2 ^ k := by
  have hbits := p.fractionBits_lt_top
  unfold size
  obtain ⟨hzero, -⟩ | ⟨hpos, hplace, hmag⟩ := x.parts_spec
  · rw [hzero, Nat.cast_zero, zero_mul]
    positivity
  generalize x.parts.1 = m at hpos hplace hmag
  generalize x.parts.2 = e at hplace hmag
  have hm : m < 2 ^ (p.fractionBits + 1) :=
    (Nat.log2_lt (Nat.ne_of_gt hpos)).1 (by omega)
  rw [Nat.shiftLeft_eq, Precision.lowest_eq] at hmag
  rw [Precision.lowest_eq] at hplace
  obtain ⟨t, ht⟩ : ∃ t : Nat, e - (2 - p.top - p.fractionBits) = t :=
    ⟨(e - (2 - p.top - p.fractionBits)).toNat, by omega⟩
  rw [ht, Int.toNat_natCast] at hmag
  have bound {i : Nat} (hi : m ≤ 2 ^ i) (hk : i + e ≤ k) : (m : ℚ) * 2 ^ e ≤ 2 ^ k := by
    calc (m : ℚ) * 2 ^ e ≤ 2 ^ i * 2 ^ e := by
          gcongr
          exact_mod_cast hi
      _ = 2 ^ (i + e) := by rw [zpow_add₀ two_ne_zero, zpow_natCast]
      _ ≤ 2 ^ k := by
          rw [← zpow_natCast]
          exact zpow_le_zpow_right₀ one_le_two hk
  obtain hlt | heq | hgt : t + 3 ≤ k + p.top ∨ t + 2 = k + p.top ∨ k + p.top ≤ t + 1 := by omega
  · exact bound hm.le (by omega)
  · refine bound (i := p.fractionBits) ?_ (by omega)
    rw [show k + p.top - 1 = t + 1 by omega, Nat.add_mul, Nat.one_mul] at h
    omega
  · have := Nat.mul_le_mul_right (2 ^ p.fractionBits) (show k + p.top - 1 ≤ t by omega)
    omega

/-- An integer up to a power of two is rounded to a number up to it. -/
theorem abs_value_ofInt_le {n : Int} {k : Nat} (h : |(n : ℚ)| ≤ 2 ^ k) :
    |(ofInt p n).value| ≤ 2 ^ k := by
  rw [abs_value]
  refine size_le_of_magnitude_le ?_
  unfold ofInt
  rw [magnitude_ofMagnitude (nearest_le ..)]
  refine nearest_le_of_le_pow p Nat.one_pos ?_
  rwa [Nat.cast_one, div_one, Nat.cast_natAbs, Int.cast_abs]

end Binary

end StackScript
