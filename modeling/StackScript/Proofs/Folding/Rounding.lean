import Mathlib.Algebra.Order.Ring.Nat
import Mathlib.Tactic.Positivity
import Mathlib.Tactic.Ring
import StackScript.Number.Binary

/-!
# Rounding what is exact

A number read at its own format is itself (`Binary.convert_self`), unless it is a signaling NaN. No
operation yields one of these (`Binary.Quiet`), so conversions to the kind that a value has already
are no-ops, and a constant is bound to the bits that it was computed with.
-/

namespace StackScript

/-! ## Exact quotients -/

theorem divNearest_mul {d : Nat} (hd : 0 < d) (n : Nat) : divNearest (n * d) d = n := by
  unfold divNearest
  rw [Nat.mul_div_cancel n hd, Nat.mul_mod_left]
  rw [if_neg]
  omega

theorem log2_shiftLeft {m : Nat} (hm : 0 < m) (k : Nat) : (m <<< k).log2 = m.log2 + k := by
  rw [Nat.shiftLeft_eq, Nat.log2_eq_iff (by positivity), Nat.add_right_comm, pow_add, pow_add 2 _ k]
  have hlow := Nat.log2_self_le (Nat.ne_of_gt hm)
  have hhigh := Nat.lt_log2_self (n := m)
  exact ⟨Nat.mul_le_mul_right _ hlow, Nat.mul_lt_mul_of_pos_right hhigh (by positivity)⟩

theorem binaryExponent_shiftLeft {m : Nat} (hm : 0 < m) (k : Nat) :
    binaryExponent (m <<< k) 1 = m.log2 + k := by
  have hlog := log2_shiftLeft hm k
  have hone : Nat.log2 1 = 0 := by decide
  have hreached : 1 <<< (m.log2 + k) ≤ m <<< k := by
    rw [Nat.shiftLeft_eq, Nat.shiftLeft_eq, Nat.one_mul, pow_add]
    exact Nat.mul_le_mul_right _ (Nat.log2_self_le (Nat.ne_of_gt hm))
  unfold binaryExponent
  rw [hlog, hone]
  have hnonneg : (0 : Int) ≤ ((m.log2 + k : Nat) : Int) - ((0 : Nat) : Int) := by omega
  have htoNat : (((m.log2 + k : Nat) : Int) - ((0 : Nat) : Int)).toNat = m.log2 + k := by omega
  simp only [hnonneg, if_true, htoNat, hreached]
  omega

theorem binaryExponent_fraction {m : Nat} (hm : 0 < m) (k : Nat) :
    binaryExponent m (1 <<< k) = (m.log2 : Int) - k := by
  have hlog : (1 <<< k).log2 = k := by
    rw [log2_shiftLeft Nat.one_pos, show Nat.log2 1 = 0 by decide, Nat.zero_add]
  have hlow := Nat.log2_self_le (Nat.ne_of_gt hm)
  unfold binaryExponent
  rw [hlog]
  by_cases hle : (0 : Int) ≤ (m.log2 : Int) - k
  · have heq : k + ((m.log2 : Int) - k).toNat = m.log2 := by omega
    have hreached : (1 <<< k) <<< ((m.log2 : Int) - k).toNat ≤ m := by
      rw [← Nat.shiftLeft_add, heq, Nat.shiftLeft_eq, Nat.one_mul]
      exact hlow
    simp only [hle, hreached, if_true]
  · have heq : m.log2 + (-((m.log2 : Int) - k)).toNat = k := by omega
    have hreached : 1 <<< k ≤ m <<< (-((m.log2 : Int) - k)).toNat := by
      rw [Nat.shiftLeft_eq, Nat.shiftLeft_eq, Nat.one_mul]
      nth_rewrite 1 [← heq]
      rw [pow_add]
      exact Nat.mul_le_mul_right _ hlow
    simp only [hle, hreached, if_true, if_false]

/-! ## Numbers of a format -/

/-- The number nearest to a significand that the format holds at its exponent. -/
theorem nearest_exact (p : Precision) {m : Nat} {e : Int} (hm : 0 < m)
    (hplace : max ((m.log2 : Int) + e - p.fractionBits) p.lowest = e) :
    (if 0 ≤ e then nearest p (m <<< e.toNat) 1 else nearest p m (1 <<< (-e).toNat)) =
      min (((e - p.lowest).toNat <<< p.fractionBits) + m) p.infinity := by
  split
  · rename_i he
    have hne : m <<< e.toNat ≠ 0 := by
      rw [Nat.shiftLeft_eq]
      positivity
    unfold nearest
    rw [if_neg hne, binaryExponent_shiftLeft hm]
    have hplace' : max (((m.log2 : Int) + e.toNat) - p.fractionBits) p.lowest = e := by
      rw [Int.toNat_of_nonneg he]
      exact hplace
    simp only [hplace', he, if_true]
    rw [Nat.shiftLeft_eq m, Nat.shiftLeft_eq 1, Nat.one_mul, divNearest_mul (by positivity)]
  · rename_i he
    unfold nearest
    rw [if_neg (Nat.ne_of_gt hm), binaryExponent_fraction hm]
    have hplace' : max (((m.log2 : Int) - (-e).toNat) - p.fractionBits) p.lowest = e := by
      rw [Int.toNat_of_nonneg (by omega), Int.sub_neg]
      exact hplace
    simp only [hplace', he, if_false]
    rw [Nat.shiftLeft_eq m, Nat.shiftLeft_eq 1, Nat.one_mul, divNearest_mul (by positivity)]

namespace Binary

variable {p : Precision}

/-- A number is its sign and its magnitude. -/
theorem ofMagnitude_magnitude (x : Binary p) : ofMagnitude p x.negative x.magnitude = x := by
  have hlt := x.bits.isLt
  have hhalf : 1 <<< (p.width - 1) + 1 <<< (p.width - 1) = 2 ^ p.width := by cases p <;> rfl
  obtain ⟨bits⟩ := x
  unfold ofMagnitude negative magnitude
  congr 1
  apply BitVec.eq_of_toNat_eq
  rw [BitVec.toNat_ofNat, BitVec.msb_eq_decide]
  have hpow : 2 ^ (p.width - 1) = 1 <<< (p.width - 1) := by rw [Nat.shiftLeft_eq, Nat.one_mul]
  rw [hpow]
  generalize 1 <<< (p.width - 1) = half at *
  have hpos : 0 < half := by
    have := bits.isLt
    omega
  by_cases h : half ≤ bits.toNat
  · have hmod : bits.toNat % half = bits.toNat - half := by
      rw [Nat.mod_eq_sub_mod h, Nat.mod_eq_of_lt (by omega)]
    simp only [h, decide_true, if_true, hmod]
    rw [Nat.add_sub_cancel' h, Nat.mod_eq_of_lt hlt]
  · simp only [h, decide_false, Bool.false_eq_true, if_false, Nat.zero_add]
    rw [Nat.mod_eq_of_lt (Nat.lt_of_not_le h), Nat.mod_eq_of_lt hlt]

/-- Significand and exponent of a number are those that rounding finds. -/
theorem parts_spec (x : Binary p) : x.parts.1 = 0 ∧ x.magnitude = 0 ∨ 0 < x.parts.1 ∧
    max ((x.parts.1.log2 : Int) + x.parts.2 - p.fractionBits) p.lowest = x.parts.2 ∧
    ((x.parts.2 - p.lowest).toNat <<< p.fractionBits) + x.parts.1 = x.magnitude := by
  have hdiv := Nat.div_add_mod x.magnitude (2 ^ p.fractionBits)
  have hmod : x.magnitude % 2 ^ p.fractionBits < 2 ^ p.fractionBits := Nat.mod_lt _ (by positivity)
  have hparts : x.parts = if x.magnitude / 2 ^ p.fractionBits = 0 then
      (x.magnitude % 2 ^ p.fractionBits, p.lowest)
      else (x.magnitude % 2 ^ p.fractionBits + 2 ^ p.fractionBits,
        p.lowest + (x.magnitude / 2 ^ p.fractionBits : Nat) - 1) := by
    simp only [parts, Nat.shiftRight_eq_div_pow, Nat.one_shiftLeft]
  rw [hparts]
  generalize x.magnitude % 2 ^ p.fractionBits = frac at *
  generalize x.magnitude / 2 ^ p.fractionBits = field at *
  split
  · rename_i hzero
    rw [hzero, Nat.mul_zero, Nat.zero_add] at hdiv
    rcases Nat.eq_zero_or_pos frac with hz | hpos
    · exact .inl ⟨hz, hdiv.symm.trans hz⟩
    · have hlog : frac.log2 < p.fractionBits := (Nat.log2_lt (Nat.ne_of_gt hpos)).2 hmod
      refine .inr ⟨hpos, ?_, ?_⟩
      · show max ((frac.log2 : Int) + p.lowest - p.fractionBits) p.lowest = p.lowest
        omega
      · simp only [Int.sub_self, Int.toNat_zero, Nat.zero_shiftLeft, Nat.zero_add, hdiv]
  · rename_i hne
    obtain ⟨k, rfl⟩ : ∃ k, field = k + 1 := ⟨field - 1, by omega⟩
    have hpos : 0 < frac + 2 ^ p.fractionBits := by positivity
    have hlog : (frac + 2 ^ p.fractionBits).log2 = p.fractionBits := by
      rw [Nat.log2_eq_iff (Nat.ne_of_gt hpos), pow_succ]
      omega
    have hexp : (p.lowest + (k + 1 : Nat) - 1 - p.lowest).toNat = k := by omega
    refine .inr ⟨hpos, ?_, ?_⟩
    · show max (((frac + 2 ^ p.fractionBits).log2 : Int) + (p.lowest + (k + 1 : Nat) - 1) -
        p.fractionBits) p.lowest = _
      rw [hlog]
      omega
    · show (p.lowest + (k + 1 : Nat) - 1 - p.lowest).toNat <<< p.fractionBits + _ = _
      rw [hexp, Nat.shiftLeft_eq, ← hdiv]
      ring

/-- Significand and exponent give back the magnitude. -/
theorem nearest_parts (x : Binary p) (h : x.isFinite = true) :
    (if 0 ≤ x.parts.2 then nearest p (x.parts.1 <<< x.parts.2.toNat) 1
      else nearest p x.parts.1 (1 <<< (-x.parts.2).toNat)) = x.magnitude := by
  have hfinite : x.magnitude < p.infinity := by simpa [isFinite] using h
  obtain ⟨hzero, hmag⟩ | ⟨hpos, hplace, hmag⟩ := x.parts_spec
  · rw [hzero, hmag, Nat.zero_shiftLeft]
    split <;> rfl
  · rw [nearest_exact p hpos hplace, hmag]
    omega

/-- A number is no NaN, or its quiet bit is set. -/
def Quiet (x : Binary p) : Prop := x.isNaN = true → x.quiet = x

theorem Quiet.of_not_nan {x : Binary p} (h : x.isNaN = false) : x.Quiet := fun hnan => by
  rw [h] at hnan
  cases hnan

/-- A number read at its own format is itself. -/
theorem convert_self {x : Binary p} (h : x.Quiet) : x.convert p = x := by
  unfold convert
  split
  · rename_i hnan
    have hle : p.infinity ≤ x.magnitude := by
      have : p.infinity < x.magnitude := by simpa [isNaN] using hnan
      omega
    unfold convertNaN
    have hshift : ((x.magnitude - p.infinity) <<< p.fractionBits) >>> p.fractionBits =
        x.magnitude - p.infinity := by
      rw [Nat.shiftLeft_eq, Nat.shiftRight_eq_div_pow, Nat.mul_div_cancel _ (by positivity)]
    simp only [hshift]
    rw [Nat.add_sub_cancel' hle, ofMagnitude_magnitude, h hnan]
  · split
    · rename_i hfinite
      have hparts := nearest_parts x hfinite
      simp only [hparts, ofMagnitude_magnitude]
    · rename_i hnan hfinite
      have hmag : x.magnitude = p.infinity := by
        have h₁ : ¬p.infinity < x.magnitude := by simpa [isNaN] using hnan
        have h₂ : ¬x.magnitude < p.infinity := by simpa [isFinite] using hfinite
        omega
      rw [← hmag, ofMagnitude_magnitude]

/-! ## Where quiet numbers come from -/

theorem magnitude_ofMagnitude {negative : Bool} {m : Nat} (hm : m ≤ p.infinity) :
    (ofMagnitude p negative m).magnitude = m := by
  have hinf : p.infinity < 1 <<< (p.width - 1) := by cases p <;> decide
  have hhalf : 1 <<< (p.width - 1) + 1 <<< (p.width - 1) = 2 ^ p.width := by cases p <;> rfl
  unfold magnitude ofMagnitude
  rw [BitVec.toNat_ofNat]
  cases negative
  · simp only [Bool.false_eq_true, if_false, Nat.zero_add]
    rw [Nat.mod_eq_of_lt (a := m) (by omega), Nat.mod_eq_of_lt (by omega)]
  · simp only [if_true]
    rw [Nat.mod_eq_of_lt (b := 2 ^ p.width) (by omega), Nat.add_mod_left,
      Nat.mod_eq_of_lt (by omega)]

theorem isNaN_ofMagnitude {negative : Bool} {m : Nat} (hm : m ≤ p.infinity) :
    (ofMagnitude p negative m).isNaN = false := by
  simp only [isNaN, magnitude_ofMagnitude hm, decide_eq_false_iff_not]
  omega

theorem nearest_le (p : Precision) (num den : Nat) : nearest p num den ≤ p.infinity := by
  unfold nearest
  split
  · exact Nat.zero_le _
  · exact Nat.min_le_right ..

theorem quiet_zero : (zero p).Quiet := .of_not_nan (isNaN_ofMagnitude (Nat.zero_le _))

theorem quiet_ofInt (n : Int) : (ofInt p n).Quiet := .of_not_nan (isNaN_ofMagnitude (nearest_le ..))

theorem quiet_of_isFinite {x : Binary p} (h : x.isFinite = true) : x.Quiet := by
  refine .of_not_nan ?_
  have hfinite : x.magnitude < p.infinity := by simpa [isFinite] using h
  simp only [isNaN, decide_eq_false_iff_not]
  omega

theorem quiet_quiet (x : Binary p) : x.quiet.quiet = x.quiet := by
  unfold quiet
  simp only [BitVec.or_assoc, BitVec.or_self]

/-- The result of an operation is quiet, whatever its operands are. -/
theorem quiet_settle (x y r : Binary p) : (settle x y r).Quiet := by
  unfold settle
  split
  · exact fun _ => x.quiet_quiet
  · split
    · exact fun _ => y.quiet_quiet
    · split
      · exact fun _ => by cases p <;> decide
      · rename_i h
        exact .of_not_nan (by simpa using h)

theorem quiet_add (x y : Binary p) : (x + y).Quiet := quiet_settle _ _ _

theorem quiet_sub (x y : Binary p) : (x - y).Quiet := quiet_settle _ _ _

theorem quiet_mul (x y : Binary p) : (x * y).Quiet := quiet_settle _ _ _

theorem quiet_div (x y : Binary p) : (x / y).Quiet := quiet_settle _ _ _

end Binary

namespace Complex

variable {p : Precision}

/-- Both parts are quiet. -/
structure Quiet (z : Complex p) : Prop where
  re : z.re.Quiet
  im : z.im.Quiet

theorem convert_self {z : Complex p} (h : z.Quiet) : z.convert p = z := by
  obtain ⟨re, im⟩ := z
  simp only [convert, Binary.convert_self h.re, Binary.convert_self h.im]

theorem quiet_ofReal {x : Binary p} (h : x.Quiet) : (ofReal x).Quiet := ⟨h, Binary.quiet_zero⟩

theorem quiet_add (x y : Complex p) : (x + y).Quiet := ⟨Binary.quiet_add _ _, Binary.quiet_add _ _⟩

theorem quiet_sub (x y : Complex p) : (x - y).Quiet := ⟨Binary.quiet_sub _ _, Binary.quiet_sub _ _⟩

theorem quiet_mul (x y : Complex p) : (x * y).Quiet := ⟨Binary.quiet_sub _ _, Binary.quiet_add _ _⟩

theorem quiet_div (x y : Complex p) : (x / y).Quiet := ⟨Binary.quiet_div _ _, Binary.quiet_div _ _⟩

end Complex

end StackScript
