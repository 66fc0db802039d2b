import StackScript.Proofs.Folding.Agreement

/-!
# Shifts of untyped constants

An untyped constant may be an integer without being written as one, as `1e3` is. Folding a shift takes
such operands for the integers they are, moved into the range of untyped integers, and is exact from
there on (`fold_shift_of_denotes`). A left shift is refused if a bit is lost, and also by a few counts
that lose none: by 127, and by 32 bits or more of zero. An operand outside the range is not refused
(`fold_shift_clamps`). Untyped integers themselves never leave the range (`ranged_fold`).
-/

namespace StackScript

namespace Constant

/-- The integer that an untyped constant is. -/
inductive Denotes : Constant → Int → Prop
  | int (n : Int) : Denotes (.int n) n
  | float {x : Binary .double} (h : x.isIntegral = true) : Denotes (.float x) x.trunc
  | complex {z : Complex .double} {n : Int} (him : z.im.isZero = true) (hre : Denotes (.float z.re) n) :
      Denotes (.complex z) n

/-- Untyped integers are in range. -/
def Ranged (c : Constant) : Prop := ∀ n, c = .int n → inRange n = true

/-- The integer nearest to `n` that is in range. -/
def clamped (n : Int) : Int := max (-(limit : Int)) (min (limit - 1) n)

variable {op : Operator} {x y c : Constant} {a m n : Int}

theorem clamped_of_inRange (h : inRange n = true) : clamped n = n := by
  obtain ⟨hlow, hhigh⟩ := inRange_iff.1 h
  unfold clamped
  omega

theorem clamped_lt_zero : clamped n < 0 ↔ n < 0 := by
  have hlimit : (0 : Int) < limit := by decide
  unfold clamped
  omega

theorem inRange_clamped : inRange (clamped n) = true := by
  have hlimit : (0 : Int) < limit := by decide
  rw [inRange_iff, clamped]
  omega

/-! ## The range -/

theorem ranged_of_isBound (h : x.operandKind.isBound = true) : x.Ranged := by
  rintro n rfl
  cases h

theorem inRange_onBits (f : BitVec 128 → BitVec 128 → BitVec 128) : inRange (onBits f a n) = true := by
  have hlow := BitVec.le_toInt (f (BitVec.ofInt 128 a) (BitVec.ofInt 128 n))
  have hhigh := BitVec.toInt_lt (x := f (BitVec.ofInt 128 a) (BitVec.ofInt 128 n))
  have hlimit : limit = 2 ^ 127 := rfl
  rw [inRange_iff, onBits]
  omega

theorem Denotes.isBound (h : x.Denotes n) : x.operandKind.isBound = false := by
  cases h <;> rfl

theorem isFinite_of_isIntegral {x : Binary .double} (h : x.isIntegral = true) : x.isFinite = true := by
  simp only [Binary.isIntegral, Bool.and_eq_true] at h
  exact h.1

theorem clampReal_of_isIntegral {x : Binary .double} (h : x.isIntegral = true) :
    clampReal x = clamped x.trunc := by
  have hfinite := isFinite_of_isIntegral h
  have hnan : x.isNaN = false := by
    simp only [Binary.isFinite, Binary.isNaN, decide_eq_true_eq, decide_eq_false_iff_not] at hfinite ⊢
    omega
  simp [clampReal, Binary.clamp, clamped, hnan, hfinite]

theorem integer_float_eq_ok_iff {r : Binary .double} :
    (float r).integer = .ok m ↔ ∃ n, Denotes (.float r) n ∧ m = clamped n := by
  rw [integer]
  by_cases h : r.isIntegral = true
  · rw [if_pos h, Except.ok.injEq, clampReal_of_isIntegral h]
    constructor
    · rintro rfl
      exact ⟨_, .float h, rfl⟩
    · rintro ⟨_, ⟨⟩, rfl⟩
      rfl
  · rw [if_neg h]
    refine iff_of_false (by rintro ⟨⟩) ?_
    rintro ⟨_, hn, -⟩
    cases hn with
    | float h' => exact h h'

/-- The constants that count as integers are those that denote one. -/
theorem integer_eq_ok_iff (hx : x.Ranged) : x.integer = .ok m ↔ ∃ n, x.Denotes n ∧ m = clamped n := by
  cases x with
  | bound v =>
    rw [integer]
    refine iff_of_false (by rintro ⟨⟩) ?_
    rintro ⟨n, ⟨⟩, -⟩
  | int n =>
    rw [integer, Except.ok.injEq]
    constructor
    · rintro rfl
      exact ⟨n, .int n, (clamped_of_inRange (hx n rfl)).symm⟩
    · rintro ⟨_, ⟨⟩, rfl⟩
      exact (clamped_of_inRange (hx n rfl)).symm
  | float r => exact integer_float_eq_ok_iff
  | complex z =>
    rw [integer]
    by_cases him : z.im.isZero = true
    · rw [if_pos him, integer_float_eq_ok_iff]
      constructor
      · rintro ⟨n, hn, rfl⟩
        exact ⟨n, .complex him hn, rfl⟩
      · rintro ⟨n, hn, rfl⟩
        cases hn with
        | complex _ hre => exact ⟨n, hre, rfl⟩
    · rw [if_neg him]
      refine iff_of_false (by rintro ⟨⟩) ?_
      rintro ⟨_, hn, -⟩
      cases hn with
      | complex him' _ => exact him him'

theorem inRange_integer (hx : x.Ranged) (h : x.integer = .ok m) : inRange m = true := by
  obtain ⟨n, -, rfl⟩ := (integer_eq_ok_iff hx).1 h
  exact inRange_clamped

theorem ranged_checked (h : checked op n = .ok c) : c.Ranged := by
  unfold checked at h
  split at h <;> cases h
  rintro _ ⟨⟩
  assumption

theorem ranged_foldInt {b : Int} (hb : inRange b = true) (h : foldInt op a b = .ok c) : c.Ranged := by
  have hint {n : Int} (hn : inRange n = true) : (int n).Ranged := by
    rintro _ ⟨⟩
    exact hn
  unfold foldInt at h
  split at h
  · exact ranged_checked h
  · exact ranged_checked h
  · exact ranged_checked h
  · split at h
    · cases h
    unfold divided at h
    split at h <;> cases h
    exact hint ‹_›
  · split at h
    · cases h
    unfold divided at h
    split at h <;> cases h
    rename_i hne _
    -- the remainder is smaller than the divisor
    have hlt : (a.tmod b).natAbs < b.natAbs := by
      rw [Int.natAbs_tmod]
      exact Nat.mod_lt _ (Int.natAbs_pos.2 hne)
    refine hint ?_
    rw [inRange_iff] at hb ⊢
    omega
  · cases h; exact hint (inRange_onBits _)
  · cases h; exact hint (inRange_onBits _)
  · cases h; exact hint (inRange_onBits _)
  · cases h; exact hint (inRange_onBits _)
  · split at h <;> cases h
    exact ranged_of_isBound rfl

/-! ## Shifts of integers -/

/-- Counts beyond the range shift as the greatest in range does. -/
theorem shifted_clamped (hn : 0 ≤ n) : shifted op a (clamped n).toNat = shifted op a n.toNat := by
  by_cases hr : inRange n = true
  · rw [clamped_of_inRange hr]
  · have hlimit : limit = 2 ^ 127 := rfl
    have hlarge {count : Nat} (h : limit - 1 ≤ count) : shifted op a count =
        if op = .shl then .error (.error (.resultOverflows op (.int .int)))
        else .ok (.int (if a < 0 then -1 else 0)) := by
      have hcount : ¬count < 127 := by omega
      have hzero : ¬(a = 0 ∧ count < 2 ^ 32) := by omega
      unfold shifted
      rw [Nat.one_shiftLeft, Nat.one_shiftLeft, if_neg hcount, if_neg hzero, if_neg hcount]
    rw [inRange_iff] at hr
    rw [hlarge (by unfold clamped; omega), hlarge (by omega)]

theorem ranged_shifted {count : Nat} (ha : inRange a = true) (h : shifted op a count = .ok c) :
    c.Ranged := by
  obtain ⟨rfl, hleft⟩ := (shifted_eq_ok_iff ha).1 h
  rintro _ ⟨⟩
  unfold exactShift
  split
  · exact (hleft ‹_›).1
  · have hpos : (0 : Int) < (2 ^ count : Nat) := by exact_mod_cast Nat.two_pow_pos count
    have hscaled : (limit : Int) * 1 ≤ limit * (2 ^ count : Nat) :=
      Int.mul_le_mul_of_nonneg_left hpos (Int.natCast_nonneg limit)
    rw [inRange_iff] at ha ⊢
    constructor
    · refine (Int.le_ediv_iff_mul_le hpos).2 ?_
      rw [Int.neg_mul]
      omega
    · refine Int.ediv_lt_of_lt_mul hpos ?_
      omega

theorem foldShift_eq_ok_iff : foldShift op x y = .ok c ↔ ∃ a n, x.integer = .ok a ∧
    y.integer = .ok n ∧ 0 ≤ n ∧ shifted op a n.toNat = .ok c := by
  refine ⟨foldShift_eq_ok, ?_⟩
  rintro ⟨a, n, ha, hn, hpos, h⟩
  unfold foldShift
  rw [ha, hn]
  show (if n < 0 then _ else _) = _
  rw [if_neg (by omega)]
  exact h

/-! ## The range is kept -/

theorem foldFloat_ne_int {u v : Binary .double} : foldFloat op u v ≠ .ok (.int n) := by
  have hfinite {z : Binary .double} : finite op z ≠ .ok (.int n) := by
    intro h
    unfold finite at h
    split at h <;> cases h
  intro h
  unfold foldFloat at h
  split at h
  · exact hfinite h
  · exact hfinite h
  · exact hfinite h
  · split at h
    · cases h
    · exact hfinite h
  · split at h <;> cases h

theorem foldComplex_ne_int {u v : Complex .double} : foldComplex op u v ≠ .ok (.int n) := by
  intro h
  unfold foldComplex at h
  split at h
  · cases h
  · cases h
  · cases h
  · split at h <;> cases h
  · cases h
  · cases h
  · cases h

/-- The range is kept by folding. -/
theorem ranged_fold (hx : x.Ranged) (hy : y.Ranged) (h : fold op x y = .ok c) : c.Ranged := by
  unfold fold at h
  split at h
  · obtain ⟨-, v, -, -, rfl⟩ := foldBound_eq_ok (mapError_eq_ok h)
    exact ranged_of_isBound rfl
  split at h
  · obtain ⟨a, n, ha, -, -, h⟩ := foldShift_eq_ok h
    exact ranged_shifted (inRange_integer hx ha) h
  split at h
  · exact fun n hc => absurd (hc ▸ h) foldComplex_ne_int
  · exact fun n hc => absurd (hc ▸ h) foldComplex_ne_int
  · exact fun n hc => absurd (hc ▸ h) foldFloat_ne_int
  · exact fun n hc => absurd (hc ▸ h) foldFloat_ne_int
  · obtain ⟨a, ha, h⟩ := bind_eq_ok h
    obtain ⟨b, hb, h⟩ := bind_eq_ok h
    exact ranged_foldInt (inRange_integer hy (mapError_eq_ok hb)) h

/-! ## Shifts of constants -/

/-- Folding a shift of untyped constants succeeds on integers, with a count that is not negative, and
shifts exactly what the left operand is in range. -/
theorem fold_shift_clamps (hop : op.isShift = true) (hx : x.operandKind.isBound = false)
    (hy : y.operandKind.isBound = false) (rx : x.Ranged) (ry : y.Ranged) :
    fold op x y = .ok c ↔ ∃ a n, x.Denotes a ∧ y.Denotes n ∧ 0 ≤ n ∧
      c = .int (exactShift op (clamped a) n.toNat) ∧ (op = .shl → ShiftsLeft (clamped a) n.toNat) := by
  have hfold : fold op x y = foldShift op x y := by
    unfold fold
    rw [if_neg (by simp [hx, hy]), if_pos hop]
  rw [hfold, foldShift_eq_ok_iff]
  constructor
  · rintro ⟨_, _, ha, hn, hpos, h⟩
    obtain ⟨a, hdx, rfl⟩ := (integer_eq_ok_iff rx).1 ha
    obtain ⟨n, hdy, rfl⟩ := (integer_eq_ok_iff ry).1 hn
    have hpos : 0 ≤ n := by
      rw [← Int.not_lt, clamped_lt_zero] at hpos
      omega
    rw [shifted_clamped hpos, shifted_eq_ok_iff inRange_clamped] at h
    exact ⟨a, n, hdx, hdy, hpos, h⟩
  · rintro ⟨a, n, ha, hn, hpos, h⟩
    refine ⟨clamped a, clamped n, (integer_eq_ok_iff rx).2 ⟨a, ha, rfl⟩,
      (integer_eq_ok_iff ry).2 ⟨n, hn, rfl⟩, ?_, ?_⟩
    · rw [← Int.not_lt, clamped_lt_zero]
      omega
    · rw [shifted_clamped hpos, shifted_eq_ok_iff inRange_clamped]
      exact h

/-- An integer is denoted once. -/
theorem Denotes.unique (h : x.Denotes m) (h' : x.Denotes n) : m = n := by
  induction h with
  | int => cases h'; rfl
  | float _ => cases h'; rfl
  | complex _ _ ih =>
    cases h' with
    | complex _ hre => exact ih hre

/-- Shifts of untyped constants fold exactly, unless the left operand is out of range. -/
theorem fold_shift_of_denotes (hop : op.isShift = true) (hx : x.Denotes a) (hy : y.Denotes n)
    (rx : inRange a = true) (ry : y.Ranged) :
    fold op x y = .ok c ↔ 0 ≤ n ∧ c = .int (exactShift op a n.toNat) ∧
      (op = .shl → ShiftsLeft a n.toNat) := by
  have hranged : x.Ranged := by
    rintro b rfl
    cases hx
    exact rx
  rw [fold_shift_clamps hop hx.isBound hy.isBound hranged ry]
  constructor
  · rintro ⟨a', n', hx', hy', h⟩
    obtain rfl := hx.unique hx'
    obtain rfl := hy.unique hy'
    rwa [clamped_of_inRange rx] at h
  · intro h
    refine ⟨a, n, hx, hy, ?_⟩
    rwa [clamped_of_inRange rx]

/-- A float beyond the range is shifted as the greatest untyped integer. -/
example : fold .shr (.float ⟨0x48078287f49c4a1d⟩) (.int 100) = .ok (.int 134217727) := by
  cbv

end Constant

end StackScript
