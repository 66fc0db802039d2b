import Mathlib.Data.Int.Bitwise
import Mathlib.Data.Int.ModEq
import StackScript.Scalar

/-!
# Integers of a width

A kind of `w` bits has `2 ^ w` integers, one of each class modulo `2 ^ w`; `IntKind.wrap` picks it
(`wrap_eq_iff`). Bit patterns of a kind are its integers (`toInt_ofInt`, `toInt_inj`), and arithmetic
on bit patterns is that of the integers, wrapped. One congruence stands behind all of it: a pattern
read as a signed and as an unsigned number gives the same class (`toInt_modEq`).
-/

namespace StackScript

/-- An integer is known by its bits, those of a negative one going on with ones. -/
theorem int_eq_of_testBit_eq {m n : Int} (h : ∀ i, m.testBit i = n.testBit i) : m = n := by
  -- far enough up the bits are the sign
  have hsign {a b : Nat} (h : ∀ i, a.testBit i = !b.testBit i) : False := by
    have hi := h (a + b)
    rw [Nat.testBit_lt_two_pow (Nat.lt_of_le_of_lt (Nat.le_add_right a b) Nat.lt_two_pow_self),
      Nat.testBit_lt_two_pow (Nat.lt_of_le_of_lt (Nat.le_add_left b a) Nat.lt_two_pow_self)] at hi
    cases hi
  cases m with
  | ofNat a =>
    cases n with
    | ofNat b => exact congrArg Int.ofNat (Nat.eq_of_testBit_eq h)
    | negSucc b => exact (hsign h).elim
  | negSucc a =>
    cases n with
    | ofNat b => exact (hsign fun i => (h i).symm).elim
    | negSucc b => exact congrArg Int.negSucc (Nat.eq_of_testBit_eq fun i => Bool.not_inj (h i))

namespace IntKind

variable {k : IntKind} {m n : Int}

/-- The integer of a kind's range that differs from `n` by a multiple of how many there are. -/
def wrap (k : IntKind) (n : Int) : Int := (n - k.least) % k.count + k.least

theorem count_eq (k : IntKind) : k.count = 2 ^ k.width := Nat.one_shiftLeft _

theorem count_pos (k : IntKind) : 0 < k.count := by
  rw [count_eq]
  exact Nat.two_pow_pos _

theorem width_pos (k : IntKind) : 0 < k.width := by cases k <;> decide

/-- The range starts at its least integer, and is as long as there are integers. -/
theorem holds_iff : k.Holds n ↔ k.least ≤ n ∧ n < k.least + k.count := by
  have hhalf : k.count = 2 * (k.count / 2) := by cases k <;> rfl
  unfold Holds least greatest
  split <;> omega

/-! ## Wrapping -/

theorem holds_wrap (k : IntKind) (n : Int) : k.Holds (k.wrap n) := by
  have hpos : (0 : Int) < k.count := by exact_mod_cast k.count_pos
  have hlow := Int.emod_nonneg (n - k.least) hpos.ne'
  have hhigh := Int.emod_lt_of_pos (n - k.least) hpos
  rw [holds_iff, wrap]
  omega

theorem wrap_modEq (k : IntKind) (n : Int) : k.wrap n ≡ n [ZMOD k.count] := by
  have h : (n - k.least) % k.count + k.least ≡ (n - k.least) + k.least [ZMOD k.count] :=
    Int.ModEq.add_right _ (Int.mod_modEq _ _)
  rwa [Int.sub_add_cancel] at h

theorem eq_of_modEq (hm : k.Holds m) (hn : k.Holds n) (h : m ≡ n [ZMOD k.count]) : m = n := by
  have hshift : m - k.least ≡ n - k.least [ZMOD k.count] := Int.ModEq.sub_right _ h
  rw [holds_iff] at hm hn
  have heq : m - k.least = n - k.least := by
    rw [← Int.emod_eq_of_lt (a := m - k.least) (b := k.count) (by omega) (by omega),
      ← Int.emod_eq_of_lt (a := n - k.least) (b := k.count) (by omega) (by omega)]
    exact hshift
  omega

/-- Wrapping picks the one integer of the range in the class of an integer. -/
theorem wrap_eq_iff : k.wrap n = m ↔ k.Holds m ∧ m ≡ n [ZMOD k.count] := by
  constructor
  · rintro rfl
    exact ⟨k.holds_wrap n, k.wrap_modEq n⟩
  · rintro ⟨hm, h⟩
    exact eq_of_modEq (k.holds_wrap n) hm ((k.wrap_modEq n).trans h.symm)

theorem wrap_of_holds (h : k.Holds n) : k.wrap n = n := wrap_eq_iff.2 ⟨h, .refl n⟩

theorem wrap_of_modEq (h : m ≡ n [ZMOD k.count]) : k.wrap m = k.wrap n :=
  wrap_eq_iff.2 ⟨k.holds_wrap n, (k.wrap_modEq n).trans h.symm⟩

/-! ## Bit patterns -/

theorem toInt_of_signed {x : BitVec k.width} (h : k.signed = true) : k.toInt x = x.toInt := if_pos h

theorem toInt_of_unsigned {x : BitVec k.width} (h : k.signed = false) : k.toInt x = x.toNat := by
  rw [toInt, h, if_neg Bool.false_ne_true]

theorem holds_toInt (x : BitVec k.width) : k.Holds (k.toInt x) := by
  have hnat := x.isLt
  have hlow := BitVec.le_toInt x
  have hhigh := BitVec.toInt_lt (x := x)
  have hhalf : k.count / 2 = 2 ^ (k.width - 1) := by cases k <;> rfl
  have hcast : ((k.count / 2 : Nat) : Int) = 2 ^ (k.width - 1) := by rw [hhalf]; push_cast; rfl
  rw [← count_eq] at hnat
  unfold Holds least greatest toInt
  split <;> omega

/-- A bit pattern read with or without a sign gives the same class. -/
theorem toInt_modEq (x : BitVec k.width) : k.toInt x ≡ x.toNat [ZMOD k.count] := by
  cases hs : k.signed with
  | false => rw [toInt_of_unsigned hs]
  | true =>
    rw [toInt_of_signed hs, BitVec.toInt_eq_toNat_bmod, count_eq]
    exact Int.bmod_emod

theorem toInt_eq_wrap (x : BitVec k.width) : k.toInt x = k.wrap x.toNat :=
  (wrap_eq_iff.2 ⟨holds_toInt x, toInt_modEq x⟩).symm

/-- The pattern of an integer stands for the integer, wrapped. -/
theorem toInt_ofInt (k : IntKind) (n : Int) : k.toInt (BitVec.ofInt k.width n) = k.wrap n := by
  rw [toInt_eq_wrap]
  apply wrap_of_modEq
  have hpos : (0 : Int) < (2 ^ k.width : Nat) := by exact_mod_cast Nat.two_pow_pos _
  rw [BitVec.toNat_ofInt, Int.toNat_of_nonneg (Int.emod_nonneg _ hpos.ne'), ← count_eq]
  exact Int.mod_modEq n _

theorem toInt_inj {x y : BitVec k.width} : k.toInt x = k.toInt y ↔ x = y := by
  refine ⟨fun h => ?_, fun h => h ▸ rfl⟩
  cases hs : k.signed with
  | false =>
    rw [toInt_of_unsigned hs, toInt_of_unsigned hs] at h
    exact BitVec.eq_of_toNat_eq (by exact_mod_cast h)
  | true =>
    rw [toInt_of_signed hs, toInt_of_signed hs] at h
    exact BitVec.eq_of_toInt_eq h

theorem toInt_eq_zero {x : BitVec k.width} : k.toInt x = 0 ↔ x = 0 := by
  have hzero : k.toInt 0 = 0 := by
    unfold toInt
    split
    · exact BitVec.toInt_zero
    · rfl
  rw [← hzero, toInt_inj]

theorem ofInt_toInt (x : BitVec k.width) : BitVec.ofInt k.width (k.toInt x) = x := by
  rw [← toInt_inj, toInt_ofInt, wrap_of_holds (holds_toInt x)]

/-! ## Arithmetic -/

theorem toInt_add (a b : BitVec k.width) : k.toInt (a + b) = k.wrap (k.toInt a + k.toInt b) := by
  rw [← toInt_ofInt, BitVec.ofInt_add, ofInt_toInt, ofInt_toInt]

theorem toInt_mul (a b : BitVec k.width) : k.toInt (a * b) = k.wrap (k.toInt a * k.toInt b) := by
  rw [← toInt_ofInt, BitVec.ofInt_mul, ofInt_toInt, ofInt_toInt]

theorem toInt_sub (a b : BitVec k.width) : k.toInt (a - b) = k.wrap (k.toInt a - k.toInt b) := by
  rw [← toInt_ofInt, Int.sub_eq_add_neg, BitVec.ofInt_add, BitVec.ofInt_neg, ofInt_toInt, ofInt_toInt,
    BitVec.sub_eq_add_neg]

/-- What needs no wrapping is wrapped to itself. -/
theorem toInt_eq_wrap_of_eq {x : BitVec k.width} (h : k.toInt x = n) : k.toInt x = k.wrap n := by
  rw [← h, wrap_of_holds (holds_toInt x)]

/-- The quotient leaves the range for the least integer by minus one alone. -/
theorem toInt_quotient (a b : BitVec k.width) :
    k.toInt (if k.signed then a.sdiv b else a.udiv b) = k.wrap ((k.toInt a).tdiv (k.toInt b)) := by
  cases hs : k.signed with
  | true =>
    rw [if_pos rfl, ← toInt_ofInt, toInt_of_signed hs, toInt_of_signed hs, toInt_of_signed hs,
      toInt_of_signed hs, BitVec.toInt_sdiv, BitVec.toInt_ofInt]
  | false =>
    apply toInt_eq_wrap_of_eq
    rw [if_neg Bool.false_ne_true, toInt_of_unsigned hs, toInt_of_unsigned hs, toInt_of_unsigned hs]
    exact_mod_cast congrArg Nat.cast BitVec.toNat_udiv

theorem toInt_remainder (a b : BitVec k.width) :
    k.toInt (if k.signed then a.srem b else a.umod b) = k.wrap ((k.toInt a).tmod (k.toInt b)) := by
  apply toInt_eq_wrap_of_eq
  cases hs : k.signed with
  | true =>
    rw [if_pos rfl, toInt_of_signed hs, toInt_of_signed hs, toInt_of_signed hs, BitVec.toInt_srem]
  | false =>
    rw [if_neg Bool.false_ne_true, toInt_of_unsigned hs, toInt_of_unsigned hs, toInt_of_unsigned hs]
    exact_mod_cast congrArg Nat.cast BitVec.toNat_umod

/-! ## Bits -/

/-- Above its width a pattern goes on with its sign. -/
theorem testBit_toInt (x : BitVec k.width) (i : Nat) :
    (k.toInt x).testBit i = if i < k.width then x.getLsbD i else k.signed && x.msb := by
  by_cases hsign : (k.signed && x.msb) = true
  · obtain ⟨hs, hmsb⟩ := Bool.and_eq_true_iff.1 hsign
    have hneg : k.toInt x = Int.negSucc (~~~x).toNat := by
      have := x.isLt
      rw [toInt_of_signed hs, BitVec.toInt_eq_msb_cond, if_pos hmsb, BitVec.toNat_not]
      omega
    rw [hneg, hsign]
    show (!(~~~x).getLsbD i) = _
    rw [BitVec.getLsbD_not]
    by_cases hi : i < k.width
    · rw [if_pos hi, decide_eq_true hi, Bool.true_and, Bool.not_not]
    · rw [if_neg hi, decide_eq_false hi, Bool.false_and, Bool.not_false]
  · have hnat : k.toInt x = x.toNat := by
      cases hs : k.signed with
      | false => exact toInt_of_unsigned hs
      | true => rw [toInt_of_signed hs, BitVec.toInt_eq_toNat_of_msb (by simpa [hs] using hsign)]
    rw [hnat, Bool.eq_false_of_not_eq_true hsign]
    show x.getLsbD i = _
    by_cases hi : i < k.width
    · rw [if_pos hi]
    · rw [if_neg hi, BitVec.getLsbD_of_ge _ _ (Nat.not_lt.1 hi)]

/-- The integer with the bits of a pattern, and its sign above them. -/
theorem toInt_of_testBit {x : BitVec k.width} (hlow : ∀ i < k.width, n.testBit i = x.getLsbD i)
    (hhigh : ∀ i, k.width ≤ i → n.testBit i = (k.signed && x.msb)) : k.toInt x = n := by
  refine int_eq_of_testBit_eq fun i => ?_
  rw [testBit_toInt]
  split
  · exact (hlow i ‹_›).symm
  · exact (hhigh i (Nat.not_lt.1 ‹_›)).symm

theorem toInt_and (a b : BitVec k.width) : k.toInt (a &&& b) = (k.toInt a).land (k.toInt b) := by
  refine toInt_of_testBit (fun i hi => ?_) fun i hi => ?_ <;>
    rw [Int.testBit_land, testBit_toInt, testBit_toInt]
  · rw [if_pos hi, if_pos hi, BitVec.getLsbD_and]
  · rw [if_neg (Nat.not_lt.2 hi), if_neg (Nat.not_lt.2 hi), BitVec.msb_and]
    cases k.signed <;> rfl

theorem toInt_or (a b : BitVec k.width) : k.toInt (a ||| b) = (k.toInt a).lor (k.toInt b) := by
  refine toInt_of_testBit (fun i hi => ?_) fun i hi => ?_ <;>
    rw [Int.testBit_lor, testBit_toInt, testBit_toInt]
  · rw [if_pos hi, if_pos hi, BitVec.getLsbD_or]
  · rw [if_neg (Nat.not_lt.2 hi), if_neg (Nat.not_lt.2 hi), BitVec.msb_or]
    cases k.signed <;> rfl

theorem toInt_xor (a b : BitVec k.width) : k.toInt (a ^^^ b) = (k.toInt a).xor (k.toInt b) := by
  refine toInt_of_testBit (fun i hi => ?_) fun i hi => ?_ <;>
    rw [Int.testBit_lxor, testBit_toInt, testBit_toInt]
  · rw [if_pos hi, if_pos hi, BitVec.getLsbD_xor]
  · rw [if_neg (Nat.not_lt.2 hi), if_neg (Nat.not_lt.2 hi), BitVec.msb_xor]
    cases k.signed <;> rfl

theorem toInt_andNot (a b : BitVec k.width) :
    k.toInt (a &&& ~~~b) = (k.toInt a).ldiff (k.toInt b) := by
  refine toInt_of_testBit (fun i hi => ?_) fun i hi => ?_ <;>
    rw [Int.testBit_ldiff, testBit_toInt, testBit_toInt]
  · rw [if_pos hi, if_pos hi, BitVec.getLsbD_and, BitVec.getLsbD_not, decide_eq_true hi, Bool.true_and]
  · rw [if_neg (Nat.not_lt.2 hi), if_neg (Nat.not_lt.2 hi), BitVec.msb_and, BitVec.msb_not,
      decide_eq_true k.width_pos]
    cases k.signed <;> rfl

/-! ## Shifts -/

theorem ofInt_two_pow (w n : Nat) : BitVec.ofInt w (2 ^ n : Nat) = BitVec.twoPow w n := by
  rw [BitVec.ofInt_natCast]
  apply BitVec.eq_of_toNat_eq
  rw [BitVec.toNat_twoPow, BitVec.toNat_ofNat]

/-- Bits pushed out are lost. -/
theorem toInt_shiftLeft (a : BitVec k.width) (n : Nat) :
    k.toInt (if n < k.width then a <<< n else 0) = k.wrap (k.toInt a * (2 ^ n : Nat)) := by
  have hall : (if n < k.width then a <<< n else 0) = a <<< n := by
    split
    · rfl
    · exact (BitVec.shiftLeft_eq_zero (Nat.not_lt.1 ‹_›)).symm
  rw [hall, ← toInt_ofInt, BitVec.ofInt_mul, ofInt_toInt, ofInt_two_pow, BitVec.shiftLeft_eq_mul_twoPow]

/-- A number of `i` bits loses all of them. -/
theorem ediv_two_pow_of_small {i j : Nat} (hlow : -(2 ^ i : Nat) ≤ n) (hhigh : n < (2 ^ i : Nat))
    (h : i ≤ j) : n / (2 ^ j : Nat) = if n < 0 then -1 else 0 := by
  have hpow : ((2 ^ i : Nat) : Int) ≤ ((2 ^ j : Nat) : Int) := by
    exact_mod_cast Nat.pow_le_pow_right (by decide) h
  have hpos : (0 : Int) < (2 ^ j : Nat) := by exact_mod_cast Nat.two_pow_pos j
  split
  · exact (Int.ediv_eq_iff_of_pos hpos).2 ⟨by omega, by omega⟩
  · exact Int.ediv_eq_zero_of_lt (by omega) (by omega)

/-- The sign, or zeros where there is none, come in from above. -/
theorem toInt_shiftRight (a : BitVec k.width) (n : Nat) :
    k.toInt (if k.signed then a.sshiftRight (min n (k.width - 1))
      else if n < k.width then a >>> n else 0) = k.toInt a / (2 ^ n : Nat) := by
  cases hs : k.signed with
  | true =>
    rw [if_pos rfl, toInt_of_signed hs, toInt_of_signed hs, BitVec.toInt_sshiftRight,
      Int.shiftRight_eq_div_pow]
    rcases Nat.le_total n (k.width - 1) with hle | hge
    · rw [Nat.min_eq_left hle]
    · have hlow := BitVec.le_toInt a
      have hhigh := BitVec.toInt_lt (x := a)
      rw [Nat.min_eq_right hge, ediv_two_pow_of_small _ _ (Nat.le_refl _),
        ediv_two_pow_of_small _ _ hge] <;> push_cast <;> assumption
  | false =>
    rw [if_neg Bool.false_ne_true, toInt_of_unsigned hs, toInt_of_unsigned hs]
    split
    · rw [BitVec.toNat_ushiftRight, Nat.shiftRight_eq_div_pow]
      rfl
    · have hlt : a.toNat < 2 ^ n :=
        Nat.lt_of_lt_of_le a.isLt (Nat.pow_le_pow_right (by decide) (Nat.not_lt.1 ‹_›))
      exact_mod_cast (Nat.div_eq_of_lt hlt).symm

end IntKind

end StackScript
