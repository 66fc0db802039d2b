import StackScript.Constant.Fold
import StackScript.Proofs.Arithmetic.Wrapping

/-!
# Exact and wrapped integers

An integer operator on untyped constants is exact, the one of the machine wraps around at sixty-four
bits. On numbers that fit they agree modulo the width (`evalInt_of_foldInt`), and so do shifts
(`shiftBits_of_shifted`). Folding refuses left shifts that lose a bit of a wider range, and a few more
(`shifted_eq_ok_iff`).
-/

namespace StackScript

namespace IntKind

theorem holds_int_iff {n : Int} : IntKind.int.Holds n ↔ -2 ^ 63 ≤ n ∧ n < 2 ^ 63 := by
  have hleast : IntKind.int.least = -2 ^ 63 := by decide
  have hgreatest : IntKind.int.greatest = 2 ^ 63 - 1 := by decide
  rw [Holds, hleast, hgreatest]
  omega

theorem toInt_ofInt_of_holds {k : IntKind} {n : Int} (h : k.Holds n) :
    k.toInt (BitVec.ofInt k.width n) = n := by
  rw [toInt_ofInt, wrap_of_holds h]

end IntKind

namespace BitVec64

/-- Sixty-four bits of an integer of 128 bits. -/
theorem setWidth_ofInt (a : Int) : (BitVec.ofInt 128 a).setWidth 64 = BitVec.ofInt 64 a := by
  apply BitVec.eq_of_toInt_eq
  rw [← BitVec.signExtend_eq_setWidth_of_le _ (by decide), BitVec.signExtend, BitVec.toInt_ofInt,
    BitVec.toInt_ofInt, BitVec.toInt_ofInt]
  exact Int.bmod_bmod_of_dvd (by decide)

theorem ofInt_toInt_wide (x : BitVec 128) : BitVec.ofInt 64 x.toInt = x.setWidth 64 :=
  BitVec.signExtend_eq_setWidth_of_le x (by decide)

end BitVec64

namespace Constant

open BitVec64

variable {op : Operator} {a b : Int}

/-- What an untyped integer or truth value is at run time. -/
inductive Shows : Constant → Scalar → Prop
  | int (n : Int) : Shows (.int n) (.ofInt .int n)
  | truth (b : Bool) : Shows (truth b) (.bool b)

theorem checked_eq_ok {n : Int} {c : Constant} (h : checked op n = .ok c) : c = .int n := by
  unfold checked at h
  split at h <;> cases h
  rfl

theorem divided_eq_ok {n : Int} {c : Constant} (h : divided a b n = .ok c) : c = .int n := by
  unfold divided at h
  split at h <;> cases h
  rfl

/-- Comparisons of numbers that fit are those of their bits. -/
theorem shows_compared (op : Operator) (ha : IntKind.int.Holds a) (hb : IntKind.int.Holds b) {c : Constant}
    {s : Scalar}
    (hf : (match op.compared (a < b) (b < a) (a == b) with
      | some t => .ok (truth t)
      | none => .error (.error (.operands (.notDefined op (.int .int)))) : Folded) = .ok c)
    (he : (match op.compared
        (IntKind.toInt .int (BitVec.ofInt 64 a) < IntKind.toInt .int (BitVec.ofInt 64 b))
        (IntKind.toInt .int (BitVec.ofInt 64 b) < IntKind.toInt .int (BitVec.ofInt 64 a))
        (BitVec.ofInt 64 a == BitVec.ofInt 64 b) with
      | some t => .ok (.bool t)
      | none => .error (.notDefined op (.int .int)) : Except EvalError Scalar) = .ok s) : Shows c s := by
  have hka : IntKind.toInt .int (BitVec.ofInt 64 a) = a := IntKind.toInt_ofInt_of_holds ha
  have hkb : IntKind.toInt .int (BitVec.ofInt 64 b) = b := IntKind.toInt_ofInt_of_holds hb
  have heq : (BitVec.ofInt 64 a == BitVec.ofInt 64 b) = (a == b) := by
    have hinj := IntKind.toInt_inj (k := .int) (x := BitVec.ofInt 64 a) (y := BitVec.ofInt 64 b)
    rw [hka, hkb] at hinj
    rw [Bool.eq_iff_iff, beq_iff_eq, beq_iff_eq]
    exact hinj.symm
  rw [hka, hkb, heq] at he
  split at hf
  · rename_i t ht
    rw [ht] at he
    cases hf
    cases he
    exact .truth t
  · cases hf

theorem shows_int {n : Int} {x : BitVec 64} (h : IntKind.toInt .int x = IntKind.wrap .int n) :
    Shows (.int n) (.int .int x) := by
  obtain rfl : x = BitVec.ofInt 64 n :=
    IntKind.toInt_inj.1 (h.trans (IntKind.toInt_ofInt .int n).symm)
  exact .int n

/-- Sixty-four bits of what the wide operator gives are what the machine's operator gives. -/
theorem shows_bits {f : BitVec 128 → BitVec 128 → BitVec 128} {g : BitVec 64 → BitVec 64 → BitVec 64}
    (h : ∀ x y, (f x y).setWidth 64 = g (x.setWidth 64) (y.setWidth 64)) :
    Shows (.int (onBits f a b)) (.int .int (g (BitVec.ofInt 64 a) (BitVec.ofInt 64 b))) := by
  have hbits : g (BitVec.ofInt 64 a) (BitVec.ofInt 64 b) = BitVec.ofInt 64 (onBits f a b) := by
    rw [onBits, ofInt_toInt_wide, h, setWidth_ofInt, setWidth_ofInt]
  rw [hbits]
  exact .int _

/-- A quotient or a remainder: neither side divides by zero. -/
theorem shows_divided {n : Int} {x : BitVec 64} {c : Constant} {s : Scalar} (hb : IntKind.int.Holds b)
    (hf : (if b = 0 then .error (.error .divisionByZero) else divided a b n : Folded) = .ok c)
    (heval : op.evalBits .int (BitVec.ofInt 64 a) (BitVec.ofInt 64 b) =
      if BitVec.ofInt 64 b = 0 then .error .divisionByZero else .ok (some x))
    (hx : IntKind.toInt .int x = IntKind.wrap .int n)
    (he : op.evalInt .int (BitVec.ofInt 64 a) (BitVec.ofInt 64 b) = .ok s) : Shows c s := by
  have htb : IntKind.toInt .int (BitVec.ofInt 64 b) = b := IntKind.toInt_ofInt_of_holds hb
  have hzero : b = 0 ↔ BitVec.ofInt 64 b = 0 := by
    have h := IntKind.toInt_eq_zero (k := .int) (x := BitVec.ofInt 64 b)
    rwa [htb] at h
  split at hf
  · cases hf
  · rename_i hne
    rw [if_neg (hzero.not.1 hne)] at heval
    unfold Operator.evalInt at he
    rw [heval] at he
    cases he
    cases divided_eq_ok hf
    exact shows_int hx

/-- An operator on integers that fit is the machine's, up to wrapping around. -/
theorem evalInt_of_foldInt {c : Constant} {s : Scalar} (ha : IntKind.int.Holds a)
    (hb : IntKind.int.Holds b) (hf : foldInt op a b = .ok c)
    (he : op.evalInt .int (BitVec.ofInt 64 a) (BitVec.ofInt 64 b) = .ok s) : Shows c s := by
  have hta : IntKind.toInt .int (BitVec.ofInt 64 a) = a := IntKind.toInt_ofInt_of_holds ha
  have htb : IntKind.toInt .int (BitVec.ofInt 64 b) = b := IntKind.toInt_ofInt_of_holds hb
  cases op with
  | add =>
    have hadd := IntKind.toInt_add (k := .int) (BitVec.ofInt 64 a) (BitVec.ofInt 64 b)
    rw [hta, htb] at hadd
    cases he
    cases checked_eq_ok hf
    exact shows_int hadd
  | sub =>
    have hsub := IntKind.toInt_sub (k := .int) (BitVec.ofInt 64 a) (BitVec.ofInt 64 b)
    rw [hta, htb] at hsub
    cases he
    cases checked_eq_ok hf
    exact shows_int hsub
  | mul =>
    have hmul := IntKind.toInt_mul (k := .int) (BitVec.ofInt 64 a) (BitVec.ofInt 64 b)
    rw [hta, htb] at hmul
    cases he
    cases checked_eq_ok hf
    exact shows_int hmul
  | quo =>
    have hquo := IntKind.toInt_quotient (k := .int) (BitVec.ofInt 64 a) (BitVec.ofInt 64 b)
    rw [hta, htb] at hquo
    exact shows_divided hb hf rfl hquo he
  | rem =>
    have hrem := IntKind.toInt_remainder (k := .int) (BitVec.ofInt 64 a) (BitVec.ofInt 64 b)
    rw [hta, htb] at hrem
    exact shows_divided hb hf rfl hrem he
  | and =>
    cases he
    cases hf
    exact shows_bits fun x y => BitVec.setWidth_and
  | or =>
    cases he
    cases hf
    exact shows_bits fun x y => BitVec.setWidth_or
  | xor =>
    cases he
    cases hf
    exact shows_bits fun x y => BitVec.setWidth_xor
  | andNot =>
    cases he
    cases hf
    refine shows_bits (g := fun x y => x &&& ~~~y) fun x y => ?_
    rw [BitVec.setWidth_and, BitVec.setWidth_not (by decide)]
  | shl => exact shows_compared .shl ha hb hf he
  | shr => exact shows_compared .shr ha hb hf he
  | lt => exact shows_compared .lt ha hb hf he
  | le => exact shows_compared .le ha hb hf he
  | gt => exact shows_compared .gt ha hb hf he
  | ge => exact shows_compared .ge ha hb hf he
  | eq => exact shows_compared .eq ha hb hf he
  | ne => exact shows_compared .ne ha hb hf he
  | logicalAnd => exact shows_compared .logicalAnd ha hb hf he
  | logicalOr => exact shows_compared .logicalOr ha hb hf he

/-! ## Shifts -/

variable {count : Nat} {c : Constant}

/-- A shift of an integer, which has no width. -/
def exactShift (op : Operator) (a : Int) (count : Nat) : Int :=
  if op = .shl then a * (2 ^ count : Nat) else a / (2 ^ count : Nat)

/-- What folding asks of a left shift. -/
def ShiftsLeft (a : Int) (count : Nat) : Prop :=
  inRange (a * (2 ^ count : Nat)) = true ∧ (count < 127 ∨ a = 0 ∧ count < 2 ^ 32)

theorem inRange_iff : inRange a = true ↔ -(limit : Int) ≤ a ∧ a < limit := by
  simp [inRange]

/-- A shift of an integer in range is exact if it is not refused. -/
theorem shifted_eq_ok_iff (ha : inRange a = true) :
    shifted op a count = .ok c ↔
      c = .int (exactShift op a count) ∧ (op = .shl → ShiftsLeft a count) := by
  unfold shifted exactShift
  rw [Nat.one_shiftLeft, Nat.one_shiftLeft]
  by_cases hop : op = .shl
  · rw [if_pos hop, if_pos hop]
    by_cases hcount : count < 127
    · rw [if_pos hcount, checked]
      by_cases hr : inRange (a * (2 ^ count : Nat)) = true
      · rw [if_pos hr, Except.ok.injEq]
        exact ⟨fun h => ⟨h.symm, fun _ => ⟨hr, .inl hcount⟩⟩, fun h => h.1.symm⟩
      · rw [if_neg hr]
        refine iff_of_false (by rintro ⟨⟩) ?_
        rintro ⟨-, hshift⟩
        exact hr (hshift hop).1
    · rw [if_neg hcount]
      by_cases hz : a = 0 ∧ count < 2 ^ 32
      · rw [if_pos hz, hz.1, Int.zero_mul, Except.ok.injEq]
        refine ⟨fun h => ⟨h.symm, fun _ => ⟨?_, .inr ⟨rfl, hz.2⟩⟩⟩, fun h => h.1.symm⟩
        rw [Int.zero_mul]
        rfl
      · rw [if_neg hz]
        refine iff_of_false (by rintro ⟨⟩) ?_
        rintro ⟨-, hshift⟩
        exact (hshift hop).2.elim hcount hz
  · rw [if_neg hop, if_neg hop]
    have hright : (if count < 127 then a / (2 ^ count : Nat) else if a < 0 then -1 else 0) =
        a / (2 ^ count : Nat) := by
      by_cases hcount : count < 127
      · rw [if_pos hcount]
      · obtain ⟨hlow, hhigh⟩ := inRange_iff.1 ha
        have hlimit : limit = 2 ^ 127 := rfl
        rw [if_neg hcount, IntKind.ediv_two_pow_of_small (hlimit ▸ hlow) (hlimit ▸ hhigh) (by omega)]
    rw [hright, Except.ok.injEq]
    exact ⟨fun h => ⟨h.symm, fun h' => absurd h' hop⟩, fun h => h.1.symm⟩

/-- The machine shifts the integer behind a pattern, and drops the bits above the width. -/
theorem shiftBits_ofInt {k : IntKind} (ha : k.Holds a) :
    op.shiftBits k (BitVec.ofInt k.width a) count = BitVec.ofInt k.width (exactShift op a count) := by
  rw [← IntKind.toInt_inj, IntKind.toInt_ofInt]
  unfold Operator.shiftBits exactShift
  split
  · rw [IntKind.toInt_shiftLeft, IntKind.toInt_ofInt_of_holds ha]
  · apply IntKind.toInt_eq_wrap_of_eq
    rw [IntKind.toInt_shiftRight, IntKind.toInt_ofInt_of_holds ha]

/-- A shift of an integer that fits is the machine's. -/
theorem shiftBits_of_shifted (ha : IntKind.int.Holds a) (h : shifted op a count = .ok c) :
    ∃ n, c = .int n ∧ op.shiftBits .int (BitVec.ofInt 64 a) count = BitVec.ofInt 64 n := by
  have hrange : inRange a = true := by
    obtain ⟨hlow, hhigh⟩ := IntKind.holds_int_iff.1 ha
    have hlimit : limit = 2 ^ 127 := rfl
    rw [inRange_iff]
    omega
  exact ⟨_, ((shifted_eq_ok_iff hrange).1 h).1, shiftBits_ofInt ha⟩

end Constant

end StackScript
