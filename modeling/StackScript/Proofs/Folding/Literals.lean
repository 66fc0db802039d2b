import Mathlib.Data.Nat.Digits.Defs
import StackScript.Constant.Literal

/-!
# Integer literals

The texts that are read as integers are those of a grammar: a radix, a sign or none, and digits, between
which underscores do not count. They are read exactly (`Literal.constant_int_iff`). The sign is no part
of the language, but the reader of digits lets it pass, also behind a radix; without one a literal is
the number that its digits write, and all below `2 ^ 64` have one (`Literal.constant_int_unsigned`).
-/

namespace StackScript

variable {radix m : Nat} {n : Int} {cs digits : List Char}

/-! ## Digits -/

/-- The characters are digits of the radix that write the number. -/
def Writes (radix : Nat) (cs : List Char) (m : Nat) : Prop :=
  ∃ ds, List.Forall₂ (fun c d => digitOf? radix c = some d) cs ds ∧ m = Nat.ofDigits radix ds.reverse

theorem readDigits?_eq_some {k : Nat} : readDigits? radix k cs = some m ↔
    ∃ ds, List.Forall₂ (fun c d => digitOf? radix c = some d) cs ds ∧
      m = Nat.ofDigits radix ds.reverse + radix ^ ds.length * k := by
  induction cs generalizing k with
  | nil =>
    constructor
    · rintro ⟨⟩
      exact ⟨[], .nil, by simp⟩
    · rintro ⟨ds, h, rfl⟩
      cases h
      simp [readDigits?]
  | cons c cs ih =>
    rw [readDigits?, Option.bind_eq_some_iff]
    -- What was read so far counts one radix more behind the next digit.
    have hvalue (d : Nat) (ds : List Nat) :
        Nat.ofDigits radix ds.reverse + radix ^ ds.length * (k * radix + d) =
          Nat.ofDigits radix (d :: ds).reverse + radix ^ (d :: ds).length * k := by
      rw [List.reverse_cons, Nat.ofDigits_append, Nat.ofDigits_singleton, List.length_reverse,
        List.length_cons]
      ring
    constructor
    · rintro ⟨d, hd, h⟩
      obtain ⟨ds, hds, rfl⟩ := ih.1 h
      exact ⟨d :: ds, .cons hd hds, hvalue d ds⟩
    · rintro ⟨ds, h, rfl⟩
      cases h with
      | cons hd hds => exact ⟨_, hd, ih.2 ⟨_, hds, (hvalue _ _).symm⟩⟩

theorem readNat?_eq_some : readNat? radix cs = some m ↔ cs ≠ [] ∧ Writes radix cs m := by
  unfold readNat?
  cases cs with
  | nil => simp
  | cons c cs =>
    rw [List.isEmpty_cons, if_neg Bool.false_ne_true, readDigits?_eq_some]
    simp [Writes]

/-- Digits behind a sign or none, and the integer that they write. -/
inductive WritesSigned (radix : Nat) : List Char → Int → Prop
  | plain {cs : List Char} {m : Nat} (hne : cs ≠ []) (h : Writes radix cs m) :
    WritesSigned radix cs m
  | plus {cs : List Char} {m : Nat} (hne : cs ≠ []) (h : Writes radix cs m) :
    WritesSigned radix ('+' :: cs) m
  | minus {cs : List Char} {m : Nat} (hne : cs ≠ []) (h : Writes radix cs m) :
    WritesSigned radix ('-' :: cs) (-m)

/-- A sign is no digit. -/
theorem Writes.head {c : Char} (h : Writes radix (c :: cs) m) : c ≠ '+' ∧ c ≠ '-' := by
  obtain ⟨ds, hds, -⟩ := h
  cases hds with
  | cons hd _ =>
    constructor <;> rintro rfl <;> simp [digitOf?, digitValue?] at hd

theorem splitSign_cases (cs : List Char) :
    (∃ rest, cs = '-' :: rest ∧ splitSign cs = (true, rest)) ∨
      (∃ rest, cs = '+' :: rest ∧ splitSign cs = (false, rest)) ∨ splitSign cs = (false, cs) := by
  unfold splitSign
  split
  · exact .inl ⟨_, rfl, rfl⟩
  · exact .inr (.inl ⟨_, rfl, rfl⟩)
  · exact .inr (.inr rfl)

theorem readInt?_eq_some : readInt? radix cs = some n ↔ WritesSigned radix cs n := by
  have hread {minus : Bool} {digits : List Char} (hsplit : splitSign cs = (minus, digits)) :
      readInt? radix cs = some n ↔ ∃ m,
        (digits ≠ [] ∧ Writes radix digits m) ∧ (if minus then -(m : Int) else m) = n := by
    unfold readInt?
    rw [hsplit]
    simp only [← readNat?_eq_some]
    cases readNat? radix digits <;> simp
  constructor
  · intro h
    obtain ⟨rest, rfl, hsplit⟩ | ⟨rest, rfl, hsplit⟩ | hsplit := splitSign_cases cs
    all_goals obtain ⟨m, ⟨hne, hwrites⟩, rfl⟩ := (hread hsplit).1 h
    · exact .minus hne hwrites
    · exact .plus hne hwrites
    · exact .plain hne hwrites
  · intro h
    cases h with
    | plain hne h =>
      have hsplit : splitSign cs = (false, cs) := by
        unfold splitSign
        split
        · exact absurd rfl h.head.2
        · exact absurd rfl h.head.1
        · rfl
      exact (hread hsplit).2 ⟨_, ⟨hne, h⟩, rfl⟩
    | plus hne h => exact (hread rfl).2 ⟨_, ⟨hne, h⟩, rfl⟩
    | minus hne h => exact (hread rfl).2 ⟨_, ⟨hne, h⟩, rfl⟩

/-! ## Radices -/

namespace Literal

/-- A text without underscores as a radix and what follows it. A leading zero alone is a digit. -/
inductive Radix : List Char → Nat → List Char → Prop
  | hex {x : Char} (h : x = 'x' ∨ x = 'X') (cs : List Char) : Radix ('0' :: x :: cs) 16 cs
  | octal {o : Char} (h : o = 'o' ∨ o = 'O') (cs : List Char) : Radix ('0' :: o :: cs) 8 cs
  | binary {b : Char} (h : b = 'b' ∨ b = 'B') (cs : List Char) : Radix ('0' :: b :: cs) 2 cs
  | legacy {c : Char} (h : c ∉ ['x', 'X', 'o', 'O', 'b', 'B']) (cs : List Char) :
    Radix ('0' :: c :: cs) 8 (c :: cs)
  | decimal {cs : List Char} (h : ∀ c rest, cs ≠ '0' :: c :: rest) : Radix cs 10 cs

theorem splitRadix_eq_iff : splitRadix cs = (digits, radix) ↔ Radix cs radix digits := by
  constructor
  · intro h
    unfold splitRadix at h
    split at h <;> cases h
    · exact .hex (.inl rfl) _
    · exact .hex (.inr rfl) _
    · exact .octal (.inl rfl) _
    · exact .octal (.inr rfl) _
    · exact .binary (.inl rfl) _
    · exact .binary (.inr rfl) _
    · refine .legacy ?_ _
      simp_all
    · refine .decimal fun c rest heq => ?_
      simp_all
  · intro h
    cases h with
    | hex h | octal h | binary h =>
      obtain rfl | rfl := h <;> rfl
    | legacy h =>
      simp only [List.mem_cons, List.not_mem_nil, or_false, not_or] at h
      unfold splitRadix
      split <;> simp_all
    | decimal h =>
      unfold splitRadix
      split <;> simp_all

/-! ## Integers -/

variable {s : String} {c : Constant}

theorem readInt_eq_some : readInt s = some n ↔
    ∃ radix digits, Radix (withoutUnderscores s) radix digits ∧ WritesSigned radix digits n ∧
      -2 ^ 63 ≤ n ∧ n < 2 ^ 64 := by
  have hrange : (IntKind.int64.least ≤ n ∧ n ≤ IntKind.uint64.greatest) ↔ -2 ^ 63 ≤ n ∧ n < 2 ^ 64 := by
    have hleast : IntKind.int64.least = -2 ^ 63 := by decide
    have hgreatest : IntKind.uint64.greatest = 2 ^ 64 - 1 := by decide
    rw [hleast, hgreatest]
    omega
  unfold readInt
  rw [Option.filter_eq_some_iff, decide_eq_true_eq, hrange, readInt?_eq_some]
  constructor
  · rintro ⟨hwrites, hn⟩
    exact ⟨_, _, splitRadix_eq_iff.1 rfl, hwrites, hn⟩
  · rintro ⟨radix, digits, hradix, hwrites, hn⟩
    rw [splitRadix_eq_iff.2 hradix]
    exact ⟨hwrites, hn⟩

/-- The texts of integer tokens and their constants, exactly. -/
theorem constant_int_iff : (⟨.int, s⟩ : Literal).constant = .ok c ↔
    ∃ radix digits n, Radix (withoutUnderscores s) radix digits ∧ WritesSigned radix digits n ∧
      -2 ^ 63 ≤ n ∧ n < 2 ^ 64 ∧ c = .int n := by
  have hconstant : (⟨.int, s⟩ : Literal).constant = .ok c ↔ ∃ n, readInt s = some n ∧ c = .int n := by
    unfold constant
    dsimp only
    cases readInt s with
    | none => simp [Except.mapError]
    | some n => simp [Except.mapError, eq_comm]
  rw [hconstant]
  constructor
  · rintro ⟨n, h, rfl⟩
    obtain ⟨radix, digits, hradix, hwrites, hn⟩ := readInt_eq_some.1 h
    exact ⟨radix, digits, n, hradix, hwrites, hn.1, hn.2, rfl⟩
  · rintro ⟨radix, digits, n, hradix, hwrites, hle, hlt, rfl⟩
    exact ⟨n, readInt_eq_some.2 ⟨radix, digits, hradix, hwrites, hle, hlt⟩, rfl⟩

/-- What follows the radix stands in the text. -/
theorem Radix.mem {x : Char} (h : Radix (withoutUnderscores s) radix digits) (hx : x ∈ digits) :
    x ∈ s.toList := by
  refine (List.mem_filter.1 (show x ∈ withoutUnderscores s from ?_)).1
  generalize withoutUnderscores s = cs at h
  cases h with
  | decimal => exact hx
  | legacy => exact List.mem_cons_of_mem _ hx
  | hex | octal | binary => exact List.mem_cons_of_mem _ (List.mem_cons_of_mem _ hx)

/-- A text without signs that is an integer token is the number that its digits write. -/
theorem constant_int_unsigned (hplus : '+' ∉ s.toList) (hminus : '-' ∉ s.toList) :
    (⟨.int, s⟩ : Literal).constant = .ok c ↔
      ∃ radix digits m, Radix (withoutUnderscores s) radix digits ∧ digits ≠ [] ∧
        Writes radix digits m ∧ m < 2 ^ 64 ∧ c = .int m := by
  rw [constant_int_iff]
  constructor
  · rintro ⟨radix, digits, n, hradix, hwrites, -, hlt, rfl⟩
    cases hwrites with
    | plain hne h => exact ⟨radix, _, _, hradix, hne, h, by exact_mod_cast hlt, rfl⟩
    | plus => exact absurd (hradix.mem List.mem_cons_self) hplus
    | minus => exact absurd (hradix.mem List.mem_cons_self) hminus
  · rintro ⟨radix, digits, m, hradix, hne, h, hlt, rfl⟩
    exact ⟨radix, digits, m, hradix, .plain hne h, by omega, by exact_mod_cast hlt, rfl⟩

/-- A negative constant is the sign's doing. -/
theorem minus_mem_of_neg (h : (⟨.int, s⟩ : Literal).constant = .ok (.int n)) (hn : n < 0) :
    '-' ∈ s.toList := by
  obtain ⟨radix, digits, n', hradix, hwrites, -, -, heq⟩ := constant_int_iff.1 h
  cases heq
  cases hwrites with
  | plain | plus => omega
  | minus => exact hradix.mem List.mem_cons_self

example : (⟨.int, "0x-5"⟩ : Literal).constant = .ok (.int (-5)) := rfl

end Literal

end StackScript
