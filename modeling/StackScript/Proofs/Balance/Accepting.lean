import StackScript.Balance
import StackScript.Proofs.Translation.BodyCode

/-!
# What the balance check accepts

`Accepts p known numIn is h` says that the check follows the instructions `is` from height `h`
without complaint. `Raises p known numIn is a b`: whatever the check accepts at height `b` above some
values it accepts behind `is` at height `a` above them. A call whose callee is known at run time only
ends the check, so it raises any height to any other.
-/

namespace StackScript

namespace Balance

/-- Values that one instruction may leave. -/
def mostPushed : Nat := 1 <<< 31

theorem mostPushed_eq : mostPushed = 2147483648 := rfl

section

variable (p : Program) (known : Known) (numIn : Nat)

/-- The check follows the instructions from a height without complaint. -/
def Accepts : List Instr → Nat → Prop
  | [], _ => True
  | i :: is, h =>
    (∀ below, argumentSlot? i = some below → 0 < below ∧ below ≤ numIn) ∧
    (effect p known i = .ok none ∨ ∃ pops pushes : Nat,
      effect p known i = .ok (some ((pops : Int), (pushes : Int))) ∧ pops ≤ h ∧
        pushes ≤ mostPushed ∧ (isReturn i = true ∨ Accepts is (h - pops + pushes)))

/-- What is accepted at height `b` above some values is accepted behind the instructions at height
`a` above them. -/
def Raises (is : List Instr) (a b : Nat) : Prop :=
  ∀ h rest, Accepts p known numIn rest (h + b) → Accepts p known numIn (is ++ rest) (h + a)

end

variable {p : Program} {known : Known} {numIn : Nat} {is js : List Instr} {i : Instr} {a b c : Nat}

/-! ## Following the words -/

theorem height_of_nat {n : Nat} (h : n < 1 <<< 63) : height (n : Int) = .ok (n : Int) := by
  have hlt : n < 9223372036854775808 := h
  have hholds : IntKind.int64.Holds (n : Int) := by
    show (-9223372036854775808 : Int) ≤ n ∧ (n : Int) ≤ 9223372036854775807
    omega
  exact if_pos hholds

/-- What is accepted passes the check, if heights can be counted. -/
theorem checkFrom_of_accepts {stop offset h : Nat} (hreads : p.Reads offset is)
    (hstop : offset + is.length = stop) (hsmall : h + mostPushed * is.length < 1 <<< 63)
    (haccepts : Accepts p known numIn is h) :
    checkFrom p known numIn stop offset h = .ok () := by
  induction is generalizing offset h with
  | nil =>
    rw [checkFrom, if_neg (by simp at hstop; omega)]
  | cons i is ih =>
    obtain ⟨hi, hreads⟩ := hreads
    obtain ⟨w, hw, hdecode⟩ := Option.bind_eq_some_iff.1 hi
    obtain ⟨hslot, heffect⟩ := haccepts
    rw [List.length_cons] at hstop hsmall
    rw [checkFrom, if_pos (by omega)]
    have hargument : ∀ below, argumentSlot? i = some below → ¬(below = 0 ∨ numIn < below) :=
      fun below hs => by
        have := hslot below hs
        omega
    obtain heffect | ⟨pops, pushes, heffect, hpops, hpushes, hrest⟩ := heffect
    · cases hs : argumentSlot? i with
      | none => simp [hw, hdecode, hs, heffect, ofFault, bind, Except.bind, pure, Except.pure]
      | some below =>
        simp [hw, hdecode, hs, heffect, ofFault, bind, Except.bind, pure, Except.pure,
          hargument below hs]
    · have hbefore : height ((h : Int) - pops) = .ok ((h - pops : Nat) : Int) := by
        rw [← Int.ofNat_sub hpops]
        exact height_of_nat (by omega)
      have hbehind : height (((h - pops : Nat) : Int) + pushes) =
          .ok ((h - pops + pushes : Nat) : Int) := by
        rw [← Int.natCast_add]
        exact height_of_nat (by rw [Nat.mul_succ] at hsmall; omega)
      have hpositive : ¬((h - pops : Nat) : Int) < 0 := by omega
      have hnext : (if isReturn i = true then .ok () else
          checkFrom p known numIn stop (offset + 1) ((h - pops + pushes : Nat) : Int)) = .ok () := by
        cases hreturn : isReturn i with
        | true => rfl
        | false =>
          simp only [hreturn, Bool.false_eq_true, false_or] at hrest
          exact ih hreads (by omega) (by rw [Nat.mul_succ] at hsmall; omega) hrest
      cases hs : argumentSlot? i with
      | none =>
        simp only [hw, hdecode, hs, heffect, ofFault, bind, Except.bind, pure, Except.pure, hbefore,
          hbehind, if_neg hpositive]
        exact hnext
      | some below =>
        simp only [hw, hdecode, hs, heffect, ofFault, bind, Except.bind, pure, Except.pure, hbefore,
          hbehind, if_neg hpositive, if_neg (hargument below hs)]
        exact hnext

theorem opcode?_of_decode? {w : Word} (hw : w.decode? = some i) (hi : isReturn i = false) :
    w.opcode? ≠ some .ret := by
  intro hret
  rw [Word.decode?, hret] at hw
  cases hw
  simp only [Instr.ofOpcode] at hi
  split at hi <;> cases hi

/-- Instructions without a return have none for the check to find. -/
theorem firstReturn_eq_none {stop offset : Nat} (hreads : p.Reads offset is)
    (hstop : offset + is.length = stop) (hret : ∀ i ∈ is, isReturn i = false) :
    firstReturn p stop offset = .ok none := by
  induction is generalizing offset with
  | nil => rw [firstReturn, if_neg (by simp at hstop; omega)]
  | cons i is ih =>
    obtain ⟨hi, hreads⟩ := hreads
    obtain ⟨w, hw, hdecode⟩ := Option.bind_eq_some_iff.1 hi
    rw [List.length_cons] at hstop
    rw [firstReturn, if_pos (by omega)]
    simp only [hw, if_neg (opcode?_of_decode? hdecode (hret i (by simp)))]
    exact ih hreads (by omega) fun j hj => hret j (by simp [hj])

/-! ## Instructions one after another -/

namespace Raises

theorem nil : Raises p known numIn [] a a := fun _ _ h => h

theorem append (h : Raises p known numIn is a b) (h' : Raises p known numIn js b c) :
    Raises p known numIn (is ++ js) a c := fun n rest hrest => by
  rw [List.append_assoc]
  exact h n _ (h' n rest hrest)

/-- Values below stay where they are. -/
theorem frame (h : Raises p known numIn is a b) (n : Nat) :
    Raises p known numIn is (a + n) (b + n) := fun m rest hrest => by
  rw [Nat.add_comm a, ← Nat.add_assoc]
  refine h (m + n) rest ?_
  rwa [Nat.add_assoc, Nat.add_comm n]

/-- Code that leaves values on top of what another leaves. -/
theorem push (h : Raises p known numIn is 0 a) (h' : Raises p known numIn js 0 b) :
    Raises p known numIn (is ++ js) 0 (a + b) :=
  h.append (by simpa [Nat.add_comm] using h'.frame a)

/-- An instruction with a known effect. -/
theorem of_effect (hslot : argumentSlot? i = none)
    (heffect : effect p known i = .ok (some ((a : Int), (b : Int)))) (hb : b ≤ mostPushed) :
    Raises p known numIn [i] a b := fun n rest hrest => by
  refine ⟨fun below h => ?_, .inr ⟨a, b, heffect, Nat.le_add_left .., hb, .inr ?_⟩⟩
  · rw [hslot] at h
    cases h
  · rwa [Nat.add_sub_cancel]

/-- An instruction whose effect shows at run time only. -/
theorem of_unknown (hslot : argumentSlot? i = none) (heffect : effect p known i = .ok none) :
    Raises p known numIn [i] a b := fun n rest hrest => by
  refine ⟨fun below h => ?_, .inl heffect⟩
  rw [hslot] at h
  cases h

/-- An instruction that reads or writes an argument. -/
theorem of_slot {below : Nat} (hslot : argumentSlot? i = some below) (hpos : 0 < below)
    (hle : below ≤ numIn) (heffect : effect p known i = .ok (some ((a : Int), (b : Int))))
    (hb : b ≤ mostPushed) : Raises p known numIn [i] a b := fun n rest hrest => by
  refine ⟨fun below' h => ?_, .inr ⟨a, b, heffect, Nat.le_add_left .., hb, .inr ?_⟩⟩
  · cases hslot.symm.trans h
    exact ⟨hpos, hle⟩
  · rwa [Nat.add_sub_cancel]

/-- Nothing behind a return is looked at. -/
theorem of_return {n : Nat} (hslot : argumentSlot? i = none) (hreturn : isReturn i = true)
    (heffect : effect p known i = .ok (some ((n : Int), 0))) (hn : n ≤ a) :
    Raises p known numIn [i] a b := fun m rest _ => by
  refine ⟨fun below h => ?_, .inr ⟨n, 0, heffect, Nat.le_add_left_of_le hn, Nat.zero_le _,
    .inl hreturn⟩⟩
  rw [hslot] at h
  cases h

/-- One instruction after code. -/
theorem snoc (h : Raises p known numIn is a b) (h' : Raises p known numIn [i] b c) :
    Raises p known numIn (is ++ [i]) a c := h.append h'

theorem replicate (n : Nat) (h : Raises p known numIn [i] a a) :
    Raises p known numIn (List.replicate n i) a a := by
  induction n with
  | zero => exact nil
  | succ n ih => exact h.append ih

end Raises

/-- All that is accepted at height zero, with what follows. -/
theorem accepts_of_raises (h : Raises p known numIn is 0 b) : Accepts p known numIn is 0 := by
  have := h 0 [] trivial
  rwa [List.append_nil] at this

end Balance

end StackScript
