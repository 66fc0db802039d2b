import Mathlib.Algebra.Order.Ring.Nat
import StackScript.Wire.Basic

/-!
# Reading back what was written

`Reads read bytes a` says that the reader takes the bytes off the front, whatever follows them, and
gives `a`. Each writer comes with a lemma that its reader reads what it wrote; readers in sequence
read bytes in sequence (`Reads.bind`), so the formats put together from them need no more than that.
Numbers, lengths and texts have to fit the widths that they are written at.
-/

namespace StackScript

namespace Wire

variable {α β : Type}

/-- The reader takes the bytes off the front of any longer ones, and gives `a`. -/
def Reads (read : Reader α) (bytes : Bytes) (a : α) : Prop :=
  ∀ rest, read (bytes ++ rest) = some (a, rest)

namespace Reads

variable {read : Reader α} {bytes more : Bytes} {a : α}

theorem pure (a : α) : Reads (pure a) [] a := fun _ => rfl

theorem bind {f : α → Reader β} {b : β} (h : Reads read bytes a) (hf : Reads (f a) more b) :
    Reads (read >>= f) (bytes ++ more) b := fun rest => by
  rw [List.append_assoc]
  show (read (bytes ++ (more ++ rest))).bind (fun p => f p.1 p.2) = _
  rw [h]
  exact hf rest

/-- A reader whose result is put to use. -/
theorem map {f : α → β} (h : Reads read bytes a) :
    Reads (do return f (← read)) bytes (f a) := by
  rw [← List.append_nil bytes]
  exact h.bind (.pure _)

/-- A reader that comes last. -/
theorem last {f : α → Reader β} {b : β} (h : Reads read bytes a) (hf : Reads (f a) [] b) :
    Reads (read >>= f) bytes b := by
  rw [← List.append_nil bytes]
  exact h.bind hf

end Reads

/-! ## Bytes -/

theorem toNat_byte {n : Nat} (h : n < 256) : (UInt8.ofNat n).toNat = n := UInt8.toNat_ofNat_of_lt' h

theorem reads_byte (b : UInt8) : Reads readByte [b] b := fun _ => rfl

/-- What is left of a number that has as many bytes as are written. -/
theorem reads_fixed (size : Nat) {n : Nat} (h : n < 256 ^ size) :
    Reads (readFixed size) (writeFixed size n) n := by
  induction size generalizing n with
  | zero =>
    obtain rfl : n = 0 := by simpa using h
    exact .pure 0
  | succ size ih =>
    have hrest : n / 256 < 256 ^ size :=
      Nat.div_lt_of_lt_mul (by rwa [Nat.pow_succ, Nat.mul_comm] at h)
    have hbyte : (UInt8.ofNat n).toNat + 256 * (n / 256) = n := by
      rw [UInt8.toNat_ofNat']
      exact Nat.mod_add_div n 256
    have hread := (ih hrest).map (f := fun m => (UInt8.ofNat n).toNat + 256 * m)
    rw [hbyte] at hread
    exact (reads_byte _).bind hread

/-! ## Numbers -/

theorem reads_groups (size : Nat) {n : Nat} (h : n < 128 ^ (size + 1)) :
    Reads (readGroups (size + 1)) (writeGroups (size + 1) n) n := by
  induction size generalizing n with
  | zero =>
    have hn : n < 128 := by simpa using h
    have hbyte : (UInt8.ofNat n).toNat = n := toNat_byte (by omega)
    rw [writeGroups, if_pos hn, readGroups]
    refine (reads_byte _).last ?_
    rw [if_pos (by rw [UInt8.lt_iff_toNat_lt, hbyte]; exact hn), hbyte]
    exact .pure n
  | succ size ih =>
    rw [writeGroups, readGroups]
    split
    · rename_i hn
      have hbyte : (UInt8.ofNat n).toNat = n := toNat_byte (by omega)
      refine (reads_byte _).last ?_
      rw [if_pos (by rw [UInt8.lt_iff_toNat_lt, hbyte]; exact hn), hbyte]
      exact .pure n
    · have hbyte : (UInt8.ofNat (n % 128 + 128)).toNat = n % 128 + 128 :=
        toNat_byte (by omega)
      have hrest : n / 128 < 128 ^ (size + 1) :=
        Nat.div_lt_of_lt_mul (by rwa [Nat.pow_succ, Nat.mul_comm] at h)
      have hread := (ih hrest).map (f := fun m => n % 128 + 128 * m)
      rw [Nat.mod_add_div] at hread
      refine (reads_byte _).bind ?_
      rw [if_neg (by rw [UInt8.lt_iff_toNat_lt, hbyte]; exact Nat.not_lt.2 (Nat.le_add_left ..)),
        hbyte, Nat.add_sub_cancel]
      exact hread

/-- A number of the given width. -/
theorem reads_nat {bits n : Nat} (hbits : 0 < bits) (h : n < 1 <<< bits) :
    Reads (readNat bits) (writeNat bits n) n := by
  have hsize : varintSize bits = varintSize bits - 1 + 1 := by
    unfold varintSize
    omega
  have hroom : n < 128 ^ varintSize bits := by
    refine Nat.lt_of_lt_of_le h ?_
    rw [Nat.one_shiftLeft, show (128 : Nat) = 2 ^ 7 from rfl, ← Nat.pow_mul]
    refine Nat.pow_le_pow_right (by omega) ?_
    unfold varintSize
    omega
  rw [hsize] at hroom
  have hgroups := reads_groups _ hroom
  rw [← hsize] at hgroups
  refine hgroups.last ?_
  rw [if_pos h]
  exact .pure n

theorem unzigzag_zigzag (n : Int) : unzigzag (zigzag n) = n := by
  unfold zigzag unzigzag
  split <;> split <;> omega

/-- A number folded at its sign needs as many bits as it has. -/
theorem zigzag_lt {w : Nat} (hw : 0 < w) (n : BitVec w) : zigzag n.toInt < 1 <<< w := by
  obtain ⟨bits, rfl⟩ : ∃ bits, w = bits + 1 := ⟨w - 1, by omega⟩
  have hlow := BitVec.le_toInt n
  have hhigh := BitVec.toInt_lt (x := n)
  rw [Nat.add_sub_cancel] at hlow hhigh
  have hcast : ((2 ^ bits : Nat) : Int) = 2 ^ bits := by norm_cast
  rw [Nat.one_shiftLeft, Nat.pow_succ]
  unfold zigzag
  split <;> omega

/-! ## Combinations -/

theorem reads_bool (b : Bool) : Reads readBool (writeBool b) b := by
  cases b <;> exact fun _ => rfl

theorem reads_size {n : Nat} (h : n < 1 <<< sizeBits) : Reads readSize (writeSize n) n :=
  reads_nat (by decide) h

variable {read : Reader α} {write : α → Bytes}

theorem reads_option {a? : Option α} (h : ∀ a ∈ a?, Reads read (write a) a) :
    Reads (readOption read) (writeOption write a?) a? := by
  cases a? with
  | none => exact fun _ => rfl
  | some a =>
    have hread := (h a rfl).map (f := some)
    exact fun rest => hread rest

/-- Items that are written one after another are read as many times. -/
theorem reads_many {as : List α} (h : ∀ a ∈ as, Reads read (write a) a) :
    Reads (readMany read as.length) (as.flatMap write) as := by
  induction as with
  | nil => exact .pure []
  | cons a as ih =>
    rw [List.flatMap_cons]
    have hread := (ih fun b hb => h b (List.mem_cons_of_mem a hb)).map (f := (a :: ·))
    exact (h a List.mem_cons_self).bind hread

theorem reads_list {as : List α} (hlength : as.length < 1 <<< sizeBits)
    (h : ∀ a ∈ as, Reads read (write a) a) : Reads (readList read) (writeList write as) as :=
  (reads_size hlength).bind (reads_many h)

theorem reads_string {s : String} (h : s.utf8ByteSize < 1 <<< sizeBits) :
    Reads readString (writeString s) s := by
  refine (reads_size h).bind fun rest => ?_
  have hlength : s.toUTF8.data.toList.length = s.utf8ByteSize := rfl
  have hvalid : String.fromUTF8? s.toUTF8 = some s := by
    unfold String.fromUTF8?
    rw [dif_pos (show s.toUTF8.IsValidUTF8 from s.isValidUTF8)]
    rfl
  have hlong : ¬(s.toUTF8.data.toList ++ rest).length < s.toUTF8.data.toList.length := by
    rw [List.length_append]
    omega
  simp only [bind, StateT.bind, get, getThe, MonadStateOf.get, StateT.get, pure, Option.bind_some,
    ← hlength, List.take_left, List.drop_left, Array.toArray_toList, hvalid]
  rw [if_neg hlong]
  rfl

end Wire

end StackScript
