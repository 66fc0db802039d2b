import StackScript.Constant.Basic
import StackScript.Number.Reading

/-!
# Literals

The constants that source tokens stand for. Numbers may be grouped by underscores; a token of a
character or string keeps its quotes and escapes.
-/

namespace StackScript

inductive LiteralKind
  | int
  | float
  | imag
  | char
  | string
deriving DecidableEq, Repr

/-- A token of the source. -/
structure Literal where
  kind : LiteralKind
  text : String
deriving DecidableEq, Repr

namespace Literal

/-! ## Numbers -/

def withoutUnderscores (s : String) : List Char := s.toList.filter (· != '_')

/-- Digits and radix: a letter after a leading zero names the radix, a bare leading zero means
octal. -/
def splitRadix : List Char → List Char × Nat
  | '0' :: 'x' :: cs | '0' :: 'X' :: cs => (cs, 16)
  | '0' :: 'o' :: cs | '0' :: 'O' :: cs => (cs, 8)
  | '0' :: 'b' :: cs | '0' :: 'B' :: cs => (cs, 2)
  | '0' :: c :: cs => (c :: cs, 8)
  | cs => (cs, 10)

/-- An integer that fits in sixty-four bits, signed or unsigned. -/
def readInt (s : String) : Option Int :=
  let (digits, radix) := splitRadix (withoutUnderscores s)
  (readInt? radix digits).filter fun n =>
    IntKind.int64.least ≤ n ∧ n ≤ IntKind.uint64.greatest

/-- A finite decimal fraction. -/
def readFloat (s : String) : Option (Binary .double) :=
  (Binary.read? .double (withoutUnderscores s)).filter Binary.isFinite

/-! ## Escapes -/

/-- The number that the next `n` hexadecimal digits write, and what follows them. -/
def takeHex : Nat → Nat → List Char → Option (Nat × List Char)
  | 0, acc, cs => some (acc, cs)
  | _ + 1, _, [] => none
  | n + 1, acc, c :: cs => (digitOf? 16 c).bind fun d => takeHex n (acc * 16 + d) cs

theorem length_of_takeHex {n acc m : Nat} {cs rest : List Char}
    (h : takeHex n acc cs = some (m, rest)) : rest.length ≤ cs.length := by
  induction n generalizing acc cs with
  | zero => simp [takeHex] at h; simp [h.2]
  | succ n ih =>
    cases cs with
    | nil => simp [takeHex] at h
    | cons c cs =>
      simp only [takeHex, Option.bind_eq_some_iff] at h
      obtain ⟨d, _, h⟩ := h
      exact Nat.le_succ_of_le (ih h)

/-- The character with a number, which must be one. -/
def charOf? (n : Nat) : Option Char :=
  if h : n.isValidChar then some (Char.ofNatAux n h) else none

def hexEscape (n : Nat) (cs : List Char) : Except LiteralError (Char × List Char) :=
  match takeHex n 0 cs with
  | none => .error .hexEscape
  | some (m, rest) =>
    match charOf? m with
    | some c => .ok (c, rest)
    | none => .error .notCharacter

/-- Three octal digits, of which the first was read. -/
def octalEscape (first : Char) : List Char → Except LiteralError (Char × List Char)
  | c :: d :: rest =>
    match readDigits? 8 0 [first, c, d] with
    | some n => .ok (Char.ofNat n, rest)
    | none => .error .octalEscape
  | _ => .error .octalEscape

/-- The character that an escape stands for, after its backslash; only the quote in use may be
escaped. -/
def readEscape (quote : Char) : List Char → Except LiteralError (Char × List Char)
  | [] => .error .trailingBackslash
  | 'a' :: cs => .ok ('\x07', cs)
  | 'b' :: cs => .ok ('\x08', cs)
  | 'f' :: cs => .ok ('\x0c', cs)
  | 'n' :: cs => .ok ('\n', cs)
  | 'r' :: cs => .ok ('\r', cs)
  | 't' :: cs => .ok ('\t', cs)
  | 'v' :: cs => .ok ('\x0b', cs)
  | '\\' :: cs => .ok ('\\', cs)
  | 'x' :: cs => hexEscape 2 cs
  | 'u' :: cs => hexEscape 4 cs
  | 'U' :: cs => hexEscape 8 cs
  | c :: cs =>
    if c = quote then .ok (c, cs)
    else if '0' ≤ c ∧ c ≤ '7' then octalEscape c cs
    else .error .unknownEscape

theorem length_of_hexEscape {n : Nat} {c : Char} {cs rest : List Char}
    (h : hexEscape n cs = .ok (c, rest)) : rest.length ≤ cs.length := by
  unfold hexEscape at h
  split at h
  · cases h
  · rename_i ht
    split at h <;> cases h
    exact length_of_takeHex ht

theorem length_of_octalEscape {first c : Char} {cs rest : List Char}
    (h : octalEscape first cs = .ok (c, rest)) : rest.length ≤ cs.length := by
  unfold octalEscape at h
  split at h
  · split at h <;> cases h
    simp only [List.length_cons]
    omega
  · cases h

theorem length_of_readEscape {quote c : Char} {cs rest : List Char}
    (h : readEscape quote cs = .ok (c, rest)) : rest.length < cs.length := by
  unfold readEscape at h
  split at h <;> try cases h
  all_goals try simp only [List.length_cons]; omega
  · exact Nat.lt_succ_of_le (length_of_hexEscape h)
  · exact Nat.lt_succ_of_le (length_of_hexEscape h)
  · exact Nat.lt_succ_of_le (length_of_hexEscape h)
  · split at h
    · cases h; simp
    · split at h
      · exact Nat.lt_succ_of_le (length_of_octalEscape h)
      · cases h

/-- The text between quotes with its escapes read. -/
def unescape (quote : Char) (cs : List Char) : Except LiteralError (List Char) :=
  match cs with
  | [] => .ok []
  | c :: cs =>
    if c = quote then .error .unescapedQuote
    else if c = '\\' then
      match h : readEscape quote cs with
      | .error e => .error e
      | .ok (d, rest) =>
        have := length_of_readEscape h
        (unescape quote rest).map (d :: ·)
    else (unescape quote cs).map (c :: ·)
termination_by cs.length

/-- The text between two equal quotes that open and close it. -/
def between? (quote : Char) (s : String) : Option (List Char) :=
  match s.toList with
  | c :: cs => if c = quote ∧ cs.getLast? = some quote then some cs.dropLast else none
  | [] => none

/-- The contents of a string token: raw between backquotes, save carriage returns, and with
escapes between double quotes. -/
def unquote (s : String) : Except LiteralError String :=
  match between? (Char.ofNat 96) s with
  | some raw => .ok (String.ofList (raw.filter (· != '\r')))
  | none =>
    match between? '"' s with
    | some inner => (unescape '"' inner).map String.ofList
    | none => .error .unterminatedString

/-! ## Constants -/

/-- The character of a character token. -/
def readChar (s : String) : Except LiteralError Char :=
  match between? (Char.ofNat 39) s with
  | none => .error .unterminatedCharacter
  | some inner =>
    match unescape (Char.ofNat 39) inner with
    | .error e => .error e
    | .ok [c] => .ok c
    | .ok _ => .error .characterCount

/-- The imaginary part of an imaginary token. -/
def readImag (s : String) : Except LiteralError (Binary .double) :=
  match s.toList.getLast? with
  | some 'i' =>
    let digits := String.ofList s.toList.dropLast
    match readFloat digits with
    | some x => .ok x
    | none =>
      match readInt digits with
      | some n => .ok (Binary.ofInt .double n)
      | none => .error .imaginary
  | _ => .error .imaginarySuffix

/-- The constant that a token stands for. -/
def constant (l : Literal) : Except ConstantError Constant :=
  let result : Except LiteralError Constant :=
    match l.kind with
    | .int => match readInt l.text with
      | some n => .ok (.int n)
      | none => .error .integer
    | .float => match readFloat l.text with
      | some x => .ok (.float x)
      | none => .error .float
    | .imag => (readImag l.text).map fun x => .complex ⟨Binary.zero _, x⟩
    | .char => (readChar l.text).map fun c => .bound (.ofInt .int32 c.toNat)
    | .string => (unquote l.text).map fun s => .bound (.string s)
  result.mapError (.malformed l.text)

/-- The string token whose contents are written between double quotes as in messages. -/
def ofString (contents : String) : Literal := ⟨.string, quoted contents⟩

end Literal

end StackScript
