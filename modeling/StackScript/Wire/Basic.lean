/-!
# Byte formats

Writers give bytes, or nothing for what has no written form; readers take bytes off the front.
Numbers are written seven bits to a byte, the lowest first, with a mark on every byte but the last;
sequences and texts begin with their length.
-/

namespace StackScript

namespace Wire

abbrev Bytes := List UInt8

abbrev Reader := StateT Bytes Option

/-! ## Bytes -/

def readByte : Reader UInt8
  | [] => none
  | b :: bs => some (b, bs)

/-- Little-endian bytes of a number of fixed size. -/
def writeFixed : Nat → Nat → Bytes
  | 0, _ => []
  | size + 1, n => UInt8.ofNat n :: writeFixed size (n / 256)

def readFixed : Nat → Reader Nat
  | 0 => pure 0
  | size + 1 => do
    let b ← readByte
    let n ← readFixed size
    return b.toNat + 256 * n

/-! ## Numbers -/

/-- Bytes that a number of the given width takes at most. -/
def varintSize (bits : Nat) : Nat := (bits + 6) / 7

/-- The groups of a number, at most `size`. -/
def writeGroups : Nat → Nat → Bytes
  | 0, _ => []
  | size + 1, n =>
    if n < 128 then [UInt8.ofNat n] else UInt8.ofNat (n % 128 + 128) :: writeGroups size (n / 128)

/-- A number of the given width. -/
def writeNat (bits n : Nat) : Bytes := writeGroups (varintSize bits) n

/-- Groups up to the one without a mark, at most `size`. -/
def readGroups : Nat → Reader Nat
  | 0 => fun _ => none
  | size + 1 => do
    let b ← readByte
    if b < 128 then return b.toNat
    let n ← readGroups size
    return b.toNat - 128 + 128 * n

/-- A number of the given width; one that does not fit is refused. -/
def readNat (bits : Nat) : Reader Nat := do
  let n ← readGroups (varintSize bits)
  if n < 1 <<< bits then return n else fun _ => none

/-- Signed numbers with small magnitudes first: 0, -1, 1, -2, 2, … -/
def zigzag (n : Int) : Nat := if 0 ≤ n then (2 * n).toNat else (-2 * n - 1).toNat

def unzigzag (n : Nat) : Int := if n % 2 = 0 then n / 2 else -((n : Int) / 2) - 1

/-! ## Combinations -/

def writeBool (b : Bool) : Bytes := [if b then 1 else 0]

def readBool : Reader Bool := do
  let b ← readByte
  if b = 0 then return false else if b = 1 then return true else fun _ => none

/-- Width of lengths and offsets. -/
def sizeBits : Nat := 64

def writeSize (n : Nat) : Bytes := writeNat sizeBits n

def readSize : Reader Nat := readNat sizeBits

def writeOption {α : Type} (write : α → Bytes) : Option α → Bytes
  | none => [0]
  | some a => 1 :: write a

def readOption {α : Type} (read : Reader α) : Reader (Option α) := do
  if ← readBool then return some (← read) else return none

def writeList {α : Type} (write : α → Bytes) (as : List α) : Bytes :=
  writeSize as.length ++ as.flatMap write

/-- As many items as asked for. -/
def readMany {α : Type} (read : Reader α) : Nat → Reader (List α)
  | 0 => pure []
  | n + 1 => do
    let a ← read
    let as ← readMany read n
    return a :: as

def readList {α : Type} (read : Reader α) : Reader (List α) := do readMany read (← readSize)

def writeString (s : String) : Bytes :=
  writeSize s.utf8ByteSize ++ s.toUTF8.data.toList

def readString : Reader String := do
  let n ← readSize
  let bs ← get
  if bs.length < n then fun _ => none
  else
    set (bs.drop n)
    match String.fromUTF8? ⟨(bs.take n).toArray⟩ with
    | some s => return s
    | none => fun _ => none

end Wire

end StackScript
