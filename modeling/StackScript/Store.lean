import StackScript.Value

/-!
# Stores

A store holds the frames of all activations, live or captured, the standalone cells, the number
that the next composite, pointer or closure is made under, and the call depth that code called from
the host continues from. Frames and cells are added and never removed; a frame's parent is older
than the frame.
-/

namespace StackScript

/-- The variables of one activation. `base` is the height of the value stack below its locals, and
`parent` the frame of the enclosing function; the frame of the main body has none. -/
structure Frame where
  func : Option Nat
  parent : Option Nat
  base : Nat
  vars : Array Value

structure Store where
  frames : Array Frame
  cells : Array Value
  fresh : Nat
  /-- Call depth of the thread that host code was last entered from, as it was published then. -/
  hostDepth : Nat

namespace Store

def empty : Store := ⟨#[], #[], 1, 0⟩

instance : Inhabited Store := ⟨empty⟩

/-! ## Places -/

/-- The value in a place; none if the frame has no such slot. -/
def load? (s : Store) : Place → Option Value
  | .cell i => s.cells[i]?
  | .slot f i => s.frames[f]?.bind (·.vars[i]?)

/-- The store after writing to a place; none if the frame has no such slot. -/
def store? (s : Store) (v : Value) : Place → Option Store
  | .cell i => if i < s.cells.size then some { s with cells := s.cells.setIfInBounds i v } else none
  | .slot f i =>
    match s.frames[f]? with
    | some frame =>
      if i < frame.vars.size then
        some { s with frames := s.frames.modify f fun x =>
          { x with vars := x.vars.setIfInBounds i v } }
      else none
    | none => none

/-! ## Allocation -/

/-- A number for something new. -/
def number (s : Store) : Nat × Store := (s.fresh, { s with fresh := s.fresh + 1 })

def newCell (s : Store) (v : Value) : Place × Store :=
  (.cell s.cells.size, { s with cells := s.cells.push v })

def newFrame (s : Store) (f : Frame) : Nat × Store :=
  (s.frames.size, { s with frames := s.frames.push f })

def newSlice (s : Store) (elem : Ty) (items : List Value) : Value × Store :=
  let (id, s) := s.number
  (.slice id elem items, s)

def newStruct (s : Store) (ty : Ty) (fields : List Value) : Value × Store :=
  let (id, s) := s.number
  (.struct id ty fields, s)

def newPtr (s : Store) (elem : Ty) (place : Place) : Value × Store :=
  let (id, s) := s.number
  (.ptr id elem place, s)

/-- A pointer to a new cell. -/
def newBox (s : Store) (elem : Ty) (v : Value) : Value × Store :=
  let (place, s) := s.newCell v
  s.newPtr elem place

/-! ## Enclosing frames -/

/-- The frame a number of levels out. -/
def ancestor? (s : Store) : Nat → Nat → Option Nat
  | f, 0 => some f
  | f, n + 1 => (s.frames[f]?.bind (·.parent)).bind fun p => s.ancestor? p n

/-- The outermost frame. -/
def root (s : Store) (f : Nat) : Nat :=
  match s.frames[f]?.bind (·.parent) with
  | some p => if p < f then s.root p else f
  | none => f
termination_by f

/-! ## Text -/

/-- Places that a pointer can point to. -/
def placeCount (s : Store) : Nat :=
  s.frames.foldl (fun n f => n + f.vars.size) s.cells.size

/-- Text of a value, following at most `n` pointers in a row. -/
def textWithin (s : Store) : Nat → Value → Option String
  | 0, v => v.textWith fun _ => none
  | n + 1, v => v.textWith fun p =>
    match s.load? p with
    | some w => s.textWithin n w
    | none => some "<invalid>"

/-- Text of a value; none if it would not end, for more pointers in a row than there are places
lead back to one of them. -/
def text? (s : Store) (v : Value) : Option String := s.textWithin (s.placeCount + 1) v

end Store

end StackScript
