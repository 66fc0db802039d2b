import StackScript.Compile.Unit

/-!
# What a place sees

A name table finds what lexical scoping says: the blocks around a place, the innermost first, each
with the declarations that are seen from there (`NameTable.scopes`, `find?_eq_scopes`). Declaring a
name and opening a block change that list as one expects. What a literal sees of the blocks around it
(`NameTable.seenFrom`) stays the same as long as only blocks are added to that its horizons cover
(`NameTable.seenFrom_declare`).
-/

namespace StackScript

/-- The declarations of each enclosing block, the innermost block first. -/
abbrev Scopes := List (List (String × Symbol))

namespace Scopes

/-- The innermost declaration of a name. -/
def find? (s : Scopes) (name : String) : Option Symbol := s.findSome? (·.lookup name)

/-- Whether the innermost block declares the name. -/
def declares (s : Scopes) (name : String) : Bool := (s.head?.bind (·.lookup name)).isSome

/-- Adds a declaration to the innermost block. -/
def declare (s : Scopes) (name : String) (x : Symbol) : Scopes :=
  match s with
  | block :: outer => ((name, x) :: block) :: outer
  | [] => [[(name, x)]]

end Scopes

/-- A variable or a parameter. -/
def Symbol.IsSlot : Symbol → Prop
  | .var _ | .param .. => True
  | .package _ | .func _ => False

/-- No variable and no parameter is found under two names. -/
def Scopes.Apart (s : Scopes) : Prop :=
  ∀ (name name' : String) (x : Symbol), s.find? name = some x → s.find? name' = some x → x.IsSlot →
    name = name'

/-! ## Blocks -/

namespace Block

variable {b : Block} {p : Nat → Bool} {name : String}

/-- The declarations of a block with numbers that are seen. -/
def shown (b : Block) (p : Nat → Bool) : List (String × Symbol) :=
  (b.filter fun e => p e.2.2).map fun e => (e.1, e.2.1)

theorem lookup_eq_none_of_notMem (h : name ∉ b.map (·.1)) : (b.shown p).lookup name = none := by
  rw [List.lookup_eq_none_iff]
  intro e he
  simp only [shown, List.mem_map, List.mem_filter] at he
  obtain ⟨d, ⟨hd, -⟩, rfl⟩ := he
  rw [bne_iff_ne]
  rintro rfl
  exact h (List.mem_map_of_mem hd)

/-- Where names are unique, the declaration of a name is seen or nothing is. -/
theorem lookup_shown (h : (b.map (·.1)).Nodup) : (b.shown p).lookup name =
    (List.lookup name b).bind fun e => if p e.2 then some e.1 else none := by
  induction b with
  | nil => rfl
  | cons e b ih =>
    obtain ⟨name', x, number⟩ := e
    obtain ⟨hfresh, hnodup⟩ := List.nodup_cons.1 h
    specialize ih hnodup
    by_cases hname : name = name'
    · subst hname
      rw [List.lookup_cons_self, Option.bind_some]
      by_cases hp : p number
      · simp [shown, hp]
      · have hrest : (shown b p).lookup name = none := lookup_eq_none_of_notMem hfresh
        simpa [shown, hp] using hrest
    · have hne : (name == name') = false := beq_eq_false_iff_ne.2 hname
      rw [List.lookup_cons, hne, ← ih]
      by_cases hp : p number <;> simp [shown, hp, List.lookup_cons, hne]

theorem shown_congr {q : Nat → Bool} (h : ∀ e ∈ b, p e.2.2 = q e.2.2) : b.shown p = b.shown q := by
  rw [shown, shown, List.filter_congr h]

theorem shown_cons (e : String × Symbol × Nat) :
    shown (e :: b) p = if p e.2.2 then (e.1, e.2.1) :: b.shown p else b.shown p := by
  by_cases hp : p e.2.2 <;> simp [shown, hp]

end Block

/-! ## Tables -/

namespace NameTable

variable {t t' : NameTable} {name : String} {x : Symbol}

/-- A block by its number. -/
def block (t : NameTable) (i : Nat) : Block := t.blocks[i]?.getD []

/-- What the place sees of a block. -/
def shown (t : NameTable) (i : Nat) : List (String × Symbol) := (t.block i).shown (t.sees i)

/-- What the place sees. -/
def scopes (t : NameTable) : Scopes := t.path.map t.shown

/-- What a body in the blocks of a path sees of them. -/
def seenFrom (t : NameTable) (path : List Nat) (horizons : List Horizon) : Scopes :=
  path.map fun i => (t.block i).shown (Horizon.allows horizons i)

/-- Blocks on a path were opened from the outermost to the innermost. -/
structure Path (t : NameTable) (path : List Nat) : Prop where
  sorted : path.Pairwise (· > ·)
  lt : ∀ i ∈ path, i < t.blocks.size

/-- A table as declaring names and opening blocks makes it. -/
structure Sound (t : NameTable) : Prop where
  path : t.Path t.path
  inner : ∃ i rest, t.path = i :: rest ∧ t.floor ≤ i
  nodup : ∀ i, ((t.block i).map (·.1)).Nodup
  numbered : ∀ i, ∀ e ∈ t.block i, e.2.2 ≤ t.count

theorem Path.nodup {path : List Nat} (h : t.Path path) : path.Nodup :=
  h.sorted.imp fun hgt => Nat.ne_of_gt hgt

theorem sound_initial : Sound initial where
  path := ⟨List.pairwise_singleton _ _, by simp [initial]⟩
  inner := ⟨0, [], rfl, Nat.le_refl 0⟩
  nodup i := by cases i <;> simp [initial, block]
  numbered i := by cases i <;> simp [initial, block]

/-- All of a block within the own body is seen. -/
theorem sees_of_floor_le {i number : Nat} (h : t.floor ≤ i) : t.sees i number = true := by
  rw [sees, decide_eq_true h, Bool.true_or]

theorem sees_of_lt_floor {i number : Nat} (h : i < t.floor) :
    t.sees i number = Horizon.allows t.horizons i number := by
  rw [sees, decide_eq_false (Nat.not_le.2 h), Bool.false_or]

/-- Looking a name up finds the innermost declaration that is seen. -/
theorem find?_eq_scopes (h : t.Sound) (name : String) : t.find? name = t.scopes.find? name := by
  have hown (i : Nat) : t.own? name i = (t.shown i).lookup name := by
    rw [shown, Block.lookup_shown (h.nodup i), own?, block]
    cases List.lookup name (t.blocks[i]?.getD []) <;> rfl
  rw [NameTable.find?, Scopes.find?, scopes, List.findSome?_map]
  exact congrArg (t.path.findSome? ·) (funext hown)

theorem declares_eq_scopes (h : t.Sound) (name : String) :
    t.declares name = t.scopes.declares name := by
  obtain ⟨i, rest, hpath, hle⟩ := h.inner
  rw [declares, Scopes.declares, scopes, hpath, List.map_cons, List.head?_cons, Option.bind_some,
    shown, Block.lookup_shown (h.nodup i)]
  show (List.lookup name (t.block i)).isSome = _
  cases List.lookup name (t.block i) with
  | none => rfl
  | some e => rw [Option.bind_some, if_pos (sees_of_floor_le hle), Option.isSome_some,
      Option.isSome_some]

theorem mem_names_of_declares {i : Nat} {rest : List Nat} (hpath : t.path = i :: rest) :
    t.declares name = true ↔ name ∈ (t.block i).map (·.1) := by
  rw [declares, hpath, block]
  show (List.lookup name _).isSome = true ↔ _
  rw [Option.isSome_iff_ne_none, ne_eq, List.lookup_eq_none_iff]
  simp only [List.mem_map]
  grind

/-! ## Declaring -/

variable {i : Nat} {rest path : List Nat} {horizons : List Horizon}

theorem block_declare (h : t.Sound) (hpath : t.path = i :: rest) (j : Nat) :
    (t.declare name x).block j =
      if j = i then (name, x, t.count + 1) :: t.block j else t.block j := by
  have hlt : i < t.blocks.size := h.path.lt i (by rw [hpath]; exact List.mem_cons_self)
  rw [declare, hpath]
  simp only [block, Array.getElem?_modify]
  by_cases hj : j = i
  · subst hj
    simp [hlt]
  · rw [if_neg (Ne.symm hj), if_neg hj]

@[simp] theorem path_declare : (t.declare name x).path = t.path := by unfold declare; split <;> rfl

@[simp] theorem floor_declare : (t.declare name x).floor = t.floor := by
  unfold declare; split <;> rfl

@[simp] theorem horizons_declare : (t.declare name x).horizons = t.horizons := by
  unfold declare; split <;> rfl

@[simp] theorem size_declare : (t.declare name x).blocks.size = t.blocks.size := by
  unfold declare; split <;> simp

theorem count_declare (h : t.Sound) : (t.declare name x).count = t.count + 1 := by
  obtain ⟨i, rest, hpath, -⟩ := h.inner
  rw [declare, hpath]

theorem sees_declare {j number : Nat} : (t.declare name x).sees j number = t.sees j number := by
  rw [sees, sees, floor_declare, horizons_declare]

theorem sound_declare (h : t.Sound) (hfresh : t.declares name = false) :
    (t.declare name x).Sound := by
  obtain ⟨i, rest, hpath, hle⟩ := h.inner
  refine ⟨⟨?_, ?_⟩, ⟨i, rest, path_declare.trans hpath, ?_⟩, fun j => ?_, fun j e he => ?_⟩
  · rw [path_declare]
    exact h.path.sorted
  · rw [path_declare, size_declare]
    exact h.path.lt
  · rw [floor_declare]
    exact hle
  · rw [block_declare h hpath]
    split
    · subst j
      refine List.nodup_cons.2 ⟨fun hmem => ?_, h.nodup i⟩
      rw [(mem_names_of_declares hpath).2 hmem] at hfresh
      cases hfresh
    · exact h.nodup j
  · rw [count_declare h]
    rw [block_declare h hpath] at he
    split at he
    · obtain rfl | he := List.mem_cons.1 he
      · exact Nat.le_refl _
      · exact Nat.le_succ_of_le (h.numbered j e he)
    · exact Nat.le_succ_of_le (h.numbered j e he)

/-- A new declaration joins the innermost block. -/
theorem scopes_declare (h : t.Sound) : (t.declare name x).scopes = t.scopes.declare name x := by
  obtain ⟨i, rest, hpath, hle⟩ := h.inner
  have hnodup := h.path.nodup
  rw [hpath, List.nodup_cons] at hnodup
  have hshown (j : Nat) : (t.declare name x).shown j =
      if j = i then (name, x) :: t.shown j else t.shown j := by
    have hsees : (t.declare name x).sees j = t.sees j := funext fun _ => sees_declare
    rw [shown, hsees, block_declare h hpath]
    by_cases hj : j = i
    · subst hj
      rw [if_pos rfl, if_pos rfl, Block.shown_cons, if_pos (sees_of_floor_le hle)]
      rfl
    · rw [if_neg hj, if_neg hj]
      rfl
  rw [scopes, path_declare, scopes, hpath, List.map_cons, List.map_cons, Scopes.declare, hshown,
    if_pos rfl]
  congr 1
  refine List.map_congr_left fun j hj => ?_
  rw [hshown, if_neg (ne_of_mem_of_not_mem hj hnodup.1)]

/-! ## Blocks within a body -/

theorem block_push {u : NameTable} (hblocks : u.blocks = t.blocks.push []) (j : Nat) :
    u.block j = t.block j := by
  rw [block, block, hblocks, Array.getElem?_push]
  split
  · subst j
    simp
  · rfl

theorem Path.push {u : NameTable} (h : t.Path path) (hblocks : u.blocks = t.blocks.push []) :
    u.Path (t.blocks.size :: path) where
  sorted := List.pairwise_cons.2 ⟨h.lt, h.sorted⟩
  lt j hj := by
    rw [hblocks, Array.size_push]
    obtain rfl | hj := List.mem_cons.1 hj
    · exact Nat.lt_succ_self _
    · exact Nat.lt_succ_of_lt (h.lt j hj)

theorem sound_openBlock (h : t.Sound) : t.openBlock.Sound where
  path := h.path.push rfl
  inner := by
    obtain ⟨i, rest, hpath, hle⟩ := h.inner
    exact ⟨_, _, rfl, Nat.le_trans hle (Nat.le_of_lt (h.path.lt i (hpath ▸ List.mem_cons_self)))⟩
  nodup j := by rw [block_push rfl]; exact h.nodup j
  numbered j := by rw [block_push rfl]; exact h.numbered j

theorem block_size : t.block t.blocks.size = [] := by simp [block]

theorem scopes_openBlock : t.openBlock.scopes = [] :: t.scopes := by
  have hshown : t.openBlock.shown = t.shown := funext fun j => by
    rw [shown, block_push rfl]
    rfl
  show t.openBlock.shown t.blocks.size :: t.path.map t.openBlock.shown = _
  rw [hshown, shown, block_size]
  rfl

/-- A later table at the same place: only the innermost block and new ones have changed. -/
structure Grows (t t' : NameTable) : Prop where
  path : t'.path = t.path
  floor : t'.floor = t.floor
  horizons : t'.horizons = t.horizons
  size : t.blocks.size ≤ t'.blocks.size
  count : t.count ≤ t'.count
  blocks : ∀ j < t.blocks.size, t.path.head? ≠ some j → t'.block j = t.block j

namespace Grows

theorem refl (t : NameTable) : t.Grows t :=
  ⟨rfl, rfl, rfl, Nat.le_refl _, Nat.le_refl _, fun _ _ _ => rfl⟩

theorem trans {t'' : NameTable} (h : t.Grows t') (h' : t'.Grows t'') : t.Grows t'' where
  path := h'.path.trans h.path
  floor := h'.floor.trans h.floor
  horizons := h'.horizons.trans h.horizons
  size := Nat.le_trans h.size h'.size
  count := Nat.le_trans h.count h'.count
  blocks j hj hne := (h'.blocks j (Nat.lt_of_lt_of_le hj h.size) (h.path ▸ hne)).trans
    (h.blocks j hj hne)

theorem declare (h : t.Sound) : t.Grows (t.declare name x) where
  path := path_declare
  floor := floor_declare
  horizons := horizons_declare
  size := Nat.le_of_eq size_declare.symm
  count := by rw [count_declare h]; exact Nat.le_succ _
  blocks j _ hne := by
    obtain ⟨i, rest, hpath, -⟩ := h.inner
    rw [block_declare h hpath, if_neg]
    rintro rfl
    exact hne (by rw [hpath, List.head?_cons])

/-- Leaving a block leads back to the place before it. -/
theorem closeBlock (hs : t.openBlock.Grows t') : t.Grows t'.closeBlock where
  path := congrArg List.tail hs.path
  floor := hs.floor
  horizons := hs.horizons
  size := by
    have hsize := hs.size
    rw [openBlock, Array.size_push] at hsize
    exact Nat.le_of_succ_le hsize
  count := hs.count
  blocks j hj _ := by
    have hblock := hs.blocks j (Nat.lt_of_lt_of_le hj (by simp [openBlock]))
      (by simp [openBlock, Nat.ne_of_gt hj])
    exact hblock.trans (block_push rfl j)

end Grows

/-- Leaving a block restores what was seen. -/
theorem scopes_closeBlock (h : t.Sound) (hs : t.openBlock.Grows t') :
    t'.closeBlock.scopes = t.scopes := by
  have hpath : t'.closeBlock.path = t.path := congrArg List.tail hs.path
  rw [scopes, scopes, hpath]
  refine List.map_congr_left fun j hj => ?_
  have hlt := h.path.lt j hj
  have hblock : t'.block j = t.block j := (hs.blocks j (Nat.lt_of_lt_of_le hlt (by simp [openBlock]))
    (by simp [openBlock, Nat.ne_of_gt hlt])).trans (block_push rfl j)
  show (t'.block j).shown (t'.closeBlock.sees j) = (t.block j).shown (t.sees j)
  rw [hblock]
  congr 1
  funext number
  rw [sees, sees]
  show (decide (t'.floor ≤ j) || Horizon.allows t'.horizons j number) = _
  rw [hs.floor, hs.horizons]
  rfl

theorem scopes_tail : t.closeBlock.scopes = t.scopes.tail := List.map_tail ..

theorem sound_closeBlock (h : t.Sound) (hs : t.openBlock.Grows t') (hs' : t'.Sound) :
    t'.closeBlock.Sound where
  path := ⟨by
      have hpath : t'.closeBlock.path = t.path := congrArg List.tail hs.path
      exact hpath ▸ h.path.sorted,
    fun j hj => hs'.path.lt j (List.mem_of_mem_tail hj)⟩
  inner := by
    obtain ⟨i, rest, hpath, hle⟩ := h.inner
    exact ⟨i, rest, (congrArg List.tail hs.path).trans hpath, (hs.floor ▸ hle : t'.floor ≤ i)⟩
  nodup := hs'.nodup
  numbered := hs'.numbered

/-! ## Bodies -/

theorem sound_enterBody (h : t.Sound) (hpath : t.Path path) : (t.enterBody path horizons).Sound where
  path := hpath.push rfl
  inner := ⟨_, _, rfl, Nat.le_refl _⟩
  nodup j := by rw [block_push rfl]; exact h.nodup j
  numbered j := by rw [block_push rfl]; exact h.numbered j

/-- A body sees its own block, and of those around it what its horizons allow. -/
theorem scopes_enterBody (hpath : t.Path path) :
    (t.enterBody path horizons).scopes = [] :: t.seenFrom path horizons := by
  have hblock (j : Nat) : (t.enterBody path horizons).block j = t.block j := block_push rfl j
  have hshown : ∀ j ∈ path, (t.enterBody path horizons).shown j =
      (t.block j).shown (Horizon.allows horizons j) := fun j hj => by
    rw [shown, hblock]
    congr 1
    exact funext fun _ => sees_of_lt_floor (hpath.lt j hj)
  show (t.enterBody path horizons).shown t.blocks.size ::
    path.map (t.enterBody path horizons).shown = _
  rw [List.map_congr_left hshown, shown, hblock, block_size]
  rfl

theorem Grows.size_le_of_enterBody (hs : (t.enterBody path horizons).Grows t') :
    t.blocks.size ≤ t'.blocks.size := by
  have hsize := hs.size
  rw [enterBody, Array.size_push] at hsize
  exact Nat.le_of_succ_le hsize

/-- Compiling a body leaves the blocks around it as they are. -/
theorem Grows.block_of_enterBody (hs : (t.enterBody path horizons).Grows t') {j : Nat}
    (hj : j < t.blocks.size) : t'.block j = t.block j :=
  (hs.blocks j (by simp [enterBody, Nat.lt_succ_of_lt hj])
    (by simp [enterBody, Nat.ne_of_gt hj])).trans (block_push rfl j)

/-- The place from which a body was entered. -/
theorem sound_returnTo (h : t.Sound) (h' : t'.Sound) (hs : (t.enterBody path horizons).Grows t') :
    (t'.returnTo t).Sound where
  path := ⟨h.path.sorted, fun j hj => Nat.lt_of_lt_of_le (h.path.lt j hj) hs.size_le_of_enterBody⟩
  inner := h.inner
  nodup := h'.nodup
  numbered := h'.numbered

/-- Behind a body, all is seen that was seen before it. -/
theorem scopes_returnTo (h : t.Sound) (hs : (t.enterBody path horizons).Grows t') :
    (t'.returnTo t).scopes = t.scopes :=
  List.map_congr_left fun j hj => by
    show (t'.block j).shown (t.sees j) = (t.block j).shown (t.sees j)
    rw [hs.block_of_enterBody (h.path.lt j hj)]

/-! ## Bodies that wait -/

theorem Path.mono (h : t.Path path) (hsize : t.blocks.size ≤ t'.blocks.size) : t'.Path path :=
  ⟨h.sorted, fun i hi => Nat.lt_of_lt_of_le (h.lt i hi) hsize⟩

theorem seenFrom_congr (h : ∀ i ∈ path, t'.block i = t.block i) :
    t'.seenFrom path horizons = t.seenFrom path horizons :=
  List.map_congr_left fun i hi => by rw [h i hi]

/-- The blocks of a path that can still change are under horizons that no new declaration passes. -/
def Covers (t : NameTable) (path : List Nat) (horizons : List Horizon) : Prop :=
  ∀ i ∈ path, t.floor ≤ i → ∀ number, t.count < number → Horizon.allows horizons i number = false

/-- A declaration is not seen from a literal that stands before it. -/
theorem seenFrom_declare (h : t.Sound) (hcovers : t.Covers path horizons) :
    (t.declare name x).seenFrom path horizons = t.seenFrom path horizons := by
  obtain ⟨i, rest, hpath, hle⟩ := h.inner
  refine List.map_congr_left fun j hj => ?_
  rw [block_declare h hpath]
  split
  · subst j
    rw [Block.shown_cons, if_neg (by simp [hcovers i hj hle])]
  · rfl

/-- Without horizons, all of a block is seen. -/
theorem allows_nil {number : Nat} : Horizon.allows [] i number = true := rfl

/-- In the outermost block of the main body, all of it is seen. -/
theorem seenFrom_outermost (hpath : t.path = [0]) (hfloor : t.floor = 0) :
    t.seenFrom [0] [] = t.scopes := by
  rw [scopes, hpath]
  refine List.map_congr_left fun i _ => Block.shown_congr fun e _ => ?_
  rw [allows_nil, sees_of_floor_le (hfloor ▸ Nat.zero_le i)]

theorem Covers.mono (h : t.Covers path horizons) (hfloor : t'.floor = t.floor)
    (hcount : t.count ≤ t'.count) : t'.Covers path horizons :=
  fun i hi hle number hlt => h i hi (hfloor ▸ hle) number (Nat.lt_of_le_of_lt hcount hlt)

/-- No block around a body changes while it is compiled. -/
theorem Path.covers_enterBody {path' : List Nat} {horizons' : List Horizon} (h : t.Path path) :
    (t.enterBody path' horizons').Covers path horizons :=
  fun i hi hle => absurd (h.lt i hi) (Nat.not_lt.2 hle)

/-- The horizons of a literal cover all that is around it in its body. -/
theorem covers_horizonsHere : t.Covers path t.horizonsHere := by
  intro i _ hle number hlt
  rw [Horizon.allows, horizonsHere, List.reverse_concat]
  simp only [List.find?_cons, decide_eq_true hle]
  exact decide_eq_false (Nat.not_le.2 hlt)

/-- At first, a literal sees what its place sees. -/
theorem seenFrom_horizonsHere (h : t.Sound) : t.seenFrom t.path t.horizonsHere = t.scopes := by
  refine List.map_congr_left fun i _ => Block.shown_congr fun e he => ?_
  rw [Horizon.allows, horizonsHere, List.reverse_concat]
  by_cases hle : t.floor ≤ i
  · simp only [List.find?_cons, decide_eq_true hle, sees_of_floor_le hle]
    exact decide_eq_true (h.numbered i e he)
  · simp only [List.find?_cons, decide_eq_false hle]
    rw [sees, decide_eq_false hle, Bool.false_or, Horizon.allows]

end NameTable

/-- What the place sees that the compiler is at. -/
def CompileState.scopes (s : CompileState) : Scopes := s.names.scopes

end StackScript
