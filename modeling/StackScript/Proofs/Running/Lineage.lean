import StackScript.Proofs.Translation.Files
import StackScript.Proofs.Running.Linking

/-!
# Where frames come from

The frame of an activation names the frame that its function was made in, so the frames around it
are activations of the functions around it in the source (`Store.Lineage`): one for every level of
nesting, and at the end the frame of a main body. A walk of `n` levels ends in the frame of the `n`th
function out (`Store.Lineage.ancestor`), a walk to the root in the main frame (`Store.Lineage.root`).
A store that grows keeps all that (`Store.Grows`).
-/

namespace StackScript

namespace Store

/-- Frames stay what they are but for the values in their slots, and no cell is lost. -/
structure Grows (s s' : Store) : Prop where
  frames : ∀ (f : Nat) (frame : Frame), s.frames[f]? = some frame → ∃ frame', s'.frames[f]? = some frame' ∧
    frame'.func = frame.func ∧ frame'.parent = frame.parent ∧ frame'.base = frame.base ∧
      frame'.vars.size = frame.vars.size
  cells : s.cells.size ≤ s'.cells.size

/-- The frame belongs to an activation of the first of the functions, made in a frame of the next one
and so on; the last one was made in the main body. -/
inductive Lineage (s : Store) : Nat → List Nat → Prop
  | main {f : Nat} {frame : Frame} (h : s.frames[f]? = some frame) (hfunc : frame.func = none)
    (hparent : frame.parent = none) : Lineage s f []
  | func {f parent id : Nat} {ids : List Nat} {frame : Frame} (h : s.frames[f]? = some frame)
    (hfunc : frame.func = some id) (hparent : frame.parent = some parent) (holder : parent < f)
    (hids : Lineage s parent ids) : Lineage s f (id :: ids)

variable {s s' s'' : Store} {f : Nat} {ids : List Nat} {frame : Frame}

namespace Grows

theorem refl (s : Store) : s.Grows s := ⟨fun _ frame h => ⟨frame, h, rfl, rfl, rfl, rfl⟩, Nat.le_refl _⟩

theorem trans (h : s.Grows s') (h' : s'.Grows s'') : s.Grows s'' where
  frames f frame hf := by
    obtain ⟨frame', hf', hfunc, hparent, hbase, hsize⟩ := h.frames f frame hf
    obtain ⟨frame'', hf'', hfunc', hparent', hbase', hsize'⟩ := h'.frames f frame' hf'
    exact ⟨frame'', hf'', hfunc'.trans hfunc, hparent'.trans hparent, hbase'.trans hbase,
      hsize'.trans hsize⟩
  cells := Nat.le_trans h.cells h'.cells

/-- Only the part of a store that is no frame and no cell is different. -/
theorem of_eq (hframes : s'.frames = s.frames) (hcells : s'.cells = s.cells) : s.Grows s' :=
  ⟨fun f frame h => ⟨frame, hframes ▸ h, rfl, rfl, rfl, rfl⟩, Nat.le_of_eq (by rw [hcells])⟩

theorem size_le (h : s.Grows s') : s.frames.size ≤ s'.frames.size := by
  by_contra hlt
  obtain ⟨_, hlast, -⟩ := h.frames (s.frames.size - 1) _ (Array.getElem?_eq_getElem (by omega))
  have := Extends.lt_of_getElem? hlast
  omega

/-- What can be read stays so. -/
theorem load (h : s.Grows s') {p : Place} (hp : (s.load? p).isSome) : (s'.load? p).isSome := by
  cases p with
  | cell i =>
    obtain ⟨v, hv⟩ := Option.isSome_iff_exists.1 hp
    have hlt := Nat.lt_of_lt_of_le (Extends.lt_of_getElem? hv) h.cells
    exact Option.isSome_iff_exists.2 ⟨_, Array.getElem?_eq_getElem hlt⟩
  | slot f i =>
    obtain ⟨v, hv⟩ := Option.isSome_iff_exists.1 hp
    obtain ⟨frame, hframe, hv⟩ := Option.bind_eq_some_iff.1 hv
    obtain ⟨frame', hframe', -, -, -, hsize⟩ := h.frames f frame hframe
    have hlt : i < frame'.vars.size := hsize ▸ Extends.lt_of_getElem? hv
    rw [load?, hframe', Option.bind_some, Array.getElem?_eq_getElem hlt]
    rfl

theorem push (s : Store) (frame : Frame) : s.Grows { s with frames := s.frames.push frame } where
  frames f old h := ⟨old, by
    show (s.frames.push frame)[f]? = some old
    rw [Array.getElem?_push, if_neg (Nat.ne_of_lt (Extends.lt_of_getElem? h)), h], rfl, rfl, rfl, rfl⟩
  cells := Nat.le_refl _

/-- A value that is written changes no frame but in a slot. -/
theorem store {v : Value} {p : Place} (h : s.store? v p = some s') : s.Grows s' := by
  cases p with
  | cell i =>
    rw [store?] at h
    split at h <;> cases h
    exact ⟨fun _ frame h => ⟨frame, h, rfl, rfl, rfl, rfl⟩, by simp⟩
  | slot g i =>
    rw [store?] at h
    split at h
    · split at h <;> cases h
      refine ⟨fun f frame hf => ?_, Nat.le_refl _⟩
      show ∃ frame', (s.frames.modify g _)[f]? = some frame' ∧ _
      rw [Array.getElem?_modify, hf, Option.map_some]
      split
      · exact ⟨_, rfl, rfl, rfl, rfl, Array.size_setIfInBounds⟩
      · exact ⟨frame, rfl, rfl, rfl, rfl, rfl⟩
    · cases h

end Grows

namespace Lineage

theorem mono (h : s.Lineage f ids) (hs : s.Grows s') : s'.Lineage f ids := by
  induction h with
  | main h hfunc hparent =>
    obtain ⟨frame', h', hfunc', hparent', -⟩ := hs.frames _ _ h
    exact .main h' (hfunc'.trans hfunc) (hparent'.trans hparent)
  | func h hfunc hparent holder _ ih =>
    obtain ⟨frame', h', hfunc', hparent', -⟩ := hs.frames _ _ h
    exact .func h' (hfunc'.trans hfunc) (hparent'.trans hparent) holder ih

theorem func_eq (h : s.Lineage f ids) : ∃ frame, s.frames[f]? = some frame ∧ frame.func = ids.head? := by
  cases h with
  | main h hfunc => exact ⟨_, h, hfunc⟩
  | func h hfunc => exact ⟨_, h, hfunc⟩

theorem lt (h : s.Lineage f ids) : f < s.frames.size := by
  obtain ⟨frame, hframe, -⟩ := h.func_eq
  exact Extends.lt_of_getElem? hframe

/-- The frame some levels out is that of the function as many levels out. -/
theorem ancestor (h : s.Lineage f ids) {n : Nat} (hn : n ≤ ids.length) :
    ∃ g, s.ancestor? f n = some g ∧ s.Lineage g (ids.drop n) := by
  induction n generalizing f ids with
  | zero => exact ⟨f, rfl, h⟩
  | succ n ih =>
    cases h with
    | main => cases hn
    | func h hfunc hparent _ hids =>
      obtain ⟨g, hg, hlineage⟩ := ih hids (Nat.le_of_succ_le_succ hn)
      refine ⟨g, ?_, hlineage⟩
      rw [ancestor?, h, Option.bind_some, hparent, Option.bind_some, hg]

/-- The outermost frame is that of a main body. -/
theorem root (h : s.Lineage f ids) : s.Lineage (s.root f) [] := by
  induction h with
  | main h hfunc hparent =>
    rw [Store.root, h, Option.bind_some, hparent]
    exact .main h hfunc hparent
  | func h _ hparent holder _ ih =>
    rw [Store.root, h, Option.bind_some, hparent]
    dsimp only
    rwa [if_pos holder]

/-- The outermost frame lies as many levels out as there are functions. -/
theorem ancestor_root (h : s.Lineage f ids) : s.ancestor? f ids.length = some (s.root f) := by
  induction h with
  | main h _ hparent => rw [Store.root, h, Option.bind_some, hparent, List.length_nil, ancestor?]
  | func h _ hparent holder _ ih =>
    rw [Store.root, h, Option.bind_some, hparent, List.length_cons, ancestor?, h, Option.bind_some,
      hparent, Option.bind_some]
    dsimp only
    rwa [if_pos holder]

/-- A new frame of a function. -/
theorem push {id parent base : Nat} {vars : Array Value} (h : s.Lineage parent ids) :
    Lineage { s with frames := s.frames.push ⟨some id, some parent, base, vars⟩ } s.frames.size (id :: ids) :=
  .func (Array.getElem?_push_size ..) rfl rfl h.lt (h.mono (.push s _))

end Lineage

end Store

/-! ## Variables of frames -/

/-- The variables of the frames of a function, or of the main body. -/
def Program.frameVars (p : Program) : Option Nat → Array Nat
  | some id => (p.funcs[id]?.map (·.vars)).getD #[]
  | none => p.mainVars

/-- A frame has a slot for each variable. -/
def Frame.Sized (p : Program) (frame : Frame) : Prop := frame.vars.size = (p.frameVars frame.func).size

variable {o : Output} {S : Site} {s : Store}

/-- The walk that an instruction takes from a frame leads some levels out, to the frame of the
function that has the variable. -/
theorem VarAt.finds {name : String} {id index ctx : Nat} {v : Var} {scope : Scope}
    (h : VarAt S name id v scope index) (hctx : s.Lineage ctx S.chain)
    (hsized : ∀ frame ∈ s.frames, frame.Sized S.program) : ∃ g n frame,
      (match scope with
        | .up n => s.ancestor? ctx n = some g
        | .global => s.root ctx = g) ∧
      s.ancestor? ctx n = some g ∧ s.frames[g]? = some frame ∧ frame.func = S.chain[n]? ∧
      (S.program.frameVars frame.func)[index]? = some id ∧ index < frame.vars.size := by
  have found {g : Nat} {ids : List Nat} (hg : s.Lineage g ids)
      (hslot : (S.program.frameVars ids.head?)[index]? = some id) : ∃ frame,
      s.frames[g]? = some frame ∧ frame.func = ids.head? ∧
        (S.program.frameVars frame.func)[index]? = some id ∧ index < frame.vars.size := by
    obtain ⟨frame, hframe, hfunc⟩ := hg.func_eq
    rw [← hfunc] at hslot
    refine ⟨frame, hframe, hfunc, hslot, ?_⟩
    rw [hsized frame (Array.mem_of_getElem? hframe)]
    exact Extends.lt_of_getElem? hslot
  have hslot := h.slot
  cases scope with
  | global =>
    obtain ⟨frame, hframe, hfunc, hfound⟩ := found hctx.root hslot
    exact ⟨_, S.chain.length, frame, rfl, hctx.ancestor_root, hframe,
      hfunc.trans (List.getElem?_eq_none (Nat.le_refl _)).symm, hfound⟩
  | up n =>
    obtain ⟨info, hinfo, hslot⟩ := Option.bind_eq_some_iff.1 hslot
    obtain ⟨func, hfunc, hinfo⟩ := Option.bind_eq_some_iff.1 hinfo
    obtain ⟨g, hg, hlineage⟩ := hctx.ancestor (n := n)
      (Nat.le_of_lt (List.getElem?_eq_some_iff.1 hfunc).1)
    obtain ⟨frame, hframe, hhead, hfound⟩ := found hlineage (by
      rw [List.head?_drop, hfunc, Program.frameVars, hinfo, Option.map_some, Option.getD_some]
      exact hslot)
    exact ⟨g, n, frame, hg, hg, hframe, hhead.trans List.head?_drop, hfound⟩

end StackScript
