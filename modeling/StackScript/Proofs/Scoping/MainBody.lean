import StackScript.Proofs.Scoping.Declaring

/-!
# The variables of the main body

The frame of the main body holds what its definitions declare, those in blocks included. A variable
knows whether it lies in a block, so the others are the ones that definitions directly in the main body
declare: one for each name (`Mains`). Every statement of the main body keeps it so, at whatever depth of
blocks (`Compile.declares_emitStmt`), for the outermost block declares no name twice.
-/

namespace StackScript

/-! ## Frames of the main body -/

/-- The name under which the host finds a variable of the main body: those in blocks have none. -/
def Var.hostName? (v : Var) : Option String :=
  match v.name with
  | .named name => if v.block then none else some name
  | .positional _ => none

theorem Var.hostName?_new (name : String) (ty : Ty) (block : Bool) :
    (Var.new (.named name) ty block).hostName? = if block then none else some name := rfl

/-- The variable at a place of the frame of the main body. -/
def IsMain (vars : Array Var) (mainVars : Array Nat) (i : Nat) (v : Var) : Prop :=
  ∃ id, mainVars[i]? = some id ∧ vars[id]? = some v

/-- The variables of the main body have their places as slots, and those outside of blocks have the given
names, each name one of them. -/
structure Mains (vars : Array Var) (mainVars : Array Nat) (names : List String) : Prop where
  few : mainVars.size ≤ Word.slotRange
  placed : ∀ (i id : Nat), mainVars[i]? = some id →
    ∃ v : Var, vars[id]? = some v ∧ v.addr = some ⟨0, i⟩
  named : ∀ name, name ∈ names ↔ ∃ i v, IsMain vars mainVars i v ∧ v.hostName? = some name
  unique : ∀ {i j : Nat} {v w : Var} {name : String}, IsMain vars mainVars i v →
    IsMain vars mainVars j w → v.hostName? = some name → w.hostName? = some name → i = j

namespace Mains

variable {vars vars' : Array Var} {mainVars : Array Nat} {names : List String} {i : Nat} {v : Var}

theorem empty : Mains vars #[] [] where
  few := Nat.zero_le _
  placed i id hid := by cases hid
  named name := ⟨fun h => (by cases h), fun ⟨i, v, ⟨id, hid, _⟩, _⟩ => (by cases hid)⟩
  unique := fun ⟨_, hid, _⟩ => by cases hid

theorem addr (h : Mains vars mainVars names) (hv : IsMain vars mainVars i v) : v.addr = some ⟨0, i⟩ := by
  obtain ⟨id, hid, hv⟩ := hv
  obtain ⟨v', hv', haddr⟩ := h.placed i id hid
  cases hv.symm.trans hv'
  exact haddr

theorem isMain_extends (h : Mains vars mainVars names) (hvars : Extends vars vars') :
    IsMain vars' mainVars i v ↔ IsMain vars mainVars i v := by
  refine ⟨fun ⟨id, hid, hv⟩ => ?_, fun ⟨id, hid, hv⟩ => ⟨id, hid, hvars _ _ hv⟩⟩
  obtain ⟨v', hv', -⟩ := h.placed i id hid
  cases hv.symm.trans (hvars _ _ hv')
  exact ⟨id, hid, hv'⟩

/-- Variables that are made later belong to other frames. -/
theorem mono (h : Mains vars mainVars names) (hvars : Extends vars vars') :
    Mains vars' mainVars names where
  few := h.few
  placed i id hid := by
    obtain ⟨v, hv, haddr⟩ := h.placed i id hid
    exact ⟨v, hvars _ _ hv, haddr⟩
  named name := by
    simp only [h.isMain_extends hvars]
    exact h.named name
  unique hi hj := h.unique ((h.isMain_extends hvars).1 hi) ((h.isMain_extends hvars).1 hj)

/-- The place that a new variable gets is the next one. -/
theorem isMain_push (h : Mains vars mainVars names) {w : Var} :
    IsMain (vars.push w) (mainVars.push vars.size) i v ↔
      IsMain vars mainVars i v ∨ i = mainVars.size ∧ v = w := by
  constructor
  · rintro ⟨id, hid, hv⟩
    rw [Array.getElem?_push] at hid
    split at hid
    · cases hid
      rw [Array.getElem?_push_size] at hv
      exact .inr ⟨‹_›, (Option.some.inj hv).symm⟩
    · obtain ⟨v', hv', -⟩ := h.placed i id hid
      cases hv.symm.trans (Extends.push _ _ _ _ hv')
      exact .inl ⟨id, hid, hv'⟩
  · rintro (⟨id, hid, hv⟩ | ⟨rfl, rfl⟩)
    · exact ⟨id, Extends.push _ _ _ _ hid, Extends.push _ _ _ _ hv⟩
    · exact ⟨vars.size, Array.getElem?_push_size, Array.getElem?_push_size⟩

/-- A variable comes to the end of the frame, under a name that is new unless it lies in a block. -/
theorem push (h : Mains vars mainVars names) {w : Var}
    (hslot : Assembly.narrow mainVars.size < Word.slotRange)
    (hfresh : ∀ name, w.hostName? = some name → name ∉ names) :
    Mains (vars.push (w.placed 0 mainVars.size)) (mainVars.push vars.size)
      (names ++ w.hostName?.toList) := by
  have hnarrow : Assembly.narrow mainVars.size = mainVars.size :=
    Nat.mod_eq_of_lt (Nat.lt_of_le_of_lt h.few (by decide))
  have hname : (w.placed 0 mainVars.size).hostName? = w.hostName? := rfl
  -- No variable so far has the name of the new one.
  have hapart {i : Nat} {v : Var} {name : String} (hv : IsMain vars mainVars i v)
      (hv' : v.hostName? = some name) : w.hostName? ≠ some name :=
    fun hw => hfresh name hw ((h.named name).2 ⟨i, v, hv, hv'⟩)
  refine ⟨?_, fun i id hid => ?_, fun name => ?_, fun hi hj hv hw => ?_⟩
  · rw [Array.size_push]
    exact hnarrow ▸ hslot
  · rw [Array.getElem?_push] at hid
    split at hid
    · cases hid
      refine ⟨_, Array.getElem?_push_size, ?_⟩
      show some (VarAddr.mk 0 (Assembly.narrow mainVars.size)) = some ⟨0, i⟩
      rw [hnarrow, ‹i = _›]
    · obtain ⟨v, hv, haddr⟩ := h.placed i id hid
      exact ⟨v, Extends.push _ _ _ _ hv, haddr⟩
  · rw [List.mem_append, h.named, Option.mem_toList]
    constructor
    · rintro (⟨i, v, hv, hv'⟩ | hw)
      · exact ⟨i, v, h.isMain_push.2 (.inl hv), hv'⟩
      · exact ⟨_, _, h.isMain_push.2 (.inr ⟨rfl, rfl⟩), hw⟩
    · rintro ⟨i, v, hv, hv'⟩
      obtain hv | ⟨rfl, rfl⟩ := h.isMain_push.1 hv
      · exact .inl ⟨i, v, hv, hv'⟩
      · exact .inr hv'
  · obtain hi | ⟨rfl, rfl⟩ := h.isMain_push.1 hi <;> obtain hj | ⟨rfl, rfl⟩ := h.isMain_push.1 hj
    · exact h.unique hi hj hv hw
    · exact absurd hw (hapart hi hv)
    · exact absurd hv (hapart hj hw)
    · rfl

end Mains

/-! ## Finding a variable -/

namespace Program

variable {p : Program} {names : List String} {name : String}

/-- The search ends at the first variable with the name, or finds that there is none. -/
theorem findGlobal_spec (name : String) {ids : List Nat} (h : ∀ id ∈ ids, ∃ v, p.vars[id]? = some v) :
    (p.findGlobal name ids = .ok none ∧
      ∀ id ∈ ids, ∀ v, p.vars[id]? = some v → v.hostName? ≠ some name) ∨
    ∃ id ∈ ids, ∃ v, p.vars[id]? = some v ∧ v.hostName? = some name ∧
      p.findGlobal name ids = .ok (some v) := by
  induction ids with
  | nil => exact .inl ⟨rfl, fun id hid => by cases hid⟩
  | cons id ids ih =>
    obtain ⟨v, hv⟩ := h id List.mem_cons_self
    have hvar : p.var id = .ok v := by rw [Program.var, hv]
    have hfind : p.findGlobal name (id :: ids) =
        if v.hostName? = some name then .ok (some v) else p.findGlobal name ids := by
      have hname : (!v.block && v.name == .named name) = decide (v.hostName? = some name) := by
        obtain ⟨name' | i, ty, addr, block⟩ := v
        · have hsame : (VarName.named name' == .named name) = decide (name' = name) := by
            rw [beq_eq_decide]
            exact decide_eq_decide.2 ⟨VarName.named.inj, congrArg _⟩
          cases block <;> simp [Var.hostName?, hsame]
        · cases block <;> simp [Var.hostName?]
      rw [findGlobal, hvar]
      show (if (!v.block && v.name == .named name) = true then _ else _) = _
      simp only [hname, decide_eq_true_eq]
      rfl
    rw [hfind]
    split
    · exact .inr ⟨id, List.mem_cons_self, v, hv, ‹_›, rfl⟩
    · obtain ⟨hnone, hall⟩ | ⟨id', hid', hrest⟩ :=
        ih fun id' hid' => h id' (List.mem_cons_of_mem id hid')
      · refine .inl ⟨hnone, fun id' hid' v' hv' => ?_⟩
        obtain rfl | hid' := List.mem_cons.1 hid'
        · cases hv.symm.trans hv'
          assumption
        · exact hall id' hid' v' hv'
      · exact .inr ⟨id', List.mem_cons_of_mem id hid', hrest⟩

/-- The host finds a variable under a name if it is one of the names, and then that one. -/
theorem global?_of_mains (h : Mains p.vars p.mainVars names) (name : String) :
    (name ∉ names ∧ p.global? name = .ok none) ∨
    ∃ i v, name ∈ names ∧ p.global? name = .ok (some v) ∧ IsMain p.vars p.mainVars i v ∧
      v.hostName? = some name := by
  obtain ⟨hnone, hall⟩ | ⟨id, hid, v, hv, hname, hsome⟩ :=
    findGlobal_spec name fun id (hid : id ∈ p.mainVars.toList) => by
      obtain ⟨i, hi⟩ := Array.mem_iff_getElem?.1 (Array.mem_toList_iff.1 hid)
      obtain ⟨v, hv, -⟩ := h.placed i id hi
      exact ⟨v, hv⟩
  · refine .inl ⟨fun hmem => ?_, hnone⟩
    obtain ⟨i, v, ⟨id, hid, hv⟩, hname⟩ := (h.named name).1 hmem
    exact hall id (Array.mem_toList_iff.2 (Array.mem_of_getElem? hid)) v hv hname
  · obtain ⟨i, hi⟩ := Array.mem_iff_getElem?.1 (Array.mem_toList_iff.1 hid)
    exact .inr ⟨i, v, (h.named name).2 ⟨i, v, ⟨id, hi, hv⟩, hname⟩, hsome, ⟨id, hi, hv⟩, hname⟩

end Program

/-! ## Statements of the main body -/

/-- The names that definitions directly in a body declare; those in its blocks are left out. -/
def definedIn (ss : List Stmt) : List String := ss.flatMap Stmt.defined

/-- The main body is compiled, and outside of its blocks it has declared the given names. -/
structure CompileState.Declares (s : CompileState) (names : List String) : Prop where
  main : s.body.func = none
  sound : s.names.Sound
  floor : s.names.floor = 0
  mains : Mains s.asm.vars s.asm.mainVars names
  declared : ∀ name ∈ names, name ∈ (s.names.block 0).map (·.1)

/-- What is declared, and after it some names that are declared where the compiler is. -/
def NameTable.outermost (t : NameTable) (names : List String) : List String :=
  if t.inInner then [] else names

namespace NameTable

variable {t t' : NameTable} {names names' : List String}

theorem outermost_nil : t.outermost [] = [] := by
  unfold outermost
  split <;> rfl

theorem outermost_append : t.outermost (names ++ names') = t.outermost names ++ t.outermost names' := by
  unfold outermost
  split <;> rfl

theorem Grows.outermost_eq (h : t.Grows t') : t'.outermost names = t.outermost names := by
  unfold outermost inInner
  rw [h.path, h.floor]

/-- What a block within the main body declares is in that block. -/
theorem outermost_openBlock (h : t.Sound) (hfloor : t.floor = 0) :
    t.openBlock.outermost names = [] := by
  obtain ⟨i, rest, hpath, -⟩ := h.inner
  have hlt := h.path.lt i (hpath ▸ List.mem_cons_self)
  have hinner : t.openBlock.inInner = true := by
    simp only [inInner, openBlock, List.head?_cons, hfloor, bne_iff_ne, ne_eq, Option.some.injEq]
    omega
  rw [outermost, if_pos hinner]

end NameTable

namespace CompileState.Declares

variable {s s' : CompileState} {names names' : List String} {ls : List Literal.Func} {name : String}

theorem enters (h : s.Declares names) (hs : s.Enters ls s') : s'.Declares names where
  main := hs.body ▸ h.main
  sound := hs.names ▸ h.sound
  floor := hs.names ▸ h.floor
  mains := by
    rw [hs.vars, hs.mainVars]
    exact h.mains
  declared := by
    rw [hs.names]
    exact h.declared

/-- A name of the outermost block is new there; one of an inner block adds none. -/
theorem declare {x : Symbol} (h : s.Declares names) (hfresh : s.names.declares name = false)
    (hnames : s'.names = s.names.declare name x) (hvars : s.AddsVar name s')
    (hslot : s.body.func = none → Assembly.narrow s.asm.mainVars.size < Word.slotRange)
    (hbody : s'.body = s.body) : s'.Declares (names ++ s.names.outermost [name]) := by
  obtain ⟨i, rest, hpath, -⟩ := h.sound.inner
  have hinner : s.names.inInner = true ↔ i ≠ 0 := by
    rw [NameTable.inInner, hpath, List.head?_cons, h.floor, bne_iff_ne]
    exact not_congr ⟨Option.some.inj, fun h => by rw [h]⟩
  have hblock (j : Nat) : (s.names.declare name x).block j =
      if j = i then (name, x, s.names.count + 1) :: s.names.block j else s.names.block j :=
    NameTable.block_declare h.sound hpath j
  obtain ⟨ty, hpush⟩ := hvars.vars h.main
  have hname : (Var.new (.named name) ty s.names.inInner).hostName?.toList =
      s.names.outermost [name] := by
    rw [Var.hostName?_new, NameTable.outermost]
    split <;> rfl
  refine ⟨hbody ▸ h.main, hnames ▸ NameTable.sound_declare h.sound hfresh,
    hnames ▸ NameTable.floor_declare.trans h.floor, ?_, fun name' hname' => ?_⟩
  · rw [hpush, hvars.mainVars h.main, ← hname]
    refine h.mains.push (hslot h.main) fun name' hname' hmem => ?_
    rw [Var.hostName?_new] at hname'
    split at hname'
    · cases hname'
    · have hzero : i = 0 := not_not.1 (mt hinner.2 ‹_›)
      have hdeclares := (NameTable.mem_names_of_declares hpath).2 (hzero ▸ h.declared name' hmem)
      rw [← Option.some.inj hname', hfresh] at hdeclares
      cases hdeclares
  · rw [hnames, hblock]
    obtain hmem | hmem := List.mem_append.1 hname'
    · split
      · exact List.mem_cons_of_mem _ (h.declared name' hmem)
      · exact h.declared name' hmem
    · rw [NameTable.outermost] at hmem
      split at hmem
      · cases hmem
      · have hzero : i = 0 := not_not.1 (mt hinner.2 ‹_›)
        rw [if_pos hzero.symm, List.map_cons, List.mem_singleton.1 hmem]
        exact List.mem_cons_self

theorem defines (h : s.Declares names) (hd : s.Defines names' s') :
    s'.Declares (names ++ s.names.outermost names') ∧ s.names.Grows s'.names := by
  induction hd generalizing names with
  | nil hs =>
    rw [NameTable.outermost_nil, List.append_nil]
    exact ⟨h.enters hs, hs.names ▸ .refl _⟩
  | @cons name names' s s₁ s₂ s' hs hfresh hnames hvars hslot _ hbody _ ih =>
    have h₁ := h.enters hs
    have hgrows₂ : s.names.Grows s₂.names := by
      rw [hnames, hs.names]
      exact .declare h.sound
    obtain ⟨h', hgrows⟩ := ih (h₁.declare hfresh hnames hvars hslot hbody)
    refine ⟨?_, hgrows₂.trans hgrows⟩
    rw [List.append_assoc, hgrows₂.outermost_eq, hs.names, ← NameTable.outermost_append,
      List.singleton_append] at h'
    exact h'

theorem openBlock (h : s.Declares names) : (s.withNames s.names.openBlock).Declares names where
  main := h.main
  sound := NameTable.sound_openBlock h.sound
  floor := h.floor
  mains := h.mains
  declared name hname := by
    show name ∈ (s.names.openBlock.block 0).map _
    rw [NameTable.block_push rfl]
    exact h.declared name hname

/-- Behind a block, all is declared that was when it ended. -/
theorem closeBlock (h : s.Declares names) (h' : s'.Declares names')
    (hs : s.names.openBlock.Grows s'.names) :
    (s'.withNames s'.names.closeBlock).Declares names' where
  main := h'.main
  sound := NameTable.sound_closeBlock h.sound hs h'.sound
  floor := h'.floor
  mains := h'.mains
  declared := h'.declared

end CompileState.Declares

namespace Compile

variable {env : CompileEnv}

mutual

/-- A statement of the main body declares what it defines, if it is in no block. -/
theorem declares_emitStmt : ∀ (st : Stmt) {s s' : CompileState} {names : List String},
    (emitStmt st env).exec s = (.ok ⟨⟩, s') → s.Declares names →
    s'.Declares (names ++ s.names.outermost st.defined) ∧ s.names.Grows s'.names
  | .block body, s, s', names, h, hs => by
    obtain ⟨_, s₁, hopen, h⟩ := exec_bind_eq_ok.1 h
    cases hopen
    obtain ⟨_, s₂, hbody, h⟩ := exec_bind_eq_ok.1 h
    cases h
    obtain ⟨h₂, hgrows⟩ := declares_emitStmts body hbody hs.openBlock
    dsimp only at h₂
    rw [NameTable.outermost_openBlock hs.sound hs.floor] at h₂
    rw [show (Stmt.block body).defined = [] from rfl, NameTable.outermost_nil]
    exact ⟨hs.closeBlock h₂ hgrows, .closeBlock hgrows⟩
  | .expr _, _, _, _, h, hs | .assign _ _ _, _, _, _, h, hs | .ret _, _, _, _, h, hs
  | .increment _, _, _, _, h, hs | .decrement _, _, _, _, h, hs => by
    obtain ⟨s₁, henters, hdefines⟩ := defines_emitStmt (fun _ hst => by cases hst) h
    obtain ⟨h', hgrows⟩ := (hs.enters henters).defines hdefines
    rw [henters.names] at h' hgrows
    exact ⟨h', hgrows⟩
termination_by structural st => st

/-- And so do several. -/
theorem declares_emitStmts : ∀ (ss : List Stmt) {s s' : CompileState} {names : List String},
    (emitStmts ss env).exec s = (.ok ⟨⟩, s') → s.Declares names →
    s'.Declares (names ++ s.names.outermost (definedIn ss)) ∧ s.names.Grows s'.names
  | [], s, s', names, h, hs => by
    cases h
    rw [definedIn, List.flatMap_nil, NameTable.outermost_nil, List.append_nil]
    exact ⟨hs, .refl _⟩
  | st :: ss, s, s', names, h, hs => by
    obtain ⟨_, s₁, hst, h⟩ := exec_bind_eq_ok.1 h
    obtain ⟨_, s₂, hrest, h⟩ := exec_bind_eq_ok.1 h
    cases eq_of_atRest hrest
    obtain ⟨h₁, hgrows₁⟩ := declares_emitStmt st hst hs
    obtain ⟨h', hgrows⟩ := declares_emitStmts ss h h₁
    rw [List.append_assoc, hgrows₁.outermost_eq, ← NameTable.outermost_append] at h'
    exact ⟨h', hgrows₁.trans hgrows⟩
termination_by structural ss => ss

end

end Compile

/-! ## Labels -/

theorem Expr.definedName?_labelled (e : Expr) (n : Nat) :
    (e.labelled n).1.definedName? = e.definedName? := by
  cases e <;> rfl

theorem filterMap_definedName?_labelExprs (es : List Expr) (n : Nat) :
    (labelExprs es n).1.filterMap Expr.definedName? = es.filterMap Expr.definedName? := by
  induction es generalizing n with
  | nil => rfl
  | cons e es ih => simp only [labelExprs, List.filterMap_cons, Expr.definedName?_labelled, ih]

/-- Labels do not matter to what is declared. -/
theorem Stmt.defined_labelled (st : Stmt) (n : Nat) : (st.labelled n).1.defined = st.defined := by
  cases st with
  | assign mode targets values =>
    cases mode with
    | define =>
      simp only [Stmt.labelled, Stmt.defined, List.filterMap_reverse,
        filterMap_definedName?_labelExprs]
    | _ => rfl
  | _ => rfl

theorem definedIn_labelStmts (ss : List Stmt) (n : Nat) :
    definedIn (labelStmts ss n).1 = definedIn ss := by
  induction ss generalizing n with
  | nil => rfl
  | cons st ss ih =>
    simp only [labelStmts, definedIn, List.flatMap_cons, Stmt.defined_labelled]
    exact congrArg _ (ih _)

end StackScript
