import StackScript.Compile.Unit
import StackScript.Proofs.Direct.Fragment
import StackScript.Proofs.Direct.Zeros
import StackScript.Proofs.Translation.Files

/-!
# Clean states

While a call-free file is compiled, no variable is of single precision, no scope holds anything but
variables and packages, and all constants in the pool share a trait that the constants of the file
have, such as having no negative zero (`Clean`). Steps of assembling, of the shadow stack and of
constants keep that, and names are looked up to variables and packages.
-/

namespace StackScript

open Direct

/-! ## Clean states -/

/-- What constants may have, and keep when they are brought to a kind. -/
structure Constant.Trait where
  holds : Constant → Prop
  bind : ∀ {c : Constant} {k : Kind} {v : Value}, c.Plain → holds c → k.Wide → c.bind k = .ok v →
    holds (.bound v)

/-- No part of the constant is a negative zero. -/
def Constant.Trait.signless : Constant.Trait where
  holds := Constant.Signless
  bind hc hs hk h := by
    obtain ⟨s, rfl, hs⟩ := hs.bind hc hk h
    exact hs

/-- The entry is a constant of the trait, or a value of no kind of single precision. -/
def Inferred.Clean (P : Constant.Trait) : Inferred → Prop
  | .const c _ => c.Plain ∧ P.holds c
  | .value t => t.kind.Wide
  | _ => False

/-- The constants in the pool have the trait, no variable is of single precision, and the main body
has at most a number of variables. -/
structure Assembly.Clean (P : Constant.Trait) (most : Nat) (a : Assembly) : Prop where
  pool : ∀ (i : Nat) (v : Value), a.consts[i]? = some v → P.holds (.bound v)
  vars : ∀ (id : Nat) (v : Var), a.vars[id]? = some v → v.ty.kind.Wide
  few : a.mainVars.size ≤ most

/-- The names in scope are those of some blocks of the main body. -/
structure NameTable.Shows (base : List (String × Symbol)) (ns : Names) (t : NameTable) : Prop where
  sound : t.Sound
  floor : t.floor = 0
  blocks : ∃ bs : Blocks, bs ≠ [] ∧ t.scopes = bs.shown base ∧ bs.names = ns

/-- The compiler is in the main body, with some names in scope. -/
structure CompileState.Clean (P : Constant.Trait) (most : Nat) (base : List (String × Symbol))
    (ns : Names) (s : CompileState) : Prop where
  asm : s.asm.Clean P most
  shadow : ∀ e ∈ s.shadow, e.Clean P
  names : s.names.Shows base ns
  body : s.body = .main

theorem Inferred.Clean.wide {P : Constant.Trait} {e : Inferred} {k : OperandKind} (h : e.Clean P)
    (hk : e.operandKind? = some k) : k.default.Wide := by
  cases e with
  | const c slot =>
    cases hk
    exact h.1.wide
  | value t =>
    cases hk
    exact h
  | _ => exact h.elim

namespace Direct

open Compile CompileState

variable {env : CompileEnv} {base : List (String × Symbol)} {ns : Names} {most : Nat}
  {P : Constant.Trait}

/-! ## Steps of assembling -/

/-- Steps that leave the constants and variables of the assembly alone. -/
theorem after_asm {α : Type} {t : Asm α} (h : ∀ a, t.Ensures a (fun _ a' =>
    a'.consts = a.consts ∧ a'.vars = a.vars ∧ a'.mainVars = a.mainVars) fun _ _ => True) :
    Keeps env (Clean P most base ns) (asm t) :=
  .asm fun s hs => (h s.asm).imp fun _ _ ⟨hconsts, hvars, hmain⟩ =>
    ⟨⟨hconsts ▸ hs.asm.pool, hvars ▸ hs.asm.vars, hmain ▸ hs.asm.few⟩, hs.shadow, hs.names,
      hs.body⟩

theorem after_word {w : Except Fault Word} :
    Keeps env (Clean P most base ns) (asm (Assembly.emitChecked w)) := by
  refine after_asm fun a => ?_
  cases w with
  | ok w => exact ⟨rfl, rfl, rfl⟩
  | error f => trivial

theorem after_reserve :
    Keeps env (Clean P most base ns) (asm Assembly.reserve) :=
  after_asm fun _ => ⟨rfl, rfl, rfl⟩

theorem after_patch {offset : Nat} {w : Word} :
    Keeps env (Clean P most base ns) (asm (Assembly.patch offset w)) := by
  refine after_asm fun a => ?_
  unfold Assembly.patch
  refine Task.ensures_bind.2 (Task.ensures_get.2 ?_)
  split
  · exact ⟨rfl, rfl, rfl⟩
  · trivial

theorem clean_push {a : Assembly} (h : a.Clean P most) {v : Value} (hv : P.holds (.bound v)) :
    Assembly.Clean P most { a with consts := a.consts.push v } where
  pool i w hw := by
    rw [Array.getElem?_push] at hw
    split at hw
    · cases hw
      exact hv
    · exact h.pool i w hw
  vars := h.vars
  few := h.few

theorem clean_poolIndex {a : Assembly} (h : a.Clean P most) {v : Value} (hv : P.holds (.bound v)) :
    (Assembly.poolIndex v).Ensures a (fun _ a' => a'.Clean P most) fun _ _ => True := by
  unfold Assembly.poolIndex
  refine Task.ensures_bind.2 (Task.ensures_get.2 ?_)
  split
  · exact h
  · exact clean_push h hv

theorem clean_valueWord {a : Assembly} (h : a.Clean P most) {v : Value} (hv : P.holds (.bound v)) :
    (Assembly.valueWord v).Ensures a (fun _ a' => a'.Clean P most) fun _ _ => True := by
  have hchecked {w : Except Fault Word} {a : Assembly} (h : a.Clean P most) :
      Task.Ensures (Task.ofChecked w : Asm Word) a (fun _ a' => a'.Clean P most) fun _ _ => True :=
    Task.ensures_ofChecked.2 ⟨fun _ _ => h, fun _ _ => trivial⟩
  have hpooled : Task.Ensures (do Task.ofChecked (Word.make .pushConst (← Assembly.poolIndex v)) :
      Asm Word) a (fun _ a' => a'.Clean P most) fun _ _ => True :=
    (clean_poolIndex h hv).bind fun _ _ h => hchecked h
  unfold Assembly.valueWord
  split
  · split
    · exact hchecked h
    · exact hpooled
  · exact hpooled

theorem after_valueWord {v : Value} (hv : P.holds (.bound v)) :
    Keeps env (Clean P most base ns) (asm (Assembly.valueWord v)) :=
  .asm fun _ hs => (clean_valueWord hs.asm hv).imp fun _ _ h => ⟨h, hs.shadow, hs.names, hs.body⟩

theorem after_pushValue {v : Value} (hv : P.holds (.bound v)) :
    Keeps env (Clean P most base ns) (asm (Assembly.pushValue v)) :=
  .asm fun _ hs => (clean_valueWord hs.asm hv).bind fun _ _ h =>
    ⟨⟨h.pool, h.vars, h.few⟩, hs.shadow, hs.names, hs.body⟩

theorem after_var {id : Nat} :
    After env (Clean P most base ns) (asm (Assembly.var id)) fun v s =>
      Clean P most base ns s ∧ v.ty.kind.Wide :=
  .asm fun _ hs => Task.ensures_bind.2 (Task.ensures_get.2 (Task.ensures_expect.2
    ⟨fun _ hv => ⟨hs, hs.asm.vars id _ hv⟩, fun _ => trivial⟩))

/-! ## The shadow stack -/

theorem after_push {e : Inferred} (he : e.Clean P) :
    Keeps env (Clean P most base ns) (push e) :=
  .modify fun _ hs => ⟨hs.asm, fun e' he' => (List.mem_cons.1 he').elim (· ▸ he) (hs.shadow e'),
    hs.names, hs.body⟩

theorem after_pop :
    After env (Clean P most base ns) pop fun e s => Clean P most base ns s ∧ e.Clean P := by
  unfold pop
  refine (After.get (Q := fun s' s => s' = s ∧ Clean P most base ns s) fun _ h => ⟨rfl, h⟩).bind
    fun s => ?_
  rintro _ ⟨rfl, hs⟩
  cases hshadow : s.shadow with
  | nil => exact trivial
  | cons e es =>
    have hall : ∀ e' ∈ e :: es, e'.Clean P := hshadow ▸ hs.shadow
    exact ⟨⟨hs.asm, fun e' he' => hall e' (by simp [he']), hs.names, hs.body⟩, hall e (by simp)⟩

theorem after_top :
    After env (Clean P most base ns) top fun e s => Clean P most base ns s ∧ e.Clean P := by
  intro s hs
  show Task.Ensures (Task.ofChecked s.shadow.top?) s _ _
  cases hshadow : s.shadow with
  | nil => exact trivial
  | cons e es => exact ⟨hs, hs.shadow e (by rw [hshadow]; simp)⟩

theorem after_replace {n : Nat} {es : List Inferred} (hes : ∀ e ∈ es, e.Clean P) :
    Keeps env (Clean P most base ns) (replace n es) := fun s hs => by
  show Task.Ensures (do
    let shadow ← Task.ofChecked (s.shadow.replace? n es)
    modify fun s => { s with shadow }) s _ _
  by_cases hle : n ≤ s.shadow.length
  · simp only [Shadow.replace?, hle, if_true]
    refine ⟨hs.asm, fun e he => ?_, hs.names, hs.body⟩
    rcases List.mem_append.1 he with he | he
    · exact hes e (List.mem_reverse.1 he)
    · exact hs.shadow e (List.mem_of_mem_drop he)
  · simp only [Shadow.replace?, hle, if_false]
    trivial

/-! ## Constants -/

theorem after_pushConstant {c : Constant} (hc : c.Plain) (hs : P.holds c) :
    Keeps env (Clean P most base ns) (pushConstant c) := by
  have hpush (slot : ConstSlot) : Keeps env (Clean P most base ns) (push (.const c slot)) :=
    after_push ⟨hc, hs⟩
  unfold pushConstant
  split
  · exact (after_pushValue hs).discard.bind fun _ => hpush _
  · exact after_reserve.bind fun _ => hpush _

theorem after_fillSlot {offset : Nat} {v : Value} (hv : P.holds (.bound v)) :
    Keeps env (Clean P most base ns) (fillSlot offset v) :=
  (after_valueWord hv).bind fun _ => after_patch

/-- A clean constant, brought to a kind, is clean. -/
theorem clean_bind {c : Constant} {k : Kind} {v : Value} (hc : c.Plain ∧ P.holds c) (hk : k.Wide)
    (h : c.bind k = .ok v) : v.Plain ∧ P.holds (.bound v) := by
  exact ⟨hc.1.bind hk h, P.bind hc.1 hc.2 hk h⟩

theorem after_coerceTop {k : Kind} (hk : k.Wide) :
    Keeps env (Clean P most base ns) (coerceTop k) := by
  unfold coerceTop
  refine after_pop.andThen fun e he => ?_
  have hconvert : After env (Clean P most base ns) (do
      asm (Assembly.convert k)
      push (.value (.basic k))) fun _ => Clean P most base ns :=
    after_word.bind fun _ => after_push hk
  split
  · refine (After.ofConstant fun v hv => clean_bind he hk hv).andThen fun v hv => ?_
    exact (after_fillSlot hv.2).bind fun _ => after_push hv
  · split
    · exact after_push he
    · split
      · exact After.fail
      · exact hconvert
  · split
    · exact after_push he
    · exact hconvert
  · exact after_push he

theorem after_bindDefaultTop :
    Keeps env (Clean P most base ns) bindDefaultTop := by
  unfold bindDefaultTop
  refine after_top.andThen fun e he => ?_
  split
  · exact after_coerceTop he.1.wide
  · exact .pure fun _ h => h

theorem after_discardTop :
    Keeps env (Clean P most base ns) discardTop := by
  unfold discardTop
  refine after_bindDefaultTop.bind fun _ => ?_
  exact (after_pop.imp fun _ _ h => h.1).discard.bind fun _ => after_word

theorem after_coerceSecond {r : Resolution} (hr : ∀ k, r.second = some k → k.Wide) :
    Keeps env (Clean P most base ns) (coerceSecond r) := by
  unfold coerceSecond
  split
  · exact after_coerceTop (hr _ ‹_›)
  · exact after_bindDefaultTop

theorem after_fitConstant {c : Constant} {slot : ConstSlot} {target : Ty} {context : String}
    (hc : c.Plain ∧ P.holds c) (ht : target.kind.Wide) :
    Keeps env (Clean P most base ns) (fitConstant c slot target context) := by
  have hkind : After env (Clean P most base ns) (constantKind c target context) fun k s =>
      Clean P most base ns s ∧ k.Wide := by
    unfold constantKind
    split
    · exact .pure fun _ h => ⟨h, hc.1.wide⟩
    · split
      · exact .pure fun _ h => ⟨h, ht⟩
      · exact After.fail
  unfold fitConstant
  refine hkind.andThen fun k hk => ?_
  split
  · refine (After.ofConstant fun v hv => clean_bind hc hk hv).andThen fun v hv => ?_
    exact after_fillSlot hv.2
  · split
    · exact .pure fun _ h => h
    · exact After.fail
  · exact .pure fun _ h => h

theorem after_fitTop {target : Ty} {context : String} (ht : target.kind.Wide) :
    Keeps env (Clean P most base ns) (fitTop target context) := by
  have hpush : Keeps env (Clean P most base ns) (push (.value target)) :=
    after_push ht
  unfold fitTop
  refine after_pop.andThen fun e he => ?_
  split
  · exact (after_fitConstant he ht).bind fun _ => hpush
  · unfold checkAssignable
    split
    · exact hpush
    · exact After.fail
  all_goals exact After.fail

/-! ## Names -/

variable {taken : List String}

/-- Names in `taken` are those of packages. -/
structure Packages (base : List (String × Symbol)) (taken : List String) : Prop where
  taken : ∀ name x, base.lookup name = some x → name ∈ taken
  package : ∀ name x, base.lookup name = some x → ∃ path, x = .package path

theorem after_find? {name : String} :
    After env (Clean P most base ns) (find? name) fun x s => Clean P most base ns s ∧
      ∃ bs : Blocks, bs ≠ [] ∧ bs.names = ns ∧ x = ((bs.find? name).map .var).or (base.lookup name) := by
  intro s hs
  obtain ⟨bs, hne, hscopes, hnames⟩ := hs.names.blocks
  refine ⟨hs, bs, hne, hnames, ?_⟩
  rw [NameTable.find?_eq_scopes hs.names.sound, hscopes, Blocks.find?_shown hne]

/-- A name of the fragment is that of a variable, or a truth value. -/
theorem after_resolveName (hbase : Packages base taken) {name : String}
    (h : (Expr.ident name).CallFree taken ns) :
    After env (Clean P most base ns) (resolveName name) fun n s => Clean P most base ns s ∧
      ((∃ id ty, n = .var id ty ∧ ty.kind.Wide) ∨ ∃ b, n = .truth b ∧ name = toString b) := by
  unfold resolveName
  refine after_find?.andThen fun x ⟨bs, hne, hnames, hx⟩ => ?_
  rcases h with h | ⟨htruth, htaken⟩
  · obtain ⟨id, hid⟩ := Option.isSome_iff_exists.1 (Blocks.declare_names.1 (hnames ▸ h))
    obtain rfl : x = some (.var id) := by rw [hx, hid]; rfl
    exact after_var.andThen fun v hv => .pure fun _ h => ⟨h, .inl ⟨id, v.ty, rfl, hv⟩⟩
  · cases hid : bs.find? name with
    | some id =>
      obtain rfl : x = some (.var id) := by rw [hx, hid]; rfl
      exact after_var.andThen fun v hv => .pure fun _ h => ⟨h, .inl ⟨id, v.ty, rfl, hv⟩⟩
    | none =>
      have hlookup : base.lookup name = none := by
        cases hb : base.lookup name with
        | none => rfl
        | some y => exact absurd (hbase.taken name y hb) htaken
      obtain rfl : x = none := by rw [hx, hid, hlookup]; rfl
      unfold resolveUndeclared
      by_cases htrue : name = "true"
      · simp only [htrue, if_true]
        exact .pure fun _ h => ⟨h, .inr ⟨true, rfl, rfl⟩⟩
      · have hfalse : name = "false" := htruth.resolve_left htrue
        simp only [hfalse, if_true]
        exact .pure fun _ h => ⟨h, .inr ⟨false, rfl, rfl⟩⟩

theorem after_assignable (hbase : Packages base taken) {name : String} :
    After env (Clean P most base ns) (assignable name) fun x s =>
      Clean P most base ns s ∧ ∃ id, x = .inl id := by
  unfold assignable
  refine after_find?.andThen fun x ⟨bs, _, _, hx⟩ => ?_
  split
  · exact .pure fun _ h => ⟨h, _, rfl⟩
  · cases hid : bs.find? name with
    | some id =>
      rw [hid] at hx
      cases hx
    | none =>
      rw [hid] at hx
      obtain ⟨path, hpath⟩ := hbase.package name _ hx.symm
      cases hpath
  all_goals exact After.fail

theorem after_varOperand {id : Nat} :
    Keeps env (Clean P most base ns) (varOperand id) := by
  unfold varOperand
  refine after_var.andThen fun v _ => ?_
  split
  · exact After.fail
  · refine (After.get fun _ h => h).bind fun s => ?_
    dsimp only
    split
    · exact .pure fun _ h => h
    · split
      · exact After.fail
      · split
        · exact After.fail
        · exact .pure fun _ h => h

theorem after_emitNamed {n : Named}
    (h : (∃ id ty, n = .var id ty ∧ ty.kind.Wide) ∨ ∃ b, n = .truth b) :
    Keeps env (Clean .signless most base ns) (emitNamed n) := by
  obtain ⟨id, ty, rfl, hty⟩ | ⟨b, rfl⟩ := h
  · exact after_varOperand.bind fun _ => after_word.bind fun _ => after_push hty
  · exact after_pushConstant (Constant.plain_truth b) trivial

end Direct

end StackScript
