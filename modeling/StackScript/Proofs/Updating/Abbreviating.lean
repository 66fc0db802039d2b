import StackScript.Proofs.Direct.Folding
import StackScript.Proofs.Updating.Stepping

/-!
# Updates are assignments

An update of a place by an expression that calls nothing compiles where the assignment of the operator to
the place and the expression does, and the codes run alike. A step is the update by one
(`Compile.updates_abbreviate`).
-/

namespace StackScript

open CompileState Machine

/-- The code of the instructions was emitted. Constants and functions of literals may be new besides. -/
def CompileState.Emits (s s' : CompileState) (is : List Instr) : Prop :=
  ∃ (s₀ : CompileState) (ws : List Word), s.AddsLiterals s₀ ∧ Word.Spell ws is ∧
    Extends s.asm.consts s'.asm.consts ∧ s' = s₀.adding ws s'.asm.consts []

/-- The program has the instructions where it has the words. -/
theorem Word.Spell.reads {ws : List Word} {is : List Instr} (h : Word.Spell ws is) {p : Program}
    {n : Nat} (hp : ∀ (i : Nat) (w : Word), ws[i]? = some w → p.code[n + i]? = some w) : p.Reads n is := by
  induction is generalizing ws n with
  | nil => trivial
  | cons i is ih =>
    cases ws with
    | nil => cases h
    | cons w ws =>
      obtain ⟨hw, hrest⟩ := List.cons.inj h
      refine ⟨?_, ih hrest fun j w' hw' => ?_⟩
      · have hfirst : p.code[n]? = some w := hp 0 w rfl
        rw [Program.instr?, hfirst]
        exact hw
      · rw [Nat.add_assoc, Nat.add_comm 1]
        exact hp (j + 1) w' hw'

/-- A program that completes the state has the code that was emitted. -/
theorem CompileState.Emits.reads {L : Layout} {s s' : CompileState} {is : List Instr} {o : Output}
    (h : s.Emits s' is) (ht : s.Tidy) (ho : Completes L s' o) : o.program.Reads s.asm.code.size is := by
  obtain ⟨s₀, ws, hadds, hspell, -, hs'⟩ := h
  have hcode : s'.asm.code = s.asm.code ++ ws.toArray := by
    rw [hs', hadds.eq]
    rfl
  have hreserved : s'.asm.reserved = s.asm.reserved := by
    rw [hs', hadds.eq]
    rfl
  have hrefs : s'.asm.refs = s.asm.refs := by
    rw [hs', hadds.eq]
    rfl
  refine hspell.reads fun i w hw => ho.code _ w ?_ (fun hmem => ?_) fun id hmem => ?_
  · rw [hcode, Array.getElem?_append_right (Nat.le_add_right ..), Nat.add_sub_cancel_left]
    simpa using hw
  · rw [hreserved] at hmem
    exact absurd (ht.slot_lt _ hmem) (by omega)
  · rw [hrefs] at hmem
    exact absurd (ht.ref_lt _ hmem).1 (by dsimp only; omega)

namespace Compile

open Word (Spell)

/-- One statement compiles where the other does, and in a program with the constants of both the two codes
run alike: if either ends without an error so does the other, limits excepted, and they leave the same. -/
structure Abbreviates (env : CompileEnv) (s : CompileState) (short long : Stmt) : Prop where
  compiles : (∃ s', ((emitStmt short) env).exec s = (.ok (), s')) ↔
    ∃ s', ((emitStmt long) env).exec s = (.ok (), s')
  runs (s₁ s₂ : CompileState) (h₁ : ((emitStmt short) env).exec s = (.ok (), s₁))
    (h₂ : ((emitStmt long) env).exec s = (.ok (), s₂)) : ∃ is₁ is₂, s.Emits s₁ is₁ ∧ s.Emits s₂ is₂ ∧
      ∀ (m : Machine) (call : Caller) (ctx : Nat) (t : Thread), m.Hosts ctx t →
        Extends s₁.asm.consts m.program.consts → Extends s₂.asm.consts m.program.consts →
        Run.Matches ((m.follow call ctx is₁).exec t) ((m.follow call ctx is₂).exec t)

variable {env : CompileEnv} {s s₁ : CompileState} {k : Kind} {x e : Expr} {op : Operator}
  {short long : Stmt} {t t' : Compile Unit}

theorem Abbreviates.of_error {err err' : Stop CompileError} {s₁ s₂ : CompileState}
    (h₁ : ((emitStmt short) env).exec s = (.error err, s₁))
    (h₂ : ((emitStmt long) env).exec s = (.error err', s₂)) : Abbreviates env s short long where
  compiles := by
    rw [h₁, h₂]
    exact ⟨fun ⟨_, h⟩ => (nomatch h), fun ⟨_, h⟩ => nomatch h⟩
  runs _ _ h := by
    rw [h₁] at h
    cases h

/-- Statements whose code comes of two steps that coincide. -/
theorem Coincide.abbreviates (h : Coincide env s₁ t t' s₁.asm.consts) (hadds : s.AddsLiterals s₁)
    (hshort : ((emitStmt short) env).exec s = (t env).exec s₁)
    (hlong : ((emitStmt long) env).exec s = (t' env).exec s₁) : Abbreviates env s short long := by
  obtain ⟨h₁, h₂⟩ | ⟨ws, ws', is, is', cs, cs', ⟨hcs, h₁⟩, ⟨hcs', h₂⟩, hspell, hspell', hruns⟩ := h
  · obtain ⟨e₁, u₁, h₁⟩ := h₁ s₁ (.refl s₁) rfl
    obtain ⟨e₂, u₂, h₂⟩ := h₂ s₁ (.refl s₁) rfl
    exact .of_error (hshort.trans h₁) (hlong.trans h₂)
  · have h₁ := hshort.trans (h₁ s₁ (.refl s₁) rfl)
    have h₂ := hlong.trans (h₂ s₁ (.refl s₁) rfl)
    have hconsts : s₁.asm.consts = s.asm.consts := by rw [hadds.eq]
    refine ⟨⟨fun _ => ⟨_, h₂⟩, fun _ => ⟨_, h₁⟩⟩, fun u₁ u₂ hu₁ hu₂ => ?_⟩
    cases h₁.symm.trans hu₁
    cases h₂.symm.trans hu₂
    exact ⟨is, is', ⟨s₁, ws, hadds, hspell, hconsts ▸ hcs, rfl⟩,
      ⟨s₁, ws', hadds, hspell', hconsts ▸ hcs', rfl⟩, hruns⟩

/-! ## Looking ahead -/

/-- What an operator on a place of a kind and an expression comes to. -/
def askOperator (k : Kind) (op : Operator) (e : Expr) : Compile Resolution := do
  let i ← infer e
  ofOperands (op.resolve (.bound k) (← operandKind e i))

theorem asks_operator (k : Kind) (op : Operator) (e : Expr) : Asks env (askOperator k op e) :=
  .bind (asks_infer e) fun _ => .bind (.of_reads fun _ => reads_operandKind) fun _ => .ofExcept _

theorem exec_emitUpdate {t : Target} (hop : op.hasUpdateForm = true)
    (ht : ((target x) env).exec s = (.ok t, s₁)) : ((emitUpdate op x e) env).exec s = ((do
      let r ← askOperator t.ty.kind op e
      if r.first ≠ t.ty.kind then
        fail (.typeMismatch t.ty.text r.first.text (op.text ++ "= to " ++ x.shown))
      combineOn x op r (do emit e; coerceSecond r) t) env).exec s₁ := by
  unfold emitUpdate askOperator
  simp only [hop, Bool.not_true, Bool.false_eq_true, if_false, bind_assoc]
  rw [exec_bind_ok ht]
  cases t with
  | addr ty =>
    simp only [combineOn, bind_assoc]
    rfl
  | param below ty => simp only [combineOn, bind_assoc]

theorem emitAssign_single {v : Expr} : emitAssign false [x] [v] = (do
    emit v
    checkSingle v (← top)
    assignTo false x) := by
  unfold emitAssign emitValues
  simp

theorem combine_place {i : Inferred} : combine op x e (.value (.basic k)) i = (do
    return .applied (← ofOperands (op.resolve (.bound k) (← operandKind e i)))) := rfl

theorem exec_emitAssign (op : Operator) (e : Expr) (hx : ((infer x) env).exec s = (.ok (.value (.basic k)), s₁)) :
    ((emitAssign false [x] [.binary op x e]) env).exec s = ((do
      let r ← askOperator k op e
      emit x
      assignCombined (do emit e; coerceSecond r) op r x (.binary op x e)) env).exec s₁ := by
  unfold askOperator assignCombined
  rw [emitAssign_single, emit]
  simp only [bind_assoc]
  rw [exec_bind_ok hx]
  simp only [combine_place, bind_assoc, pure_bind]

/-! ## Updates -/

/-- The answers that make up the one on an operator. -/
theorem settled_askOperator {r : Resolution} (h : Settled env s (askOperator k op e) r) : ∃ i ky,
    Settled env s (infer e) i ∧ i.operandKind? = some ky ∧ op.resolve (.bound k) ky = .ok r := by
  obtain ⟨i, hi, h⟩ := Settled.of_bind h (asks_infer e) fun _ =>
    .bind (.of_reads fun _ => reads_operandKind) fun _ => .ofExcept _
  obtain ⟨ky, hky, h⟩ := Settled.of_bind h (.of_reads fun _ => reads_operandKind) fun _ => .ofExcept _
  refine ⟨i, ky, hi, (reads_operandKind.of_exec hky.exec).2.2, ?_⟩
  cases hr : op.resolve (.bound k) ky with
  | error err =>
    rw [hr] at h
    cases h.exec
  | ok r' =>
    rw [hr] at h
    exact congrArg _ (Settled.of_pure h).symm

theorem IsPlace.update_abbreviates (hx : IsPlace env s k x) (hop : op.hasUpdateForm = true)
    (he : e.hasCall = false) :
    Abbreviates env s (.assign (.update op) [x] [e]) (.assign .assign [x] [.binary op x e]) := by
  obtain ⟨s₁, target, hadds, htarget, hinfer, hlocated⟩ := hx.located
  have hshort := exec_emitUpdate (e := e) hop htarget
  have hty : target.ty = .basic k := by cases hlocated <;> rfl
  rw [hty] at hshort
  have hlong := exec_emitAssign op e hinfer
  rcases hask : ((askOperator k op e) env).exec s₁ with ⟨err | r, s₂⟩
  · exact .of_error (hshort.trans (exec_bind_error hask)) (hlong.trans (exec_bind_error hask))
  obtain ⟨hadds', hset⟩ := asks_operator k op e s₁ r s₂ hask
  obtain ⟨i, ky, hi, hky, hr⟩ := settled_askOperator hset
  have hsettle : op.settle (.bound k) ky = .ok r := (settle_of_bound (.inl rfl)).trans hr
  have hoperand := isOperand_of_kind hky (Operator.ne_func_of_settle hsettle).2
  have hcoincide := (hlocated.later hadds'.later).coincide (.binary op x e)
    (.typeMismatch k.text r.first.text (op.text ++ "= to " ++ x.shown)) s₂.asm.consts hop hr
    fun cs => uniform_coerceSecond (leavesOne_emit cs he hi hoperand) r
  exact hcoincide.abbreviates (hadds.trans hadds') (hshort.trans (exec_bind_ok hask))
    (hlong.trans (exec_bind_ok hask))

/-! ## Steps -/

theorem exec_emitStep {t : Target} (up : Bool) (hk : t.ty.kind.isNumeric = true)
    (ht : ((target x) env).exec s = (.ok t, s₁)) :
    ((emitStep up x) env).exec s = ((stepOn x up t) env).exec s₁ := by
  unfold emitStep
  rw [exec_bind_ok ht]
  simp only [hk, Bool.not_true, Bool.false_eq_true, if_false]
  cases t with
  | addr ty => rfl
  | param below ty => rfl

/-- The update by one is known without looking. -/
theorem exec_emitUnitUpdate {one : Scalar} (up : Bool) (hone : k.HasUnit one) {t : Target}
    (hty : t.ty = .basic k) (ht : ((target x) env).exec s = (.ok t, s₁)) :
    ((emitUpdate (if up then .add else .sub) x unitLiteral) env).exec s =
      ((combineOn x (if up then .add else .sub) ⟨k, k, some k, k⟩ (do emit unitLiteral; coerceTop k) t)
        env).exec s₁ := by
  have hask : ((askOperator k (if up then .add else .sub) unitLiteral) env).exec s₁ =
      (.ok ⟨k, k, some k, k⟩, s₁) := by
    have hoperands : askOperator k (if up then .add else .sub) unitLiteral =
      ofOperands ((if up then Operator.add else .sub).resolve (.bound k) (Constant.int 1).operandKind) := rfl
    rw [hoperands, hone.resolves]
    rfl
  have hform : (if up then Operator.add else .sub).hasUpdateForm = true := by cases up <;> rfl
  have hupdate := exec_emitUpdate (e := unitLiteral) hform ht
  rw [hty] at hupdate
  rw [hupdate]
  refine (exec_bind_ok hask).trans ?_
  dsimp only
  rw [if_neg (show ¬k ≠ (Ty.basic k).kind from not_not_intro rfl)]
  rfl

theorem IsPlace.step_abbreviates (hx : IsPlace env s k x) (hk : k.isNumeric = true)
    (hroom : k.isInteger = false → s.asm.consts.size < Word.operandRange)
    (hsign : k.isComplex = true → ∀ c ∈ s.asm.consts, c.Signless) (up : Bool)
    (hshort : emitStmt short = emitStep up x)
    (hlong : emitStmt long = emitUpdate (if up then .add else .sub) x unitLiteral) :
    Abbreviates env s short long := by
  obtain ⟨s₁, target, hadds, htarget, -, hlocated⟩ := hx.located
  obtain ⟨one, hone⟩ := Kind.exists_unit hk
  have hty : target.ty = .basic k := by cases hlocated <;> rfl
  have hconsts : s₁.asm.consts = s.asm.consts := by rw [hadds.eq]
  have hcoincide := hlocated.coincide_step up (Kind.isBasic_of_isNumeric hk) hone (hconsts ▸ hroom)
    (hconsts ▸ hsign)
  refine hcoincide.abbreviates hadds ?_ ?_
  · rw [hshort]
    exact exec_emitStep up (hty ▸ hk) htarget
  · rw [hlong]
    exact exec_emitUnitUpdate up hone hty htarget

/-! ## Both -/

/-- An update of a place by an expression without calls is the assignment that it abbreviates. A step of a
place that holds a number is the update by one: unless that is an integer the pool of constants must have
room for the one, and if it is complex hold no negative zeros. -/
theorem updates_abbreviate (hx : IsPlace env s k x) :
    (∀ (op : Operator) (e : Expr), op.hasUpdateForm = true → e.hasCall = false →
      Abbreviates env s (.assign (.update op) [x] [e]) (.assign .assign [x] [.binary op x e])) ∧
    (k.isNumeric = true → (k.isInteger = false → s.asm.consts.size < Word.operandRange) →
      (k.isComplex = true → ∀ c ∈ s.asm.consts, c.Signless) →
      Abbreviates env s (.increment x) (.assign (.update .add) [x] [.lit ⟨.int, "1"⟩]) ∧
      Abbreviates env s (.decrement x) (.assign (.update .sub) [x] [.lit ⟨.int, "1"⟩])) :=
  ⟨fun _ _ hop he => hx.update_abbreviates hop he, fun hk hroom hsign =>
    ⟨hx.step_abbreviates hk hroom hsign true rfl rfl, hx.step_abbreviates hk hroom hsign false rfl rfl⟩⟩

end Compile

/-! ### One variable -/

namespace Knowing

/-- A compiler that knows a variable `y` of a kind and has these constants in the pool. -/
def state (k : Kind) (cs : Array Value) : CompileState :=
  let s := ((do Compile.declare "y" (.var (← Compile.newVar "y" (.basic k))) : Compile Unit)
    ⟨.empty, true⟩ |>.exec .initial).2
  { s with asm := { s.asm with consts := cs } }

theorem place (k : Kind) (cs : Array Value) : Compile.IsPlace ⟨.empty, true⟩ (state k cs) k (.ident "y") :=
  .var (by decide) (show (state k cs).names.find? "y" = some (.var 0) from rfl) rfl rfl

theorem exec_target (k : Kind) (cs : Array Value) :
    ((Compile.target (.ident "y")) ⟨.empty, true⟩).exec (state k cs) = (.ok (.addr (.basic k)), state k cs) :=
  rfl

end Knowing

/-! ### A sum -/

namespace Adding

/-- `x := 40`. -/
def definition : Stmt := .assign .define [.ident "x"] [.lit ⟨.int, "40"⟩]

/-- `x += 2`. -/
def sum : Stmt := .assign (.update .add) [.ident "x"] [.lit ⟨.int, "2"⟩]

/-- `x = x + 2`. -/
def assignment : Stmt := .assign .assign [.ident "x"] [.binary .add (.ident "x") (.lit ⟨.int, "2"⟩)]

@[irreducible]
def program : Program := ((File.mk [] [] [definition, sum]).compile .empty true).toOption.get (by decide +kernel)

@[irreducible]
def machine : Machine := (Machine.link program {} .empty).toOption.get (by decide +kernel)

theorem links : Machine.link program {} .empty = .ok machine := by
  unfold machine
  exact eq_ok_get _

/-- Where the main body begins. -/
def start : Thread := ⟨machine.entered default, #[], 0, 0⟩

theorem hosts : machine.Hosts 0 start := by
  have hbuilds := (link_eq_ok.1 links).1
  have hframes : start.world.store.frames = #[⟨none, none, 0, machine.globals⟩] := rfl
  refine hbuilds.hosts (fun frame hframe => ?_) fun frame hframe => ?_
  · rw [hframes, Array.mem_singleton] at hframe
    exact hframe ▸ (List.Forall₂.length_eq hbuilds.globals).symm
  · rw [hframes] at hframe
    cases hframe
    exact Nat.zero_le _

/-- The compiler behind the first statement. -/
def state : CompileState :=
  (((Compile.emitStmt definition) ⟨.empty, true⟩).exec .initial).2

theorem place : Compile.IsPlace ⟨.empty, true⟩ state (.int .int) (.ident "x") :=
  .var (by decide) (show state.names.find? "x" = some (.var 0) from rfl) rfl rfl

/-- Just one as a complex number. -/
def ones : Array Value := #[.scalar (.complex .double (.ofReal (.ofInt .double 1)))]

/-- Behind `x := 40`, a step of `x` adds one, and `x += 2` is `x = x + 2`: from the beginning of the main
body their codes leave the same. A step of a complex number adds one too. -/
theorem adds : Compile.IsPlace ⟨.empty, true⟩ state (.int .int) (.ident "x") ∧
    Compile.Abbreviates ⟨.empty, true⟩ state (.increment (.ident "x"))
      (.assign (.update .add) [.ident "x"] [.lit ⟨.int, "1"⟩]) ∧
    Compile.Abbreviates ⟨.empty, true⟩ (Knowing.state (.complex .double) ones) (.increment (.ident "y"))
      (.assign (.update .add) [.ident "y"] [.lit ⟨.int, "1"⟩]) ∧
    machine.Hosts 0 start ∧ ∃ s₁ s₂ is₁ is₂,
      ((Compile.emitStmt sum) ⟨.empty, true⟩).exec state = (.ok (), s₁) ∧
      ((Compile.emitStmt assignment) ⟨.empty, true⟩).exec state = (.ok (), s₂) ∧
      state.Emits s₁ is₁ ∧ state.Emits s₂ is₂ ∧
      Run.Matches ((machine.follow machine.callTop 0 is₁).exec start)
        ((machine.follow machine.callTop 0 is₂).exec start) := by
  obtain ⟨hupdates, hsteps⟩ := Compile.updates_abbreviate place
  have hsum := hupdates .add (.lit ⟨.int, "2"⟩) rfl rfl
  obtain ⟨hincrement, -⟩ := hsteps rfl nofun nofun
  obtain ⟨-, hsteps⟩ := Compile.updates_abbreviate (Knowing.place (.complex .double) ones)
  obtain ⟨hcomplex, -⟩ := hsteps rfl (fun _ => by decide) fun _ c hc => by
    obtain rfl := Array.mem_singleton.1 hc
    exact (by decide +kernel : Scalar.Signless (.complex .double (.ofReal (.ofInt .double 1))))
  obtain ⟨s₁, h₁⟩ : ∃ s₁, ((Compile.emitStmt sum) ⟨.empty, true⟩).exec state = (.ok (), s₁) ∧
      s₁.asm.consts = #[] := ⟨_, rfl, rfl⟩
  obtain ⟨s₂, h₂⟩ : ∃ s₂, ((Compile.emitStmt assignment) ⟨.empty, true⟩).exec state = (.ok (), s₂) ∧
      s₂.asm.consts = #[] := ⟨_, rfl, rfl⟩
  have hempty (cs : Array Value) : Extends #[] cs := fun i v hv => by simp at hv
  obtain ⟨is₁, is₂, hemits₁, hemits₂, hruns⟩ := hsum.runs s₁ s₂ h₁.1 h₂.1
  exact ⟨place, hincrement, hcomplex, hosts, s₁, s₂, is₁, is₂, h₁.1, h₂.1, hemits₁, hemits₂,
    hruns _ _ _ _ hosts (h₁.2 ▸ hempty _) (h₂.2 ▸ hempty _)⟩

end Adding

/-! ### Where they differ -/

/-- `c := 0; n := 0` and a statement. -/
def File.tallying (st : Stmt) : File :=
  ⟨[], [], [.assign .define [.ident "c"] [.lit ⟨.int, "0"⟩],
    .assign .define [.ident "n"] [.lit ⟨.int, "0"⟩], st]⟩

/-- `*func() *int { c++; return &n }()`. -/
def Expr.tallying : Expr :=
  .deref (.call (.funcLit 0 ⟨[], false, [⟨none, .ptr (.name "int")⟩]⟩
    [.increment (.ident "c"), .ret [.addrOf (.ident "n")]]) [] false)

/-- `0i - 1`. -/
def Expr.turn : Expr := .binary .sub (.lit ⟨.imag, "0i"⟩) (.lit ⟨.int, "1"⟩)

/-- `z := (0i - 1) * (0i - 1)` and a statement: the constant is one with a negative zero as imaginary part. -/
def File.turning (st : Stmt) : File :=
  ⟨[], [], [.assign .define [.ident "z"] [.binary .mul .turn .turn], st]⟩

/-- The values of the variables at the end. -/
def File.outcome? (f : File) : Option (List (Option Scalar)) :=
  (f.finalVars .empty true {} .empty default).map (·.toList.map Value.scalar?)

namespace Crowding

/-- As many texts as there is room for. -/
def texts : Array Value := (Array.range Word.operandRange).map fun i => .scalar (.string (toString i))

theorem texts_full : ¬texts.size < Word.operandRange := by
  rw [texts, Array.size_map, Array.size_range]
  exact Nat.lt_irrefl _

theorem texts_new {p : Precision} (x : Binary p) :
    ∀ c ∈ texts, (c.equal (.scalar (.float p x)) && c.kind == .float p) = false := by
  intro c hc
  obtain ⟨i, -, rfl⟩ := Array.mem_map.1 hc
  rfl

set_option maxRecDepth 5000 in
theorem steps (cs : Array Value) : ∃ s',
    ((Compile.emitStmt (.increment (.ident "y"))) ⟨.empty, true⟩).exec (Knowing.state (.float .double) cs) =
      (.ok (), s') :=
  ⟨_, rfl⟩

/-- There is no room for the one of the update. -/
theorem updates_not (s' : CompileState) : ((Compile.emitStmt (.assign (.update .add) [.ident "y"]
    [.lit ⟨.int, "1"⟩])) ⟨.empty, true⟩).exec (Knowing.state (.float .double) texts) ≠ (.ok (), s') := by
  obtain ⟨one, hone⟩ := Kind.exists_unit (k := .float .double) rfl
  have hupdate := Compile.exec_emitUnitUpdate true hone rfl (Knowing.exec_target _ texts)
  have hslot : Compile.LeavesSlot ⟨.empty, true⟩ (Knowing.state (.float .double) texts)
      (Compile.emit Compile.unitLiteral) texts Compile.emptySlot (.int 1) := fun _ _ _ => rfl
  have hkind := hone.kind_eq
  have hdenies := Compile.denies_fill hslot hone.binds fun a ha => by
    cases one with
    | float p x => exact Compile.exec_valueWord_full (ha.symm ▸ texts_full) (ha.symm ▸ texts_new x)
    | _ => cases hkind
  obtain ⟨e, u, h⟩ := hdenies (Knowing.state _ texts) (.refl _) rfl
  intro hupdates
  have hfails := hupdate.trans (Compile.exec_bind_error h)
  cases hfails.symm.trans hupdates

end Crowding

/-- A place with a call is found once by the update and twice by the assignment: the counter `c` shows it.
A step of a complex number adds no negative zero, and the update by one adds the constant in the pool that
counts as one. A step of a float needs no room in the pool, and the update by one does. -/
theorem updates_apart :
    ((File.tallying (.assign (.update .add) [.tallying] [.lit ⟨.int, "1"⟩])).outcome? =
        some [some (.ofInt .int 1), some (.ofInt .int 1)] ∧
      (File.tallying (.assign .assign [.tallying] [.binary .add .tallying (.lit ⟨.int, "1"⟩)])).outcome? =
        some [some (.ofInt .int 2), some (.ofInt .int 1)]) ∧
    ((File.turning (.increment (.ident "z"))).outcome? =
        some [some (.complex .double ⟨.ofInt .double 2, .ofMagnitude .double false 0⟩)] ∧
      (File.turning (.assign (.update .add) [.ident "z"] [.lit ⟨.int, "1"⟩])).outcome? =
        some [some (.complex .double ⟨.ofInt .double 2, .ofMagnitude .double true 0⟩)]) ∧
    (∃ s, ((Compile.emitStmt (.increment (.ident "y"))) ⟨.empty, true⟩).exec
        (Knowing.state (.float .double) Crowding.texts) = (.ok (), s)) ∧
    ¬∃ s, ((Compile.emitStmt (.assign (.update .add) [.ident "y"] [.lit ⟨.int, "1"⟩])) ⟨.empty, true⟩).exec
        (Knowing.state (.float .double) Crowding.texts) = (.ok (), s) :=
  ⟨⟨by decide +kernel, by decide +kernel⟩, ⟨by decide +kernel, by decide +kernel⟩, Crowding.steps _,
    fun ⟨s, h⟩ => Crowding.updates_not s h⟩

end StackScript
