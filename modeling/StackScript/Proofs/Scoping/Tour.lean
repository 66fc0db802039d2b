import StackScript.Proofs.Scoping.Declaring
import StackScript.Proofs.Translation.Bodies

/-!
# A tour of the compiler

The tour of a file compiles it and notes every statement that it comes to, together with what lexical
scoping sees there: the declarations of the blocks around the statement as far as they stand before
it, and for the body of a literal those that its creator saw. Only the rules of lexical scoping decide
what is noted, never the name table of the compiler. `erases_file`: apart from the notes, the tour
is a run of the compiler.
-/

namespace StackScript

/-! ## Lexical scoping -/

namespace Scopes

/-- Adds a declaration, unless its name is missing or blank. -/
def declareNamed (Γ : Scopes) (name : Option String) (x : Symbol) : Scopes :=
  match name with
  | none => Γ
  | some name => if name = "_" then Γ else Γ.declare name x

def declareAll (Γ : Scopes) (names : List (Option String × Symbol)) : Scopes :=
  names.foldl (fun Γ p => Γ.declareNamed p.1 p.2) Γ

/-- Adds variables with the next numbers. -/
def declareVars (Γ : Scopes) (next : Nat) : List String → Scopes
  | [] => Γ
  | name :: names => (Γ.declare name (.var next)).declareVars (next + 1) names

/-- What is seen behind a statement. -/
def behind (Γ : Scopes) (next : Nat) (st : Stmt) : Scopes := Γ.declareVars next st.defined

end Scopes

namespace WaitingBody

/-- What a body sees at its beginning. -/
def scopes (b : WaitingBody) (around : Scopes) (results : List Nat) : Scopes :=
  Scopes.declareAll ([] :: around) (b.paramSymbols ++ b.resultSymbols results)

end WaitingBody

/-! ## The tour -/

/-- A statement that the compiler comes to, and what lexical scoping sees there. -/
structure Visit where
  scopes : Scopes
  stmt : Stmt
  state : CompileState

/-- The state of the compiler, with notes. -/
structure Tour where
  state : CompileState
  /-- What the bodies in the queue see around them; nothing is noted of the body of a declared
  function, which sees all of the outermost block. -/
  around : List (Option Scopes)
  /-- The statements so far, the last one first. -/
  visits : List Visit

namespace Tour

def initial : Tour := ⟨.initial, [], []⟩

/-- A step of the compiler. -/
def step {α : Type} (env : CompileEnv) (t : Compile α) : Task CompileError Tour α :=
  (t env).zoom Tour.state fun state T => { T with state }

/-- Notes a statement. -/
def visit (Γ : Scopes) (st : Stmt) : Task CompileError Tour Unit :=
  modify fun T => { T with visits := ⟨Γ, st, T.state⟩ :: T.visits }

/-- Notes what the bodies see that have just joined the queue. -/
def noteAround (d : Option Scopes) : Task CompileError Tour Unit :=
  modify fun T =>
    { T with around := T.around ++ List.replicate (T.state.queue.length - T.around.length) d }

mutual

/-- Compiles a statement where some declarations are seen. -/
def stmt (env : CompileEnv) (Γ : Scopes) : Stmt → Task CompileError Tour Unit
  | .block body => do
    visit Γ (.block body)
    step env (modify fun s => { s with names := s.names.openBlock })
    discard (stmts env ([] :: Γ) body)
    step env (modify fun s => { s with names := s.names.closeBlock })
  | st => do
    visit Γ st
    step env (Compile.emitStmt st)
    noteAround (some Γ)
termination_by structural st => st

/-- Compiles statements one after another, and gives what is seen behind them. -/
def stmts (env : CompileEnv) (Γ : Scopes) : List Stmt → Task CompileError Tour Scopes
  | [] => pure Γ
  | st :: ss => do
    let next := (← get).state.asm.vars.size
    stmt env Γ st
    step env Compile.atRest
    stmts env (Γ.behind next st) ss
termination_by structural ss => ss

end

/-- Compiles in the outermost block of a body. -/
def inBody {α : Type} (env : CompileEnv) (body : Body) (path : List Nat) (horizons : List Horizon)
    (t : Task CompileError Tour α) : Task CompileError Tour α := do
  let s := (← get).state
  step env (set { s with names := s.names.enterBody path horizons, body })
  let a ← t
  step env (modify fun s' => { s' with names := s'.names.returnTo s.names, body := s.body })
  return a

/-- Compiles a body that has waited, where some declarations are seen around it. -/
def body (env : CompileEnv) (around : Scopes) (b : WaitingBody) : Task CompileError Tour Unit := do
  let (results, body) ← step env (Compile.beginFunc b)
  inBody env body b.path b.horizons do
    step env (Compile.declareNames b results)
    discard (stmts env (b.scopes around results) b.stmts)
  step env (Compile.asm (Assembly.endFunc b.func))

/-- Compiles the bodies in the queue, at most `n` of them, behind the main body. -/
def queue (env : CompileEnv) (outermost : Scopes) : Nat → Task CompileError Tour Unit
  | 0 => pure ()
  | n + 1 => do
    let T ← get
    match T.state.queue with
    | [] => pure ()
    | b :: queue => do
      modify fun T => { T with state.queue := queue, around := T.around.tail }
      body env (T.around.head?.join.getD outermost) b
      Tour.queue env outermost n

/-- Compiles a file with `labels` function literals. -/
def file (env : CompileEnv) (f : File) (labels : Nat) : Task CompileError Tour Nat := do
  step env (f.imports.forM Compile.declareImport)
  step env (f.funcs.forM Compile.declareFunc)
  noteAround none
  let outermost ← stmts env [f.funcNames ++ f.importNames] f.stmts
  let mainEnd := (← get).state.asm.code.size
  queue env outermost (f.funcs.length + labels)
  return mainEnd

/-! ## Erasing the notes -/

section Erases

variable {env : CompileEnv} {α β γ δ : Type}

/-- Without its notes, the tour goes as the compiler does. -/
def Erases (env : CompileEnv) (g : α → β) (t : Task CompileError Tour α) (u : Compile β) : Prop :=
  ∀ T, (u env).exec T.state = ((t.exec T).1.map g, (t.exec T).2.state)

namespace Erases

theorem step (t : Compile α) : Erases env id (Tour.step env t) t := fun T => by
  show _ = (((t env).exec T.state).1.map id, ((t env).exec T.state).2)
  generalize (t env).exec T.state = r
  obtain ⟨_ | _, _⟩ := r <;> rfl

theorem pure {g : α → β} (a : α) : Erases env g (Pure.pure a) (Pure.pure (g a)) := fun _ => rfl

theorem bind {g : α → β} {h : γ → δ} {t : Task CompileError Tour α} {u : Compile β}
    {k : α → Task CompileError Tour γ} {l : β → Compile δ} (ht : Erases env g t u)
    (hk : ∀ a, Erases env h (k a) (l (g a))) : Erases env h (t >>= k) (u >>= l) := fun T => by
  show ((u env >>= fun b => l b env)).exec T.state = _
  rw [Task.exec_bind, Task.exec_bind, ht T]
  generalize t.exec T = r
  obtain ⟨e | a, T'⟩ := r
  · rfl
  · exact hk a T'

/-- A note changes nothing else. -/
theorem note {h : γ → δ} {f : Tour → Tour} {t : Task CompileError Tour γ} {u : Compile δ}
    (hf : ∀ T, (f T).state = T.state) (ht : Erases env h t u) :
    Erases env h (do modify f; t) u := fun T => by
  rw [Task.exec_bind, Task.exec_modify, ← hf T]
  exact ht (f T)

/-- A note comes with a change of the state. -/
theorem update {h : γ → δ} {f : Tour → Tour} {g : CompileState → CompileState}
    {t : Task CompileError Tour γ} {u : Compile δ} (hf : ∀ T, (f T).state = g T.state)
    (ht : Erases env h t u) : Erases env h (do modify f; t) (do modify g; u) := fun T => by
  rw [Task.exec_bind, Task.exec_modify]
  show (u env).exec (g T.state) = _
  rw [← hf T]
  exact ht (f T)

/-- A note at the end changes nothing else either. -/
theorem last {f : Tour → Tour} {t : Task CompileError Tour Unit} {u : Compile Unit}
    (hf : ∀ T, (f T).state = T.state) (ht : Erases env id t u) :
    Erases env id (do t; modify f) u := fun T => by
  rw [Task.exec_bind, ht T]
  generalize t.exec T = r
  obtain ⟨e | a, T'⟩ := r
  · rfl
  · exact congrArg (Prod.mk _) (hf T').symm

/-- Looking at the notes changes nothing. -/
theorem look {h : γ → δ} {k : Tour → Task CompileError Tour γ} {u : Compile δ}
    (hk : ∀ T, Erases env h (k T) u) : Erases env h (do k (← get)) u := fun T => hk T T

/-- Both look at the state of the compiler. -/
theorem get {h : γ → δ} {k : Tour → Task CompileError Tour γ} {l : CompileState → Compile δ}
    (hk : ∀ T, Erases env h (k T) (l T.state)) : Erases env h (do k (← get)) (do l (← get)) :=
  fun T => hk T T

theorem discard {t : Task CompileError Tour α} {u : Compile Unit}
    (ht : Erases env (fun _ => ()) t u) : Erases env id (Functor.discard t) u := fun T => by
  show _ = (((fun _ => PUnit.unit) <$> t).exec T |>.1.map id,
    ((fun _ => PUnit.unit) <$> t).exec T |>.2.state)
  rw [ht T, Task.exec_map]
  generalize t.exec T = r
  obtain ⟨_ | _, _⟩ := r <;> rfl

theorem inBody {g : α → β} {body : Body} {path : List Nat} {horizons : List Horizon}
    {t : Task CompileError Tour α} {u : Compile β} (ht : Erases env g t u) :
    Erases env g (Tour.inBody env body path horizons t) (Compile.inBody body path horizons u) :=
  .get fun _ => .bind (.step _) fun _ => .bind ht fun a => .bind (.step _) fun _ => .pure a

end Erases

/-- A statement that is no block is compiled in one step. -/
theorem stmt_of_ne_block {Γ : Scopes} {st : Stmt} (h : ∀ body, st ≠ .block body) :
    stmt env Γ st = (do
      visit Γ st
      step env (Compile.emitStmt st)
      noteAround (some Γ)) := by
  cases st with
  | block body => exact absurd rfl (h body)
  | _ => rfl

theorem erases_single {Γ : Scopes} {st : Stmt} (h : ∀ body, st ≠ .block body) :
    Erases env id (stmt env Γ st) (Compile.emitStmt st) := by
  rw [stmt_of_ne_block h]
  exact .note (fun _ => rfl) (.last (fun _ => rfl) (.step _))

mutual

theorem erases_stmt : ∀ (st : Stmt) (Γ : Scopes),
    Erases env id (stmt env Γ st) (Compile.emitStmt st)
  | .block body, Γ => .note (fun _ => rfl) (.bind (.step _) fun _ =>
      .bind (.discard (erases_stmts body ([] :: Γ))) fun _ => .step _)
  | .expr _, _ | .assign _ _ _, _ | .ret _, _ | .increment _, _ | .decrement _, _ =>
    erases_single nofun
termination_by structural st => st

theorem erases_stmts : ∀ (ss : List Stmt) (Γ : Scopes),
    Erases env (fun _ => ()) (stmts env Γ ss) (Compile.emitStmts ss)
  | [], Γ => .pure Γ
  | st :: ss, Γ => .look fun _ => .bind (erases_stmt st Γ) fun _ => .bind (.step _) fun _ =>
    erases_stmts ss _
termination_by structural ss => ss

end

theorem erases_body (around : Scopes) (b : WaitingBody) :
    Erases env id (body env around b) (Compile.emitBody b) :=
  .bind (.step _) fun _ => .bind (.inBody (.bind (.step _) fun _ => .discard (erases_stmts _ _)))
    fun _ => .step _

theorem erases_queue (outermost : Scopes) (n : Nat) :
    Erases env id (queue env outermost n) (Compile.emitQueue n) := by
  induction n with
  | zero => exact .pure ()
  | succ n ih =>
    refine .get fun T => ?_
    cases T.state.queue with
    | nil => exact .pure ()
    | cons b waiting => exact .update (fun _ => rfl) (.bind (erases_body _ b) fun _ => ih)

/-- The tour of a file is a run of the compiler. -/
theorem erases_file (env : CompileEnv) (f : File) (labels : Nat) :
    Erases env id (file env f labels) (Compile.emitFile f labels) :=
  .bind (.step _) fun _ => .bind (.step _) fun _ => .note (fun _ => rfl) (.bind (erases_stmts _ _)
    fun _ => .get fun _ => .bind (erases_queue _ _) fun _ => .pure _)

end Erases

end Tour

end StackScript
