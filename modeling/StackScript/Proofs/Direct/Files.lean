import StackScript.Proofs.Direct.Checking
import StackScript.Proofs.Direct.Statements
import StackScript.Proofs.Running.Linking

/-!
# Compiled main bodies without calls

A call-free file that compiles gives a program that links with any host functions, and its run ends
as the evaluator does, or exceeds a limit (`File.run_ends_as_evaluated`).
-/

namespace StackScript

/-- Without returns, a run follows the words of the main body. -/
theorem Machine.exec_run_eq_follow {m : Machine} {is : List Instr} (hreads : m.program.Reads 0 is)
    (hreturn : ∀ i ∈ is, Balance.isReturn i = false) (hend : m.program.mainEnd = is.length)
    (w : World) : m.run.exec w =
      (((m.follow m.callTop w.store.frames.size is).exec ⟨m.entered w, #[], 0, 0⟩).1.map
          fun _ => w.store.frames.size,
        ((m.follow m.callTop w.store.frames.size is).exec ⟨m.entered w, #[], 0, 0⟩).2.world) := by
  have hexec : m.exec m.callTop w.store.frames.size m.program.mainEnd 0 =
      (do m.follow m.callTop w.store.frames.size is; return none) := by
    rw [Machine.exec_eq_follow hreads hreturn (by omega), hend]
    congr 1
    funext _
    rw [Machine.exec, if_neg (by omega)]
  rw [Machine.exec_run, hexec, Task.exec_bind]
  rcases (m.follow m.callTop w.store.frames.size is).exec ⟨m.entered w, #[], 0, 0⟩ with ⟨_ | _, _⟩ <;> rfl

namespace Direct

/-- A run of a main body, which gives its frame, ends as the evaluator does, unless it exceeds a
limit. -/
inductive EndsAs : Outcome Env → Except (Stop RuntimeError) Nat × World → Prop
  /-- Every variable of the frame has its value. -/
  | done {env : Env} {frame : Nat} {w : World}
    (h : (w.store.frames[frame]?).map (·.vars) = some env.vars) : EndsAs (.ok env) (.ok frame, w)
  | failed {x : EvalError} {err : RuntimeError} {w : World} (h : err.cause = .evaluation x) :
    EndsAs (.error (.evaluation x)) (.error (.error err), w)
  | limited {r : Outcome Env} {e : Stop RuntimeError} {w : World} (h : e.Limited) :
    EndsAs r (.error e, w)

variable {m : Machine} {base : List (String × Symbol)} {taken : List String} {S S' : Site}
  {ss : List Stmt} {is : List Instr}

/-- The main body of a machine, run from its first word to its last one. -/
theorem endsAs_run (hset : Setting m.program base taken S .initial)
    (hsize : m.globals.size = m.program.mainVars.size)
    (hvars : m.program.mainVars.size = S'.next) (hcode : StmtsCode S ss is S')
    (hfree : CallFreeStmts taken [[]] ss) (hsign : AllValuesOf (Expr.Signless S.out.folds) ss)
    (hreads : m.program.Reads 0 is) (hend : m.program.mainEnd = is.length) (w : World) :
    EndsAs (evaluateStmts S.out.folds .initial ss) (m.run.exec w) := by
  have hpasses : Balance.Passes m.program .none is 0 0 := passes_stmts hcode hset.main hfree
  have hframe : (m.entered w).store.frames[w.store.frames.size]? = some ⟨none, none, 0, m.globals⟩ :=
    Array.getElem?_push_size
  have hold : Holds m.program .initial w.store.frames.size (m.entered w) m.globals :=
    ⟨⟨_, hframe, rfl, rfl, rfl⟩, hsize, fun id v hv => by simp [Env.initial] at hv⟩
  have htracks : Tracks m base taken w.store.frames.size #[] S .initial ⟨m.entered w, #[], 0, 0⟩ :=
    ⟨hset, m.entered w, m.globals, ⟨rfl, rfl⟩, hold⟩
  have hmirrors : Mirrors (m.follow m.callTop w.store.frames.size is) ⟨m.entered w, #[], 0, 0⟩ _ _ :=
    mirrors_stmts hcode htracks hfree hsign
  rw [Machine.exec_run_eq_follow hreads hpasses.returns hend]
  unfold Mirrors Task.Ensures at hmirrors
  generalize (m.follow m.callTop w.store.frames.size is).exec ⟨m.entered w, #[], 0, 0⟩ = result
    at hmirrors
  obtain ⟨e | u, s⟩ := result
  · obtain hlimit | ⟨x, err, heval, rfl, hcause⟩ := hmirrors
    · exact .limited hlimit
    · rw [heval]
      exact .failed hcause
  · obtain ⟨env, heval, ⟨hset', w', vars, hs, hold'⟩, -⟩ := hmirrors
    rw [heval]
    refine .done ?_
    obtain ⟨fr', hfr', -, -, rfl⟩ := hold'.frame
    have hfull : fr'.vars = env.vars := by
      have hlen : fr'.vars.size = env.vars.size := by rw [hold'.size, hvars, hset'.next]
      refine Array.ext hlen fun i hi hi' => ?_
      have hv := hold'.values i env.vars[i] (Array.getElem?_eq_getElem hi')
      exact (Array.getElem?_eq_some_iff.1 hv).2
    show (s.world.store.frames[w.store.frames.size]?).map (·.vars) = _
    rw [hs.world, hfr', Option.map_some, hfull]

/-- The site of a main body before its first statement. -/
theorem setting_initial {o : Output} {f : File} {n : Nat} (hf : f.CallFree)
    (hpool : ∀ (i : Nat) (v : Value), o.program.consts[i]? = some v → v.Signless)
    (hids : o.program.mainVars.toList = List.range n) :
    Setting o.program f.importNames (f.imports.map Import.localName)
      ⟨o, .main, [f.funcNames ++ f.importNames], 0⟩ .initial where
  program := rfl
  pool := hpool
  ids := ⟨n, hids⟩
  main := rfl
  packages := f.packages
  blocks := List.cons_ne_nil [] []
  scopes := by
    show [f.funcNames ++ f.importNames] = _
    rw [File.funcNames, hf.funcs]
    rfl
  next := rfl
  known _ _ hid := nomatch hid
  types _ _ hv := nomatch hv

end Direct

open Direct

/-- The run of a call-free file that compiles and links ends as the evaluator does. -/
theorem File.endsAs_of_link {r : Registry} {folds : Bool} {f : File} {p : Program} {limits : Limits}
    {natives : Natives} {m : Machine} (h : f.compile r folds = .ok p) (hf : f.CallFree)
    (hs : f.Signless folds) (hm : Machine.link p limits natives = .ok m) (w : World) :
    EndsAs (evaluateStmts folds .initial f.stmts) (m.run.exec w) := by
  obtain ⟨hpool, hsmall⟩ := File.clean_of_compile h hf hs
  obtain ⟨o, rfl, rfl, rfl, hcode⟩ := File.code_of_compile h hsmall
  rw [hf.labelled] at hcode
  obtain ⟨S', is, hend, hreads, hstmts, hvars⟩ := hcode.main
  have hnext : o.program.mainVars.size = S'.next := by
    rw [← Array.length_toList, hvars, List.length_range]
  obtain ⟨hbuilds, -⟩ := Machine.link_eq_ok.1 hm
  have hset := setting_initial (o := o) hf hpool hvars
  have hlength : m.globals.size = o.program.mainVars.size := by
    simpa using (List.Forall₂.length_eq hbuilds.globals).symm
  rw [← hbuilds.program] at hset hlength hnext hreads hend
  exact endsAs_run hset hlength hnext hstmts hf.stmts hs hreads hend w

/-- A call-free file that compiles gives a program that links, and its run ends as the evaluator
does: with the values of all variables, or with the error of the same operator. -/
theorem File.run_ends_as_evaluated {r : Registry} {folds : Bool} {f : File} {p : Program}
    (h : f.compile r folds = .ok p) (hf : f.CallFree) (hs : f.Signless folds)
    (hsize : p.code.size < 1 <<< 63) (limits : Limits) (natives : Natives) :
    ∃ m, Machine.link p limits natives = .ok m ∧
      ∀ w, EndsAs (evaluateStmts folds .initial f.stmts) (m.run.exec w) := by
  suffices hlink : ∃ m, Machine.link p limits natives = .ok m by
    obtain ⟨m, hm⟩ := hlink
    exact ⟨m, hm, File.endsAs_of_link h hf hs hm⟩
  obtain ⟨-, hsmall⟩ := File.clean_of_compile h hf hs
  obtain ⟨o, rfl, rfl, rfl, hcode⟩ := File.code_of_compile h hsmall
  have hfuncs : o.program.funcs = #[] := by
    have hcount := File.size_funcs_of_compile h
    rw [hf.funcs, hf.labelled] at hcount
    exact Array.eq_empty_of_size_eq_zero (Nat.le_zero.1 hcount)
  rw [hf.labelled] at hcode
  obtain ⟨S', is, hend, hreads, hstmts, hvars⟩ := hcode.main
  obtain ⟨globals, hglobals⟩ : ∃ vs, Machine.Zeros o.program o.program.mainVars vs :=
    Machine.exists_zeros fun id hid => by
      rw [hvars, List.mem_range] at hid
      exact hstmts.leads.vars id (Nat.zero_le _) hid
  refine ⟨⟨o.program, limits, natives, #[], globals⟩, Machine.link_eq_ok.2
    ⟨⟨rfl, rfl, rfl, hglobals, by rw [hfuncs]; exact .nil⟩, fun _ => ?_⟩⟩
  exact check_of_callFree hf hfuncs rfl hstmts hreads hend
    (Nat.lt_of_le_of_lt hreads.length_le hsize)

/-- Two variables, the first one changed in a block. -/
def Direct.squaring : File := ⟨[], [],
  [.assign .define [.ident "x"] [.binary .add (.lit ⟨.int, "1"⟩) (.lit ⟨.int, "2"⟩)],
   .block [.assign (.update .mul) [.ident "x"] [.ident "x"]],
   .assign .define [.ident "y"] [.binary .lt (.ident "x") (.lit ⟨.int, "5"⟩)]]⟩

theorem File.squaring_ends_as_evaluated : ∃ p m, squaring.compile .empty true = .ok p ∧
    squaring.CallFree ∧ squaring.Signless true ∧ p.code.size < 1 <<< 63 ∧
    Machine.link p {} .empty = .ok m ∧
    ∀ w, EndsAs (evaluateStmts true .initial squaring.stmts) (m.run.exec w) := by
  have hcompiles : (squaring.compile .empty true).toOption.any (·.code.size < 1 <<< 63) = true := by
    decide +kernel
  cases hp : squaring.compile .empty true with
  | error e =>
    rw [hp] at hcompiles
    cases hcompiles
  | ok p =>
    rw [hp] at hcompiles
    have hsize : p.code.size < 1 <<< 63 := by simpa [Except.toOption] using hcompiles
    have hf : squaring.CallFree := by decide +kernel
    have hs : squaring.Signless true := by decide +kernel
    obtain ⟨m, hm, hruns⟩ := File.run_ends_as_evaluated hp hf hs hsize {} .empty
    exact ⟨p, m, rfl, hf, hs, hsize, hm, hruns⟩

end StackScript
