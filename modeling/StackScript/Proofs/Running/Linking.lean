import StackScript.Machine.Exec
import StackScript.Proofs.Ensures
import StackScript.Proofs.Lists

/-!
# Linked programs

A frame holds the zero value of each of its variables at first. A program is linked if the variables
of its frames have descriptors and, where the limits ask for it, if it passes the balance check.
-/

namespace StackScript

theorem Program.func_eq_ok {p : Program} {id : Nat} {f : FuncInfo} :
    p.func id = .ok f ↔ p.funcs[id]? = some f := by
  unfold Program.func
  cases p.funcs[id]? with
  | some g =>
    exact ⟨fun h => congrArg some (Except.ok.inj h), fun h => congrArg Except.ok (Option.some.inj h)⟩
  | none => exact ⟨fun h => (nomatch h), fun h => (nomatch h)⟩

/-- Host tasks act on the world of a thread. -/
theorem Run.exec_onWorld {α : Type} (t : HostTask α) (s : Thread) : (Run.onWorld t).exec s =
    ((t.exec s.world).1, ⟨(t.exec s.world).2, s.stack, s.steps, s.depth⟩) := rfl

namespace Machine

variable {p : Program} {limits : Limits} {natives : Natives} {m : Machine}

/-- The values are the zeros of some variables. -/
def Zeros (p : Program) (vars : Array Nat) (vs : Array Value) : Prop :=
  List.Forall₂ (fun id v => ∃ d, p.vars[id]? = some d ∧ v = .zero d.ty) vars.toList vs.toList

theorem zeros_eq_ok {vars : Array Nat} {vs : Array Value} :
    zeros p vars = .ok vs ↔ Zeros p vars vs := by
  rw [zeros, mapM_toList_eq_ok, Zeros]
  have hone (id : Nat) (v : Value) : (do return .zero (← p.var id).ty : Except Fault Value) = .ok v ↔
      ∃ d, p.vars[id]? = some d ∧ v = .zero d.ty := by
    unfold Program.var
    cases p.vars[id]? with
    | none => exact ⟨fun h => (nomatch h), fun ⟨_, h, _⟩ => (nomatch h)⟩
    | some d =>
      constructor
      · rintro ⟨⟩
        exact ⟨d, rfl, rfl⟩
      · rintro ⟨_, ⟨⟩, rfl⟩
        rfl
  simp only [hone]

/-- Variables that have descriptors have zeros. -/
theorem exists_zeros {vars : Array Nat} (h : ∀ id ∈ vars.toList, (p.vars[id]?).isSome) :
    ∃ vs, Zeros p vars vs := by
  obtain ⟨vars⟩ := vars
  induction vars with
  | nil => exact ⟨#[], .nil⟩
  | cons id vars ih =>
    obtain ⟨vs, hvs⟩ := ih fun id' h' => h id' (by simp [h'])
    obtain ⟨d, hd⟩ := Option.isSome_iff_exists.1 (h id (by simp))
    exact ⟨⟨.zero d.ty :: vs.toList⟩, .cons ⟨d, hd, rfl⟩ hvs⟩

/-- A program with its frames. -/
structure Builds (p : Program) (limits : Limits) (natives : Natives) (m : Machine) : Prop where
  program : m.program = p
  limits : m.limits = limits
  natives : m.natives = natives
  globals : Zeros p p.mainVars m.globals
  frames : List.Forall₂ (fun g vs => Zeros p g.vars vs) p.funcs.toList m.frames.toList

theorem build_eq_ok : build p limits natives = .ok m ↔ Builds p limits natives m := by
  have hframes (frames : Array (Array Value)) :
      (p.funcs.mapM fun g => zeros p g.vars) = .ok frames ↔
        List.Forall₂ (fun g vs => Zeros p g.vars vs) p.funcs.toList frames.toList := by
    rw [mapM_toList_eq_ok]
    simp only [zeros_eq_ok]
  constructor
  · intro h
    unfold build at h
    obtain ⟨frames, hf, h⟩ := bind_eq_ok h
    obtain ⟨globals, hg, h⟩ := bind_eq_ok h
    cases h
    exact ⟨rfl, rfl, rfl, zeros_eq_ok.1 hg, (hframes frames).1 hf⟩
  · obtain ⟨p', limits', natives', frames, globals⟩ := m
    rintro ⟨rfl, rfl, rfl, hg, hf⟩
    unfold build
    rw [(hframes frames).2 hf, zeros_eq_ok.2 hg]
    rfl

/-- A program whose frames list variables that have descriptors has frames. -/
theorem exists_builds_of_vars (hmain : ∀ id ∈ p.mainVars.toList, (p.vars[id]?).isSome)
    (hvars : ∀ g ∈ p.funcs.toList, ∀ id ∈ g.vars.toList, (p.vars[id]?).isSome) (limits : Limits)
    (natives : Natives) : ∃ m, Builds p limits natives m := by
  obtain ⟨globals, hglobals⟩ := exists_zeros hmain
  obtain ⟨frames, hframes⟩ : ∃ frames : List (Array Value),
      List.Forall₂ (fun (g : FuncInfo) vs => Zeros p g.vars vs) p.funcs.toList frames := by
    generalize p.funcs.toList = gs at hvars
    induction gs with
    | nil => exact ⟨[], .nil⟩
    | cons g gs ih =>
      obtain ⟨vs, hvs⟩ := exists_zeros (hvars g List.mem_cons_self)
      obtain ⟨frames, hframes⟩ := ih fun k hk => hvars k (List.mem_cons_of_mem g hk)
      exact ⟨vs :: frames, .cons hvs hframes⟩
  exact ⟨⟨p, limits, natives, frames.toArray, globals⟩, rfl, rfl, rfl, hglobals, hframes⟩

/-- What is linked was built, and passed the check where the limits ask for it. -/
theorem link_eq_ok : link p limits natives = .ok m ↔ Builds p limits natives m ∧
    (limits.verifyStack = true → Balance.check p (.ofNatives natives) = .ok ()) := by
  have hbuild : ((build p limits natives).mapError .fault : Except (Stop RuntimeError) Machine) =
      .ok m ↔ Builds p limits natives m := by
    rw [← build_eq_ok]
    cases build p limits natives with
    | error f => exact ⟨fun h => (nomatch h), fun h => (nomatch h)⟩
    | ok m' =>
      show (Except.ok m' : Except (Stop RuntimeError) Machine) = .ok m ↔
        (Except.ok m' : Except Fault Machine) = .ok m
      rw [Except.ok.injEq, Except.ok.injEq]
  unfold link
  cases hverify : limits.verifyStack with
  | false => simpa using hbuild
  | true =>
    simp only [if_true, forall_const]
    cases hcheck : Balance.check p (.ofNatives natives) with
    | error e =>
      refine ⟨fun h => ?_, fun h => (nomatch h.2)⟩
      cases e <;> cases h
    | ok u => simpa using hbuild

/-- The machine with host functions that do something else. -/
def withBodies (m : Machine) (bodies : Array HostBody) : Machine :=
  { m with natives := { m.natives with bodies } }

/-! ## The main body -/

/-- The world with the frame of the main body. -/
def entered (m : Machine) (w : World) : World :=
  { w with store := { w.store with frames := w.store.frames.push ⟨none, none, 0, m.globals⟩ } }

/-- A run gives the frame of the main body, whose words it ran on an empty stack. -/
theorem exec_run (w : World) : m.run.exec w =
    (((m.exec m.callTop w.store.frames.size m.program.mainEnd 0).exec ⟨m.entered w, #[], 0, 0⟩).1.map
        fun _ => w.store.frames.size,
      ((m.exec m.callTop w.store.frames.size m.program.mainEnd 0).exec ⟨m.entered w, #[], 0, 0⟩).2.world) :=
  rfl

end Machine

end StackScript
