import StackScript.Proofs.Folding.Failing
import StackScript.Proofs.Hosting.Registering
import StackScript.Proofs.Translation.Files

/-!
# Defects of the compiler

The compiler reports `Internal` where it would be at fault itself. Where symbols of the registry have
entries and methods take receivers, one way to such a report is left: an operator on constants that is
folded, and that shifts by a bound count which is negative (`File.shiftsBack_of_defect`). Every history
of registrations leaves such a registry, as long as the host gives its methods receivers
(`Registry.complete_after`).
-/

namespace StackScript

/-! ## Reports -/

theorem ConstantError.code_ne {e : ConstantError} (h : e.OfFile) : e.code ≠ "Internal" := by
  cases e with
  | operands e => cases e <;> exact of_decide_eq_true rfl
  | evaluation e => exact h.elim
  | _ => exact of_decide_eq_true rfl

/-- A stop that is reported as a defect is excused. -/
theorem Compile.Stops.excused {env : CompileEnv} {e : CompileError} (h : Stops env (.error e))
    (hcode : e.code = "Internal") : ∃ what, e = .internal what ∧ Excused env what := by
  cases e with
  | internal what => exact ⟨what, rfl, h⟩
  | constant e => exact absurd hcode (ConstantError.code_ne h)
  | operands e => cases e <;> exact absurd hcode (of_decide_eq_true rfl)
  | build e => exact h.elim
  | _ => exact absurd hcode (of_decide_eq_true rfl)

/-- A file is reported as a defect of the compiler for a constant that folding shifts by a bound count
which is negative, and for nothing else. -/
theorem File.shiftsBack_of_defect {r : Registry} {folds : Bool} {f : File} {e : CompileError}
    (hr : r.Complete) (h : f.compile r folds = .error (.error e)) (hcode : e.code = "Internal") :
    folds = true ∧ ∃ op x y n, Constant.ShiftsBack op x y n ∧
      e = .internal (EvalError.negativeShift n).message := by
  obtain hstops | ⟨name, hbuild⟩ := File.stops_of_compile h
  · obtain ⟨what, rfl, ⟨hfolds, op, x, y, err, hfold, rfl⟩ | hincomplete⟩ := hstops.excused hcode
    · obtain ⟨n, hback, rfl⟩ := Constant.fold_eq_evaluation_iff.1 hfold
      exact ⟨hfolds, op, x, y, n, hback, rfl⟩
    · exact (hincomplete hr).elim
  · cases hbuild
    exact absurd hcode (of_decide_eq_true rfl)

/-- A shift of one by the distance of two characters, back from the first. -/
def File.shiftingBack : File :=
  ⟨[], [], [.assign .define [.ident "x"] [.binary .shl (.lit ⟨.int, "1"⟩)
    (.binary .sub (.lit ⟨.char, "'a'"⟩) (.lit ⟨.char, "'b'"⟩))]]⟩

example : (match File.shiftingBack.compile (Registry.bare #[]) true with
    | .error (.error e) => e.code
    | _ => "") = "Internal" := by
  decide +kernel

/-! ## Registries without defects -/

def HostItem.sig? : HostItem → Option Signature
  | .var .. => none
  | .func f | .funcv f => some f.sig

/-- A function that is registered as a method takes a receiver. -/
def HostEntry.Receives (e : HostEntry) : Prop :=
  ∀ ptrs type name sig, e.name = Compile.methodKey ptrs type name → e.item.sig? = some sig →
    sig.params ≠ []

namespace Registry

variable {r : Registry} {es : List HostEntry}

theorem Records.complete (h : r.Records es) (hr : r.natives.Addressable) (hes : ∀ e ∈ es, e.Receives) :
    r.Complete where
  entry path name x hx := by
    obtain ⟨e, -, -, -, he⟩ := h.find? hr hx
    obtain ⟨addr, kind⟩ := x
    cases kind <;>
    · obtain ⟨_, hentry, -⟩ := Option.map_eq_some_iff.1 he
      exact Extends.lt_of_getElem? hentry
  receiver t name addr variadic sig hm := by
    cases hm with
    | mk hstrip hfind hcalls =>
      obtain ⟨e, he, -, hname, hentry⟩ := h.find? hr hfind
      refine hes e he _ _ _ sig hname ?_
      cases hcalls with
      | fixed hf | variadic hf =>
        obtain ⟨f, hf', rfl⟩ := Option.map_eq_some_iff.1 hentry
        cases hf.symm.trans hf'
        rfl

/-- Whatever is registered, in any order, symbols have entries. -/
theorem complete_after (bodies : Array HostBody) (qs : List Request)
    (hsize : ((bare bodies).after qs).natives.Addressable)
    (hlog : ∀ e ∈ (bare bodies).log qs, e.Receives) : ((bare bodies).after qs).Complete :=
  ((records_bare bodies).after qs).complete hsize hlog

end Registry

end StackScript
