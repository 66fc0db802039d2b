import StackScript.Proofs.Balance.Compiled
import StackScript.Proofs.Running.Variables
import StackScript.Proofs.Typing.Moments
import StackScript.Proofs.Typing.PointerFree

/-!
# Typed files

A file without pointer syntax that compiles is type-safe, whatever typed host functions it runs with
(`File.type_safe_of_compile`): variables and parameters fit their types at every moment of a run, and a
run that fails does so in a host function or in one of a few ways that are left to typed code.
-/

namespace StackScript

/-! ## Linking -/

section

variable {o : Output} {f : File}

/-- The variables of a function have descriptors: its results, and those that its statements
declare. -/
theorem FuncCode.isSome_var {id : Nat} {g : FuncInfo} (h : FuncCode o id g) :
    ∀ i ∈ g.vars.toList, (o.program.vars[i]?).isSome := by
  obtain @⟨sig, body, scopes, S', is, entry, first, -, -, -, hresults, hvars, hnext, -, -, -, -, -, -,
    hcode, -⟩ := h
  intro i hi
  rw [hvars, List.mem_range'_1] at hi
  obtain ⟨hle, hlt⟩ := hi
  by_cases hresult : i < first + sig.results.length
  · have hindex : i - first < sig.results.length := by omega
    obtain ⟨id', d, hid, hd, -⟩ := hresults _ _ (List.getElem?_eq_getElem hindex)
    have hid' : id' = i := by
      rw [← Array.getElem?_toList, hvars, List.getElem?_range' (by omega), Option.some.injEq] at hid
      omega
    rw [← hid', hd]
    rfl
  · exact hcode.leads.vars i (Nat.not_lt.1 hresult) (hnext.symm ▸ hlt)

/-- A compiled program can be linked. -/
theorem FileCode.exists_builds (h : FileCode o f) (limits : Limits) (natives : Natives) :
    ∃ m, Machine.Builds o.program limits natives m := by
  refine Machine.exists_builds_of_vars (fun id hid => ?_) (fun g hg => ?_) limits natives
  · obtain ⟨S', is, -, -, hstmts, hvars⟩ := h.main
    rw [hvars, List.mem_range] at hid
    exact hstmts.leads.vars id (Nat.zero_le _) hid
  · obtain ⟨id, hid, rfl⟩ := List.getElem_of_mem hg
    have hfunc : o.program.funcs[id]? = some o.program.funcs.toList[id] := by
      rw [← Array.getElem?_toList, List.getElem?_eq_getElem hid]
    cases hstop : o.program.funcs.toList[id].stop with
    | none =>
      rw [h.idle id _ hfunc hstop]
      exact fun i hi => absurd hi List.not_mem_nil
    | some stop => exact (h.funcs id _ hfunc (by rw [hstop]; rfl)).isSome_var

theorem Signature.Few.short {sig : Signature} (h : sig.Few) : sig.Short := by
  obtain ⟨ps, rs, v⟩ := sig
  have hlimit : mostTypes < Balance.mostPushed := by decide
  exact ⟨Nat.lt_trans h.1.1 hlimit, Nat.lt_trans h.1.2 hlimit⟩

theorem Signature.Proper.short {D : TypeNames} {sig : Signature} (h : sig.Proper D) : sig.Short := by
  have hlimit : mostTypes < Balance.mostPushed := by decide
  exact ⟨Nat.lt_trans h.few.1 hlimit, Nat.lt_trans h.few.2 hlimit⟩

theorem Registry.Proper.sorted {D : TypeNames} {r : Registry} (h : r.Proper D) : r.Sorted where
  funcs _ _ hx := (h.funcs _ (Array.mem_of_getElem? hx)).2
  funcvs _ _ hx := (h.funcvs _ (Array.mem_of_getElem? hx)).2

/-- Heights can be counted in a program that is not too long. -/
theorem Program.Modest.countable {D : TypeNames} {p : Program} {r : Registry} (h : p.Modest)
    (hr : r.Proper D) : p.Countable r.natives where
  code := Nat.le_trans (Nat.le_of_lt h.code) (by decide)
  sigs id sig hsig := (h.sigs id sig hsig).short
  funcs _ _ hx := (hr.funcs _ (Array.mem_of_getElem? hx)).1.short
  funcvs _ _ hx := (hr.funcvs _ (Array.mem_of_getElem? hx)).1.short

end

/-- A program that the compiler gives links with the host functions it was compiled with, whether the
machine checks it or not. -/
theorem File.exists_link {r : Registry} {folds : Bool} {f : File} {p : Program}
    (h : f.compile r folds = .ok p) (hsmall : p.Small) (hsorted : r.Sorted)
    (hcount : p.Countable r.natives) (limits : Limits) :
    ∃ m, Machine.link p limits r.natives = .ok m := by
  obtain ⟨o, -, -, rfl, hcode⟩ := File.code_of_compile h hsmall
  obtain ⟨m, hm⟩ := hcode.exists_builds limits r.natives
  exact ⟨m, Machine.link_eq_ok.2 ⟨hm, fun _ => File.check_of_compile h hsmall hsorted hcount⟩⟩

/-! ## Runs -/

/-- What the host adds to a run from the world `w` is typed: its functions, the calls that they make, and
the places that there are from the start. -/
structure Setting.Hosted (g : Setting) (may : HostRely) (w : World) : Prop where
  packs : g.lax ∨ g.Packs
  natives : g.out.registry.natives.Typed g
  may : may.Typed g
  world : w.store.Typed g g.cells

/-- A file that compiles is typed, with host functions that pack what they are called with as their
signatures say. -/
theorem FileCode.compiled {g : Setting} {D : TypeNames} {f : File} (hcode : FileCode g.out f.labelled.1)
    (ho : g.out.Complete) (hdivides : g.out.Divides f.labelled.1 f.labelled.2)
    (hmodest : g.out.program.Modest) (hr : g.out.registry.Proper D)
    (hpacks : g.lax ∨ g.Packs) (hfree : g.lax ∨ f.PointerFree) : g.Compiled D f.labelled.1 f.labelled.2 where
  code := hcode
  divides := hdivides
  registry := hr
  modest := hmodest
  packs := hpacks
  free := hfree.imp_right fun h => h.labelled.2
  freeFuncs _ _ hinfo hstop := hfree.imp_right fun h =>
    hcode.pointerFree ho hdivides f.labels_labelled h.labelled hinfo hstop

/-- The machine that a program is linked to runs with typed host functions, and its frames hold zero
values at first. -/
theorem Machine.typed_of_link {g : Setting} {limits : Limits} {m : Machine}
    (hlink : Machine.link g.out.program limits g.out.registry.natives = .ok m)
    (hn : g.out.registry.natives.Typed g) : m.Typed g := by
  obtain ⟨hbuilds, -⟩ := Machine.link_eq_ok.1 hlink
  refine ⟨hbuilds.program, hbuilds.natives, hn, fun id f hf => ?_, hbuilds.globals⟩
  rw [← Array.getElem?_toList] at hf
  obtain ⟨vars, hvars, hzeros⟩ := exists_getElem?_of_forall₂ hbuilds.frames hf
  exact ⟨vars, by rwa [← Array.getElem?_toList], hzeros⟩

/-- A file without pointer syntax that compiles is type-safe in every world that is typed, with host
functions that give values of the declared types to script functions and take such values from them. -/
theorem File.type_safe_of_compile {r : Registry} {folds : Bool} {f : File} {p : Program} {D : TypeNames}
    (h : f.compile r folds = .ok p) (hsmall : p.Small) (hmodest : p.Modest) (hfree : f.PointerFree)
    (hr : r.Proper D) : ∃ o : Output, o.registry = r ∧ o.folds = folds ∧ o.program = p ∧
      FileCode o f.labelled.1 ∧
      ∀ (limits : Limits) (may : HostRely) (w : World) (host : Nat → Option Signature)
        (stops : Stop Cause → Prop) (cells : Array Ty),
        Setting.Hosted ⟨o, host, stops, False, w.store, cells⟩ may w →
        ∃ m, Machine.link p limits r.natives = .ok m ∧
          m.TypeSafe p may w stops (∃ i sig, host i = some sig) := by
  obtain ⟨o, rfl, hfolds, rfl, hcode, ho, hdivides, -⟩ := File.output_of_compile h hsmall
  refine ⟨o, rfl, hfolds, rfl, hcode, fun limits may w host stops cells hg => ?_⟩
  obtain ⟨m, hlink⟩ := File.exists_link h hsmall hr.sorted (hmodest.countable hr) limits
  have hcompiled : Setting.Compiled ⟨o, host, stops, False, w.store, cells⟩ D f.labelled.1 f.labelled.2 :=
    FileCode.compiled hcode ho hdivides hmodest hr hg.packs (.inr hfree)
  exact ⟨m, hlink, Machine.typeSafe hcompiled (Machine.typed_of_link hlink hg.natives) hg.world hg.may
    not_false⟩

namespace Counting

/-- The signature that the packages declare for `twice`. -/
def signature : Signature := ⟨[.func ⟨[], [], false⟩], [], false⟩

def host (i : Nat) : Option Signature := if i = 0 then some signature else none

/-- Runs that start from nothing, with a host function that does not stop by itself. -/
def setting (o : Output) (lax : Prop) : Setting :=
  ⟨o, host, fun _ => False, lax, (default : World).store, #[]⟩

/-- Host code calls functions without parameters and results that there are. -/
def callbacks (o : Output) : HostRely := fun w w' c args =>
  w' = w ∧ args = [] ∧ c.Sound (setting o False) w.store ∧ c.sig = ⟨[], [], false⟩

theorem modest : program.Modest := by
  have hsigs : ∀ f ∈ program.funcs, f.sig.all fun sig => sig.params.isEmpty && sig.results.isEmpty := by
    decide +kernel
  refine ⟨by decide +kernel, fun id sig hsig => ?_⟩
  obtain ⟨f, hf, hsig⟩ := Option.bind_eq_some_iff.1 hsig
  have hempty := hsigs f (Array.mem_of_getElem? hf)
  rw [hsig, Option.all_some, Bool.and_eq_true, List.isEmpty_iff, List.isEmpty_iff] at hempty
  obtain ⟨ps, rs, variadic⟩ := sig
  obtain ⟨rfl, rfl⟩ := hempty
  exact ⟨⟨by decide, by decide⟩, trivial, trivial⟩

theorem proper (D : TypeNames) : registry.Proper D := by
  have hfuncs : registry.natives.funcs = #[⟨"box", "twice", ⟨signature, .host 0⟩⟩] := rfl
  have hvars : registry.natives.vars = #[] := by rfl
  have hfuncvs : registry.natives.funcvs = #[] := by rfl
  have htypes : ∀ x ∈ registry.packages, x.2.types = [] := by decide +kernel
  refine ⟨fun path name t h => ?_, fun x hx => ?_, fun x hx => ?_, fun x hx => ?_⟩
  · obtain ⟨package, hpackage, hlookup⟩ := Option.bind_eq_some_iff.1 h
    rw [htypes _ (lookup_mem hpackage)] at hlookup
    cases hlookup
  · exact absurd (hvars ▸ hx) (Array.not_mem_empty x)
  · rw [hfuncs, List.mem_toArray, List.mem_singleton] at hx
    subst hx
    exact ⟨⟨⟨by decide, by decide⟩, ⟨⟨⟨by decide, by decide⟩, trivial, trivial⟩, trivial⟩, trivial⟩, rfl⟩
  · exact absurd (hfuncvs ▸ hx) (Array.not_mem_empty x)

theorem typed_twice (g : Setting) : HostBody.Typed g signature twice := by
  intro call cells args w hcall hw hargs
  obtain ⟨v, rfl, hv⟩ : ∃ v, args = [v] ∧ v.Has g cells w.store (.func ⟨[], [], false⟩) := by
    cases hargs with
    | cons hv hvs =>
      cases hvs
      exact ⟨_, rfl, hv⟩
  unfold twice
  split
  · rename_i f heq
    cases heq
    obtain hnil | ⟨c, hc, -⟩ | ⟨f', hf', hsound, hsig⟩ := hv.func rfl
    · cases hnil
    · cases hc
    · cases hf'
      have hempty (cells : Array Ty) (s : Store) : AreOf g cells s [] f.sig.params := hsig ▸ .nil
      have hresults : f.sig.results = signature.results := by rw [hsig]; rfl
      refine (hcall cells f [] w hw rfl hsound (hempty _ _)).bind fun cells₁ vs w₁ hlater _ => ?_
      rw [← hresults]
      exact hcall cells₁ f [] w₁ hlater.typed hlater.depth (hsound.mono hlater.grows) (hempty _ _)
  · exact ⟨cells, .refl hw, .nil⟩

theorem hosted {o : Output} (ho : o.registry = registry) (lax : Prop) :
    (setting o lax).Hosted (callbacks o) default := by
  have hfuncs : registry.natives.funcs = #[⟨"box", "twice", ⟨signature, .host 0⟩⟩] := rfl
  have hvars : registry.natives.vars = #[] := by rfl
  have hfuncvs : registry.natives.funcvs = #[] := by rfl
  have hnatives : (setting o lax).out.registry.natives = registry.natives := by rw [← ho]; rfl
  have honly {i : Nat} {sig : Signature} (hi : (setting o lax).host i = some sig) :
      i = 0 ∧ sig = signature := by
    have hi : (if i = 0 then some signature else none) = some sig := hi
    split at hi <;> cases hi
    exact ⟨‹_›, rfl⟩
  refine ⟨.inr ⟨fun i sig hi hvariadic => ?_, ?_⟩, hnatives ▸ ⟨fun i sig hi => ?_, fun x hx => ?_,
    fun x hx => ?_, fun x hx => ?_⟩, fun cells w w' c args hmay hw => ?_, fun p t hp => ?_,
    fun frame hframe => ?_, .refl _, .refl _⟩
  · cases (honly hi).2
    cases hvariadic
  · rintro t name addr variadic sig ⟨-, -, hcalls⟩ rfl
    cases hcalls with
    | variadic hf =>
      rw [hnatives, hfuncvs] at hf
      cases hf
  · obtain ⟨rfl, rfl⟩ := honly hi
    exact ⟨twice, rfl, typed_twice _⟩
  · rw [hfuncs, List.mem_toArray, List.mem_singleton] at hx
    subst hx
    rfl
  · exact absurd (hfuncvs ▸ hx) (Array.not_mem_empty x)
  · exact absurd (hvars ▸ hx) (Array.not_mem_empty x)
  · obtain ⟨rfl, rfl, hc, hsig⟩ := hmay
    exact ⟨cells, .refl hw, ⟨hc.nested, hc.sig, hc.ended⟩, hsig ▸ .nil⟩
  · cases p <;> cases hp
  · exact absurd hframe (Array.not_mem_empty frame)

/-- A run of it keeps its types: `x` is an `int` in both calls and at the end. -/
theorem keeps_types : File.counting.compile registry true = .ok program ∧ program.Small ∧
    program.Modest ∧ File.counting.PointerFree ∧ registry.Proper (fun _ _ => .any) ∧
    ∃ (o : Output) (m : Machine), o.program = program ∧ (setting o False).Hosted (callbacks o) default ∧
      Machine.link program {} registry.natives = .ok m ∧
      m.TypeSafe program (callbacks o) default (fun _ => False) (∃ i sig, host i = some sig) := by
  have hfree : File.counting.PointerFree := ⟨fun _ hd => absurd hd List.not_mem_nil, by
    simp [File.counting, stmtsPointerFree, Stmt.PointerFree, exprsPointerFree, Expr.PointerFree]⟩
  obtain ⟨o, hr, -, ho, -, hsafe⟩ :=
    File.type_safe_of_compile compiles small modest hfree (proper fun _ _ => .any)
  obtain ⟨m, hlink, hm⟩ := hsafe {} (callbacks o) default host (fun _ => False) #[] (hosted hr False)
  exact ⟨compiles, small, modest, hfree, proper _, o, m, ho, hosted hr False, hlink, hm⟩

end Counting

/-- Whether a run of the file with the packages of a registry ends with a failure of the text. -/
def File.failsWith (f : File) (r : Registry) (text : String) : Bool :=
  match f.compile r true with
  | .error _ => false
  | .ok p =>
    match Machine.link p {} r.natives with
    | .error _ => false
    | .ok m =>
      match (m.run.exec default).1 with
      | .error (.error e) => e.cause.text == text
      | _ => false

/-- `x := box.GetList(); y := x.Sum()`. -/
def File.summing : File :=
  ⟨[⟨"box", none⟩], [], [.assign .define [.ident "x"] [.call (.select (.ident "box") "GetList") [] false],
    .assign .define [.ident "y"] [.call (.select (.ident "x") "Sum") [] false]]⟩

/-- `box.Put(1)`. -/
def File.putting : File :=
  ⟨[⟨"box", none⟩], [], [.expr (.call (.select (.ident "box") "Put") [.lit ⟨.int, "1"⟩] false)]⟩

/-- `x := box.Both()`. -/
def File.pairing : File :=
  ⟨[⟨"box", none⟩], [], [.assign .define [.ident "x"] [.call (.select (.ident "box") "Both") [] false]]⟩

namespace Misdeclared

/-- `[]int` by a name. -/
def list : Ty := .named "box" "List" (.slice (.basic (.int .int)))

def getList : HostBody := fun _ _ => pure [.slice 0 (.basic (.int .int)) [.int 1, .int 2]]

def sum : HostBody := fun _ _ => pure [.int 3]

def put : HostBody := fun _ _ => pure []

def both : HostBody := fun _ _ => pure [.int 1, .int 2]

/-- The method `Sum` is variadic in its receiver, `Put` in a parameter that takes no slices, and `Both` is
declared to give one value. -/
def registry : Registry := (Registry.bare #[getList, sum, put, both]).after
  [.package "box", .types "box" [list],
    .funcs "box" [("GetList", ⟨⟨[], [list], false⟩, .host 0⟩),
      ("Both", ⟨⟨[], [.basic (.int .int)], false⟩, .host 3⟩)],
    .funcvs "box" [("(List).Sum", ⟨⟨[list], [.basic (.int .int)], true⟩, .host 1⟩),
      ("Put", ⟨⟨[.basic (.int .int)], [], true⟩, .host 2⟩)]]

/-- None of the host functions fails, and they give nothing but values of the declared types. Still the
machine refuses the receiver of `Sum` among the numbers to add, the slice for `Put`, and the values of
`Both`. -/
theorem machine_refuses :
    (∀ (g : Setting) (cells : Array Ty) (call : Invoker) (args : List Value) (w : World),
      (∃ v, (getList call args).exec w = (.ok [v], w) ∧ v.Has g cells w.store list) ∧
      (∃ v, (sum call args).exec w = (.ok [v], w) ∧ v.Has g cells w.store (.basic (.int .int))) ∧
      (put call args).exec w = (.ok [], w) ∧
      ∃ vs, (both call args).exec w = (.ok vs, w) ∧
        ∀ v ∈ vs, v.Has g cells w.store (.basic (.int .int))) ∧
    File.summing.PointerFree ∧ File.putting.PointerFree ∧ File.pairing.PointerFree ∧
    File.summing.failsWith registry "type error: expected int, got []int" = true ∧
    File.putting.failsWith registry "type error: expected int, got []any" = true ∧
    File.pairing.failsWith registry "native function returned 2 values, signature declares 1" = true := by
  have hints {g : Setting} {cells : Array Ty} {s : Store} :
      ∀ v ∈ [Value.int 1, .int 2], v.Has g cells s (.basic (.int .int)) := by
    simp only [List.mem_cons, List.not_mem_nil, or_false]
    rintro v (rfl | rfl) <;> exact Value.has_basic rfl rfl
  refine ⟨fun g cells call args w => ⟨⟨_, rfl, Value.has_slice rfl hints⟩, ⟨_, rfl, Value.has_basic rfl rfl⟩,
    rfl, _, rfl, hints⟩, ?_, ?_, ?_, by decide +kernel, by decide +kernel, by decide +kernel⟩
  all_goals exact ⟨fun _ hd => absurd hd List.not_mem_nil, by
    simp [File.summing, File.putting, File.pairing, stmtsPointerFree, Stmt.PointerFree,
      exprsPointerFree, Expr.PointerFree]⟩

end Misdeclared

end StackScript
