import StackScript.Proofs.Running.Limits
import StackScript.Proofs.Running.Straight
import StackScript.Proofs.Typing.Declared
import StackScript.Proofs.Typing.Steps

/-!
# Typed runs

From a typed world typed code leads to typed worlds, or stops as it may. Calls of script functions,
from code or from host functions, are typed at every depth (`Machine.typed_call`), by induction on the
room that is left for them; so is then the main body, which leaves nothing on the stack
(`Machine.typed_main`).
-/

namespace StackScript

/-! ## Tasks -/

section

variable {g : Setting} {cells cells' cells'' : Array Ty} {α β : Type}

theorem Thread.Later.trans {t t' t'' : Thread} (h : t.Later g cells cells' t')
    (h' : t'.Later g cells' cells'' t'') : t.Later g cells cells'' t'' :=
  ⟨h.world.trans h'.world, h'.depth.trans h.depth⟩

/-- A task that publishes another depth while it runs. -/
theorem World.Later.atDepth {w w' : World} {depth : Nat}
    (h : (w.publishing depth).Later g cells cells' w') :
    w.Later g cells cells' (w'.publishing w.store.hostDepth) := by
  have hgrows : w.store.Grows (w.publishing depth).store := .of_eq rfl rfl
  exact ⟨h.typed.publishing _, h.cells, hgrows.trans (h.grows.trans (.of_eq rfl rfl)), rfl⟩

namespace HostTask.Types

variable {t : HostTask α} {w : World} {Q : Array Ty → α → World → Prop}

theorem pure {a : α} (hw : w.store.Typed g cells) (h : Q cells a w) :
    HostTask.Types g cells (Pure.pure a) w Q := ⟨cells, .refl hw, h⟩

theorem bind {f : α → HostTask β} {R : Array Ty → β → World → Prop} (h : HostTask.Types g cells t w Q)
    (hf : ∀ cells' a w', w.Later g cells cells' w' → Q cells' a w' →
      HostTask.Types g cells' (f a) w' R) : HostTask.Types g cells (t >>= f) w R := by
  refine Task.ensures_bind.2 (Task.Ensures.imp h fun a w' ⟨cells', hlater, ha⟩ => ?_)
  exact (hf cells' a w' hlater ha).mono
    (fun _ _ ⟨cells'', hlater', hb⟩ => ⟨cells'', hlater.trans hlater', hb⟩)
    fun _ _ ⟨⟨cells'', hlater'⟩, he⟩ => ⟨⟨cells'', hlater.trans hlater'⟩, he⟩

theorem fault (hw : w.store.Typed g cells) {x : Fault} (h : g.Allows (.fault x)) :
    HostTask.Types g cells (Task.fault x : HostTask α) w Q := ⟨⟨cells, .refl hw⟩, h⟩

end HostTask.Types

/-- From a thread in a typed world the task leads to a later one, with a result of `Q`, or stops as it
may. -/
def Run.Types (g : Setting) (cells : Array Ty) (r : Run α) (t : Thread)
    (Q : Array Ty → α → Thread → Prop) : Prop :=
  r.Ensures t (fun a t' => ∃ cells', t.Later g cells cells' t' ∧ Q cells' a t')
    fun e t' => t.world.Leads g cells t'.world ∧ g.Allows e

namespace Run.Types

variable {r : Run α} {t t' : Thread} {Q Q' : Array Ty → α → Thread → Prop}

theorem pure {a : α} (ht : t.world.store.Typed g cells) (h : Q cells a t) :
    Run.Types g cells (Pure.pure a) t Q := ⟨cells, ⟨.refl ht, rfl⟩, h⟩

/-- A task that comes back for certain. -/
theorem of_ok {a : α} (h : r.exec t = (.ok a, t')) (hlater : t.Later g cells cells' t')
    (ha : Q cells' a t') : Run.Types g cells r t Q := by
  unfold Run.Types Task.Ensures
  rw [h]
  exact ⟨cells', hlater, ha⟩

/-- A task that fails for certain, in the world that it found. -/
theorem of_error {e : Stop RuntimeError} (h : r.exec t = (.error e, t'))
    (ht : t.world.store.Typed g cells) (hworld : t'.world = t.world) (he : g.Allows e) :
    Run.Types g cells r t Q := by
  unfold Run.Types Task.Ensures
  rw [h]
  exact ⟨⟨cells, hworld.symm ▸ .refl ht⟩, he⟩

/-- Two tasks that end alike, the second one from a later thread. -/
theorem of_exec {r' : Run α} (h : r.exec t = r'.exec t') (hlater : t.Later g cells cells' t')
    (hr : Run.Types g cells' r' t' Q) : Run.Types g cells r t Q := by
  unfold Run.Types Task.Ensures at hr ⊢
  rw [h]
  generalize r'.exec t' = x at hr ⊢
  obtain ⟨e | a, u⟩ := x
  · obtain ⟨⟨cells'', hlater'⟩, he⟩ := hr
    exact ⟨⟨cells'', hlater.world.trans hlater'⟩, he⟩
  · obtain ⟨cells'', hlater', ha⟩ := hr
    exact ⟨cells'', hlater.trans hlater', ha⟩

theorem imp (h : Run.Types g cells r t Q)
    (hQ : ∀ cells' a t', t.Later g cells cells' t' → Q cells' a t' → Q' cells' a t') :
    Run.Types g cells r t Q' :=
  Task.Ensures.imp h fun _ _ ⟨cells', hlater, ha⟩ => ⟨cells', hlater, hQ _ _ _ hlater ha⟩

theorem bind {f : α → Run β} {R : Array Ty → β → Thread → Prop} (h : Run.Types g cells r t Q)
    (hf : ∀ cells' a t', t.Later g cells cells' t' → Q cells' a t' → Run.Types g cells' (f a) t' R) :
    Run.Types g cells (r >>= f) t R := by
  refine Task.ensures_bind.2 (Task.Ensures.imp h fun a t' ⟨cells', hlater, ha⟩ => ?_)
  exact (hf cells' a t' hlater ha).mono
    (fun _ _ ⟨cells'', hlater', hb⟩ => ⟨cells'', hlater.trans hlater', hb⟩)
    fun _ _ ⟨⟨cells'', hlater'⟩, he⟩ => ⟨⟨cells'', hlater.world.trans hlater'⟩, he⟩

theorem within {name : String} (h : Run.Types g cells r t Q) : Run.Types g cells (r.within name) t Q :=
  Task.Ensures.mapError h (fun _ _ ⟨hleads, he⟩ => ⟨hleads, he.within name⟩) fun _ _ he => he

/-- What the host side does to the world of a thread. -/
theorem onWorld {x : HostTask α} {R : Array Ty → α → World → Prop}
    (h : HostTask.Types g cells x t.world R) :
    Run.Types g cells (Run.onWorld x) t fun cells' a t' => t'.stack = t.stack ∧ R cells' a t'.world := by
  unfold Run.Types Task.Ensures
  rw [Run.exec_onWorld]
  unfold HostTask.Types Task.Ensures at h
  generalize x.exec t.world = y at h ⊢
  obtain ⟨e | a, w⟩ := y
  · exact h
  · obtain ⟨cells', hlater, ha⟩ := h
    exact ⟨cells', ⟨hlater, rfl⟩, rfl, ha⟩

end Run.Types

end

/-! ## Calls -/

/-- The thread after a new frame was made. -/
def Thread.framed (t : Thread) (frame : Frame) : Thread :=
  { t with world := { t.world with store := { t.world.store with
      frames := t.world.store.frames.push frame } } }

/-- The thread has values of the types in addition on its stack. -/
def Thread.Gets (t : Thread) (g : Setting) (cells : Array Ty) (ts : List Ty) (t' : Thread) : Prop :=
  ∃ (u : Thread) (vs : List Value), t' = u.above vs ∧ u.stack = t.stack ∧ AreOf g cells t'.world.store vs ts

/-- The thread stands in the code of a body, with some arguments and operands. -/
def Thread.Stands (t : Thread) (g : Setting) (cells : Array Ty) (b : Body) (ctx : Nat)
    (below : List Value) (τ : List Slot) : Prop :=
  ∃ (u : Thread) (args ops : List Value), t = u.holding ops ∧
    Standing g cells b ctx below args τ u ops

/-- How the words of a body end, where those that do not return end at operands `τ`: with values of the
types of the results on top, with the results in their variables, or at the last word. -/
inductive Thread.Ends (t : Thread) (g : Setting) (cells : Array Ty) (b : Body) (ctx : Nat)
    (below : List Value) (τ : List Slot) : Option Nat → Prop
  | ret {σ : List Slot} (hfunc : b.func.isSome)
    (h : t.Stands g cells b ctx below (Slot.values b.results ++ σ)) :
    Ends t g cells b ctx below τ (some b.results.length)
  | retVars {σ : List Slot} (hfunc : b.func.isSome) (h : t.Stands g cells b ctx below σ) :
    Ends t g cells b ctx below τ none
  | last (h : t.Stands g cells b ctx below τ) : Ends t g cells b ctx below τ none

/-- Calls of functions on arguments of their types, on threads where as many functions are active as
`depth` says, leave results of their types in place of the arguments. -/
def Caller.Typed (g : Setting) (depth : Nat) (call : Caller) : Prop :=
  ∀ (cells : Array Ty) (id parent : Nat) (f : FuncInfo) (sig : Signature) (args : List Value)
    (t : Thread), t.world.store.Typed g cells → t.depth = depth → g.Enters id f sig →
    t.world.store.Lineage parent (g.out.nest id).tail → AreOf g cells t.world.store args sig.params →
    Run.Types g cells (call id parent) (t.above args) fun cells' _ t' => t.Gets g cells' sig.results t'

/-- The machine runs the program of the setting with the host functions that it was compiled for, which
are typed, and its frames hold zero values at first. -/
structure Machine.Typed (m : Machine) (g : Setting) : Prop where
  program : m.program = g.out.program
  natives : m.natives = g.out.registry.natives
  typed : g.out.registry.natives.Typed g
  frames : ∀ (id : Nat) (f : FuncInfo), g.out.program.funcs[id]? = some f →
    ∃ vars, m.frames[id]? = some vars ∧ Machine.Zeros g.out.program f.vars vars
  globals : Machine.Zeros g.out.program g.out.program.mainVars m.globals

theorem Machine.Typed.shows {m : Machine} {g : Setting} (h : m.Typed g) : m.Shows g :=
  ⟨h.program, by rw [h.natives], by rw [h.natives], by rw [h.natives]⟩

/-- Arguments of the types of a signature may be given to the function. -/
theorem AreOf.fit {g : Setting} {cells : Array Ty} {s : Store} {vs : List Value} {ts : List Ty}
    (h : AreOf g cells s vs ts) : Value.FitAll vs ts := List.Forall₂.imp (fun _ _ hv => hv.fits) h

namespace Machine

variable {g : Setting} {D : TypeNames} {file : File} {labels : Nat} {m : Machine} {call : Caller}
  {depth : Nat} {cells : Array Ty} {w : World}

section

variable (hcode : FileCode g.out file) (hm : m.Typed g) (hcall : call.Typed g depth)

include hcode hm hcall

/-- A closure that is called back gets a thread of its own. -/
theorem typed_callFresh {c : Closure} {args : List Value} (hw : w.store.Typed g cells)
    (hdepth : w.store.hostDepth = depth) (hc : c.Sound g w.store)
    (hargs : AreOf g cells w.store args c.sig.params) :
    HostTask.Types g cells (m.callFresh call c args) w fun cells' vs w' =>
      AreOf g cells' w'.store vs c.sig.results := by
  obtain ⟨f, hf, hstop⟩ := hc.ended
  have henters : g.Enters c.func f c.sig := ⟨hf, hstop, hc.sig⟩
  have hnum : args.length = f.numIn := by
    rw [FuncInfo.numIn, (Standing.signed_of_enters hcode henters).1, List.Forall₂.length_eq hargs]
  have hfunc := hm.shows.func hf
  have hstart : (⟨w, #[], 0, w.store.hostDepth⟩ : Thread).above args =
      ⟨w, args.toArray, 0, w.store.hostDepth⟩ := by simp [Thread.above]
  have hrun := hcall cells c.func c.parent f c.sig args ⟨w, #[], 0, w.store.hostDepth⟩ hw hdepth henters
    hc.nested hargs
  unfold HostTask.Types Task.Ensures
  rw [exec_callFresh call c args w hfunc hnum]
  unfold Run.Types Task.Ensures at hrun
  rw [hstart] at hrun
  generalize (call c.func c.parent).exec _ = x at hrun ⊢
  obtain ⟨e | a, t⟩ := x
  · exact hrun
  · obtain ⟨cells', hlater, u, vs, rfl, hstack, hvs⟩ := hrun
    refine ⟨cells', hlater.world, ?_⟩
    have hvs' : (u.above vs).stack.toList = vs := by simp [Thread.above, hstack]
    rw [hvs']
    exact hvs

/-- Function values that the host calls are typed. -/
theorem typed_invoke (room : Nat) (hroom : 0 < room ∨ ∃ i sig, g.host i = some sig) :
    Invoker.Typed g depth (m.natives.invoke (m.callFresh call) room) := by
  induction room with
  | zero =>
    obtain ⟨i, sig, hhost⟩ := hroom.resolve_left (Nat.lt_irrefl 0)
    exact fun cells f args w hw _ _ _ => .fault hw (.nesting hhost)
  | succ room ih =>
    intro cells f args w hw hdepth hf hargs
    have hchecked : (HostTask.ofExcept (.ok ()) : HostTask Unit) = pure () := rfl
    have counted {cells' : Array Ty} {vs : List Value} {w' : World} (hlater : w.Later g cells cells' w')
        (hvs : AreOf g cells' w'.store vs f.sig.results) : HostTask.Types g cells'
          (if vs.length ≠ f.sig.results.length then do
            HostTask.fail (.resultCount vs.length f.sig.results.length)
            pure vs
          else pure vs) w' fun cells' vs w' => AreOf g cells' w'.store vs f.sig.results := by
      rw [if_neg (not_not.2 (List.Forall₂.length_eq hvs))]
      exact .pure hlater.typed hvs
    rw [Natives.invoke, Natives.checkArgs_eq_ok_iff.2 hargs.fit, hchecked, pure_bind]
    obtain ⟨sig, i | c⟩ := f
    · obtain ⟨body, hbody, htyped⟩ := hm.typed.bodies i sig hf
      have hexpect : (Task.expect m.natives.bodies[i]? : HostTask HostBody) = pure body := by
        rw [hm.natives, hbody]
        rfl
      have hcalls : Invoker.Typed g w.store.hostDepth (m.natives.invoke (m.callFresh call) room) :=
        hdepth ▸ ih (.inr ⟨i, sig, hf⟩)
      dsimp only
      rw [hexpect, pure_bind]
      exact .bind (htyped _ cells args w hcalls hw hargs) fun _ _ _ hlater hvs => counted hlater hvs
    · obtain ⟨hc, rfl⟩ := hf
      exact .bind (typed_callFresh hcode hm hcall hw hdepth hc hargs)
        fun _ _ _ hlater hvs => counted hlater hvs

omit hcode hm hcall in
/-- Arguments that a function refuses come only from lax code. -/
theorem refused_invoke {f : FuncValue} {args : List Value} {s : Store}
    {Q : Array Ty → List Value → World → Prop} (hargs : f.sig.Offered g cells s args)
    (hfits : ¬Value.FitAll args f.sig.params) (hw : w.store.Typed g cells) :
    HostTask.Types g cells (m.invoke call f args) w Q := by
  obtain ⟨hlax, hlength⟩ := hargs.misfits.resolve_left fun h => hfits h.fit
  obtain ⟨t, v, hcheck⟩ := Natives.exists_checkArgs_eq_error hlength hfits
  unfold HostTask.Types Task.Ensures invoke
  rw [show Natives.hostNesting = 9999 + 1 from rfl, Natives.invoke, hcheck]
  exact ⟨⟨cells, .refl hw⟩, .fails (.inr ⟨hlax, .mismatch ..⟩)⟩

/-- A host function is called with the depth of the thread published. -/
theorem typed_callHost {f : FuncValue} {name : String} {args : List Value} {t : Thread}
    (ht : t.world.store.Typed g cells) (hdepth : t.depth = depth) (hf : f.Sound g t.world.store)
    (hargs : f.sig.Offered g cells t.world.store args) :
    Run.Types g cells (m.callHost call f name args) t fun cells' _ t' =>
      t.Gets g cells' f.sig.results t' := by
  have hinvoke : HostTask.Types g cells (m.invoke call f args) (t.world.publishing t.depth)
      fun cells' vs w' => AreOf g cells' w'.store vs f.sig.results := by
    by_cases hfits : Value.FitAll args f.sig.params
    · exact typed_invoke hcode hm hcall _ (.inl (by decide)) cells f args _ (ht.publishing _) hdepth
        (hf.mono (.of_eq rfl rfl)) ((hargs.typed hfits).mono (.refl _) (.of_eq rfl rfl))
    · exact refused_invoke hargs hfits (ht.publishing _)
  have hhost : HostTask.Types g cells (HostTask.atDepth t.depth (m.invoke call f args)) t.world
      fun cells' vs w' => AreOf g cells' w'.store vs f.sig.results := by
    unfold HostTask.Types Task.Ensures at hinvoke ⊢
    rw [HostTask.exec_atDepth]
    generalize (m.invoke call f args).exec _ = x at hinvoke ⊢
    obtain ⟨e | vs, w⟩ := x
    · obtain ⟨⟨cells', hlater⟩, he⟩ := hinvoke
      exact ⟨⟨cells', hlater.atDepth⟩, he⟩
    · obtain ⟨cells', hlater, hvs⟩ := hinvoke
      exact ⟨cells', hlater.atDepth, hvs.mono (.refl _) (.of_eq rfl rfl)⟩
  unfold callHost
  refine Task.ensures_bind.2 (Task.ensures_get.2 ?_)
  exact Run.Types.bind (.within (.onWorld hhost)) fun cells' vs t' hlater ⟨hstack, hvs⟩ =>
    .of_ok Run.exec_pushAll ⟨.refl hlater.world.typed, rfl⟩ ⟨t', vs, rfl, hstack, hvs⟩

end

/-! ## Code -/

section

variable {b : Body} {ctx : Nat} {below args : List Value} {τ τ' : List Slot} {t : Thread}
  {ops : List Value} {i : Instr}

/-- A thread that stands in a body gets results on top of its operands. -/
theorem standing_of_gets {u : Thread} {ts : List Ty} {cells' : Array Ty}
    (hs : Standing g cells b ctx below args τ t ops) (hlater : (t.holding ops).Later g cells cells' u)
    (hgets : (t.holding ops).Gets g cells' ts u) : ∃ (v : Thread) (ops' : List Value),
      u = v.holding ops' ∧ Standing g cells' b ctx below args (Slot.values ts ++ τ) v ops' := by
  obtain ⟨⟨world, stack, steps, depth⟩, vs, rfl, rfl, hvs⟩ := hgets
  have hlater' : t.Later g cells cells' ⟨world, t.stack, steps, depth⟩ := ⟨hlater.world, hlater.depth⟩
  have hs' := hs.later hlater' rfl
  refine ⟨⟨world, t.stack, steps, depth⟩, vs.reverse ++ ops, ?_, hs'.holds (hvs.push hs'.ops)⟩
  rw [Thread.holding_append]
  rfl

theorem typed_tick (ht : t.world.store.Typed g cells) :
    Run.Types g cells m.tick t fun cells' _ t' => cells' = cells ∧ t' = { t with steps := t.steps + 1 } := by
  have hlater : t.Later g cells cells { t with steps := t.steps + 1 } := ⟨.refl ht, rfl⟩
  have hfails (c : Cause) (hc : c.Permitted) : t.world.Leads g cells t.world ∧
      g.Allows (.error (.of c)) := ⟨⟨cells, .refl ht⟩, .fails (.inl hc)⟩
  unfold tick
  refine Task.ensures_bind.2 (Task.ensures_modify.2 (Task.ensures_bind.2 (Task.ensures_get.2 ?_)))
  dsimp only
  split
  · split
    · exact hfails _ (.stepLimit _)
    · split
      · exact hfails _ (.stackLimit _)
      · exact ⟨cells, hlater, rfl, rfl⟩
  · split
    · exact hfails _ (.stackLimit _)
    · exact ⟨cells, hlater, rfl, rfl⟩

variable (hcode : FileCode g.out file) (hm : m.Typed g) (hcall : call.Typed g t.depth)

include hcode hm hcall

/-- What an instruction does, where calls are typed. Only one that writes to an argument changes the
arguments. -/
theorem typed_does (hs : Standing g cells b ctx below args τ t ops)
    (h : i.Does g cells b ctx below args t ops τ') :
    Run.Types g cells (m.perform call ctx i) (t.holding ops) fun cells' _ t' =>
      ∃ (u : Thread) (args' ops' : List Value), t' = u.holding ops' ∧
        Standing g cells' b ctx below args' τ' u ops' ∧ (i.storesArg = false → args' = args) := by
  have kept {cells' : Array Ty} {u : Thread} (h : ∃ (v : Thread) (ops' : List Value),
      u = v.holding ops' ∧ Standing g cells' b ctx below args τ' v ops') :
      ∃ (v : Thread) (args' ops' : List Value), u = v.holding ops' ∧
        Standing g cells' b ctx below args' τ' v ops' ∧ (i.storesArg = false → args' = args) := by
    obtain ⟨v, ops', heq, hs'⟩ := h
    exact ⟨v, args, ops', heq, hs', fun _ => rfl⟩
  cases h with
  | next h hlater hs' hargs =>
    exact .of_ok (h m call hm.shows) ⟨hlater.world, hlater.depth⟩ ⟨_, _, _, rfl, hs', hargs⟩
  | fails h he hworld => exact .of_error (h m call hm.shows) hs.typed hworld (.fails he)
  | @script τ'' t' ops' vs id parent f sig h hlater hs' henters hparent hvs hτ =>
    subst hτ
    have hlater' : (t.holding ops).Later g cells cells ((t'.holding ops').above vs) :=
      ⟨hlater.world, hlater.depth⟩
    refine .of_exec (h m call hm.shows) hlater' ?_
    refine (hcall cells id parent f sig vs (t'.holding ops') hs'.typed hlater.depth henters hparent
      hvs).imp fun cells' _ u hlater' hgets => ?_
    exact kept (standing_of_gets hs' ⟨hlater'.world, hlater'.depth⟩ hgets)
  | @host τ'' t' ops' vs f name h hlater hs' hf hvs hτ =>
    subst hτ
    have hlater' : (t.holding ops).Later g cells cells (t'.holding ops') := ⟨hlater.world, hlater.depth⟩
    refine .of_exec (h m call hm.shows) hlater' ?_
    exact (typed_callHost (t := t'.holding ops') hcode hm hcall hs'.typed hlater.depth hf hvs).imp
      fun cells' _ u hlater' hgets =>
        kept (standing_of_gets hs' ⟨hlater'.world, hlater'.depth⟩ hgets)

/-- The words of a body run one by one. By induction on the flow that types them. -/
theorem typed_exec (hg : g.Consistent D) {is : List Instr} {stop offset : Nat}
    (hflow : Flow g b τ is τ') (hreads : g.out.program.Reads offset is)
    (hstop : stop = offset + is.length) (hs : Standing g cells b ctx below args τ t ops) :
    Run.Types g cells (m.exec call ctx stop offset) (t.holding ops) fun cells' n t' =>
      t'.Ends g cells' b ctx below τ' n := by
  induction hflow generalizing offset cells args t ops with
  | nil =>
    rw [exec, if_neg (by simp at hstop; omega)]
    exact .pure hs.typed (.last ⟨t, args, ops, rfl, hs⟩)
  | @cons τ τ₁ τ' i is h hflow ih =>
    obtain ⟨hi, hreads⟩ := hreads
    rw [List.length_cons] at hstop
    obtain ⟨w, hw, hdecode⟩ := Option.bind_eq_some_iff.1 hi
    have hexpect : (Task.expect m.program.code[offset]? : Run Word) = pure w := by
      rw [hm.program, hw]
      rfl
    rw [exec, if_pos (by omega)]
    refine .bind (typed_tick hs.typed) ?_
    rintro cells' - t' - ⟨hcells, ht'⟩
    subst hcells ht'
    have hs₁ : Standing g cells' b ctx below args τ { t with steps := t.steps + 1 } ops :=
      hs.later ⟨.refl hs.typed, rfl⟩ rfl
    rw [hexpect, pure_bind, hdecode]
    dsimp only
    cases hreturn : Balance.isReturn i with
    | true =>
      cases i with
      | ret n =>
        cases h with
        | ret hfunc => exact .pure hs.typed (.ret hfunc ⟨_, args, ops, rfl, hs₁⟩)
        | push hpush | count hpush => cases hpush
      | retVars =>
        cases h with
        | retVars hfunc => exact .pure hs.typed (.retVars hfunc ⟨_, args, ops, rfl, hs₁⟩)
        | push hpush | count hpush => cases hpush
      | _ => cases hreturn
    | false =>
      rw [step_of_not_return hreturn, bind_assoc]
      show Run.Types g cells' _ (Thread.holding { t with steps := t.steps + 1 } ops) _
      refine .bind (typed_does hcode hm hcall hs₁ (h.does hg hm.typed hreturn hs₁)) ?_
      rintro cells'' - _ hlater ⟨u, args', ops', rfl, hs₂, -⟩
      rw [pure_bind]
      exact ih (hlater.depth.symm ▸ hcall) hreads (by omega) hs₂
  | widen hw _ ih => exact ih hcall hreads hstop (hs.holds (hs.ops.into hw))

end

/-! ## Functions -/

/-- The lowest values of a stack and the topmost ones are kept. -/
theorem keepTop?_eq {s : Stack} {below mid vs : List Value} (hs : s.toList = below ++ mid ++ vs) :
    s.keepTop? below.length vs.length = .ok (below.toArray ++ vs.toArray) := by
  have hsize : s.size = below.length + mid.length + vs.length := by
    rw [← Array.length_toList, hs, List.length_append, List.length_append]
  rw [Stack.keepTop?, if_neg (by omega)]
  refine congrArg Except.ok (Array.toList_inj.1 ?_)
  rw [Array.toList_append, Array.toList_append, Array.toList_extract, Array.toList_extract, hs, hsize]
  simp [List.extract, List.take_append, List.drop_append]

section

variable {b : Body} {ctx id : Nat} {below : List Value} {σ : List Slot} {t : Thread} {f : FuncInfo}
  {sig : Signature}

/-- The result variables of a function have values of their types. -/
theorem exists_results (hcode : FileCode g.out file) (hf : g.out.program.funcs[id]? = some f)
    (hended : f.stop.isSome) (hfirst : g.out.program.FirstVars f.vars sig.results)
    (hbody : b.func = some id) (ht : t.Stands g cells b ctx below σ) :
    ∃ frame, t.world.store.frames[ctx]? = some frame ∧
      AreOf g cells t.world.store (frame.vars.extract 0 sig.results.length).toList sig.results := by
  obtain ⟨u, args, ops, rfl, hs⟩ := ht
  obtain ⟨frame, hframe, hfunc⟩ := hs.lineage.func_eq
  rw [hbody, Output.chain, (hcode.nest hf hended).1, List.head?_cons] at hfunc
  have found (i : Nat) (hi : i < sig.results.length) :
      ∃ v, frame.vars[i]? = some v ∧ v.Has g cells u.world.store sig.results[i] := by
    obtain ⟨vid, d, hvid, hd, hty⟩ := hfirst i _ (List.getElem?_eq_getElem hi)
    have hslot : (g.out.program.frameVars frame.func)[i]? = some vid := by
      rw [hfunc, Program.frameVars, hf]
      exact hvid
    obtain ⟨v, hload, hv⟩ := hs.typed.places _ _ (Standing.typeAt?_slot hframe hslot hd)
    rw [Store.load?, hframe] at hload
    exact ⟨v, hload, hty ▸ hv⟩
  have hsize : sig.results.length ≤ frame.vars.size := by
    by_contra hlt
    obtain ⟨v, hv, -⟩ := found frame.vars.size (by omega)
    rw [Array.getElem?_eq_none (Nat.le_refl _)] at hv
    cases hv
  refine ⟨frame, hframe, List.forall₂_iff_get.2 ⟨?_, fun i hi hi' => ?_⟩⟩
  · rw [Array.length_toList, Array.size_extract]
    omega
  · obtain ⟨v, hv, hhas⟩ := found i hi'
    obtain ⟨_, rfl⟩ := Array.getElem?_eq_some_iff.1 hv
    simpa using hhas

/-- What a function leaves takes the place of its arguments. -/
theorem typed_finish (hcode : FileCode g.out file) (hf : g.out.program.funcs[id]? = some f)
    (hended : f.stop.isSome) (hnumOut : f.numOut = sig.results.length)
    (hfirst : g.out.program.FirstVars f.vars sig.results) (hbody : b.Of id sig) {n : Option Nat}
    (ht : t.Ends g cells b ctx below σ n) :
    Run.Types g cells (finish below.length f.numOut ctx n) t fun cells' _ t' =>
      ∃ (u : Thread) (vs : List Value), t' = u.above vs ∧ u.stack = below.toArray ∧
        AreOf g cells' t'.world.store vs sig.results := by
  have left {σ : List Slot} (h : t.Stands g cells b ctx below σ) :
      Run.Types g cells (finish below.length f.numOut ctx none) t fun cells' _ t' =>
        ∃ (u : Thread) (vs : List Value), t' = u.above vs ∧ u.stack = below.toArray ∧
          AreOf g cells' t'.world.store vs sig.results := by
    obtain ⟨frame, hframe, hresults⟩ := exists_results hcode hf hended hfirst hbody.func h
    obtain ⟨u, args, ops, rfl, hs⟩ := h
    have hcut : (u.holding ops).stack.cut below.length = below.toArray := by
      refine Array.toList_inj.1 ?_
      rw [Stack.cut, Array.toList_extract, Thread.holding, Thread.toList_stack_above, hs.stack]
      simp [List.extract]
    have hexec : (finish below.length f.numOut ctx none).exec (u.holding ops) = (.ok (),
        { u with stack := below.toArray }.above (frame.vars.extract 0 sig.results.length).toList) := by
      unfold finish
      refine (Task.exec_bind_ok (Task.exec_get _)).trans ?_
      rw [hframe, hcut, hnumOut]
      rfl
    have hlater : (u.holding ops).Later g cells cells { u with stack := below.toArray } :=
      ⟨.refl hs.typed, rfl⟩
    exact .of_ok hexec ⟨hlater.world, hlater.depth⟩ ⟨_, _, rfl, rfl, hresults⟩
  cases ht with
  | @ret σ hfunc h =>
    obtain ⟨u, args, ops, rfl, hs⟩ := h
    obtain ⟨vs, rest, rfl, hvs, hrest⟩ := hs.takes
    have hstack : (u.holding (vs.reverse ++ rest)).stack.toList = below ++ (args ++ rest.reverse) ++ vs := by
      rw [Thread.holding, Thread.toList_stack_above, hs.stack]
      simp
    have hexec : (finish below.length f.numOut ctx (some b.results.length)).exec
        (u.holding (vs.reverse ++ rest)) = (.ok (), { u with stack := below.toArray }.above vs) := by
      unfold finish
      refine (Task.exec_bind_ok (Task.exec_get _)).trans ?_
      rw [← List.Forall₂.length_eq hvs, keepTop?_eq hstack]
      rfl
    have hlater : (u.holding (vs.reverse ++ rest)).Later g cells cells { u with stack := below.toArray } :=
      ⟨.refl hs.typed, rfl⟩
    exact .of_ok hexec ⟨hlater.world, hlater.depth⟩ ⟨_, vs, rfl, rfl, hbody.results ▸ hvs⟩
  | retVars _ h => exact left h
  | last h => exact left h

end

section

variable (h : g.Compiled D file labels)

include h

/-- A function that is entered stands at its first word. -/
theorem standing_openFrame {b : Body} {id parent : Nat} {f : FuncInfo} {sig : Signature}
    {args : List Value} {t : Thread} {vars : Array Value} (ht : t.world.store.Typed g cells)
    (henters : g.Enters id f sig) (hparent : t.world.store.Lineage parent (g.out.nest id).tail)
    (hargs : AreOf g cells t.world.store args sig.params) (hbody : b.Of id sig)
    (hzeros : Zeros g.out.program f.vars vars) :
    Standing g cells b t.world.store.frames.size t.stack.toList args []
      ((t.above args).framed ⟨some id, some parent, (t.above args).stack.size, vars⟩) [] := by
  have hgrows := Store.Grows.push t.world.store ⟨some id, some parent, (t.above args).stack.size, vars⟩
  have hvars : g.out.program.frameVars (some id) = f.vars := by
    rw [Program.frameVars, henters.info]
    rfl
  have hnest : g.out.chain b.func = id :: (g.out.nest id).tail := by
    rw [hbody.func]
    exact (h.code.nest henters.info henters.ended).1
  refine ⟨ht.push (hvars.symm ▸ hzeros) fun _ _ => h.vars, ?_, Thread.toList_stack_above (t := t),
    fun frame hframe => ?_, fun func sig' hfunc hsig' => ?_, .nil⟩
  · rw [hnest]
    exact hparent.push
  · cases Array.getElem?_push_size.symm.trans hframe
    show (t.above args).stack.size = _
    rw [← Array.length_toList, Thread.toList_stack_above, List.length_append]
  · cases hbody.func.symm.trans hfunc
    cases henters.sig.symm.trans hsig'
    exact ⟨hbody.numParams, hargs.mono (.refl _) hgrows⟩

/-- The main body stands at its first word. -/
theorem standing_entered (hm : m.Typed g) (hw : w.store.Typed g cells) :
    Standing g cells .main w.store.frames.size [] [] [] ⟨m.entered w, #[], 0, 0⟩ [] := by
  have hvars : g.out.program.frameVars none = g.out.program.mainVars := rfl
  refine ⟨hw.push (hvars.symm ▸ hm.globals) fun _ _ => h.vars, ?_, rfl, fun frame hframe => ?_,
    fun func sig hfunc => ?_, .nil⟩
  · exact .main Array.getElem?_push_size rfl rfl
  · cases Array.getElem?_push_size.symm.trans hframe
    rfl
  · cases hfunc

variable (hm : m.Typed g)

include hm

/-- The body of a function leaves results in place of the arguments. -/
theorem typed_enter {id parent entry stop : Nat} {f : FuncInfo} {sig : Signature} {args : List Value}
    {t : Thread} (hcall : call.Typed g t.depth) (ht : t.world.store.Typed g cells)
    (henters : g.Enters id f sig) (hparent : t.world.store.Lineage parent (g.out.nest id).tail)
    (hargs : AreOf g cells t.world.store args sig.params) (hentry : f.entry = some entry)
    (hstop : f.stop = some stop) :
    Run.Types g cells (m.enter call id parent f entry stop) (t.above args) fun cells' _ t' =>
      t.Gets g cells' sig.results t' := by
  obtain @⟨b, entry', stop', hparams, hnumOut, hfirst, hbody, hentry', hstop', is, hreads, hlength,
    hflow⟩ := h.typed_func henters.info henters.ended henters.sig
  cases hentry.symm.trans hentry'
  cases hstop.symm.trans hstop'
  obtain ⟨vars, hvars, hzeros⟩ := hm.frames id f henters.info
  have hnumIn : f.numIn = args.length := by
    rw [FuncInfo.numIn, hparams, List.Forall₂.length_eq hargs]
  have hsize : (t.above args).stack.size = t.stack.toList.length + args.length := by
    rw [← Array.length_toList, Thread.toList_stack_above, List.length_append]
  have hs := standing_openFrame h ht henters hparent hargs hbody hzeros
  have hopen := exec_openFrame_eq (m := m) (s := t.above args) (f := f) parent (by omega) hvars
  have hlater : (t.above args).Later g cells cells
      ((t.above args).framed ⟨some id, some parent, (t.above args).stack.size, vars⟩) :=
    ⟨⟨hs.typed, .refl _, .push _ _, rfl⟩, rfl⟩
  unfold enter Run.height
  rw [bind_assoc]
  refine Task.ensures_bind.2 (Task.ensures_get.2 ?_)
  rw [pure_bind]
  refine Run.Types.of_exec (Task.exec_bind_ok hopen) hlater ?_
  have hexec := typed_exec h.code hm (t := (t.above args).framed
    ⟨some id, some parent, (t.above args).stack.size, vars⟩) hcall h.consistent hflow hreads hlength hs
  rw [Thread.holding_nil] at hexec
  refine .bind hexec.within fun cells' n t' _ hends => ?_
  rw [hsize, hnumIn, Nat.add_sub_cancel]
  refine (typed_finish h.code henters.info henters.ended hnumOut hfirst hbody hends).imp ?_
  rintro cells'' - _ - ⟨u, vs, rfl, hstack, hvs⟩
  exact ⟨u, vs, rfl, hstack.trans t.stack.toArray_toList, hvs⟩

/-- Calls are typed at every depth: where there is no room left, the limit is met. -/
theorem typed_call {room depth : Nat} (hroom : room + depth = m.limits.callDepth) :
    Caller.Typed g depth (m.call room) := by
  induction room generalizing depth with
  | zero =>
    intro cells id parent f sig args t ht hdepth henters _ _
    obtain ⟨-, -, -, -, hentry, hstop, -⟩ := h.typed_func henters.info henters.ended henters.sig
    have hfunc := hm.shows.func henters.info
    have hdescend := m.exec_descend (t.above args) f.name
    have hlt : m.limits.callDepth < (t.above args).depth + 1 := by
      show _ < t.depth + 1
      omega
    rw [if_pos hlt] at hdescend
    rw [call_zero hfunc hentry hstop]
    exact .of_error (Task.exec_bind_error hdescend) ht rfl (.fails (.inl (.depthLimit ..)))
  | succ room ih =>
    intro cells id parent f sig args t ht hdepth henters hparent hargs
    obtain ⟨-, -, -, -, hentry, hstop, -⟩ := h.typed_func henters.info henters.ended henters.sig
    have hfunc := hm.shows.func henters.info
    have hdescend := m.exec_descend (t.above args) f.name
    have hle : ¬m.limits.callDepth < (t.above args).depth + 1 := by
      show ¬_ < t.depth + 1
      omega
    rw [if_neg hle] at hdescend
    have henter := typed_enter h hm (t := { t with depth := t.depth + 1 })
      (ih (show room + (t.depth + 1) = m.limits.callDepth by omega)) ht henters hparent hargs hentry hstop
    rw [call_succ hfunc hentry hstop]
    unfold Run.Types Task.Ensures
    rw [Task.exec_bind_ok hdescend]
    refine (Task.ensures_bind.2 (Task.Ensures.imp henter ?_) : Task.Ensures _ _ _ _)
    rintro - _ ⟨cells', hlater, u, vs, rfl, hstack, hvs⟩
    refine ⟨cells', ⟨hlater.world, ?_⟩, { u with depth := u.depth - 1 }, vs, rfl, hstack, hvs⟩
    show u.depth - 1 = t.depth
    rw [show u.depth = t.depth + 1 from hlater.depth]
    rfl

/-- The main body leaves nothing on the stack. -/
theorem typed_main (hw : w.store.Typed g cells) :
    Run.Types g cells (m.exec m.callTop w.store.frames.size m.program.mainEnd 0) ⟨m.entered w, #[], 0, 0⟩
      fun _ _ t => t.stack = #[] := by
  obtain ⟨is, hreads, hend, hflow⟩ := h.flows_main
  have hs := standing_entered h hm hw
  have hexec := typed_exec h.code hm (t := ⟨m.entered w, #[], 0, 0⟩) (typed_call h hm (Nat.add_zero _))
    h.consistent hflow hreads (hm.program ▸ hend) hs
  rw [Thread.holding_nil] at hexec
  refine Run.Types.imp hexec fun cells' n t hlater hends => ?_
  cases hends with
  | ret hfunc | retVars hfunc => cases hfunc
  | last hstands =>
    obtain ⟨u, args, ops, rfl, hs'⟩ := hstands
    obtain rfl := List.forall₂_nil_right_iff.1 hs'.ops
    obtain ⟨frame, hframe, -, -, hbase, -⟩ := hlater.world.grows.frames w.store.frames.size _
      Array.getElem?_push_size
    have hlength := hs'.base frame hframe
    rw [hbase] at hlength
    obtain rfl : args = [] := List.eq_nil_of_length_eq_zero (by simpa using hlength.symm)
    exact Array.toList_inj.1 (by simpa [Thread.holding, Thread.above] using hs'.stack)

/-- A run ends in a typed world, or stops as it may. -/
theorem typed_run (hw : w.store.Typed g cells) :
    HostTask.Types g cells m.run w fun _ frame _ => frame = w.store.frames.size := by
  have hmain := typed_main h hm hw
  unfold HostTask.Types Task.Ensures
  rw [exec_run]
  unfold Run.Types Task.Ensures at hmain
  have hentered : w.Later g cells cells (m.entered w) :=
    ⟨(standing_entered h hm hw).typed, .refl _, .push _ _, rfl⟩
  generalize (m.exec m.callTop w.store.frames.size m.program.mainEnd 0).exec _ = x at hmain ⊢
  obtain ⟨e | n, t⟩ := x
  · obtain ⟨⟨cells', hlater⟩, he⟩ := hmain
    exact ⟨⟨cells', hentered.trans hlater⟩, he⟩
  · obtain ⟨cells', hlater, -⟩ := hmain
    exact ⟨cells', hentered.trans hlater.world, rfl⟩

end

end Machine

end StackScript
