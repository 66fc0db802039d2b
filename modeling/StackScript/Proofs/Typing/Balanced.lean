import StackScript.Proofs.Balance.Orderly
import StackScript.Proofs.Placing.Statements
import StackScript.Proofs.Typing.Files

/-!
# The stack of a compiled file

The compiler keeps its own stack in step with that of the code which it emits: it refuses no file
because of that stack, and the program passes the balance check. With typed host functions every
statement leaves as many values as it found and takes none of those (`Machine.Balances`), and the main
body ends on an empty stack (`File.stack_of_compile`). With others this may fail (`Surplus.value_left`).
-/

namespace StackScript

/-- A program of which no runs are considered: nothing is known of host functions. -/
def Output.static (o : Output) : Setting := ⟨o, fun _ => none, fun _ => False, True, default, #[]⟩

/-- Threads that stand in the body follow the instructions to as many values as they found, and to no
fewer before that. -/
def Machine.Balances (m : Machine) (g : Setting) (b : Body) (is : List Instr) : Prop :=
  ∀ (js : List Instr) (room ctx : Nat) (cells : Array Ty) (below : List Value) (τ : List Slot)
    (t : Thread), js <+: is → t.Stands g cells b ctx below τ → room + t.depth = m.limits.callDepth →
    (m.follow (m.call room) ctx js).Ensures t
      (fun _ t' => t.stack.size ≤ t'.stack.size ∧ (js = is → t'.stack.size = t.stack.size))
      fun _ _ => True

/-- What running the main body comes to, with the thread that is left. -/
def Machine.mainBody (m : Machine) (w : World) : Except (Stop RuntimeError) (Option Nat) × Thread :=
  (m.exec m.callTop w.store.frames.size m.program.mainEnd 0).exec ⟨m.entered w, #[], 0, 0⟩

section

variable {g : Setting} {D : TypeNames} {file : File} {labels : Nat} {cells : Array Ty} {m : Machine}
  {b : Body} {ctx : Nat} {below args ops : List Value} {τ τ' : List Slot} {t : Thread} {call : Caller}

theorem Site.In.takes {o : Output} {S : Site} (h : S.In o) : S.Takes S.body.numParams := by
  intro id sig hfunc hsig
  obtain hmain | ⟨id', sig', hbody, hsig'⟩ := h.body
  · rw [hmain] at hfunc
    cases hfunc
  · cases hbody.func.symm.trans hfunc
    have hsig : o.program.sig? id = some sig := h.out ▸ hsig
    cases hsig.symm.trans hsig'
    exact ⟨hbody.numParams, hbody.numParams⟩

/-- Operands lie above the base of the frame. -/
theorem Thread.Stands.size (h : t.Stands g cells b ctx below τ) :
    ∃ frame, t.world.store.frames[ctx]? = some frame ∧ t.stack.size = frame.base + τ.length := by
  obtain ⟨u, args, ops, rfl, hs⟩ := h
  obtain ⟨frame, hframe, -⟩ := hs.lineage.func_eq
  refine ⟨frame, hframe, ?_⟩
  rw [hs.base frame hframe, ← List.Forall₂.length_eq hs.ops, Thread.holding, ← Array.length_toList,
    Thread.toList_stack_above, hs.stack, List.length_append, List.length_append, List.length_reverse]

namespace Machine

/-- Instructions that do not return are followed to what their flow says. Arguments are as before if
none of them is written to. -/
theorem typed_follow (hcode : FileCode g.out file) (hm : m.Typed g) (hg : g.Consistent D)
    (hcall : call.Typed g t.depth) {is : List Instr} (hflow : Flow g b τ is τ')
    (hreturn : ∀ i ∈ is, Balance.isReturn i = false)
    (hs : Standing g cells b ctx below args τ t ops) :
    Run.Types g cells (m.follow call ctx is) (t.holding ops) fun cells' _ t' =>
      ∃ (u : Thread) (args' ops' : List Value), t' = u.holding ops' ∧
        Standing g cells' b ctx below args' τ' u ops' ∧
        ((∀ i ∈ is, i.storesArg = false) → args' = args) := by
  induction hflow generalizing cells args ops t with
  | nil => exact .pure hs.typed ⟨t, args, ops, rfl, hs, fun _ => rfl⟩
  | @cons τ τ₁ τ' i is h hflow ih =>
    rw [follow]
    refine .bind (typed_tick hs.typed) ?_
    rintro cells' - t' - ⟨hcells, ht'⟩
    subst hcells ht'
    have hs₁ : Standing g cells' b ctx below args τ { t with steps := t.steps + 1 } ops :=
      hs.later ⟨.refl hs.typed, rfl⟩ rfl
    have hdoes := h.does hg hm.typed (hreturn i List.mem_cons_self) hs₁
    show Run.Types g cells' _ (Thread.holding { t with steps := t.steps + 1 } ops) _
    refine .bind (typed_does hcode hm hcall hs₁ hdoes) ?_
    rintro cells'' - _ hlater ⟨u, args₁, ops₁, rfl, hs₂, hargs⟩
    refine (ih (hlater.depth.symm ▸ hcall) (fun j hj => hreturn j (List.mem_cons_of_mem i hj))
      hs₂).imp fun cells₃ _ _ _ hends => ?_
    obtain ⟨v, args', ops', rfl, hs', hargs'⟩ := hends
    refine ⟨v, args', ops', rfl, hs', fun hstores => ?_⟩
    rw [hargs' fun j hj => hstores j (List.mem_cons_of_mem i hj), hargs (hstores i List.mem_cons_self)]
  | widen hw _ ih => exact ih hcall hreturn (hs.holds (hs.ops.into hw))

/-- Code that makes nothing of nothing is balanced. -/
theorem balances_of_flow (h : g.Compiled D file labels) (hm : m.Typed g) {is : List Instr}
    (hflow : Flow g b [] is []) (hreturn : ∀ i ∈ is, Balance.isReturn i = false) :
    m.Balances g b is := by
  rintro js room ctx cells below τ _ ⟨ks, rfl⟩ ⟨t, args, ops, rfl, hs⟩ hroom
  obtain ⟨σ, hfirst, hrest⟩ := hflow.split
  have hfollow := typed_follow (t := t) h.code hm h.consistent (typed_call h hm hroom) (hfirst.frame τ)
    (fun i hi => hreturn i (List.mem_append_left ks hi)) hs
  refine Task.Ensures.mono hfollow ?_ fun _ _ _ => trivial
  rintro - _ ⟨cells', hlater, u, args', ops', rfl, hs', -⟩
  obtain ⟨frame, hframe, hsize⟩ := Thread.Stands.size ⟨t, args, ops, rfl, hs⟩
  obtain ⟨frame', hframe', hsize'⟩ := Thread.Stands.size ⟨u, args', ops', rfl, hs'⟩
  obtain ⟨frame'', hframe'', -, -, hbase, -⟩ := hlater.world.grows.frames ctx frame hframe
  cases hframe'.symm.trans hframe''
  rw [List.length_append, hbase] at hsize'
  refine ⟨by omega, fun heq => ?_⟩
  obtain rfl : ks = [] := List.append_cancel_left (heq.symm.trans (List.append_nil js).symm)
  have hnone : σ.length = 0 := hrest.length_eq
  omega

end Machine

/-- The code of a statement in a program leaves what it finds. -/
theorem StmtCode.flows_of_compiled (h : g.Compiled D file labels) (hlax : g.lax)
    {S S' : Site} {st : Stmt} {is : List Instr} {offset : Nat} (hS : S.In g.out)
    (hst : StmtCode S st is S') (hreads : g.out.program.Reads offset is) (τ : List Slot) :
    Flow g S.body τ is τ := by
  have hbody : S.body.Proper D := by
    obtain hmain | ⟨id, sig, hbody, hsig⟩ := hS.body
    · exact hmain ▸ Setting.Compiled.proper_main
    · exact h.proper_body hbody hsig
  exact hst.flows h.consistent (h.typed_site hS.out) hbody (.inl hlax) (h.length_lt hreads) τ

/-- The code of a plain statement is balanced. -/
theorem StmtCode.balances (h : g.Compiled D file labels) (hm : m.Typed g) (hlax : g.lax)
    (ho : g.out.Sized) {S S' : Site} {st : Stmt} {is : List Instr} {offset : Nat} (hS : S.In g.out)
    (hst : StmtCode S st is S') (hplain : st.IsPlain) (hreads : g.out.program.Reads offset is) :
    m.Balances g S.body is := by
  have hlen : is.length ≤ Balance.mostPushed := Nat.le_trans hreads.length_le ho.code
  exact Machine.balances_of_flow h hm (hst.flows_of_compiled h hlax hS hreads [])
    (hst.leaves (hS.out ▸ ho) hS.takes hplain hlen).returns

end

/-- How a file compiles and what its program does to the stack. The file is refused for a reason of its
own, and never because the compiler lost count of the stack. The functions of its program keep to their
parameters and results, and the program passes the balance check. Where the packages declare their types
consistently, the code of each statement leaves what it finds, by the types that are declared. If host
functions keep to these types then this is so in every run, and the main body ends on an empty stack. -/
theorem File.stack_of_compile {r : Registry} {folds : Bool} {f : File} :
    (∀ e, f.compile r folds = .error e →
      Compile.Refuses folds e ∨ ∃ name, e = .error (.build (.undefined name))) ∧
    ∀ p, f.compile r folds = .ok p → p.Small → r.Sorted → p.Countable r.natives →
      p.Orderly ∧ Balance.check p (.ofNatives r.natives) = .ok () ∧
      ∀ D : TypeNames, p.Modest → r.Proper D → ∃ o : Output, o.registry = r ∧ o.folds = folds ∧
        o.program = p ∧ FileCode o f.labelled.1 ∧
        (∀ (S S' : Site) (st : Stmt) (is : List Instr) (offset : Nat), S.In o → StmtCode S st is S' →
          p.Reads offset is → ∀ τ, Flow o.static S.body τ is τ) ∧
        ∀ (limits : Limits) (may : HostRely) (w : World) (host : Nat → Option Signature)
          (stops : Stop Cause → Prop) (cells : Array Ty),
          Setting.Hosted ⟨o, host, stops, True, w.store, cells⟩ may w →
          ∃ m, Machine.link p limits r.natives = .ok m ∧
            (∀ (S S' : Site) (st : Stmt) (is : List Instr) (offset : Nat), S.In o → StmtCode S st is S' →
              st.IsPlain → p.Reads offset is →
              m.Balances ⟨o, host, stops, True, w.store, cells⟩ S.body is) ∧
            ∀ n t, m.mainBody w = (.ok n, t) → t.stack = #[] := by
  refine ⟨fun e h => File.refuses_of_compile h, fun p h hsmall hsorted hcount => ?_⟩
  refine ⟨File.orderly_of_compile h hsmall hcount.sigs, File.check_of_compile h hsmall hsorted hcount,
    fun D hmodest hr => ?_⟩
  obtain ⟨o, rfl, hfolds, rfl, hcode, ho, hdivides, -⟩ := File.output_of_compile h hsmall
  have hstatic : o.static.Compiled D f.labelled.1 f.labelled.2 :=
    FileCode.compiled hcode ho hdivides hmodest hr (.inl trivial) (.inl trivial)
  refine ⟨o, rfl, hfolds, rfl, hcode, fun S S' st is offset hS hst hreads τ =>
    hst.flows_of_compiled hstatic trivial hS hreads τ, fun limits may w host stops cells hg => ?_⟩
  obtain ⟨m, hlink⟩ := File.exists_link h hsmall hsorted hcount limits
  have hm := Machine.typed_of_link hlink hg.natives
  have hcompiled : Setting.Compiled ⟨o, host, stops, True, w.store, cells⟩ D f.labelled.1 f.labelled.2 :=
    FileCode.compiled hcode ho hdivides hmodest hr hg.packs (.inl trivial)
  refine ⟨m, hlink, fun S S' st is offset hS hst hplain hreads => ?_, fun n t hleaves => ?_⟩
  · exact hst.balances hcompiled hm trivial (hcode.sized hsorted hcount) hS hplain hreads
  · obtain ⟨-, -, hempty⟩ := (Machine.typed_main hcompiled hm hg.world).ok hleaves
    exact hempty

/-- Counting leaves an empty stack. -/
theorem Counting.keeps_stack : File.counting.compile registry true = .ok program ∧ program.Small ∧
    registry.Sorted ∧ program.Countable registry.natives ∧ program.Modest ∧
    registry.Proper (fun _ _ => .any) ∧ ∃ (o : Output) (m : Machine), o.program = program ∧
      (setting o True).Hosted (callbacks o) default ∧ Machine.link program {} registry.natives = .ok m ∧
      ∃ n t, m.mainBody default = (.ok n, t) ∧ t.stack = #[] := by
  have hr := proper fun _ _ => .any
  have hcount := modest.countable hr
  obtain ⟨-, hstack⟩ := @File.stack_of_compile registry true .counting
  obtain ⟨-, -, hrun⟩ := hstack program compiles small hr.sorted hcount
  obtain ⟨o, ho, -, hp, -, -, hrun⟩ := hrun (fun _ _ => .any) modest hr
  obtain ⟨m, hlink, -, hempty⟩ :=
    hrun {} (callbacks o) default host (fun _ => False) #[] (hosted ho True)
  cases hlink.symm.trans links
  have hends : (machine.mainBody default).1.toOption.isSome := by decide +kernel
  have hmain := Prod.ext (y := (_, (machine.mainBody default).2)) (eq_ok_get hends) rfl
  exact ⟨compiles, small, hr.sorted, hcount, modest, hr, o, machine, hp, hosted ho True, links, _, _,
    hmain, hempty _ _ hmain⟩

/-- `box.pick()()`. -/
def File.picking : File :=
  ⟨[⟨"box", none⟩], [], [.expr (.call (.call (.select (.ident "box") "pick") [] false) [] false)]⟩

namespace Surplus

/-- A function that gives one value. -/
def single : Signature := ⟨[], [.basic (.int .int)], false⟩

/-- A function that gives two values. -/
def double : Signature := ⟨[], [.basic (.int .int), .basic (.int .int)], false⟩

def pair : HostBody := fun _ _ => pure [.int 1, .int 2]

/-- Gives a function that gives two values. -/
def pick : HostBody := fun _ _ => pure [.func ⟨double, .host 0⟩]

/-- The packages say that `pick` gives a function that gives one value. -/
def registry : Registry := (Registry.bare #[pair, pick]).after
  [.package "box", .funcs "box" [("pick", ⟨⟨[], [.func single], false⟩, .host 1⟩)]]

@[irreducible]
def program : Program := (File.picking.compile registry true).toOption.get (by decide +kernel)

@[irreducible]
def machine : Machine := (Machine.link program {} registry.natives).toOption.get (by decide +kernel)

/-- Host functions give as many values as they declare, and still the second value of the function that
was picked is left on the stack. -/
theorem value_left : File.picking.compile registry true = .ok program ∧
    Machine.link program {} registry.natives = .ok machine ∧
    (∀ call args w, ∃ vs, (pair call args).exec w = (.ok vs, w) ∧ vs.length = double.results.length) ∧
    (∀ call args w, ∃ vs, (pick call args).exec w = (.ok vs, w) ∧ vs.length = 1) ∧
    ∃ n t, machine.mainBody default = (.ok n, t) ∧ t.stack.size = 1 := by
  have hends : (machine.mainBody default).1.toOption.isSome := by decide +kernel
  have hleft : (machine.mainBody default).2.stack.size = 1 := by decide +kernel
  refine ⟨?_, ?_, fun _ _ _ => ⟨_, rfl, rfl⟩, fun _ _ _ => ⟨_, rfl, rfl⟩, ?_⟩
  · unfold program
    exact eq_ok_get _
  · unfold machine
    exact eq_ok_get _
  · exact ⟨_, _, Prod.ext (eq_ok_get hends) rfl, hleft⟩

end Surplus

end StackScript
