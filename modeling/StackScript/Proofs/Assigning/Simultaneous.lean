import StackScript.Proofs.Assigning.Evaluating
import StackScript.Proofs.Assigning.Spots

/-!
# Simultaneous assignment

An assignment to several names evaluates all its values before it writes to any target; then each target
holds the value of its place, and nothing else was written to (`Machine.Assigns`). That is so wherever a
run of a compiled file comes to an assignment to distinct names (`File.assigns_of_compile`).
-/

namespace StackScript

/-- The values are evaluated, and each is put to the spot of its name or, for a blank, dropped. But for
these spots the thread is as the evaluation left it, and its stack as it was at first. If the evaluation
fails then nothing is put; after it only a limit can be exceeded. -/
def Machine.Assigns (m : Machine) (call : Caller) (ctx : Nat) (S S' : Site) (names : List String)
    (values : List Expr) (evals stores : List Instr) (t : Thread) : Prop :=
  (m.follow call ctx (evals ++ stores)).Ensures t
    (fun _ t' => ∃ (vs : List Value) (t₁ : Thread) (spots : List Spot),
      m.Evaluates call ctx S values evals t vs t₁ ∧
      (m.follow call ctx stores).exec t₁ = (.ok (), t') ∧
      List.Forall₂ (Spot.Of S' t₁.world.store ctx) names spots ∧
      Thread.Assigned { t₁ with stack := t.stack } spots vs t')
    fun e t' => (m.follow call ctx evals).exec t = (.error e, t') ∨ e.Limited

section

variable {g : Setting} {D : TypeNames} {file : File} {labels : Nat} {cells cells' : Array Ty}
  {m : Machine} {S S' : Site} {b : Body} {ctx : Nat} {below args ops : List Value} {τ : List Slot}
  {t t' : Thread} {call : Caller}

/-! ## Threads at a site -/

/-- Code of the body at a site is code of any body of the same function. -/
theorem Standing.at_site (hs : Standing g cells b ctx below args τ t ops) (hS : S.In g.out)
    (hfunc : b.func = S.body.func) : Standing g cells S.body ctx below args τ t ops :=
  { hs with
    lineage := hfunc ▸ hs.lineage
    args := fun func sig hfunc' hsig => by
      have hcount := (hS.takes func sig hfunc' (by rwa [Site.program, hS.out])).1
      exact ⟨hcount, (hs.args func sig (hfunc ▸ hfunc') hsig).2⟩ }

/-- A typed thread lies on the frames around it. -/
theorem Thread.Stands.seated (hS : S.In g.out) (ht : t.Stands g cells S.body ctx below τ) :
    t.Seated S ctx := by
  obtain ⟨u, args, ops, rfl, hs⟩ := ht
  have hsize : u.stack.size = below.length + args.length := by
    rw [← Array.length_toList, hs.stack, List.length_append]
  have hcount : S.body.numParams ≤ args.length := by
    obtain hmain | ⟨id, sig, hbody, hsig⟩ := hS.body
    · rw [hmain]
      exact Nat.zero_le _
    · rw [hbody.numParams, List.Forall₂.length_eq (hs.args id sig hbody.func hsig).2]
  refine ⟨?_, ?_, fun frame hframe => ?_⟩
  · rw [Site.chain, hS.out]
    exact hs.lineage
  · rw [Site.program, hS.out]
    exact hs.typed.sized
  · rw [hs.base frame hframe, ← hsize]
    simp only [Thread.holding, Thread.above, Array.size_append]
    omega

/-- The frames that a thread lies on stay what they are. -/
theorem Thread.Seated.later (h : t.Seated S ctx) (hS : S.In g.out) (hlater : t.Later g cells cells' t') :
    Thread.Seated { t' with stack := t.stack } S ctx where
  lineage := h.lineage.mono hlater.world.grows
  sized := by
    rw [Site.program, hS.out]
    exact hlater.world.typed.sized
  args frame hframe := by
    obtain ⟨old, hold, -⟩ := h.lineage.func_eq
    obtain ⟨frame', hframe', -, -, hbase, -⟩ := hlater.world.grows.frames ctx old hold
    cases hframe.symm.trans hframe'
    rw [hbase]
    exact h.args old hold

/-! ## Assignments -/

/-- The code of an assignment to distinct names assigns simultaneously. -/
theorem Machine.assigns (h : g.Compiled D file labels) (hm : m.Typed g) (hlax : g.lax)
    (hcall : call.Typed g t.depth) (hS : S.In g.out) (hdistinct : S.Distinct) {names : List String}
    {defines : Bool} {values : List Expr} {ps : List Pushed} {evals stores : List Instr}
    (hvalues : Values S names.length values ps evals)
    (htargets : GivenAll S defines (names.map .ident).reverse ps stores S')
    (hlen : evals.length < Word.spreadCall) (hnodup : (names.filter (· ≠ "_")).Nodup)
    (ht : t.Stands g cells S.body ctx below τ) : m.Assigns call ctx S S' names values evals stores t := by
  unfold Assigns
  rw [follow_append]
  refine Task.ensures_bind.2 (Task.Ensures.of_exec (fun _ t₁ hrun => ?_) fun e t₁ hrun => .inl hrun)
  obtain ⟨cells', hlater, vs, hlength, hevaluates, hstack, -⟩ :=
    Task.Ensures.ok (typed_values h hm hcall hS hlax hvalues hlen ht) hrun
  have hseated := (ht.seated hS).later hS hlater
  have hholding : t₁ = Thread.holding { t₁ with stack := t.stack } vs.reverse := by
    have harray : t.stack ++ vs.toArray = t₁.stack := by rw [hstack, ← Array.toList_inj]; simp
    rw [Thread.holding, List.reverse_reverse, Thread.above, harray]
  rw [← List.map_reverse] at htargets
  have hnodup' : (names.reverse.filter (· ≠ "_")).Nodup := by
    rwa [List.filter_reverse, List.nodup_reverse]
  have hlength' : vs.reverse.length = names.reverse.length := by
    rw [List.length_reverse, List.length_reverse, hlength]
  have hstores : (m.follow call ctx stores).Ensures (Thread.holding _ vs.reverse) _ _ :=
    htargets.ensures hlength' hnodup' hdistinct hS.takes hseated
  rw [← hholding] at hstores
  refine hstores.and_exec.mono (fun _ t' hends => ?_) fun e _ he => .inr he
  obtain ⟨⟨spots, hof, hassigned⟩, hexec⟩ := hends
  refine ⟨vs, t₁, spots.reverse, hevaluates, hexec, ?_, ?_, ?_⟩
  · rw [← List.forall₂_reverse_iff, List.reverse_reverse]
    exact hof
  · rw [← List.forall₂_reverse_iff, List.reverse_reverse]
    exact hassigned.holds
  · exact ⟨fun spot hspot => hassigned.keeps.values spot fun hmem => hspot (List.mem_reverse.2 hmem),
      hassigned.keeps.size, hassigned.keeps.depth, hassigned.keeps.world⟩

/-- The code of a statement that assigns to names is that of its values and then that of its targets. -/
theorem StmtCode.assigns {defines : Bool} {names : List String} {values : List Expr} {is : List Instr}
    (h : StmtCode S (.assign (.ofDefines defines) (names.map .ident) values) is S') :
    ∃ ps evals stores, is = evals ++ stores ∧ Values S names.length values ps evals ∧
      GivenAll S defines (names.map .ident).reverse ps stores S' := by
  generalize hst : Stmt.assign (.ofDefines defines) (names.map .ident) values = st at h
  cases h with
  | assign hmode hvalues htargets =>
    cases hst
    rw [List.length_map] at hvalues
    rename_i defines' _ _ _
    obtain rfl : defines = defines' := by
      cases defines <;> cases defines' <;> first | rfl | cases hmode
    exact ⟨_, _, _, rfl, hvalues, htargets⟩
  | update =>
    injection hst with hmode
    cases defines <;> cases hmode
  | _ => cases hst

end

/-- How the assignments of a compiled file to distinct names run. Each statement of the file has its code.
That of an assignment first evaluates the values and then gives them to the targets, and wherever a run
comes to it, it assigns simultaneously. Host functions keep to the types that are declared for them; with
others this may fail (`Displacing.second_assigned`). -/
theorem File.assigns_of_compile {r : Registry} {folds : Bool} {f : File} {p : Program} {D : TypeNames}
    (h : f.compile r folds = .ok p) (hsmall : p.Small) (hmodest : p.Modest) (hr : r.Proper D) :
    ∃ o : Output, o.registry = r ∧ o.folds = folds ∧ o.program = p ∧ FileCode o f.labelled.1 ∧
      (∀ (func : Option Nat) (first stop : Nat) (ss : List Stmt), p.Covers func first stop →
        Stmt.Rest (o.bodyOf f.labelled.1 func) ss →
        ∃ S S' is offset, S.body.func = func ∧ o.Lays f.labelled.1 S ss is S' offset) ∧
      ∀ (limits : Limits) (may : HostRely) (w : World) (host : Nat → Option Signature)
        (stops : Stop Cause → Prop) (cells : Array Ty),
        Setting.Hosted ⟨o, host, stops, True, w.store, cells⟩ may w →
        ∃ m, Machine.link p limits r.natives = .ok m ∧
          ∀ (S S'' : Site) (defines : Bool) (names : List String) (values : List Expr) (ss : List Stmt)
            (is : List Instr) (offset : Nat),
            o.Lays f.labelled.1 S (.assign (.ofDefines defines) (names.map .ident) values :: ss) is S''
              offset →
            names ≠ [] → (names.filter (· ≠ "_")).Nodup →
            ∃ (S' : Site) (evals stores rest : List Instr), is = evals ++ stores ++ rest ∧
              stores.length = names.length ∧
              StmtCode S (.assign (.ofDefines defines) (names.map .ident) values) (evals ++ stores) S' ∧
              StmtsCode S' ss rest S'' ∧
              ∀ (own : List Nat) (room ctx stop : Nat) (t : Thread),
                m.Meets may w own (.code room ctx stop offset t) → offset < stop →
                m.exec (m.call room) ctx stop offset = (do
                  m.follow (m.call room) ctx (evals ++ stores)
                  m.exec (m.call room) ctx stop (offset + (evals ++ stores).length)) ∧
                m.Assigns (m.call room) ctx S S' names values evals stores t := by
  obtain ⟨o, rfl, hfolds, rfl, hcode, ho, hdivides, -⟩ := File.output_of_compile h hsmall
  refine ⟨o, rfl, hfolds, rfl, hcode, fun func first stop ss hcovers hrest =>
    hcode.exists_lays hcovers hrest, fun limits may w host stops cells hg => ?_⟩
  have hcount := hmodest.countable hr
  obtain ⟨m, hlink⟩ := File.exists_link h hsmall hr.sorted hcount limits
  have hm := Machine.typed_of_link hlink hg.natives
  have hcompiled : Setting.Compiled ⟨o, host, stops, True, w.store, cells⟩ D f.labelled.1 f.labelled.2 :=
    FileCode.compiled hcode ho hdivides hmodest hr hg.packs (.inl trivial)
  refine ⟨m, hlink, fun S S'' defines names values ss is offset hlays hnames hnodup => ?_⟩
  have hS : S.In o := hlays.inside
  have hreads := hlays.reads
  obtain ⟨first, last, hcovers, hfirst, hlast⟩ := hlays.covers
  cases hlays.code with
  | @cons _ S' _ _ _ is₁ rest hst hss =>
    obtain ⟨ps, evals, stores, rfl, hvalues, htargets⟩ := hst.assigns
    have hstores : stores.length = names.length := by
      rw [← List.map_reverse] at htargets
      rw [htargets.length_eq, List.length_reverse]
    refine ⟨S', evals, stores, rest, rfl, hstores, hst, hss, fun own room ctx stop t hmeets hlt => ?_⟩
    have hreads := (Program.reads_append.1 hreads).1
    have hsized := hcode.sized hr.sorted hcount
    have hreturn := (hst.leaves (hS.out ▸ hsized) hS.takes trivial
      (Nat.le_trans hreads.length_le hsized.code)).returns
    have hpos := List.length_pos_iff.2 hnames
    rw [List.length_append, List.length_append] at hlast
    cases Machine.typed_of_meets hcompiled hm hg.world hg.may hmeets with
    | @code _ _ _ _ first' cells' b below args ops τ τ' u js hroom hcovers' hle hs =>
      obtain ⟨hfunc, rfl⟩ := hdivides.covers_unique hcovers' hcovers hle hlt hfirst (by omega)
      have hstands : (u.holding ops).Stands _ cells' S.body ctx below τ :=
        ⟨u, args, ops, rfl, hs.at_site hS hfunc⟩
      refine ⟨Machine.exec_eq_follow (hm.program ▸ hreads) hreturn (by rw [List.length_append]; omega), ?_⟩
      exact Machine.assigns (t := u.holding ops) hcompiled hm trivial
        (Machine.typed_call hcompiled hm hroom) hS hlays.distinct hvalues htargets
        (hcompiled.length_lt (Program.reads_append.1 hreads).1) hnodup hstands

/-- `x, y := 1, 2; x, y = y, x`. -/
def File.swapping : File :=
  ⟨[], [], [.assign .define [.ident "x", .ident "y"] [.lit ⟨.int, "1"⟩, .lit ⟨.int, "2"⟩],
    .assign .assign [.ident "x", .ident "y"] [.ident "y", .ident "x"]]⟩

namespace Swapping

open Counting (registry proper setting callbacks host hosted)

@[irreducible]
def program : Program := (File.swapping.compile registry true).toOption.get (by decide +kernel)

@[irreducible]
def machine : Machine := (Machine.link program {} registry.natives).toOption.get (by decide +kernel)

theorem compiles : File.swapping.compile registry true = .ok program := by
  unfold program
  exact eq_ok_get _

theorem links : Machine.link program {} registry.natives = .ok machine := by
  unfold machine
  exact eq_ok_get _

theorem no_funcs (id : Nat) : program.funcs[id]? = none := by
  have hsize : program.funcs.size = 0 := by decide +kernel
  exact Array.getElem?_eq_none (hsize ▸ Nat.zero_le id)

theorem small : program.Small :=
  ⟨by decide +kernel, by decide +kernel, fun id f hf => by rw [no_funcs] at hf; cases hf⟩

theorem modest : program.Modest :=
  ⟨by decide +kernel, fun id sig hsig => by rw [Program.sig?, no_funcs] at hsig; cases hsig⟩

/-- A run comes to the second statement, which swaps the values. -/
theorem swaps : File.swapping.compile registry true = .ok program ∧ program.Small ∧ program.Modest ∧
    registry.Proper (fun _ _ => .any) ∧ ∃ (o : Output) (m : Machine), o.program = program ∧
      (setting o True).Hosted (callbacks o) default ∧ Machine.link program {} registry.natives = .ok m ∧
      ∃ (S S' S'' : Site) (is evals stores : List Instr) (ctx stop offset : Nat) (t : Thread),
        o.Lays File.swapping.labelled.1 S
          [.assign (.ofDefines false) (["x", "y"].map .ident) [.ident "y", .ident "x"]] is S'' offset ∧
        m.Meets (callbacks o) default [] (.code m.limits.callDepth ctx stop offset t) ∧ offset < stop ∧
        m.Assigns (m.call m.limits.callDepth) ctx S S' ["x", "y"] [.ident "y", .ident "x"] evals stores
          t := by
  obtain ⟨o, ho, -, hp, hcode, -, hassigns⟩ :=
    File.assigns_of_compile compiles small modest (proper fun _ _ => .any)
  obtain ⟨m, hlink, hassigns⟩ :=
    hassigns {} (callbacks o) default host (fun _ => False) #[] (hosted ho True)
  cases hlink.symm.trans links
  refine ⟨compiles, small, modest, proper _, o, machine, hp, hosted ho True, links, ?_⟩
  have hprogram : machine.program = o.program := (Machine.link_eq_ok.1 links).1.program.trans hp.symm
  have hsized : o.Sized := hcode.sized (ho ▸ (proper fun _ _ => .any).sorted)
    (hp ▸ ho ▸ modest.countable (proper fun _ _ => .any))
  obtain ⟨S'', is, hend, hreads, hstmts, -⟩ := hcode.main
  have hlays : o.Lays _ _ _ is S'' 0 := .main hstmts hend hreads
  obtain ⟨S', evals, stores, rest, rfl, -, hfirst, hrest, hrun⟩ :=
    hassigns _ S'' true ["x", "y"] [.lit ⟨.int, "1"⟩, .lit ⟨.int, "2"⟩] _ _ 0 hlays (by decide) (by decide)
  replace hreads := (Program.reads_append.1 hreads).1
  have hreturn := (hfirst.leaves hsized hlays.inside.takes trivial
    (Nat.le_trans hreads.length_le hsized.code)).returns
  have hlays' := hlays.behind hfirst hrest
  obtain ⟨T', evals', stores', rest', rfl, hlength, -, -, hrun'⟩ :=
    hassigns S' S'' false ["x", "y"] [.ident "y", .ident "x"] [] _ _ hlays' (by decide) (by decide)
  have hlt : 0 + (evals ++ stores).length < machine.program.mainEnd := by
    rw [hprogram, hend]
    simp only [List.length_append, List.length_cons] at hlength ⊢
    omega
  rw [← hprogram] at hreads
  obtain ⟨hexec, -⟩ := hrun [] _ _ _ _ .start (Nat.lt_of_le_of_lt (Nat.zero_le _) hlt)
  have hends : (machine.mainBody default).1.toOption.isSome := by decide +kernel
  obtain ⟨n, u, hmain⟩ : ∃ n u, machine.mainBody default = (.ok n, u) :=
    ⟨_, (machine.mainBody default).2, Prod.ext (eq_ok_get hends) rfl⟩
  rw [Machine.mainBody, Machine.callTop, hexec] at hmain
  obtain ⟨_, t, hfollow, -⟩ := Task.exec_bind_eq_ok.1 hmain
  have hmeets : machine.Meets (callbacks o) default [] _ :=
    .follow .start hreads hreturn (Nat.le_of_lt hlt) hfollow
  exact ⟨S', T', S'', _, evals', stores', _, _, _, t, hlays', hmeets, hlt, (hrun' [] _ _ _ _ hmeets hlt).2⟩

end Swapping

/-- `f := box.pick(); x, y := f(), 7`. -/
def File.displacing : File :=
  ⟨[⟨"box", none⟩], [], [.assign .define [.ident "f"] [.call (.select (.ident "box") "pick") [] false],
    .assign .define [.ident "x", .ident "y"] [.call (.ident "f") [] false, .lit ⟨.int, "7"⟩]]⟩

namespace Displacing

open Surplus (registry pair pick)

@[irreducible]
def program : Program := (File.displacing.compile registry true).toOption.get (by decide +kernel)

@[irreducible]
def machine : Machine := (Machine.link program {} registry.natives).toOption.get (by decide +kernel)

/-- A function of another signature than declared stands for one value and gives two, 1 and 2: the second
one goes to `x`, and the first one is left on the stack. -/
theorem second_assigned : File.displacing.compile registry true = .ok program ∧
    Machine.link program {} registry.natives = .ok machine ∧
    (∀ call args w, (pick call args).exec w = (.ok [.func ⟨Surplus.double, .host 0⟩], w)) ∧
    (∀ call args w, (pair call args).exec w = (.ok [.int 1, .int 2], w)) ∧
    program.vars.map (·.name) = #[.named "f", .named "y", .named "x"] ∧
    ∃ n t, machine.mainBody default = (.ok n, t) ∧ t.stack.size = 1 ∧
      (t.world.store.load? (.slot 0 1)).any (·.equal (.int 7)) = true ∧
      (t.world.store.load? (.slot 0 2)).any (·.equal (.int 2)) = true := by
  have hends : (machine.mainBody default).1.toOption.isSome := by decide +kernel
  refine ⟨?_, ?_, fun _ _ _ => rfl, fun _ _ _ => rfl, by decide +kernel, _, _,
    Prod.ext (eq_ok_get hends) rfl, by decide +kernel, by decide +kernel, by decide +kernel⟩
  · unfold program
    exact eq_ok_get _
  · unfold machine
    exact eq_ok_get _

end Displacing

end StackScript
