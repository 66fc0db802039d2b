import StackScript.Proofs.Placing.Ranges
import StackScript.Proofs.Running.Linked

/-!
# Variables are found at run time

Code of a function runs in a frame around which lie frames of the functions around it in the source.
One lemma for each instruction keeps it so (`Machine.links_perform`), and so does a call, at whatever
depth and from wherever it is made (`Machine.links_call`).
-/

namespace StackScript

variable {o : Output} {floor : Store}

/-! ## Linked machines -/

/-- The machine runs the finished program, with frames as large as its functions ask, and its host
functions are faithful. -/
structure Machine.Linked (m : Machine) (o : Output) (floor : Store) : Prop where
  program : m.program = o.program
  scalars : AllScalar o.program.consts
  frames : ∀ (id : Nat) (vs : Array Value), m.frames[id]? = some vs →
    vs.size = (o.program.frameVars (some id)).size ∧ ∀ v ∈ vs, ∀ s, v.Linked o s
  globals : m.globals.size = o.program.mainVars.size ∧ ∀ v ∈ m.globals, ∀ s, v.Linked o s
  natives : m.natives.Faithful o floor

namespace Machine

theorem Zeros.linked {p : Program} {vars : Array Nat} {vs : Array Value} (h : Zeros p vars vs) :
    vs.size = vars.size ∧ ∀ v ∈ vs, ∀ s, v.Linked o s := by
  refine ⟨(List.Forall₂.length_eq h).symm, fun v hv s => ?_⟩
  obtain ⟨id, -, d, -, rfl⟩ := exists_of_forall₂_of_mem h (Array.mem_toList_iff.2 hv)
  exact Value.linked_zero d.ty

theorem Builds.linked {limits : Limits} {natives : Natives} {m : Machine}
    (h : Builds o.program limits natives m) (hscalars : AllScalar o.program.consts)
    (hnatives : natives.Faithful o floor) : m.Linked o floor where
  program := h.program
  scalars := hscalars
  frames id vs hvs := by
    obtain ⟨hid, rfl⟩ := Array.getElem?_eq_some_iff.1 hvs
    have hid' : id < o.program.funcs.size := Nat.lt_of_lt_of_eq hid h.frames.length_eq.symm
    have hzeros : Zeros o.program o.program.funcs[id].vars m.frames[id] := h.frames.get hid' hid
    rw [Program.frameVars, Array.getElem?_eq_getElem hid']
    exact hzeros.linked
  globals := h.globals.linked
  natives := h.natives ▸ hnatives

end Machine

/-! ## Functions and the frames that they are made in -/

/-- What an instruction finds in a table is a function that is declared, or one made in the body of
the instruction. -/
theorem Instr.From.nest {b : Body} {i : Instr} {variadic : Bool} {place : Nat} (h : i.From o b)
    (hi : i.entry? = some (variadic, place)) : ∃ id, (o.program.table variadic)[place]? = some id ∧
      (o.nest id = [id] ∨ o.nest id = id :: o.chain b.func) := by
  cases h with
  | var _ _ _ _ hentry | native _ _ _ hentry | plain _ hentry => cases hentry.symm.trans hi
  | func hout _ h hat hi' =>
    cases hi'.symm.trans hi
    exact ⟨_, hat.entry, .inl (hout ▸ h.nest)⟩
  | literal hout hbody h hat hi' =>
    cases hi'.symm.trans hi
    subst hout hbody
    exact ⟨_, hat.entry, .inr h.nest⟩

/-- The functions around a function begin with itself, and its depth counts them. -/
theorem FileCode.nest {f : File} (h : FileCode o f) {id : Nat} {g : FuncInfo}
    (hg : o.program.funcs[id]? = some g) (hstop : g.stop.isSome) :
    o.nest id = id :: (o.nest id).tail ∧ g.depth = (o.nest id).length := by
  obtain @⟨-, -, -, -, -, -, -, -, -, -, -, -, -, -, hdepth, hnest, -⟩ := h.funcs id g hg hstop
  obtain ⟨rest, hrest⟩ := hnest
  exact ⟨by rw [hrest, List.tail_cons], hdepth⟩

/-! ## Machines -/

/-- What is linked in the floor is linked in a linked thread. -/
theorem Thread.Linked.func {s : Thread} {g : FuncValue} (hs : s.Linked o floor) (hg : g.Linked o floor) :
    g.Linked o s.world.store := Value.linked_func_mono hg hs.store.floor

namespace Machine

variable {m : Machine} {f : File} {s : Thread} {ctx : Nat} {call : Caller} {func : Option Nat}

open Run

theorem links_frameOf {S : Site} {name : String} {id index : Nat} {v : Var} {scope : Scope}
    (hS : S.out = o) (h : VarAt S name id v scope index) (hs : s.Linked o floor)
    (hctx : s.world.store.Lineage ctx S.chain) :
    Links o floor (Run.frameOf ctx scope) s
      fun g s' => s = s' ∧ (s.world.store.load? (.slot g index)).isSome := by
  subst hS
  obtain ⟨g, -, frame, hwalk, -, hframe, -, -, hlt⟩ :=
    h.finds hctx fun frame hframe => (hs.store.frames frame hframe).1
  have hslot : (s.world.store.load? (.slot g index)).isSome := by
    rw [Store.load?, hframe, Option.bind_some, Array.getElem?_eq_getElem hlt]
    rfl
  cases scope with
  | global => exact .get (.pure hs ⟨rfl, hwalk ▸ hslot⟩)
  | up n =>
    refine .get ?_
    dsimp only at hwalk ⊢
    rw [hwalk]
    exact .pure hs ⟨rfl, hslot⟩

/-- A function is made in a frame that its lineage goes on from: the running one, or the outermost. -/
theorem links_parentOf (hcode : FileCode o f) {id : Nat} {g : FuncInfo} (hs : s.Linked o floor)
    (hg : o.program.funcs[id]? = some g) (hstop : g.stop.isSome)
    (hctx : s.world.store.Lineage ctx (o.chain func))
    (hnest : o.nest id = [id] ∨ o.nest id = id :: o.chain func) :
    Links o floor (parentOf g ctx) s fun parent s' => s'.world.store.Lineage parent (o.nest id).tail ∧
      parent = if g.depth ≤ 1 then s.world.store.root ctx else ctx := by
  have hdepth := (hcode.nest hg hstop).2
  unfold parentOf
  split
  · rename_i hle
    have htail : (o.nest id).tail = [] := List.eq_nil_of_length_eq_zero (by
      rw [List.length_tail]
      omega)
    exact .get (.pure hs ⟨htail ▸ hctx.root, rfl⟩)
  · rename_i hlt
    obtain hnest | hnest := hnest
    · rw [hdepth, hnest] at hlt
      exact absurd (Nat.le_refl 1) hlt
    · exact .pure hs ⟨by rwa [hnest, List.tail_cons], rfl⟩

theorem links_varType (hm : m.Linked o floor) {frame index : Nat} (hs : s.Linked o floor)
    (hslot : (s.world.store.load? (.slot frame index)).isSome) :
    Links o floor (m.varType frame index) s fun _ s' => s = s' := by
  obtain ⟨v, hv⟩ := Option.isSome_iff_exists.1 hslot
  obtain ⟨fr, hframe, hv⟩ := Option.bind_eq_some_iff.1 hv
  have hlt := Extends.lt_of_getElem? hv
  rw [(hs.store.frames fr (Array.mem_of_getElem? hframe)).1] at hlt
  unfold varType
  refine .get (.bind (.expect hs) ?_)
  rintro g _ - ⟨rfl, hg⟩
  cases hframe.symm.trans hg
  rw [hm.program]
  extract_lets find
  have found {vars : Array Nat} (hlt : index < vars.size) :
      Links o floor (find vars) s fun _ s' => s = s' := by
    dsimp only [find]
    rw [Array.getElem?_eq_getElem hlt]
    refine .bind (.ofChecked hs) ?_
    rintro _ _ - ⟨rfl, -⟩
    exact .pure hs rfl
  cases hfunc : fr.func with
  | none =>
    rw [hfunc] at hlt
    exact .bind (Q := fun vars s' => s = s' ∧ vars = o.program.mainVars) (.pure hs ⟨rfl, rfl⟩)
      (by rintro _ _ - ⟨rfl, rfl⟩; exact found hlt)
  | some id =>
    rw [hfunc] at hlt
    refine .bind (.ofChecked hs) ?_
    rintro info _ - ⟨rfl, hinfo⟩
    have hvars : o.program.frameVars (some id) = info.vars := by
      rw [Program.frameVars, Program.func_eq_ok.1 hinfo]
      rfl
    exact .bind (Q := fun vars s' => s = s' ∧ vars = info.vars) (.pure hs ⟨rfl, rfl⟩)
      (by rintro _ _ - ⟨rfl, rfl⟩; exact found (hvars ▸ hlt))

theorem links_makeClosure (hm : m.Linked o floor) (hcode : FileCode o f) {variadic : Bool} {index : Nat}
    (hs : s.Linked o floor) (hctx : s.world.store.Lineage ctx (o.chain func)) {id : Nat}
    (hid : (o.program.table variadic)[index]? = some id)
    (hnest : o.nest id = [id] ∨ o.nest id = id :: o.chain func) :
    Links o floor (m.makeClosure ctx variadic index) s fun c s' => c.Nested o s'.world.store ∧
      c.func = id ∧ ∃ g, o.program.funcs[id]? = some g ∧ g.stop.isSome ∧
        c.parent = if g.depth ≤ 1 then s.world.store.root ctx else ctx := by
  obtain ⟨g, hg, -, hstop⟩ := hcode.tables variadic index id hid
  unfold makeClosure
  rw [hm.program, hid]
  refine .bind (.ofChecked hs) ?_
  rintro g' _ - ⟨rfl, hg'⟩
  cases hg.symm.trans (Program.func_eq_ok.1 hg')
  refine .bind (links_parentOf hcode hs hg hstop hctx hnest) fun parent s₁ h₁ ⟨hlineage, hparent⟩ => ?_
  refine .bind (.ofChecked h₁.linked) ?_
  rintro sig _ - ⟨rfl, -⟩
  exact .bind (Q := fun _ s' => s₁.world.store.Grows s'.world.store)
    (.allocate h₁.linked (fun _ => rfl) fun s' h => h.grows)
    fun number s₂ h₂ hgrows => .pure h₂.linked ⟨hlineage.mono hgrows, rfl, g, hg, hstop, hparent⟩

theorem links_packScript {g : FuncInfo} {arity : Arity} (hs : s.Linked o floor) :
    Links o floor (packScript g arity) s fun _ _ => True :=
  .bind (.lastParam hs) fun _ _ h _ => .pack h.linked

theorem links_tableEntry (hm : m.Linked o floor) {variadic : Bool} {index id : Nat}
    (hs : s.Linked o floor) (hid : (o.program.table variadic)[index]? = some id) :
    Links o floor (m.tableEntry variadic index) s fun id' s' => s = s' ∧ id' = id := by
  unfold tableEntry
  rw [hm.program, hid]
  exact .pure hs ⟨rfl, rfl⟩

theorem links_function (hm : m.Linked o floor) {id : Nat} {g : FuncInfo} (hs : s.Linked o floor)
    (hg : o.program.funcs[id]? = some g) :
    Links o floor (Task.ofChecked (m.program.func id)) s fun g' s' => s = s' ∧ g' = g := by
  rw [hm.program, Program.func_eq_ok.2 hg]
  exact .pure hs ⟨rfl, rfl⟩

/-! ### Calls -/

/-- Calls of functions made in frames that their lineage goes on from keep what is linked. -/
def LinksCaller (o : Output) (floor : Store) (call : Caller) : Prop :=
  ∀ id parent s, s.Linked o floor → s.world.store.Lineage parent (o.nest id).tail →
    Links o floor (call id parent) s fun _ _ => True

theorem links_callClosure (hcall : LinksCaller o floor call) {c : Closure} {arity : Arity}
    (hs : s.Linked o floor) (hc : c.Nested o s.world.store) :
    Links o floor (m.callClosure call c arity) s fun _ _ => True := by
  unfold callClosure
  refine .bind (.ofChecked hs) ?_
  rintro g _ - ⟨rfl, -⟩
  have called {t : Run Unit} (ht : Links o floor t s fun _ _ => True) :
      Links o floor (t >>= fun _ => call c.func c.parent) s fun _ _ => True :=
    .bind ht fun _ s' h _ => hcall _ _ s' h.linked (Store.Lineage.mono hc h.grows)
  split
  · exact called (links_packScript hs)
  · exact called (.checkCount hs)

/-- A function called back runs on values that host code passes on. -/
theorem links_callFresh (hcall : LinksCaller o floor call) {w : World} {c : Closure}
    {args : List Value} (hw : w.store.Linked o floor) (hc : c.Nested o w.store)
    (hargs : ∀ v ∈ args, v.Linked o w.store) :
    HostTask.Links o floor (m.callFresh call c args) w
      fun vs w' => ∀ v ∈ vs, v.Linked o w'.store := by
  cases hf : m.program.func c.func with
  | error e =>
    unfold callFresh
    rw [hf]
    exact ⟨⟨hw, .refl _⟩, trivial⟩
  | ok g =>
    by_cases hlen : args.length = g.numIn
    · have hends := hcall c.func c.parent ⟨w, args.toArray, 0, w.store.hostDepth⟩
        ⟨hw, fun v hv => hargs v (List.mem_toArray.1 hv)⟩ hc
      unfold HostTask.Links Task.Ensures
      rw [exec_callFresh call c args w hf hlen]
      unfold Links Task.Ensures at hends
      generalize (call c.func c.parent).exec _ = r at hends ⊢
      obtain ⟨e | u, t⟩ := r
      · exact hends
      · exact ⟨⟨hends.1.linked.store, hends.1.grows⟩, fun v hv =>
          hends.1.linked.stack v (Array.mem_toList_iff.1 hv)⟩
    · unfold callFresh
      rw [hf]
      simp only [Task.ofChecked, pure_bind, ne_eq]
      rw [if_pos hlen]
      exact ⟨⟨hw, .refl _⟩, id⟩

/-- Host functions nest, each with calls that keep what is linked. -/
theorem links_invoke (hm : m.Linked o floor) (hcall : LinksCaller o floor call) (room : Nat) :
    (m.natives.invoke (m.callFresh call) room).Faithful o floor := by
  induction room with
  | zero => exact fun f args w hw _ _ => ⟨⟨hw, .refl _⟩, trivial⟩
  | succ room ih =>
    intro f args w hw hf hargs
    rw [Natives.invoke]
    cases hcheck : Natives.checkArgs f.sig args with
    | error c =>
      refine ⟨⟨hw, .refl _⟩, ?_⟩
      unfold Natives.checkArgs at hcheck
      split at hcheck
      · cases hcheck
        exact id
      · split at hcheck <;> cases hcheck
        exact id
    | ok u =>
      have counted {t : HostTask (List Value)} (ht : HostTask.Links o floor t w
          fun vs w' => ∀ v ∈ vs, v.Linked o w'.store) :
          HostTask.Links o floor (do
            let results ← t
            if results.length ≠ f.sig.results.length then
              HostTask.fail (.resultCount results.length f.sig.results.length)
            return results) w fun vs w' => ∀ v ∈ vs, v.Linked o w'.store := by
        refine Task.Ensures.bind ht fun vs w' hvs => ?_
        split
        · exact ⟨hvs.1, id⟩
        · exact hvs
      obtain ⟨sig, i | c⟩ := f
      · refine Task.ensures_bind.2 (Task.ensures_pure.2 (Task.ensures_bind.2
          (Task.ensures_expect.2 ⟨fun body hbody => ?_, fun _ => ⟨⟨hw, .refl _⟩, trivial⟩⟩)))
        exact counted (hm.natives.bodies body (Array.mem_of_getElem? hbody) _ args w ih hw hargs)
      · exact counted (links_callFresh hcall hw hf hargs)

theorem links_callHost (hm : m.Linked o floor) (hcall : LinksCaller o floor call) {g : FuncValue}
    {name : String} {args : List Value} (hs : s.Linked o floor) (hg : g.Linked o s.world.store)
    (hargs : ∀ v ∈ args, v.Linked o s.world.store) :
    Links o floor (m.callHost call g name args) s fun _ _ => True := by
  unfold callHost
  refine .get (.bind (.within (.onWorld (Q := fun vs w => ∀ v ∈ vs, v.Linked o w.store) hs ?_))
    fun vs s₁ h₁ hvs => .pushAll h₁.linked hvs)
  have hgrows : s.world.store.Grows (s.world.publishing s.depth).store := .of_eq rfl rfl
  have hends := links_invoke hm hcall Natives.hostNesting g args (s.world.publishing s.depth)
    (hs.store.publishing _) (Value.linked_func_mono hg hgrows) fun v hv => (hargs v hv).mono hgrows
  have hback (w : World) (depth : Nat) : w.store.Grows (w.publishing depth).store := .of_eq rfl rfl
  unfold HostTask.Links Task.Ensures at hends ⊢
  rw [HostTask.exec_atDepth]
  unfold invoke
  generalize (m.natives.invoke (m.callFresh call) Natives.hostNesting g args).exec
    (s.world.publishing s.depth) = r at hends ⊢
  obtain ⟨e | vs, w⟩ := r
  · exact ⟨⟨hends.1.1.publishing _, hgrows.trans (hends.1.2.trans (hback w _))⟩, hends.2⟩
  · exact ⟨⟨hends.1.1.publishing _, hgrows.trans (hends.1.2.trans (hback w _))⟩,
      fun v hv => (hends.2 v hv).mono (hback w _)⟩

theorem links_callValue (hm : m.Linked o floor) (hcall : LinksCaller o floor call) {v : Value}
    {arity : Arity} (hs : s.Linked o floor) (hv : v.Linked o s.world.store) :
    Links o floor (m.callValue call v arity) s fun _ _ => True := by
  unfold callValue
  split
  · exact links_callClosure hcall hs hv
  · rename_i g
    obtain ⟨sig, i | c⟩ := g
    · exact .bind (.takeArgs hs) fun args s₁ h₁ hargs => links_callHost hm hcall h₁.linked trivial hargs
    · exact links_callClosure hcall hs hv
  · exact .fail hs id
  · exact .fail hs id

/-! ### Instructions -/

section

variable {b : Body} {scope : Scope} {index addr : Nat}

/-- The frame that an instruction of a body names has the variable. -/
theorem links_addressed {i : Instr} (hctx : s.world.store.Lineage ctx (o.chain b.func)) (hi : i.From o b)
    (haddress : i.address? = some (scope, index)) (hs : s.Linked o floor) :
    Links o floor (Run.frameOf ctx scope) s
      fun g s' => s = s' ∧ (s.world.store.load? (.slot g index)).isSome := by
  cases hi with
  | var hout hbody hvar hi' =>
    cases hi'.symm.trans haddress
    subst hout hbody
    exact links_frameOf rfl hvar hs hctx
  | func _ _ _ _ _ hno | literal _ _ _ _ _ hno | native _ _ hno | plain hno =>
    cases hno.symm.trans haddress

theorem links_pushConst (hm : m.Linked o floor) (hs : s.Linked o floor) :
    Links o floor (m.perform call ctx (.pushConst index)) s fun _ _ => True := by
  unfold perform
  dsimp only
  rw [hm.program]
  split
  · rename_i v hv
    exact .push hs (hm.scalars v (Array.mem_of_getElem? hv)).linked
  · exact .fail hs id

theorem links_loadVar (hs : s.Linked o floor) (hctx : s.world.store.Lineage ctx (o.chain b.func))
    (hi : (Instr.loadVar scope index).From o b) :
    Links o floor (m.perform call ctx (.loadVar scope index)) s fun _ _ => True := by
  refine .bind (links_addressed hctx hi rfl hs) ?_
  rintro g _ - ⟨rfl, hslot⟩
  exact .bind (.load hs hslot) fun _ s₂ h₂ hv => .push h₂.linked hv

theorem links_storeVar (hs : s.Linked o floor) (hctx : s.world.store.Lineage ctx (o.chain b.func))
    (hi : (Instr.storeVar scope index).From o b) :
    Links o floor (m.perform call ctx (.storeVar scope index)) s fun _ _ => True := by
  refine .bind (.pop hs) fun v s₁ h₁ hv => .bind (links_addressed (hctx.mono h₁.grows) hi rfl h₁.linked) ?_
  rintro g _ - ⟨rfl, hslot⟩
  exact .store h₁.linked hslot hv

theorem links_addrVar (hm : m.Linked o floor) (hs : s.Linked o floor)
    (hctx : s.world.store.Lineage ctx (o.chain b.func)) (hi : (Instr.addrVar scope index).From o b) :
    Links o floor (m.perform call ctx (.addrVar scope index)) s fun _ _ => True := by
  refine .bind (links_addressed hctx hi rfl hs) ?_
  rintro g _ - ⟨rfl, hslot⟩
  refine .bind (links_varType hm hs hslot) ?_
  rintro elem _ - rfl
  exact .bind (.allocate (Q := fun v s' => v.Linked o s'.world.store) hs (fun _ => rfl)
    fun s' h => h.grows.load hslot) fun _ s₃ h₃ hv => .push h₃.linked hv

theorem links_addrOp {k : Option Kind} {op : Option AddressOperator} (hs : s.Linked o floor) :
    Links o floor (m.perform call ctx (.addrOp k op)) s fun _ _ => True := by
  unfold perform
  dsimp only
  split
  · exact .bind (.pop hs) fun _ s₁ h₁ hv => .bind (.pointee h₁.linked hv)
      fun _ s₂ h₂ hp => .applyAddress h₂.linked hp
  · exact .fail hs id

theorem links_loadArg {below : Nat} (hs : s.Linked o floor) :
    Links o floor (m.perform call ctx (.loadArg below)) s fun _ _ => True := by
  refine .bind (.argumentHeight hs) fun h s₁ h₁ _ => .get ?_
  refine .bind (Q := fun v s' => v.Linked o s'.world.store) (.ofExcept h₁.linked (fun v hv => ?_)
    fun c hc => ?_) fun _ s₂ h₂ hv => .push h₂.linked hv
  · unfold Stack.read? at hv
    split at hv <;> cases hv
    exact h₁.linked.stack v (Array.mem_of_getElem? ‹_›)
  · unfold Stack.read? at hc
    split at hc <;> cases hc
    exact id

theorem links_storeArg {below : Nat} (hs : s.Linked o floor) :
    Links o floor (m.perform call ctx (.storeArg below)) s fun _ _ => True := by
  refine .bind (.argumentHeight hs) fun h s₁ h₁ _ => .bind (.pop h₁.linked)
    fun v s₂ h₂ hv => .get ?_
  refine .bind (Q := fun st s' => ∀ u ∈ st, u.Linked o s'.world.store)
    (.ofExcept h₂.linked (fun st hst => ?_) fun c hc => ?_)
    fun _ s₃ h₃ hst => .setStack h₃.linked hst
  · unfold Stack.write? at hst
    split at hst <;> cases hst
    intro u hu
    obtain hu | rfl := Array.mem_or_eq_of_mem_setIfInBounds hu
    · exact h₂.linked.stack u hu
    · exact hv
  · unfold Stack.write? at hc
    split at hc <;> cases hc
    exact id

theorem links_loadNativeVar (hm : m.Linked o floor) (hs : s.Linked o floor) :
    Links o floor (m.perform call ctx (.loadNativeVar addr)) s fun _ _ => True := by
  unfold perform
  dsimp only
  split
  · rename_i var hvar
    exact .bind (.load hs (hs.store.floor.load (hm.natives.vars var (Array.mem_of_getElem? hvar))))
      fun _ s₁ h₁ hv => .push h₁.linked hv
  · exact .fail hs id

theorem links_builtinOp {k : Option Kind} {op : Option Operator} (hs : s.Linked o floor) :
    Links o floor (m.perform call ctx (.builtinOp k op)) s fun _ _ => True := by
  unfold perform
  dsimp only
  split
  · exact .bind (.pop hs) fun _ s₁ h₁ _ => .bind (.pop h₁.linked) fun _ s₂ h₂ _ =>
      .bind (.evaluate h₂.linked) fun _ s₃ h₃ hv => .push h₃.linked hv
  · exact .fail hs id

theorem links_callFunc (hm : m.Linked o floor) (hcode : FileCode o f) (hcall : LinksCaller o floor call)
    (hs : s.Linked o floor) (hctx : s.world.store.Lineage ctx (o.chain b.func))
    (hi : (Instr.callFunc index).From o b) :
    Links o floor (m.perform call ctx (.callFunc index)) s fun _ _ => True := by
  obtain ⟨id, hid, hnest⟩ := hi.nest rfl
  obtain ⟨g, hg, -, hstop⟩ := hcode.tables _ _ _ hid
  refine .bind (links_tableEntry hm hs hid) ?_
  rintro _ _ - ⟨rfl, rfl⟩
  refine .bind (links_function hm hs hg) ?_
  rintro _ _ - ⟨rfl, rfl⟩
  exact .bind (links_parentOf hcode hs hg hstop hctx hnest) fun p s₂ h₂ hp => hcall _ _ s₂ h₂.linked hp.1

theorem links_callFuncv {field : ArityField} (hm : m.Linked o floor) (hcode : FileCode o f)
    (hcall : LinksCaller o floor call) (hs : s.Linked o floor)
    (hctx : s.world.store.Lineage ctx (o.chain b.func)) (hi : (Instr.callFuncv field index).From o b) :
    Links o floor (m.perform call ctx (.callFuncv field index)) s fun _ _ => True := by
  obtain ⟨id, hid, hnest⟩ := hi.nest rfl
  obtain ⟨g, hg, -, hstop⟩ := hcode.tables _ _ _ hid
  refine .bind (links_tableEntry hm hs hid) ?_
  rintro _ _ - ⟨rfl, rfl⟩
  refine .bind (.readArity hs) fun arity s₂ h₂ _ => .bind (links_function hm h₂.linked hg) ?_
  rintro _ _ - ⟨rfl, rfl⟩
  refine .bind (links_packScript h₂.linked) fun _ s₃ h₃ _ => ?_
  exact .bind (links_parentOf hcode h₃.linked hg hstop (hctx.mono (h₂.grows.trans h₃.grows)) hnest)
    fun p s₄ h₄ hp => hcall _ _ s₄ h₄.linked hp.1

theorem links_callNative (hm : m.Linked o floor) (hcall : LinksCaller o floor call)
    (hs : s.Linked o floor) :
    Links o floor (m.perform call ctx (.callNative addr)) s fun _ _ => True := by
  unfold perform
  dsimp only
  split
  · exact .fail hs id
  · rename_i entry hentry
    have hfunc := hm.natives.funcs entry (Array.mem_of_getElem? hentry)
    exact .bind (.takeArgs hs) fun args s₁ h₁ hargs => links_callHost hm hcall h₁.linked
      (h₁.linked.func hfunc) hargs

theorem links_callNativev {field : ArityField} (hm : m.Linked o floor) (hcall : LinksCaller o floor call)
    (hs : s.Linked o floor) :
    Links o floor (m.perform call ctx (.callNativev field addr)) s fun _ _ => True := by
  unfold perform
  dsimp only
  split
  · exact .fail hs id
  · rename_i entry hentry
    have hfunc := hm.natives.funcvs entry (Array.mem_of_getElem? hentry)
    exact .bind (.readArity hs) fun arity s₁ h₁ _ => .bind (.lastParam h₁.linked)
      fun last s₂ h₂ _ => .bind (.pack h₂.linked) fun _ s₃ h₃ _ => .bind (.popMany h₃.linked)
      fun args s₄ h₄ hargs => links_callHost hm hcall h₄.linked (h₄.linked.func hfunc) hargs

theorem links_pushNative (hm : m.Linked o floor) (hs : s.Linked o floor) :
    Links o floor (m.perform call ctx (.pushNative addr)) s fun _ _ => True := by
  unfold perform
  dsimp only
  split
  · exact .fail hs id
  · rename_i entry hentry
    exact .push hs (hs.func (hm.natives.funcs entry (Array.mem_of_getElem? hentry)))

theorem links_pushNativev (hm : m.Linked o floor) (hs : s.Linked o floor) :
    Links o floor (m.perform call ctx (.pushNativev addr)) s fun _ _ => True := by
  unfold perform
  dsimp only
  split
  · exact .fail hs id
  · rename_i entry hentry
    exact .push hs (hs.func (hm.natives.funcvs entry (Array.mem_of_getElem? hentry)))

theorem links_deref (hs : s.Linked o floor) :
    Links o floor (m.perform call ctx .deref) s fun _ _ => True :=
  .bind (.pop hs) fun _ _ h₁ hv => .bind (.pointee h₁.linked hv)
    fun _ _ h₂ hp => .bind (.load h₂.linked hp) fun _ _ h₃ hw => .push h₃.linked hw

theorem links_field (hs : s.Linked o floor) :
    Links o floor (m.perform call ctx (.field index)) s fun _ _ => True := by
  refine .bind (.pop hs) fun v s₁ h₁ hv => ?_
  split
  · split
    · rename_i fields _ w hw
      exact .push h₁.linked (Value.allLinked_iff.1 hv w (List.mem_of_getElem? hw))
    · exact .fail h₁.linked id
  · exact .fail h₁.linked id

end

/-- An instruction of a body keeps what is linked, in a frame around which lie frames of the functions
around the body. -/
theorem links_perform (hm : m.Linked o floor) (hcode : FileCode o f) (hcall : LinksCaller o floor call)
    (hs : s.Linked o floor) (hctx : s.world.store.Lineage ctx (o.chain func)) {i : Instr} {b : Body}
    (hb : b.func = func) (hi : i.From o b) :
    Links o floor (m.perform call ctx i) s fun _ _ => True := by
  subst hb
  cases i with
  | nop | ret _ | retVars => exact .pure hs trivial
  | pushInt k n =>
    cases k with
    | some k => exact .push hs (Value.isScalar_ofWord ..).linked
    | none => exact .fail hs id
  | pushConst => exact links_pushConst hm hs
  | pop n => exact .drop hs
  | loadVar => exact links_loadVar hs hctx hi
  | storeVar => exact links_storeVar hs hctx hi
  | addrVar => exact links_addrVar hm hs hctx hi
  | addrOp => exact links_addrOp hs
  | loadArg => exact links_loadArg hs
  | storeArg => exact links_storeArg hs
  | loadNativeVar => exact links_loadNativeVar hm hs
  | builtinOp => exact links_builtinOp hs
  | convert k =>
    cases k with
    | some k =>
      exact .bind (.pop hs) fun _ s₁ h₁ hv => .bind (.convert h₁.linked hv)
        fun _ s₂ h₂ hw => .push h₂.linked hw
    | none => exact .fail hs id
  | callFunc => exact links_callFunc hm hcode hcall hs hctx hi
  | callFuncv => exact links_callFuncv hm hcode hcall hs hctx hi
  | callNative => exact links_callNative hm hcall hs
  | callNativev => exact links_callNativev hm hcall hs
  | pushNative => exact links_pushNative hm hs
  | pushNativev => exact links_pushNativev hm hs
  | closure variadic index | hostClosure variadic index =>
    obtain ⟨id, hid, hnest⟩ := hi.nest rfl
    exact .bind (links_makeClosure hm hcode hs hctx hid hnest) fun _ s₁ h₁ hc => .push h₁.linked hc.1
  | callClosure arity =>
    refine .bind (.pop hs) fun v s₁ h₁ hv => ?_
    split
    · exact links_callClosure hcall h₁.linked hv
    · exact .fail h₁.linked id
  | callValue arity =>
    exact .bind (.pop hs) fun v s₁ h₁ hv => links_callValue hm hcall h₁.linked hv
  | deref => exact links_deref hs
  | field => exact links_field hs

theorem links_tick (hs : s.Linked o floor) : Links o floor m.tick s fun _ _ => True := by
  unfold tick
  have hcounted : s.Extends o floor { s with steps := s.steps + 1 } := ⟨⟨hs.store, hs.stack⟩, .refl _⟩
  refine Task.ensures_bind.2 (Task.ensures_modify.2 (Task.ensures_bind.2 (Task.ensures_get.2 ?_)))
  dsimp only
  have hstop {c : Cause} (hc : ¬c.Misses) : Task.Ensures (Run.fail c : Run Unit)
      { s with steps := s.steps + 1 } (fun _ s' => s.Extends o floor s' ∧ True)
      fun e s' => (s'.world.store.Linked o floor ∧ s.world.store.Grows s'.world.store) ∧ e.Finds :=
    ⟨⟨hs.store, .refl _⟩, hc⟩
  split
  · split
    · exact hstop id
    · split
      · exact hstop id
      · exact ⟨hcounted, trivial⟩
  · split
    · exact hstop id
    · exact ⟨hcounted, trivial⟩

/-! ### Bodies -/

/-- The words of a body run in a frame of its function. -/
theorem links_exec (hm : m.Linked o floor) (hcode : FileCode o f) (hcall : LinksCaller o floor call)
    {first stop offset : Nat} (hcovers : o.program.Covers func first stop) (hle : first ≤ offset)
    (hs : s.Linked o floor) (hctx : s.world.store.Lineage ctx (o.chain func)) :
    Links o floor (m.exec call ctx stop offset) s fun _ _ => True := by
  induction hn : stop - offset generalizing offset s with
  | zero =>
    rw [exec, if_neg (by omega)]
    exact .pure hs trivial
  | succ n ih =>
    rw [exec, if_pos (by omega)]
    refine .bind (links_tick hs) fun _ s₁ h₁ _ => .bind (.expect h₁.linked) ?_
    rintro w _ - ⟨rfl, hw⟩
    split
    · exact .fail h₁.linked id
    · rename_i i hi
      have hinstr : o.program.instr? offset = some i := by
        rw [Program.instr?, ← hm.program, hw]
        exact hi
      obtain ⟨b, hb, hfrom⟩ := hcode.from hcovers hle (by omega) hinstr
      have hstep : Links o floor (m.step call ctx i) s₁ fun _ _ => True := by
        unfold step
        split
        · exact .pure h₁.linked trivial
        · exact .pure h₁.linked trivial
        · exact .bind (links_perform hm hcode hcall h₁.linked (hctx.mono h₁.grows) hb hfrom)
            fun _ _ h _ => .pure h.linked trivial
      refine .bind hstep fun going s₂ h₂ _ => ?_
      cases going with
      | next => exact ih (Nat.le_succ_of_le hle) h₂.linked (hctx.mono (h₁.grows.trans h₂.grows)) (by omega)
      | ret n => exact .pure h₂.linked trivial

theorem links_openFrame (hm : m.Linked o floor) (hcode : FileCode o f) {id parent : Nat} {g : FuncInfo}
    (hs : s.Linked o floor) (hg : o.program.funcs[id]? = some g) (hstop : g.stop.isSome)
    (hparent : s.world.store.Lineage parent (o.nest id).tail) :
    Links o floor (m.openFrame id parent g) s fun frame s' => frame = s.world.store.frames.size ∧
      s'.world.store.Lineage frame (o.nest id) ∧ ∃ fr, s'.world.store.frames[frame]? = some fr ∧
        fr.func = some id ∧ fr.parent = some parent := by
  unfold openFrame
  refine .bind (Q := fun _ s' => s = s') (.get (.pure hs rfl)) ?_
  rintro base _ - rfl
  split
  · exact .failBind hs fun h => h
  · refine .bind (.expect hs) ?_
    rintro vars _ - ⟨rfl, hvars⟩
    obtain ⟨hsize, hlinked⟩ := hm.frames id vars hvars
    have hlineage : Store.Lineage
        { s.world.store with
          frames := s.world.store.frames.push ⟨some id, some parent, base, vars⟩ }
        s.world.store.frames.size (id :: (o.nest id).tail) := hparent.push
    rw [← (hcode.nest hg hstop).1] at hlineage
    exact .onWorld (Q := fun frame w => frame = s.world.store.frames.size ∧
      w.store.Lineage frame (o.nest id) ∧ ∃ fr, w.store.frames[frame]? = some fr ∧
        fr.func = some id ∧ fr.parent = some parent) hs
      ⟨⟨hs.store.push hsize hlinked, .push _ _⟩, rfl, hlineage, _, Array.getElem?_push_size .., rfl, rfl⟩

theorem links_finish {height numOut frame : Nat} {n : Option Nat} (hs : s.Linked o floor) :
    Links o floor (finish height numOut frame n) s fun _ _ => True := by
  cases n with
  | some n =>
    refine .get (.bind (Q := fun st s' => s = s' ∧ ∀ v ∈ st, v ∈ s.stack)
      (.ofExcept hs (fun st hst => ⟨rfl, ?_⟩) fun c hc => ?_) ?_)
    · unfold Stack.keepTop? at hst
      split at hst <;> cases hst
      intro v hv
      exact (Array.mem_append.1 hv).elim mem_of_mem_extract mem_of_mem_extract
    · unfold Stack.keepTop? at hc
      split at hc <;> cases hc
      exact id
    · rintro st _ - ⟨rfl, hst⟩
      exact .setStack hs fun v hv => hs.stack v (hst v hv)
  | none =>
    refine .get (.bind (.expect hs) ?_)
    rintro fr _ - ⟨rfl, hfr⟩
    refine .setStack hs fun v hv => ?_
    obtain hv | hv := Array.mem_append.1 hv
    · exact hs.stack v (mem_of_mem_extract hv)
    · exact (hs.store.frames fr (Array.mem_of_getElem? hfr)).2 v (mem_of_mem_extract hv)

theorem links_descend (hs : s.Linked o floor) (name : String) :
    Links o floor (m.descend name) s fun _ s' => s'.world.store = s.world.store := by
  have hdeeper : s.Extends o floor { s with depth := s.depth + 1 } := ⟨⟨hs.store, hs.stack⟩, .refl _⟩
  unfold descend
  refine Task.ensures_bind.2 (Task.ensures_modify.2 (Task.ensures_bind.2 (Task.ensures_get.2 ?_)))
  split
  · exact ⟨⟨hs.store, .refl _⟩, id⟩
  · exact ⟨hdeeper, rfl⟩

/-- Calls keep what is linked, at whatever depth. -/
theorem links_call (hm : m.Linked o floor) (hcode : FileCode o f) (room : Nat) :
    LinksCaller o floor (m.call room) := by
  induction room with
  | zero =>
    intro id parent s hs _
    unfold Machine.call
    refine .bind (.ofChecked hs) ?_
    rintro g _ - ⟨rfl, -⟩
    split
    · exact .bind (links_descend hs _) fun _ s₁ h₁ _ => ⟨⟨h₁.linked.store, .refl _⟩, trivial⟩
    · exact .fail hs fun h => h
  | succ room ih =>
    intro id parent s hs hparent
    unfold Machine.call
    refine .bind (.ofChecked hs) ?_
    rintro g _ - ⟨rfl, hg⟩
    split
    · rename_i entry stop hentry hstop
      rw [hm.program] at hg
      have hg := Program.func_eq_ok.1 hg
      refine .bind (links_descend hs _) fun _ s₁ h₁ hstore => ?_
      have henter : Links o floor (m.enter (m.call room) id parent g entry stop) s₁ fun _ _ => True := by
        unfold enter
        refine .bind (Q := fun _ s' => s₁ = s') (.get (.pure h₁.linked rfl)) ?_
        rintro base _ - rfl
        refine .bind (links_openFrame hm hcode h₁.linked hg (by rw [hstop]; rfl) (hstore ▸ hparent))
          fun frame s₂ h₂ hframe => ?_
        exact .bind (.within (links_exec hm hcode ih (.func hg hentry hstop) (Nat.le_refl _) h₂.linked
          hframe.2.1)) fun n s₃ h₃ _ => links_finish h₃.linked
      exact .bind henter fun _ s₂ h₂ _ => ⟨⟨⟨h₂.linked.store, h₂.linked.stack⟩, .refl _⟩, trivial⟩
    · exact .fail hs fun h => h

/-- The main body runs in a new frame. -/
theorem Linked.entered (hm : m.Linked o floor) {w : World} (hw : w.store.Linked o floor) :
    (m.entered w).store.Linked o floor := hw.push hm.globals.1 hm.globals.2

theorem lineage_entered (w : World) : (m.entered w).store.Lineage w.store.frames.size [] :=
  .main (Array.getElem?_push_size ..) rfl rfl

theorem Linked.covers_main (hm : m.Linked o floor) : o.program.Covers none 0 m.program.mainEnd := by
  rw [hm.program]
  exact .main

/-- A run keeps what is linked, and no error of it tells of a variable that is not there. -/
theorem links_run (hm : m.Linked o floor) (hcode : FileCode o f) {w : World}
    (hw : w.store.Linked o floor) : HostTask.Links o floor m.run w fun _ _ => True := by
  have hgrows : w.store.Grows (m.entered w).store := .push _ _
  have hends : Links o floor (m.exec m.callTop w.store.frames.size m.program.mainEnd 0)
      ⟨m.entered w, #[], 0, 0⟩ fun _ _ => True :=
    links_exec hm hcode (links_call hm hcode _) hm.covers_main (Nat.le_refl _)
      ⟨hm.entered hw, fun v hv => absurd hv (Array.not_mem_empty v)⟩ (lineage_entered w)
  unfold HostTask.Links Task.Ensures
  rw [exec_run]
  unfold Links Task.Ensures at hends
  generalize Task.exec _ _ = r at hends ⊢
  obtain ⟨e | n, t⟩ := r
  · exact ⟨⟨hends.1.1, hgrows.trans hends.1.2⟩, hends.2⟩
  · exact ⟨⟨hends.1.linked.store, hgrows.trans hends.1.grows⟩, trivial⟩

end Machine

end StackScript
