import StackScript.Proofs.Placing.Statements
import StackScript.Proofs.Typing.Standing

/-!
# Where values are assigned

The value for a target goes to a slot of a frame, to an argument on the stack, or nowhere (`Spot.Of`).
Distinct names have distinct spots (`Spot.Of.unique`), and writing to one changes nothing else
(`Thread.keeps_put`).
-/

namespace StackScript

/-! ## Spots -/

/-- Where an assignment puts a value: nowhere, in a place, or at a height of the stack. -/
inductive Spot
  | blank
  | place (p : Place)
  | arg (height : Nat)
deriving DecidableEq, Repr

namespace Thread

def at? (t : Thread) : Spot → Option Value
  | .blank => none
  | .place p => t.world.store.load? p
  | .arg height => t.stack[height]?

/-- The thread after a value was written to a spot that it has. -/
def put (t : Thread) (v : Value) : Spot → Thread
  | .blank => t
  | .place p =>
    match t.world.store.store? v p with
    | some s => { t with world.store := s }
    | none => t
  | .arg height => { t with stack := t.stack.setIfInBounds height v }

end Thread

/-- The frame without the values of its variables. -/
def Frame.hollow (frame : Frame) : Frame :=
  { frame with vars := Array.replicate frame.vars.size .nil }

/-- The world without the values of variables. -/
def World.hollow (w : World) : World :=
  { w with store.frames := w.store.frames.map Frame.hollow }

/-- From the one thread to the other, values were written to some spots and to no others. -/
structure Thread.Keeps (t : Thread) (spots : List Spot) (t' : Thread) : Prop where
  values : ∀ spot, spot ∉ spots → t'.at? spot = t.at? spot
  size : t'.stack.size = t.stack.size
  depth : t'.depth = t.depth
  world : t'.world.hollow = t.world.hollow

section

variable {t t' t'' : Thread} {spots : List Spot} {spot : Spot} {v : Value}

theorem Thread.Keeps.refl (t : Thread) (spots : List Spot) : t.Keeps spots t :=
  ⟨fun _ _ => rfl, rfl, rfl, rfl⟩

theorem Thread.Keeps.cons (h : t.Keeps [spot] t') (h' : t'.Keeps spots t'') :
    t.Keeps (spot :: spots) t'' where
  values x hx := by
    rw [List.mem_cons, not_or] at hx
    rw [h'.values x hx.2, h.values x (List.mem_singleton.not.2 hx.1)]
  size := h'.size.trans h.size
  depth := h'.depth.trans h.depth
  world := h'.world.trans h.world

/-! ## Writing -/

/-- A store that was written to is the same but for the values of variables and cells. -/
theorem Store.hollow_store? {s s' : Store} {f i : Nat} (h : s.store? v (.slot f i) = some s') :
    { s' with frames := s'.frames.map Frame.hollow } = { s with frames := s.frames.map Frame.hollow } := by
  rw [store?] at h
  split at h
  · split at h <;> cases h
    congr 1
    refine Array.ext_getElem? fun j => ?_
    rw [Array.getElem?_map, Array.getElem?_map, Array.getElem?_modify]
    split
    · cases s.frames[j]? with
      | none => rfl
      | some frame => simp [Frame.hollow]
    · rfl
  · cases h

theorem Thread.at?_put (hspot : (t.at? spot).isSome) : (t.put v spot).at? spot = some v := by
  cases spot with
  | blank => cases hspot
  | place p =>
    obtain ⟨w, hw⟩ := Option.isSome_iff_exists.1 hspot
    obtain ⟨s', hs'⟩ := Store.exists_store? hw v
    rw [put, hs']
    exact (Store.load?_store? hs' p).trans (if_pos rfl)
  | arg height =>
    obtain ⟨w, hw⟩ := Option.isSome_iff_exists.1 hspot
    exact Array.getElem?_setIfInBounds_self_of_lt (Extends.lt_of_getElem? hw)

/-- Writing to a slot or to an argument changes no other. -/
theorem Thread.keeps_put (hspot : ∀ i, spot ≠ .place (.cell i)) : t.Keeps [spot] (t.put v spot) := by
  cases spot with
  | blank => exact .refl t _
  | place p =>
    cases p with
    | cell i => exact absurd rfl (hspot i)
    | slot f i =>
      rw [put]
      split
      · rename_i s' hs
        refine ⟨fun x hx => ?_, rfl, rfl, ?_⟩
        · cases x with
          | blank | arg => rfl
          | place q =>
            refine (Store.load?_store? hs q).trans (if_neg fun heq => hx ?_)
            rw [heq]
            exact List.mem_cons_self
        · exact congrArg (fun s => ({ t.world with store := s } : World)) (Store.hollow_store? hs)
      · exact .refl t _
  | arg height =>
    refine ⟨fun x hx => ?_, Array.size_setIfInBounds, rfl, rfl⟩
    cases x with
    | blank | place => rfl
    | arg other =>
      refine Array.getElem?_setIfInBounds_ne fun heq => hx ?_
      rw [heq]
      exact List.mem_cons_self

end

/-! ## Worlds that are the same but for values -/

section

variable {w w' : World}

theorem World.frame_of_hollow (h : w'.hollow = w.hollow) {f : Nat} {frame : Frame}
    (hf : w.store.frames[f]? = some frame) : ∃ frame', w'.store.frames[f]? = some frame' ∧
      frame'.func = frame.func ∧ frame'.parent = frame.parent ∧ frame'.base = frame.base ∧
      frame'.vars.size = frame.vars.size := by
  have hframes : w'.store.frames.map Frame.hollow = w.store.frames.map Frame.hollow :=
    congrArg (fun w : World => w.store.frames) h
  have hmap := congrArg (·[f]?) hframes
  rw [Array.getElem?_map, Array.getElem?_map, hf, Option.map_some] at hmap
  obtain ⟨frame', hf', heq⟩ := Option.map_eq_some_iff.1 hmap
  have hsize := congrArg (fun frame : Frame => frame.vars.size) heq
  exact ⟨frame', hf', (congrArg Frame.func heq :), (congrArg Frame.parent heq :),
    (congrArg Frame.base heq :), by simpa [Frame.hollow] using hsize⟩

theorem World.grows_of_hollow (h : w'.hollow = w.hollow) : w.store.Grows w'.store where
  frames _ _ hf := World.frame_of_hollow h hf
  cells := Nat.le_of_eq (congrArg (fun w : World => w.store.cells.size) h).symm

/-- A walk along frames ends where it ended before. -/
theorem Store.Grows.ancestor? {s s' : Store} (h : s.Grows s') {f n k : Nat} (hf : s.ancestor? f n = some k) :
    s'.ancestor? f n = some k := by
  induction n generalizing f with
  | zero => exact hf
  | succ n ih =>
    obtain ⟨parent, hparent, hf⟩ := Option.bind_eq_some_iff.1 hf
    obtain ⟨frame, hframe, hparent⟩ := Option.bind_eq_some_iff.1 hparent
    obtain ⟨frame', hframe', -, heq, -⟩ := h.frames f frame hframe
    rw [Store.ancestor?, hframe', Option.bind_some, heq, hparent, Option.bind_some, ih hf]

end

/-! ## Targets -/

/-- Where the value for a name goes, at a site that code runs at in the frame `ctx`: nowhere for a blank,
into the slot of a variable in a frame around the code, or to an argument. -/
inductive Spot.Of (S : Site) (s : Store) (ctx : Nat) : String → Spot → Prop
  | blank : Of S s ctx "_" .blank
  | var {name : String} {id f n index : Nat} {frame : Frame} (hname : name ≠ "_")
    (hfind : S.scopes.find? name = some (.var id)) (hf : s.ancestor? ctx n = some f)
    (hframe : s.frames[f]? = some frame) (hindex : (S.program.frameVars frame.func)[index]? = some id) :
    Of S s ctx name (.place (.slot f index))
  | param {name : String} {below : Nat} {ty : Ty} {frame : Frame} (hname : name ≠ "_")
    (h : ParamAt S name below ty) (hframe : s.frames[ctx]? = some frame) :
    Of S s ctx name (.arg (frame.base - below))

/-- The thread is one of the body at the site: frames of the functions around it lie around the frame
`ctx`, and the arguments lie below its base. -/
structure Thread.Seated (t : Thread) (S : Site) (ctx : Nat) : Prop where
  lineage : t.world.store.Lineage ctx S.chain
  sized : ∀ frame ∈ t.world.store.frames, frame.Sized S.program
  args : ∀ frame, t.world.store.frames[ctx]? = some frame →
    S.body.numParams ≤ frame.base ∧ frame.base ≤ t.stack.size

section

variable {S S' : Site} {t t' : Thread} {ctx : Nat} {name name' : String} {spot : Spot} {spots : List Spot}

theorem Thread.Seated.leads (h : t.Seated S ctx) (hs : S.Leads S') : t.Seated S' ctx := by
  obtain ⟨out, body, scopes, next⟩ := S
  obtain ⟨out', body', scopes', next'⟩ := S'
  obtain rfl : out' = out := hs.out
  obtain rfl : body' = body := hs.body
  exact ⟨h.lineage, h.sized, h.args⟩

theorem Thread.Seated.keeps (h : t.Seated S ctx) (hkeeps : t.Keeps spots t') : t'.Seated S ctx := by
  have hgrows := World.grows_of_hollow hkeeps.world.symm
  refine ⟨h.lineage.mono (World.grows_of_hollow hkeeps.world), fun frame hframe => ?_, fun frame hframe => ?_⟩
  · obtain ⟨f, hf⟩ := Array.mem_iff_getElem?.1 hframe
    obtain ⟨old, hold, hfunc, -, -, hsize⟩ := hgrows.frames f frame hf
    have hsized := h.sized old (Array.mem_of_getElem? hold)
    rwa [Frame.Sized, hsize, hfunc] at hsized
  · obtain ⟨old, hold, -, -, hbase, -⟩ := hgrows.frames ctx frame hframe
    rw [← hbase, hkeeps.size]
    exact h.args old hold

/-- Later the value goes to the same spot. -/
theorem Spot.Of.grows {s s' : Store} (h : Spot.Of S s ctx name spot) (hs : s.Grows s') :
    Spot.Of S s' ctx name spot := by
  cases h with
  | blank => exact .blank
  | var hname hfind hf hframe hindex =>
    obtain ⟨frame', hframe', hfunc, -⟩ := hs.frames _ _ hframe
    exact .var hname hfind (hs.ancestor? hf) hframe' (hfunc.symm ▸ hindex)
  | param hname hparam hframe =>
    obtain ⟨frame', hframe', -, -, hbase, -⟩ := hs.frames _ _ hframe
    rw [← hbase]
    exact .param hname hparam hframe'

/-- A name means the same at a site of the body where it stands for the same symbol. -/
theorem Spot.Of.leads {s : Store} (h : Spot.Of S s ctx name spot) (hs : S.Leads S')
    (hfind : name ≠ "_" → S'.scopes.find? name = S.scopes.find? name) : Spot.Of S' s ctx name spot := by
  obtain ⟨out, body, scopes, next⟩ := S
  obtain ⟨out', body', scopes', next'⟩ := S'
  obtain rfl : out' = out := hs.out
  obtain rfl : body' = body := hs.body
  cases h with
  | blank => exact .blank
  | var hname hvar hf hframe hindex => exact .var hname ((hfind hname).trans hvar) hf hframe hindex
  | param hname hparam hframe =>
    cases hparam with
    | mk hvar hfunc hsig hty =>
      exact .param (S := ⟨_, _, _, _⟩) hname (.mk ((hfind hname).trans hvar) hfunc hsig hty) hframe

/-- A parameter lies as far below the base of the frame as it is from the last one. -/
theorem ParamAt.symbol (hS : S.Takes S.body.numParams) {below : Nat} {ty : Ty}
    (h : ParamAt S name below ty) : 0 < below ∧ below ≤ S.body.numParams ∧ ∃ func sig,
      S.body.func = some func ∧ S.program.sig? func = some sig ∧
      sig.params[S.body.numParams - below]? = some ty ∧
      S.scopes.find? name = some (.param func (S.body.numParams - below) ty) := by
  obtain @⟨func, index, _, sig, hfind, hfunc, hsig, hty⟩ := h
  have hlt := (List.getElem?_eq_some_iff.1 hty).1
  have hcount := (hS func sig hfunc hsig).2
  have hindex : S.body.numParams - (S.body.numParams - index) = index := by omega
  refine ⟨by omega, by omega, func, sig, hfunc, hsig, ?_, ?_⟩
  · rw [hindex]
    exact hty
  · rw [hindex]
    exact hfind

/-- Distinct names have distinct spots. -/
theorem Spot.Of.unique (hdistinct : S.Distinct) (hS : S.Takes S.body.numParams) (ht : t.Seated S ctx)
    (h : Spot.Of S t.world.store ctx name spot) (h' : Spot.Of S t.world.store ctx name' spot)
    (hspot : spot ≠ .blank) : name = name' := by
  cases h with
  | blank => exact absurd rfl hspot
  | var _ hfind _ hframe hindex =>
    cases h' with
    | var _ hfind' _ hframe' hindex' =>
      cases hframe.symm.trans hframe'
      cases hindex.symm.trans hindex'
      exact hdistinct.apart _ _ _ hfind hfind' trivial
  | @param _ below ty frame _ hparam hframe =>
    generalize hheight : Spot.arg (frame.base - below) = x at h'
    cases h' with
    | blank | var => cases hheight
    | @param _ below' ty' frame' _ hparam' hframe' =>
      cases hframe.symm.trans hframe'
      obtain ⟨hpos, hle, func, sig, hfunc, hsig, hty, hfind⟩ := hparam.symbol hS
      obtain ⟨hpos', hle', func', sig', hfunc', hsig', hty', hfind'⟩ := hparam'.symbol hS
      have hbase := (ht.args frame hframe).1
      have heq := Spot.arg.inj hheight
      obtain rfl : below = below' := by omega
      cases hfunc.symm.trans hfunc'
      cases hsig.symm.trans hsig'
      cases hty.symm.trans hty'
      exact hdistinct.apart _ _ _ hfind hfind' trivial

/-! ## Instructions -/

/-- What takes the value on top to the spot for a name: an instruction, whatever the calls do. -/
structure Instr.Puts (i : Instr) (S : Site) (ctx : Nat) (t : Thread) (name : String) (spot : Spot) :
    Prop where
  of : Spot.Of S t.world.store ctx name spot
  there : spot ≠ .blank → (t.at? spot).isSome
  slot : ∀ j, spot ≠ .place (.cell j)
  exec : ∀ (m : Machine) (call : Caller) (v : Value) (vs : List Value),
    (m.perform call ctx i).exec (t.holding (v :: vs)) = (.ok (), (t.put v spot).holding vs)

/-- A variable is stored to. -/
theorem VarAt.puts {id index : Nat} {v : Var} {scope : Scope} (h : VarAt S name id v scope index)
    (hname : name ≠ "_") (ht : t.Seated S ctx) :
    ∃ spot, (Instr.storeVar scope index).Puts S ctx t name spot := by
  obtain ⟨f, n, frame, hwalk, hf, hframe, -, hindex, hlt⟩ := h.finds ht.lineage ht.sized
  have hload : t.world.store.load? (.slot f index) = some frame.vars[index] := by
    rw [Store.load?, hframe, Option.bind_some, Array.getElem?_eq_getElem hlt]
  refine ⟨.place (.slot f index), .var hname h.find hf hframe hindex,
    fun _ => Option.isSome_iff_exists.2 ⟨_, hload⟩, fun _ heq => (by cases heq), fun m call v vs => ?_⟩
  obtain ⟨s', hs'⟩ := Store.exists_store? hload v
  unfold Machine.perform
  refine (Task.exec_bind_ok Run.exec_pop_holding).trans
    ((Task.exec_bind_ok (Run.exec_frameOf_holding hwalk)).trans ?_)
  rw [Thread.put, hs']
  exact Run.exec_store_holding hs'

/-- A parameter is stored to. -/
theorem ParamAt.puts {below : Nat} {ty : Ty} (h : ParamAt S name below ty) (hname : name ≠ "_")
    (hS : S.Takes S.body.numParams) (ht : t.Seated S ctx) :
    ∃ spot, (Instr.storeArg below).Puts S ctx t name spot := by
  obtain ⟨frame, hframe, -⟩ := ht.lineage.func_eq
  obtain ⟨hpos, hle, -⟩ := h.symbol hS
  obtain ⟨hbase, hsize⟩ := ht.args frame hframe
  have hlt : frame.base - below < t.stack.size := by omega
  refine ⟨.arg (frame.base - below), .param hname h hframe,
    fun _ => Option.isSome_iff_exists.2 ⟨_, Array.getElem?_eq_getElem hlt⟩, fun _ heq => (by cases heq),
    fun m call v vs => ?_⟩
  unfold Machine.perform
  refine (Task.exec_bind_ok (Run.exec_argumentHeight_holding hframe hpos (by omega))).trans
    ((Task.exec_bind_ok Run.exec_pop_holding).trans ((Task.exec_bind_ok (Task.exec_get _)).trans ?_))
  rw [Thread.write?_holding hlt]
  rfl

/-- The value for a target that is a name is put by one instruction. -/
theorem Given.puts {defines : Bool} {p : Pushed} {is : List Instr}
    (h : Given S defines (.ident name) p is S') (hS : S.Takes S.body.numParams) (ht : t.Seated S ctx) :
    ∃ i spot, is = [i] ∧ i.Puts S' ctx t name spot := by
  have hseated := ht.leads h.leads
  generalize hx : Expr.ident name = x at h
  cases h with
  | blank =>
    cases hx
    refine ⟨_, .blank, rfl, .blank, fun h => absurd rfl h, fun _ heq => (by cases heq), fun m call v vs => ?_⟩
    unfold Machine.perform
    rw [Thread.holding_cons]
    show (Run.drop [v].length).exec _ = _
    exact Run.exec_drop
  | var hname hvar =>
    cases hx
    obtain ⟨spot, hputs⟩ := hvar.puts hname ht
    exact ⟨_, spot, rfl, hputs⟩
  | param hname hparam =>
    cases hx
    obtain ⟨spot, hputs⟩ := hparam.puts hname hS ht
    exact ⟨_, spot, rfl, hputs⟩
  | through => cases hx
  | define hname _ hvar =>
    cases hx
    obtain ⟨spot, hputs⟩ := hvar.puts hname hseated
    exact ⟨_, spot, rfl, hputs⟩

/-! ## All targets -/

/-- Each value is at its spot, and but for these spots the thread is as it was. -/
structure Thread.Assigned (t : Thread) (spots : List Spot) (vs : List Value) (t' : Thread) : Prop where
  holds : List.Forall₂ (fun spot v => spot ≠ .blank → t'.at? spot = some v) spots vs
  keeps : t.Keeps spots t'

/-- What was written first stays where later spots are others. -/
theorem Thread.Assigned.cons {u : Thread} {v : Value} {vs : List Value} (h : t.Assigned [spot] [v] u)
    (h' : u.Assigned spots vs t') (hother : spot ≠ .blank → spot ∉ spots) :
    t.Assigned (spot :: spots) (v :: vs) t' where
  holds := .cons (fun hspot => (h'.keeps.values spot (hother hspot)).trans
    ((List.forall₂_cons.1 h.holds).1 hspot)) h'.holds
  keeps := h.keeps.cons h'.keeps

/-- The value on top is put to the spot of a name. -/
theorem Given.ensures {m : Machine} {call : Caller} {defines : Bool} {p : Pushed} {is : List Instr}
    {v : Value} {vs : List Value} (h : Given S defines (.ident name) p is S')
    (hS : S.Takes S.body.numParams) (ht : t.Seated S ctx) :
    (m.follow call ctx is).Ensures (t.holding (v :: vs))
      (fun _ t' => ∃ spot u, t' = Thread.holding u vs ∧ Spot.Of S' t.world.store ctx name spot ∧
        t.Assigned [spot] [v] u)
      fun e _ => e.Limited := by
  obtain ⟨i, spot, rfl, hputs⟩ := h.puts hS (t := { t with steps := t.steps + 1 })
    ⟨ht.lineage, ht.sized, ht.args⟩
  have hkeeps := Thread.keeps_put (t := { t with steps := t.steps + 1 }) (v := v) hputs.slot
  show (do m.tick; m.perform call ctx i; pure () : Run Unit).Ensures _ _ _
  refine (Machine.ensures_ticked _).bind fun _ t₁ heq => ?_
  obtain rfl : t₁ = Thread.holding { t with steps := t.steps + 1 } (v :: vs) := heq
  unfold Task.Ensures
  rw [Task.exec_bind_ok (hputs.exec m call v vs)]
  refine ⟨spot, _, rfl, hputs.of, .cons (fun hspot => Thread.at?_put (hputs.there hspot)) .nil, ?_⟩
  exact ⟨hkeeps.values, hkeeps.size, hkeeps.depth, hkeeps.world⟩

theorem Given.find?_eq {defines : Bool} {p : Pushed} {is : List Instr}
    (h : Given S defines (.ident name) p is S') (hne : name' ≠ name) :
    S'.scopes.find? name' = S.scopes.find? name' := by
  generalize hx : Expr.ident name = x at h
  cases h with
  | define =>
    cases hx
    rw [Site.declare, Scopes.find?_declare, if_neg hne]
  | _ => rfl

/-- Giving values to other names changes no meaning. -/
theorem GivenAll.find?_eq {defines : Bool} {names : List String} {ps : List Pushed} {is : List Instr}
    (h : GivenAll S defines (names.map .ident) ps is S') (hnotMem : name ∉ names) :
    S'.scopes.find? name = S.scopes.find? name := by
  generalize hxs : names.map Expr.ident = xs at h
  induction h generalizing names with
  | nil => rfl
  | cons h _ ih =>
    obtain ⟨n, ns, rfl, rfl, rfl⟩ := List.map_eq_cons_iff.1 hxs
    rw [List.mem_cons, not_or] at hnotMem
    rw [ih hnotMem.2 rfl, h.find?_eq hnotMem.1]

/-- There is one instruction for each name. -/
theorem GivenAll.length_eq {defines : Bool} {names : List String} {ps : List Pushed} {is : List Instr}
    (h : GivenAll S defines (names.map .ident) ps is S') : is.length = names.length := by
  generalize hxs : names.map Expr.ident = xs at h
  induction h generalizing names with
  | nil => rw [List.map_eq_nil_iff.1 hxs, List.length_nil, List.length_nil]
  | @cons _ _ _ _ _ _ _ _ is₁ is₂ h _ ih =>
    obtain ⟨n, ns, rfl, rfl, rfl⟩ := List.map_eq_cons_iff.1 hxs
    have hone : is₁.length = 1 := by
      generalize hx : Expr.ident n = x at h
      cases h with
      | through => cases hx
      | _ => rfl
    rw [List.length_append, hone, ih rfl, List.length_cons, Nat.add_comm]

theorem Spot.Of.ne_blank {s : Store} (h : Spot.Of S s ctx name spot) (hspot : spot ≠ .blank) :
    name ≠ "_" := by
  cases h with
  | blank => exact absurd rfl hspot
  | var hname | param hname => exact hname

/-- The values on top, the topmost for the first name, are put to the spots of distinct names. By
induction on the targets: what was put before stays, since later spots are others. -/
theorem GivenAll.ensures {m : Machine} {call : Caller} {defines : Bool} {names : List String}
    {ps : List Pushed} {is : List Instr} {vs : List Value}
    (h : GivenAll S defines (names.map .ident) ps is S') (hlength : vs.length = names.length)
    (hnodup : (names.filter (· ≠ "_")).Nodup) (hdistinct : S.Distinct)
    (hS : S.Takes S.body.numParams) (ht : t.Seated S ctx) :
    (m.follow call ctx is).Ensures (t.holding vs)
      (fun _ t' => ∃ spots, List.Forall₂ (Spot.Of S' t.world.store ctx) names spots ∧
        t.Assigned spots vs t')
      fun e _ => e.Limited := by
  generalize hxs : names.map Expr.ident = xs at h
  induction h generalizing names vs t with
  | nil =>
    obtain rfl := List.map_eq_nil_iff.1 hxs
    obtain rfl := List.length_eq_zero_iff.1 hlength
    exact ⟨[], .nil, .nil, .refl t []⟩
  | @cons S S' S'' defines x xs p ps is₁ is₂ h hs ih =>
    obtain ⟨n, ns, rfl, rfl, rfl⟩ := List.map_eq_cons_iff.1 hxs
    obtain ⟨v, vs, rfl⟩ := List.exists_cons_of_length_eq_add_one hlength
    have hleads := h.leads
    have hS' : S'.Takes S'.body.numParams := hleads.body ▸ hS.of_leads hleads
    have hrest : (ns.filter (· ≠ "_")).Nodup :=
      hnodup.sublist ((List.sublist_cons_self n ns).filter _)
    rw [Machine.follow_append]
    refine (h.ensures hS ht).bind fun _ _ ⟨spot, u, heq, hof, hassigned⟩ => ?_
    subst heq
    refine (ih (Nat.succ.inj hlength) hrest (h.distinct hdistinct) hS'
      ((ht.keeps hassigned.keeps).leads hleads) rfl).imp fun _ t' ⟨spots, hofs, hassigned'⟩ => ?_
    have hback := World.grows_of_hollow hassigned.keeps.world.symm
    replace hofs := hofs.imp fun _ _ hspot => Spot.Of.grows hspot hback
    have hnotMem (hn : n ≠ "_") : n ∉ ns := fun hmem => by
      rw [List.filter_cons_of_pos (by simpa using hn), List.nodup_cons] at hnodup
      exact hnodup.1 (List.mem_filter.2 ⟨hmem, by simpa using hn⟩)
    have hfirst : Spot.Of S'' t.world.store ctx n spot :=
      hof.leads hs.leads fun hn => hs.find?_eq (hnotMem hn)
    refine ⟨spot :: spots, .cons hfirst hofs, hassigned.cons hassigned' fun hspot hmem => ?_⟩
    obtain ⟨n', hn', hof'⟩ := exists_of_forall₂_of_mem hofs hmem
    have heq := hfirst.unique (hs.distinct (h.distinct hdistinct))
      (hs.leads.body ▸ hS'.of_leads hs.leads) ((ht.leads hleads).leads hs.leads) hof' hspot
    exact hnotMem (hfirst.ne_blank hspot) (heq ▸ hn')

end

end StackScript
