import StackScript.Proofs.Placing.Ranges
import StackScript.Proofs.Typing.Statements

/-!
# What a program declares is typed

Type expressions denote proper types where those of the packages are proper
(`FuncTypeExpr.proper_of_resolve`). So are then the types of all variables: a body sees none that is
declared behind it, and a variable takes its type from a value (`Setting.Compiled.vars`). So all words
of a program are typed, function by function (`Setting.Compiled.typed`).
-/

namespace StackScript

/-! ## Few parameters and results -/

mutual

/-- No list of parameters or results is too long to be counted in an instruction. Types with a name are
those of the packages. -/
def Ty.Few : Ty → Prop
  | .basic _ | .any | .struct _ | .named .. => True
  | .slice t | .ptr t => t.Few
  | .func sig => sig.Few
termination_by structural t => t

def Signature.Few : Signature → Prop
  | ⟨ps, rs, _⟩ => (ps.length < mostTypes ∧ rs.length < mostTypes) ∧ TypesFew ps ∧ TypesFew rs
termination_by structural s => s

def TypesFew : List Ty → Prop
  | [] => True
  | t :: ts => t.Few ∧ TypesFew ts
termination_by structural ts => ts

end

theorem typesFew_iff {ts : List Ty} : TypesFew ts ↔ ∀ t ∈ ts, t.Few := by
  induction ts with
  | nil => simp [TypesFew]
  | cons t ts ih => simp [TypesFew, ih]

/-- Functions have few parameters and results, and the words are few enough for the arguments of a
call to be counted. -/
structure Program.Modest (p : Program) : Prop where
  code : p.code.size < Word.spreadCall
  sigs : ∀ (id : Nat) (sig : Signature), p.sig? id = some sig → sig.Few

/-! ## Type expressions -/

section

variable {r : Registry} {D : TypeNames} {find : String → Option Symbol}

theorem isBasic_of_predeclared {name : String} {t : Ty} (h : predeclaredType? name = some t) :
    t.Proper D := by
  unfold predeclaredType? at h
  split at h
  · cases h
    trivial
  · cases h
    rfl
  · cases h
    rfl
  · obtain ⟨k, hk, rfl⟩ := Option.map_eq_some_iff.1 h
    exact (Option.filter_eq_some_iff.1 hk).2

theorem proper_of_qualified (hr : r.Proper D) {package name : String} {t : Ty}
    (h : qualifiedType r find package name = .ok t) : t.Proper D := by
  unfold qualifiedType at h
  extract_lets found at h
  cases hfound : found with
  | none =>
    rw [hfound] at h
    cases h
  | some u =>
    rw [hfound] at h
    cases h
    dsimp only [found] at hfound
    split at hfound
    · exact hr.types _ _ _ hfound
    · cases hfound

/-- What the last parameter of a variadic function receives, in a slice. -/
theorem few_of_packLast {ts us : List Ty} (h : packLast ts = .ok us) (hus : TypesFew us) :
    TypesFew ts := by
  unfold packLast at h
  split at h
  · rename_i last hlast
    cases h
    obtain ⟨fixed, rfl⟩ := List.getLast?_eq_some_iff.1 hlast
    rw [List.dropLast_concat, typesFew_iff] at hus
    refine typesFew_iff.2 fun t ht => ?_
    obtain ht | ht := List.mem_append.1 ht
    · exact hus t (List.mem_append_left _ ht)
    · cases List.mem_singleton.1 ht
      exact hus (.slice last) (List.mem_append_right _ (List.mem_singleton_self _))
  · cases h

theorem proper_of_packLast {ts us : List Ty} (h : packLast ts = .ok us) (hts : ProperTypes D ts) :
    ProperTypes D us := by
  unfold packLast at h
  split at h
  · rename_i last hlast
    cases h
    obtain ⟨fixed, rfl⟩ := List.getLast?_eq_some_iff.1 hlast
    rw [List.dropLast_concat]
    rw [properTypes_iff] at hts
    refine properTypes_iff.2 fun t ht => ?_
    obtain ht | ht := List.mem_append.1 ht
    · exact hts t (List.mem_append_left _ ht)
    · cases List.mem_singleton.1 ht
      exact hts last (List.mem_append_right _ (List.mem_singleton_self _))
  · cases h

mutual

/-- A type expression denotes a proper type. -/
theorem TypeExpr.proper_of_resolve (hr : r.Proper D) : ∀ {e : TypeExpr} {t : Ty},
    e.resolve r find = .ok t → t.Few → t.Proper D
  | .name name, t, h, _ => by
    rw [TypeExpr.resolve] at h
    split at h
    · cases h
      exact isBasic_of_predeclared ‹_›
    · cases h
  | .qualified package name, t, h, _ => proper_of_qualified hr h
  | .slice e, t, h, hfew => by
    obtain ⟨u, hu, h⟩ := bind_eq_ok h
    cases h
    exact TypeExpr.proper_of_resolve hr hu (t := u) hfew
  | .ptr e, t, h, hfew => by
    obtain ⟨u, hu, h⟩ := bind_eq_ok h
    cases h
    exact TypeExpr.proper_of_resolve hr hu (t := u) hfew
  | .func ty, t, h, hfew => by
    obtain ⟨sig, hsig, h⟩ := bind_eq_ok h
    cases h
    exact FuncTypeExpr.proper_of_resolve hr hsig hfew
termination_by structural e => e

theorem FuncTypeExpr.proper_of_resolve (hr : r.Proper D) : ∀ {ty : FuncTypeExpr} {sig : Signature},
    ty.resolve r find = .ok sig → sig.Few → sig.Proper D
  | ⟨params, variadic, results⟩, sig, h, hfew => by
    simp only [FuncTypeExpr.resolve] at h
    obtain ⟨ps, hps, h⟩ := bind_eq_ok h
    cases variadic with
    | true =>
      obtain ⟨qs, hqs, h⟩ := bind_eq_ok h
      obtain ⟨rs, hrs, h⟩ := bind_eq_ok h
      cases h
      have hparams := proper_of_resolveParams hr hps (few_of_packLast hqs hfew.2.1)
      exact ⟨hfew.1, proper_of_packLast hqs hparams, proper_of_resolveParams hr hrs hfew.2.2⟩
    | false =>
      obtain ⟨qs, hqs, h⟩ := bind_eq_ok h
      obtain ⟨rs, hrs, h⟩ := bind_eq_ok h
      cases hqs
      cases h
      exact ⟨hfew.1, proper_of_resolveParams hr hps hfew.2.1, proper_of_resolveParams hr hrs hfew.2.2⟩
termination_by structural ty => ty

theorem Param.proper_of_resolve (hr : r.Proper D) : ∀ {p : Param} {t : Ty},
    p.resolve r find = .ok t → t.Few → t.Proper D
  | ⟨_, e⟩, _, h, hfew => TypeExpr.proper_of_resolve (e := e) hr h hfew
termination_by structural p => p

theorem proper_of_resolveParams (hr : r.Proper D) : ∀ {ps : List Param} {ts : List Ty},
    resolveParams r find ps = .ok ts → TypesFew ts → ProperTypes D ts
  | [], ts, h, _ => by
    cases h
    trivial
  | p :: ps, ts, h, hfew => by
    obtain ⟨t, ht, h⟩ := bind_eq_ok h
    obtain ⟨ts, hts, h⟩ := bind_eq_ok h
    cases h
    exact ⟨Param.proper_of_resolve hr ht hfew.1, proper_of_resolveParams hr hts hfew.2⟩
termination_by structural ps => ps

end

end

/-! ## Variables -/

/-- A variable that is laid out belongs to one of the functions. -/
theorem Laid.exists_owner {fs : Array FuncInfo} {ids : List Nat} {x y : Mark} (h : Laid fs ids x y)
    {id : Nat} (hx : x.vars ≤ id) (hy : id < y.vars) :
    ∃ func ∈ ids, ∃ info : FuncInfo, fs[func]? = some info ∧ id ∈ info.vars := by
  induction h with
  | nil => exact absurd hx (Nat.not_le.2 hy)
  | @cons func ids info x y z hinfo hspans _ ih =>
    rcases Nat.lt_or_ge id y.vars with hlt | hle
    · refine ⟨func, List.mem_cons_self, info, hinfo, Array.mem_toList_iff.1 ?_⟩
      rw [hspans.vars]
      exact List.mem_range'_1.2 ⟨hx, hspans.next ▸ hlt⟩
    · obtain ⟨func', hfunc', hrest⟩ := ih hle hy
      exact ⟨func', List.mem_cons_of_mem _ hfunc', hrest⟩

/-- A program that a file was compiled to, whose packages and host functions go together. -/
structure Setting.Compiled (g : Setting) (D : TypeNames) (f : File) (labels : Nat) : Prop where
  code : FileCode g.out f
  divides : g.out.Divides f labels
  registry : g.out.registry.Proper D
  modest : g.out.program.Modest
  packs : g.lax ∨ g.Packs
  free : g.lax ∨ stmtsPointerFree f.stmts
  freeFuncs : ∀ (id : Nat) (info : FuncInfo), g.out.program.funcs[id]? = some info →
    info.stop.isSome → g.lax ∨ stmtsPointerFree (g.out.stmts id)

/-- The words from `entry` up to `stop` are those of the body, and leave nothing on the stack. -/
def Body.Flows (b : Body) (g : Setting) (entry stop : Nat) : Prop :=
  ∃ is, g.out.program.Reads entry is ∧ stop = entry + is.length ∧ Flow g b [] is []

/-- The words of a function are typed, and its frame begins with its results. -/
inductive FuncInfo.Typed (info : FuncInfo) (g : Setting) (id : Nat) (sig : Signature) : Prop
  | mk {b : Body} {entry stop : Nat} (hparams : info.params = sig.params)
    (hnumOut : info.numOut = sig.results.length)
    (hfirst : g.out.program.FirstVars info.vars sig.results) (hbody : b.Of id sig)
    (hentry : info.entry = some entry) (hstop : info.stop = some stop)
    (hflows : b.Flows g entry stop)

namespace Setting.Compiled

variable {g : Setting} {D : TypeNames} {f : File} {labels : Nat} (h : g.Compiled D f labels)

include h

theorem consistent : g.Consistent D where
  code := ⟨f, h.code⟩
  sigs id sig hsig := by
    obtain ⟨find, ty, hresolve⟩ := h.code.resolved id sig hsig
    exact FuncTypeExpr.proper_of_resolve h.registry hresolve (h.modest.sigs id sig hsig)
  registry := h.registry
  packs := h.packs

theorem length_lt {entry : Nat} {is : List Instr} (hreads : g.out.program.Reads entry is) :
    is.length < Word.spreadCall := Nat.lt_of_le_of_lt hreads.length_le h.modest.code

omit h in
/-- At first the main body sees no variables. -/
theorem typed_main : Site.Typed ⟨g.out, .main, [f.funcNames ++ f.importNames], 0⟩ g D where
  out := rfl
  vars name id d hfind := by
    obtain ⟨scope, hscope, hlookup⟩ := List.exists_of_findSome?_eq_some hfind
    rw [List.mem_singleton.1 hscope] at hlookup
    have hmem := lookup_mem hlookup
    obtain hmem | hmem := List.mem_append.1 hmem
    · obtain ⟨i, hi, heq⟩ := List.mem_mapIdx.1 (List.mem_reverse.1 hmem)
      cases heq
    · obtain ⟨i, hi, heq⟩ := List.mem_map.1 (List.mem_reverse.1 hmem)
      cases heq

/-- Every variable is one of the main body or of a function that has words. -/
theorem exists_owner {id : Nat} {d : Var} (hd : g.out.program.vars[id]? = some d) :
    id < g.out.program.mainVars.size ∨ ∃ (func : Nat) (info : FuncInfo),
      g.out.program.funcs[func]? = some info ∧ info.stop.isSome ∧ id ∈ info.vars := by
  rcases Nat.lt_or_ge id g.out.program.mainVars.size with hlt | hle
  · exact .inl hlt
  · obtain ⟨func, hfunc, info, hinfo, hid⟩ :=
      h.divides.laid.exists_owner hle (Array.getElem?_eq_some_iff.1 hd).1
    exact .inr ⟨func, info, hinfo, (h.divides.ended func info hinfo).2 hfunc, hid⟩

/-- Variables have proper types. By induction on their order: a body sees no later ones at first. -/
theorem vars {id : Nat} {d : Var} (hd : g.out.program.vars[id]? = some d) : d.ty.Proper D := by
  induction id using Nat.strongRecOn generalizing d with
  | ind id ih =>
    obtain hmain | ⟨func, info, hinfo, hstop, hid⟩ := h.exists_owner hd
    · obtain ⟨S', is, -, hreads, hcode, hvars⟩ := h.code.main
      have hnext : g.out.program.mainVars.size = S'.next := by
        simpa using congrArg List.length hvars
      exact (hcode.types h.consistent typed_main h.free (h.length_lt hreads)).vars id d
        (Nat.zero_le id) (hnext ▸ hmain) hd
    · obtain @⟨sig, body, scopes, S', is, entry, first, hparams, hsig, hnumOut, hresults, hvars, hnext,
        hbody, -, -, -, -, hreads, hcode, hscopes⟩ := h.code.funcs func info hinfo hstop
      have hsig? := hsig.sig? hinfo
      have hmem := Array.mem_toList_iff.2 hid
      rw [hvars] at hmem
      obtain ⟨hfirst, hlast⟩ := List.mem_range'_1.1 hmem
      have result {id' : Nat} {d' : Var} (hle : first ≤ id') (hlt : id' < first + sig.results.length)
          (hd' : g.out.program.vars[id']? = some d') : d'.ty.Proper D := by
        obtain ⟨i, rfl⟩ := Nat.exists_eq_add_of_le hle
        have hi : i < sig.results.length := by omega
        obtain ⟨id', v, hid', hv, hty⟩ := hresults i _ (List.getElem?_eq_getElem hi)
        rw [← Array.getElem?_toList, hvars] at hid'
        obtain ⟨_, hid'⟩ := List.getElem?_eq_some_iff.1 hid'
        rw [List.getElem_range', Nat.one_mul] at hid'
        subst hid'
        cases hv.symm.trans hd'
        exact hty ▸ (h.consistent.sigs func sig hsig?).types.2 _ (List.getElem_mem hi)
      have hS : Site.Typed ⟨g.out, body, scopes, first + sig.results.length⟩ g D :=
        ⟨rfl, fun name id' d' hfind hd' => by
          have hlt := hscopes name id' hfind
          rcases Nat.lt_or_ge id' first with hbefore | hle
          · exact ih id' (Nat.lt_of_lt_of_le hbefore hfirst) hd'
          · exact result hle hlt hd'⟩
      rcases Nat.lt_or_ge id (first + sig.results.length) with hlt | hle
      · exact result hfirst hlt hd
      · exact (hcode.types h.consistent hS (h.freeFuncs func info hinfo hstop)
          (h.length_lt hreads)).vars id d hle (by omega) hd

/-! ## Code -/

theorem typed_site {S : Site} (hS : S.out = g.out) : S.Typed g D := ⟨hS, fun _ _ _ _ hd => h.vars hd⟩

omit h in
theorem proper_main : Body.main.Proper D := ⟨by decide, fun t ht => absurd ht List.not_mem_nil⟩

theorem proper_body {b : Body} {id : Nat} {sig : Signature} (hbody : b.Of id sig)
    (hsig : g.out.program.sig? id = some sig) : b.Proper D := by
  have hproper := h.consistent.sigs id sig hsig
  exact ⟨hbody.results ▸ hproper.few.2, fun t ht => hproper.types.2 t (hbody.results ▸ ht)⟩

/-- The main body is typed. -/
theorem flows_main : Body.main.Flows g 0 g.out.program.mainEnd := by
  obtain ⟨S', is, hend, hreads, hcode, -⟩ := h.code.main
  exact ⟨is, hreads, by rw [hend, Nat.zero_add],
    hcode.flows h.consistent typed_main proper_main h.free (h.length_lt hreads) []⟩

/-- The functions that have words are typed. -/
theorem typed_func {id : Nat} {info : FuncInfo} {sig : Signature}
    (hinfo : g.out.program.funcs[id]? = some info) (hended : info.stop.isSome)
    (hsig? : g.out.program.sig? id = some sig) : info.Typed g id sig := by
  obtain @⟨sig', body, scopes, S', is, entry, first, hparams, hsig, hnumOut, hresults, -, -,
    hbody, -, -, hentry, hstop, hreads, hcode, -⟩ := h.code.funcs id info hinfo hended
  obtain rfl : sig' = sig := Option.some.inj ((hsig.sig? hinfo).symm.trans hsig?)
  refine .mk hparams hnumOut hresults hbody hentry hstop ⟨is, hreads, rfl, ?_⟩
  exact hcode.flows h.consistent (h.typed_site rfl) (h.proper_body hbody hsig?)
    (h.freeFuncs id info hinfo hended) (h.length_lt hreads) []

end Setting.Compiled

end StackScript
