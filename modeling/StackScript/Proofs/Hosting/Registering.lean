import StackScript.Proofs.Translation.Growth

/-!
# Histories of a registry

A request is performed on a registry one item after another, so a failure part of the way could
leave the items before it behind. It does not: a request that fails has changed nothing
(`Registry.exec_perform`). After any history of requests each name of a package has one symbol, and
that finds the entry which was registered under this name (`Registry.records_after`); entries stay
where they are (`Registry.extends_after`).
-/

namespace StackScript

/-! ## Packed symbols -/

namespace NativeSymbol

theorem toNat_pack {s : NativeSymbol} (h : s.addr < 1 <<< addrBits) :
    s.pack.toNat = s.kind.tag * 1 <<< addrBits + s.addr := by
  have htag : s.kind.tag ≤ 2 := by cases s.kind <;> decide
  have hor : s.addr ||| s.kind.tag <<< addrBits = s.kind.tag <<< addrBits + s.addr := by
    rw [Nat.or_comm, Nat.shiftLeft_add_eq_or_of_lt (by simpa [Nat.shiftLeft_eq] using h)]
  change s.addr < 268435456 at h
  rw [pack, hor, BitVec.toNat_ofNat, Nat.shiftLeft_eq]
  exact Nat.mod_eq_of_lt (by show s.kind.tag * 268435456 + s.addr < 4294967296; omega)

/-- A symbol is found as it was kept, if its address leaves room for its kind. -/
theorem unpack_pack {s : NativeSymbol} (h : s.addr < 1 <<< addrBits) : unpack s.pack = s := by
  have hnat := toNat_pack h
  obtain ⟨addr, kind⟩ := s
  unfold unpack
  rw [hnat, Nat.shiftRight_eq_div_pow]
  change addr < 268435456 at h
  have haddr : (kind.tag * 1 <<< addrBits + addr) % 1 <<< addrBits = addr := by
    show (kind.tag * 268435456 + addr) % 268435456 = addr
    omega
  have hkind : (kind.tag * 1 <<< addrBits + addr) / 2 ^ addrBits = kind.tag := by
    show (kind.tag * 268435456 + addr) / 268435456 = kind.tag
    omega
  dsimp only at haddr hkind ⊢
  rw [haddr, hkind]
  cases kind <;> rfl

end NativeSymbol

/-! ## Entries -/

/-- What is registered under a name. -/
inductive HostItem
  | var (ty : Ty) (cell : Place)
  | func (f : FuncValue)
  | funcv (f : FuncValue)

def HostItem.kind : HostItem → SymbolKind
  | var .. => .var
  | func _ => .func
  | funcv _ => .funcv

/-- The item is in the table for functions of its variadicity. -/
def HostItem.Fits : HostItem → Prop
  | .var .. => True
  | .func f => f.sig.variadic = false
  | .funcv f => f.sig.variadic = true

/-- An item with the package and the name that it is registered under. -/
structure HostEntry where
  path : String
  name : String
  item : HostItem

namespace Natives

/-- Entries of the table for a kind of symbols. -/
def count (n : Natives) : SymbolKind → Nat
  | .var => n.vars.size
  | .func => n.funcs.size
  | .funcv => n.funcvs.size

/-- The entry that a symbol stands for. -/
def lookup? (n : Natives) (s : NativeSymbol) : Option HostEntry :=
  match s.kind with
  | .var => n.vars[s.addr]?.map fun v => ⟨v.path, v.name, .var v.ty v.cell⟩
  | .func => n.funcs[s.addr]?.map fun f => ⟨f.path, f.name, .func f.func⟩
  | .funcv => n.funcvs[s.addr]?.map fun f => ⟨f.path, f.name, .funcv f.func⟩

/-- One more entry at the end of its table. -/
def push (n : Natives) (e : HostEntry) : Natives :=
  match e.item with
  | .var ty cell => { n with vars := n.vars.push ⟨e.path, e.name, ty, cell⟩ }
  | .func f => { n with funcs := n.funcs.push ⟨e.path, e.name, f⟩ }
  | .funcv f => { n with funcvs := n.funcvs.push ⟨e.path, e.name, f⟩ }

/-- Every entry keeps its address. -/
structure Extends (n n' : Natives) : Prop where
  vars : StackScript.Extends n.vars n'.vars
  funcs : StackScript.Extends n.funcs n'.funcs
  funcvs : StackScript.Extends n.funcvs n'.funcvs

/-- Addresses leave room for the kind of a symbol. -/
structure Addressable (n : Natives) : Prop where
  vars : n.vars.size ≤ 1 <<< NativeSymbol.addrBits
  funcs : n.funcs.size ≤ 1 <<< NativeSymbol.addrBits
  funcvs : n.funcvs.size ≤ 1 <<< NativeSymbol.addrBits

variable {n n' n'' : Natives} {s : NativeSymbol} {e : HostEntry}

theorem Extends.refl (n : Natives) : n.Extends n := ⟨.refl _, .refl _, .refl _⟩

theorem Extends.trans (h : n.Extends n') (h' : n'.Extends n'') : n.Extends n'' :=
  ⟨h.vars.trans h'.vars, h.funcs.trans h'.funcs, h.funcvs.trans h'.funcvs⟩

theorem extends_push (n : Natives) (e : HostEntry) : n.Extends (n.push e) := by
  obtain ⟨path, name, _ | _ | _⟩ := e
  · exact ⟨.push _ _, .refl _, .refl _⟩
  · exact ⟨.refl _, .push _ _, .refl _⟩
  · exact ⟨.refl _, .refl _, .push _ _⟩

theorem Extends.entry (h : n.Extends n') (he : n.lookup? s = some e) : n'.lookup? s = some e := by
  obtain ⟨addr, _ | _ | _⟩ := s
  all_goals
    obtain ⟨x, hx, rfl⟩ := Option.map_eq_some_iff.1 he
    refine Option.map_eq_some_iff.2 ⟨x, ?_, rfl⟩
  · exact h.vars _ _ hx
  · exact h.funcs _ _ hx
  · exact h.funcvs _ _ hx

theorem lookup?_push (n : Natives) (e : HostEntry) :
    (n.push e).lookup? ⟨n.count e.item.kind, e.item.kind⟩ = some e := by
  obtain ⟨path, name, _ | _ | _⟩ := e <;>
    exact congrArg (Option.map _) Array.getElem?_push_size

theorem lt_count (h : n.lookup? s = some e) : s.addr < n.count s.kind := by
  obtain ⟨addr, _ | _ | _⟩ := s <;>
    exact (Array.getElem?_eq_some_iff.1 (Option.map_eq_some_iff.1 h).choose_spec.1).1

theorem Addressable.addr_lt (hn : n.Addressable) (h : n.lookup? s = some e) :
    s.addr < 1 <<< NativeSymbol.addrBits := by
  have hlt := lt_count h
  obtain ⟨addr, _ | _ | _⟩ := s
  · exact Nat.lt_of_lt_of_le hlt hn.vars
  · exact Nat.lt_of_lt_of_le hlt hn.funcs
  · exact Nat.lt_of_lt_of_le hlt hn.funcvs

end Natives

/-! ## Requests -/

/-- An operation on a registry. Host functions may be made at any time as well. -/
inductive Request
  | package (path : String)
  | vars (path : String) (batch : List (String × Ty × Place))
  | funcs (path : String) (batch : List (String × FuncValue))
  | funcvs (path : String) (batch : List (String × FuncValue))
  | types (path : String) (batch : List Ty)
  | host (sig : Signature) (body : HostBody)

namespace Request

/-- The entries that the request asks for. -/
def entries : Request → List HostEntry
  | vars path batch => batch.map fun (name, ty, cell) => ⟨path, name, .var ty cell⟩
  | funcs path batch => batch.map fun (name, f) => ⟨path, name, .func f⟩
  | funcvs path batch => batch.map fun (name, f) => ⟨path, name, .funcv f⟩
  | package _ | types .. | host .. => []

/-- The registry behind the request, or why it was refused. -/
def apply (r : Registry) : Request → Except RegistryError Registry
  | package path => r.newPackage path
  | vars path batch => r.registerVars path batch
  | funcs path batch => r.registerFuncs path batch
  | funcvs path batch => r.registerFuncvs path batch
  | types path batch => r.registerTypes path batch
  | host sig body => .ok (r.newHost sig body).2

end Request

/-- Changing a registry, step by step. -/
abbrev Registering := Task RegistryError Registry

namespace Registry

/-- Adds an entry: it goes to the end of its table, and the package, which has to be there, gets the
name for it. -/
def insert (e : HostEntry) : Registering Unit := do
  let addr := (← get).natives.count e.item.kind
  modify fun r => { r with natives := r.natives.push e }
  if !(← get).hasPackage e.path then Task.fail (.unknownPackage e.path)
  modify fun r => r.addSymbol e.path e.name ⟨addr, e.item.kind⟩

/-- Performs a request: checks all of it, then adds one item after another. -/
def perform (q : Request) : Registering Unit := do
  match q with
  | .package path =>
    if (← get).hasPackage path then Task.fail (.duplicatePackage path)
    modify fun r => { r with packages := r.packages ++ [(path, ⟨[], []⟩)] }
  | .vars path batch =>
    Task.ofExcept ((← get).checkFresh path (batch.map (·.1)))
    q.entries.forM insert
  | .funcs path batch =>
    Task.ofExcept ((← get).checkFresh path (batch.map (·.1)))
    match batch.find? (·.2.sig.variadic) with
    | some (name, _) => Task.fail (.expectedFixed path name)
    | none => q.entries.forM insert
  | .funcvs path batch =>
    Task.ofExcept ((← get).checkFresh path (batch.map (·.1)))
    match batch.find? (!·.2.sig.variadic) with
    | some (name, _) => Task.fail (.expectedVariadic path name)
    | none => q.entries.forM insert
  | .types path batch =>
    match (← get).package? path with
    | none => Task.fail (.unknownPackage path)
    | some pkg => do
      let named ← Task.ofExcept (namedTypes path pkg [] batch)
      modify fun r => r.updatePackage path fun pkg => { pkg with types := pkg.types ++ named }
  | .host sig body => modify fun r => (r.newHost sig body).2

variable {r r' : Registry} {path : String}

theorem package?_updatePackage (r : Registry) (path path' : String) (change : Package → Package) :
    (r.updatePackage path change).package? path' =
      (r.package? path').map fun pkg => if path' = path then change pkg else pkg :=
  lookup_map_snd (fun p pkg => if p = path then change pkg else pkg) path' r.packages

/-- The symbol of an entry that a registry is about to get. -/
def symbolOf (r : Registry) (e : HostEntry) : NativeSymbol := ⟨r.natives.count e.item.kind, e.item.kind⟩

/-- The registry with one more entry. -/
def add (r : Registry) (e : HostEntry) : Registry :=
  { r.addSymbol e.path e.name (r.symbolOf e) with natives := r.natives.push e }

/-- The package with a name for an entry that a registry is about to get. -/
def withName (r : Registry) (e : HostEntry) (pkg : Package) : Package :=
  { pkg with symbols := pkg.symbols ++ [(e.name, (r.symbolOf e).pack)] }

theorem package?_add (r : Registry) (e : HostEntry) (path : String) : (r.add e).package? path =
    (r.package? path).map fun pkg => if path = e.path then r.withName e pkg else pkg :=
  package?_updatePackage r e.path path (r.withName e)

theorem hasPackage_add (r : Registry) (e : HostEntry) (path : String) :
    (r.add e).hasPackage path = r.hasPackage path := by
  unfold hasPackage
  rw [package?_add, Option.isSome_map]

theorem exec_insert {e : HostEntry} (h : r.hasPackage e.path = true) :
    (insert e).exec r = (.ok (), r.add e) := by
  have h' : ({ r with natives := r.natives.push e } : Registry).hasPackage e.path = true := h
  unfold insert
  rw [Task.exec_bind_ok (Task.exec_get r), Task.exec_bind_ok (Task.exec_modify _ r)]
  rw [Task.exec_bind_ok (Task.exec_get _), h']
  rfl

/-- Where the package is there, no item of a batch fails. -/
theorem exec_insertAll {es : List HostEntry} (h : ∀ e ∈ es, r.hasPackage e.path = true) :
    (es.forM insert).exec r = (.ok (), es.foldl add r) := by
  induction es generalizing r with
  | nil => rfl
  | cons e es ih =>
    show (insert e >>= fun _ => es.forM insert).exec r = _
    rw [Task.exec_bind_ok (exec_insert (h e List.mem_cons_self))]
    exact ih fun e' he' => (hasPackage_add r e e'.path).trans (h e' (List.mem_cons_of_mem e he'))

theorem hasPackage_of_checkFresh {names : List String} (h : r.checkFresh path names = .ok ()) :
    r.hasPackage path = true := by
  unfold checkFresh at h
  unfold hasPackage
  cases hpkg : r.package? path with
  | none => rw [hpkg] at h; cases h
  | some pkg => rfl

theorem exec_insertBatch {α : Type} {names : List String} (h : r.checkFresh path names = .ok ())
    {entry : α → HostEntry} (hentry : ∀ a, (entry a).path = path) (batch : List α) :
    ((batch.map entry).forM insert).exec r = (.ok (), batch.foldl (fun r a => r.add (entry a)) r) := by
  rw [exec_insertAll fun e he => ?_, List.foldl_map]
  obtain ⟨a, -, rfl⟩ := List.mem_map.1 he
  rw [hentry]
  exact hasPackage_of_checkFresh h

/-- A request is performed as a whole or not at all: no item fails behind others that were added. -/
theorem exec_perform (q : Request) (r : Registry) : (perform q).exec r = match q.apply r with
    | .ok r' => (.ok (), r')
    | .error e => (.error (.error e), r) := by
  cases q with
  | package path =>
    unfold perform Request.apply newPackage
    dsimp only
    rw [Task.exec_bind_ok (Task.exec_get r)]
    cases r.hasPackage path <;> rfl
  | vars path batch =>
    unfold perform Request.apply registerVars
    dsimp only
    rw [Task.exec_bind_ok (Task.exec_get r)]
    cases hfresh : r.checkFresh path (batch.map (·.1)) with
    | error e => rfl
    | ok u => exact exec_insertBatch hfresh (fun _ => rfl) batch
  | funcs path batch =>
    unfold perform Request.apply registerFuncs
    dsimp only
    rw [Task.exec_bind_ok (Task.exec_get r)]
    cases hfresh : r.checkFresh path (batch.map (·.1)) with
    | error e => rfl
    | ok u =>
      cases batch.find? (·.2.sig.variadic) with
      | some f => rfl
      | none => exact exec_insertBatch hfresh (fun _ => rfl) batch
  | funcvs path batch =>
    unfold perform Request.apply registerFuncvs
    dsimp only
    rw [Task.exec_bind_ok (Task.exec_get r)]
    cases hfresh : r.checkFresh path (batch.map (·.1)) with
    | error e => rfl
    | ok u =>
      cases batch.find? (!·.2.sig.variadic) with
      | some f => rfl
      | none => exact exec_insertBatch hfresh (fun _ => rfl) batch
  | types path batch =>
    unfold perform Request.apply registerTypes
    dsimp only
    rw [Task.exec_bind_ok (Task.exec_get r)]
    cases hpkg : r.package? path with
    | none => rfl
    | some pkg =>
      dsimp only
      cases namedTypes path pkg [] batch <;> rfl
  | host sig body => rfl

/-! ## Histories -/

/-- A registry without packages, where some host functions have been made. -/
def bare (bodies : Array HostBody) : Registry := ⟨[], #[], #[], #[], bodies⟩

/-- The registry after a history of requests, whatever became of each of them. -/
def after (r : Registry) (qs : List Request) : Registry :=
  qs.foldl (fun r q => ((perform q).exec r).2) r

/-- The entries that the requests of a history added. -/
def log (r : Registry) : List Request → List HostEntry
  | [] => []
  | q :: qs =>
    (if ((perform q).exec r).1.isOk then q.entries else []) ++ log ((perform q).exec r).2 qs

/-- The packages of a registry name the entries of a log, each once, and nothing else. -/
structure Records (r : Registry) (log : List HostEntry) : Prop where
  paths : (r.packages.map (·.1)).Nodup
  names : ∀ path pkg, r.package? path = some pkg → (pkg.symbols.map (·.1)).Nodup
  types : ∀ path pkg, r.package? path = some pkg → (pkg.types.map (·.1)).Nodup
  found : ∀ path pkg name w, r.package? path = some pkg → (name, w) ∈ pkg.symbols →
    ∃ s e, w = s.pack ∧ r.natives.lookup? s = some e ∧ e ∈ log ∧ e.path = path ∧ e.name = name
  kept : ∀ e ∈ log, ∃ pkg s, r.package? e.path = some pkg ∧ (e.name, s.pack) ∈ pkg.symbols ∧
    r.natives.lookup? s = some e
  fixed : ∀ f ∈ r.natives.funcs, f.func.sig.variadic = false
  variadic : ∀ f ∈ r.natives.funcvs, f.func.sig.variadic = true

/-- A package has room for the name of an entry. -/
def Fresh (r : Registry) (e : HostEntry) : Prop :=
  ∃ pkg, r.package? e.path = some pkg ∧ e.name ∉ pkg.symbols.map (·.1)

variable {es : List HostEntry} {e e' : HostEntry}

theorem fresh_add (h : r.Fresh e') (hne : e'.path = e.path → e'.name ≠ e.name) :
    (r.add e).Fresh e' := by
  obtain ⟨pkg, hpkg, hname⟩ := h
  refine ⟨_, by rw [package?_add, hpkg, Option.map_some], ?_⟩
  split
  · rename_i hpath
    simp only [withName, List.map_append, List.map_cons, List.map_nil, List.mem_append,
      List.mem_singleton]
    exact fun h => h.elim hname (hne hpath)
  · exact hname

theorem paths_add (r : Registry) (e : HostEntry) :
    (r.add e).packages.map (·.1) = r.packages.map (·.1) := by
  show ((r.packages.map _).map _) = _
  rw [List.map_map]
  rfl

theorem Records.add (h : r.Records es) (hfresh : r.Fresh e) (hfits : e.item.Fits) :
    (r.add e).Records (es ++ [e]) := by
  have hextends : r.natives.Extends (r.add e).natives := r.natives.extends_push e
  have hentry : (r.add e).natives.lookup? (r.symbolOf e) = some e := r.natives.lookup?_push e
  obtain ⟨pkg₀, hpkg₀, hname⟩ := hfresh
  refine ⟨(paths_add r e).symm ▸ h.paths, fun path pkg hpkg => ?_, fun path pkg hpkg => ?_,
    fun path pkg name w hpkg hw => ?_, fun e' he' => ?_, ?_, ?_⟩
  · rw [package?_add] at hpkg
    obtain ⟨old, hold, rfl⟩ := Option.map_eq_some_iff.1 hpkg
    split
    · rename_i hpath
      subst hpath
      cases hpkg₀.symm.trans hold
      simp only [withName, List.map_append, List.map_cons, List.map_nil]
      exact List.nodup_append.2 ⟨h.names _ _ hold, by simp, fun a ha b hb hab => by
        cases List.mem_singleton.1 hb
        exact hname (hab ▸ ha)⟩
    · exact h.names _ _ hold
  · rw [package?_add] at hpkg
    obtain ⟨old, hold, rfl⟩ := Option.map_eq_some_iff.1 hpkg
    split <;> exact h.types path old hold
  · rw [package?_add] at hpkg
    obtain ⟨old, hold, rfl⟩ := Option.map_eq_some_iff.1 hpkg
    have hold' (hw : (name, w) ∈ old.symbols) : ∃ s e', w = s.pack ∧
        (r.add e).natives.lookup? s = some e' ∧ e' ∈ es ++ [e] ∧ e'.path = path ∧ e'.name = name := by
      obtain ⟨s, e', rfl, hs, he', hpath, hname⟩ := h.found path old name w hold hw
      exact ⟨s, e', rfl, hextends.entry hs, List.mem_append_left _ he', hpath, hname⟩
    split at hw
    · rename_i hpath
      obtain hw | hw := List.mem_append.1 hw
      · exact hold' hw
      · cases List.mem_singleton.1 hw
        exact ⟨r.symbolOf e, e, rfl, hentry, by simp, hpath.symm, rfl⟩
    · exact hold' hw
  · obtain he' | he' := List.mem_append.1 he'
    · obtain ⟨pkg, s, hpkg, hmem, hs⟩ := h.kept e' he'
      refine ⟨_, s, by rw [package?_add, hpkg, Option.map_some], ?_, hextends.entry hs⟩
      split
      · exact List.mem_append_left _ hmem
      · exact hmem
    · cases List.mem_singleton.1 he'
      refine ⟨_, r.symbolOf e, by rw [package?_add, hpkg₀, Option.map_some], ?_, hentry⟩
      rw [if_pos rfl]
      exact List.mem_append_right _ (List.mem_singleton_self _)
  · obtain ⟨path, name, _ | f | f⟩ := e
    · exact h.fixed
    · intro g hg
      obtain hg | rfl := Array.mem_push.1 hg
      · exact h.fixed g hg
      · exact hfits
    · exact h.fixed
  · obtain ⟨path, name, _ | f | f⟩ := e
    · exact h.variadic
    · exact h.variadic
    · intro g hg
      obtain hg | rfl := Array.mem_push.1 hg
      · exact h.variadic g hg
      · exact hfits

/-- So are the entries of a batch whose names differ. -/
theorem Records.addAll {new : List HostEntry} (h : r.Records es) (hfresh : ∀ e ∈ new, r.Fresh e)
    (hdistinct : new.Pairwise fun e e' => e'.path = e.path → e'.name ≠ e.name)
    (hfits : ∀ e ∈ new, e.item.Fits) : (new.foldl Registry.add r).Records (es ++ new) := by
  induction new generalizing r es with
  | nil => simpa using h
  | cons e new ih =>
    obtain ⟨hhead, htail⟩ := List.pairwise_cons.1 hdistinct
    have hadd := h.add (hfresh e List.mem_cons_self) (hfits e List.mem_cons_self)
    have hall := ih hadd
      (fun e' he' => fresh_add (hfresh e' (List.mem_cons_of_mem e he')) (hhead e' he')) htail
      fun e' he' => hfits e' (List.mem_cons_of_mem e he')
    rwa [List.append_assoc, List.singleton_append] at hall

/-! ### Single requests -/

theorem taken?_eq_none {pkg : Package} {seen names : List String} (h : taken? pkg seen names = none) :
    names.Nodup ∧ ∀ name ∈ names, name ∉ pkg.symbols.map (·.1) ∧ name ∉ seen := by
  induction names generalizing seen with
  | nil => exact ⟨.nil, fun _ h => nomatch h⟩
  | cons name names ih =>
    unfold taken? at h
    split at h
    · cases h
    · rename_i hfree
      simp only [Bool.or_eq_true, List.contains_iff_mem, not_or, Option.not_isSome_iff_eq_none] at hfree
      obtain ⟨hnodup, hall⟩ := ih h
      refine ⟨List.nodup_cons.2 ⟨fun hmem => (hall name hmem).2 List.mem_cons_self, hnodup⟩,
        fun name' hmem => ?_⟩
      obtain rfl | hmem := List.mem_cons.1 hmem
      · exact ⟨lookup_eq_none_iff.1 hfree.1, hfree.2⟩
      · exact ⟨(hall name' hmem).1, fun hseen => (hall name' hmem).2 (List.mem_cons_of_mem name hseen)⟩

theorem exists_of_checkFresh {names : List String} (h : r.checkFresh path names = .ok ()) :
    ∃ pkg, r.package? path = some pkg ∧ names.Nodup ∧ ∀ name ∈ names, name ∉ pkg.symbols.map (·.1) := by
  unfold checkFresh at h
  cases hpkg : r.package? path with
  | none =>
    rw [hpkg] at h
    cases h
  | some pkg =>
    rw [hpkg] at h
    cases htaken : taken? pkg [] names with
    | some name =>
      simp only [htaken] at h
      cases h
    | none =>
      obtain ⟨hnodup, hall⟩ := taken?_eq_none htaken
      exact ⟨pkg, rfl, hnodup, fun name hname => (hall name hname).1⟩

/-- A batch that passes the check is recorded. -/
theorem Records.batch {α : Type} (h : r.Records es) {batch : List α} {name : α → String}
    (item : α → HostItem) (hfresh : r.checkFresh path (batch.map name) = .ok ())
    (hfits : ∀ a ∈ batch, (item a).Fits) :
    (batch.foldl (fun r a => r.add ⟨path, name a, item a⟩) r).Records
      (es ++ batch.map fun a => ⟨path, name a, item a⟩) := by
  obtain ⟨pkg, hpkg, hnodup, hnames⟩ := exists_of_checkFresh hfresh
  rw [← List.foldl_map (f := fun a => (⟨path, name a, item a⟩ : HostEntry))]
  refine h.addAll ?_ ?_ ?_
  · intro e he
    obtain ⟨a, ha, rfl⟩ := List.mem_map.1 he
    exact ⟨pkg, hpkg, hnames _ (List.mem_map_of_mem ha)⟩
  · rw [List.pairwise_map]
    rw [List.Nodup, List.pairwise_map] at hnodup
    exact hnodup.imp fun hne _ heq => hne heq.symm
  · intro e he
    obtain ⟨a, ha, rfl⟩ := List.mem_map.1 he
    exact hfits a ha

theorem nodup_namedTypes {pkg : Package} {done named : List (String × Ty)} {types : List Ty}
    (h : namedTypes path pkg done types = .ok named)
    (hdone : ((pkg.types ++ done).map (·.1)).Nodup) : ((pkg.types ++ named).map (·.1)).Nodup := by
  induction types generalizing done with
  | nil =>
    cases h
    exact hdone
  | cons t types ih =>
    unfold namedTypes at h
    split at h
    · rename_i p name u
      split at h
      · cases h
      · rename_i hfree
        simp only [Bool.or_eq_true, not_or, Option.not_isSome_iff_eq_none] at hfree
        refine ih h ?_
        rw [← List.append_assoc, List.map_append]
        refine List.nodup_append.2 ⟨hdone, by simp, fun a ha b hb hab => ?_⟩
        obtain rfl : b = name := List.mem_singleton.1 hb
        rw [hab, List.map_append] at ha
        obtain ha | ha := List.mem_append.1 ha
        · exact lookup_eq_none_iff.1 hfree.1 ha
        · exact lookup_eq_none_iff.1 hfree.2 ha
    · cases h

theorem package?_newPackage (r : Registry) (path : String) {p : String} {pkg : Package}
    (h : Registry.package? { r with packages := r.packages ++ [(path, ⟨[], []⟩)] } p = some pkg) :
    r.package? p = some pkg ∨ pkg = ⟨[], []⟩ := by
  unfold package? at h
  rw [List.lookup_append, Option.or_eq_some_iff] at h
  refine h.imp id fun hlast => ?_
  have hmem := lookup_mem hlast.2
  cases List.mem_singleton.1 hmem
  rfl

theorem Records.package (h : r.Records es) (hnew : r.newPackage path = .ok r') : r'.Records es := by
  unfold newPackage at hnew
  split at hnew
  · cases hnew
  · rename_i hfree
    cases hnew
    have hnone : r.packages.lookup path = none := Option.not_isSome_iff_eq_none.1 hfree
    refine ⟨?_, fun p pkg hpkg => ?_, fun p pkg hpkg => ?_, fun p pkg name w hpkg hw => ?_,
      fun e he => ?_, h.fixed, h.variadic⟩
    · rw [List.map_append]
      refine List.nodup_append.2 ⟨h.paths, by simp, fun a ha b hb hab => ?_⟩
      obtain rfl : b = path := List.mem_singleton.1 hb
      exact lookup_eq_none_iff.1 hnone (hab ▸ ha)
    · obtain hold | rfl := package?_newPackage r path hpkg
      · exact h.names p pkg hold
      · exact .nil
    · obtain hold | rfl := package?_newPackage r path hpkg
      · exact h.types p pkg hold
      · exact .nil
    · obtain hold | rfl := package?_newPackage r path hpkg
      · exact h.found p pkg name w hold hw
      · cases hw
    · obtain ⟨pkg, s, hpkg, hmem, hs⟩ := h.kept e he
      refine ⟨pkg, s, ?_, hmem, hs⟩
      unfold package? at hpkg ⊢
      rw [List.lookup_append, hpkg, Option.some_or]

theorem Records.registerTypes {batch : List Ty} (h : r.Records es)
    (hnew : r.registerTypes path batch = .ok r') : r'.Records es := by
  unfold Registry.registerTypes at hnew
  cases hpkg₀ : r.package? path with
  | none =>
    rw [hpkg₀] at hnew
    cases hnew
  | some pkg₀ =>
    simp only [hpkg₀] at hnew
    obtain ⟨named, hnamed, hnew⟩ := bind_eq_ok hnew
    cases hnew
    have htypes := nodup_namedTypes hnamed (by simpa using h.types path pkg₀ hpkg₀)
    have hold {p : String} {pkg : Package} (hpkg : (r.updatePackage path fun pkg =>
        { pkg with types := pkg.types ++ named }).package? p = some pkg) :
        ∃ old, r.package? p = some old ∧ pkg.symbols = old.symbols ∧ (pkg.types.map (·.1)).Nodup := by
      rw [package?_updatePackage] at hpkg
      obtain ⟨old, hold, rfl⟩ := Option.map_eq_some_iff.1 hpkg
      refine ⟨old, hold, ?_⟩
      split
      · rename_i hp
        subst hp
        cases hpkg₀.symm.trans hold
        exact ⟨rfl, htypes⟩
      · exact ⟨rfl, h.types p old hold⟩
    refine ⟨?_, fun p pkg hpkg => ?_, fun p pkg hpkg => ?_, fun p pkg name w hpkg hw => ?_,
      fun e he => ?_, h.fixed, h.variadic⟩
    · show ((r.packages.map _).map _).Nodup
      rw [List.map_map]
      exact h.paths
    · obtain ⟨old, hold, hsymbols, -⟩ := hold hpkg
      exact hsymbols ▸ h.names p old hold
    · obtain ⟨-, -, -, htypes⟩ := hold hpkg
      exact htypes
    · obtain ⟨old, hold, hsymbols, -⟩ := hold hpkg
      exact h.found p old name w hold (hsymbols ▸ hw)
    · obtain ⟨pkg, s, hpkg, hmem, hs⟩ := h.kept e he
      refine ⟨_, s, by rw [package?_updatePackage, hpkg, Option.map_some], ?_, hs⟩
      split <;> exact hmem

/-- A request that succeeds adds its entries, and nothing else. -/
theorem Records.apply (h : r.Records es) {q : Request} (hq : q.apply r = .ok r') :
    r'.Records (es ++ q.entries) := by
  cases q with
  | package path =>
    exact (List.append_nil es).symm ▸ h.package hq
  | vars path batch =>
    obtain ⟨u, hfresh, hq⟩ := bind_eq_ok hq
    cases hq
    exact h.batch (fun v => .var v.2.1 v.2.2) hfresh fun _ _ => trivial
  | funcs path batch =>
    obtain ⟨u, hfresh, hq⟩ := bind_eq_ok hq
    cases hfind : batch.find? (·.2.sig.variadic) with
    | some f =>
      rw [hfind] at hq
      cases hq
    | none =>
      rw [hfind] at hq
      cases hq
      exact h.batch (fun f => .func f.2) hfresh fun f hf =>
        by simpa [HostItem.Fits] using List.find?_eq_none.1 hfind f hf
  | funcvs path batch =>
    obtain ⟨u, hfresh, hq⟩ := bind_eq_ok hq
    cases hfind : batch.find? (!·.2.sig.variadic) with
    | some f =>
      rw [hfind] at hq
      cases hq
    | none =>
      rw [hfind] at hq
      cases hq
      exact h.batch (fun f => .funcv f.2) hfresh fun f hf =>
        by simpa [HostItem.Fits] using List.find?_eq_none.1 hfind f hf
  | types path batch =>
    exact (List.append_nil es).symm ▸ h.registerTypes hq
  | host sig body =>
    cases hq
    exact (List.append_nil es).symm ▸
      ⟨h.paths, h.names, h.types, h.found, h.kept, h.fixed, h.variadic⟩

/-! ### Registries only grow -/

/-- Entries keep their addresses and packages their names. -/
structure Grows (r r' : Registry) : Prop where
  natives : r.natives.Extends r'.natives
  symbols : ∀ path pkg, r.package? path = some pkg →
    ∃ pkg', r'.package? path = some pkg' ∧ pkg.symbols <+: pkg'.symbols

theorem Grows.refl (r : Registry) : r.Grows r := ⟨.refl _, fun _ pkg h => ⟨pkg, h, List.prefix_rfl⟩⟩

theorem Grows.trans {r'' : Registry} (h : r.Grows r') (h' : r'.Grows r'') : r.Grows r'' where
  natives := h.natives.trans h'.natives
  symbols path pkg hpkg := by
    obtain ⟨pkg', hpkg', hprefix⟩ := h.symbols path pkg hpkg
    obtain ⟨pkg'', hpkg'', hprefix'⟩ := h'.symbols path pkg' hpkg'
    exact ⟨pkg'', hpkg'', hprefix.trans hprefix'⟩

theorem Grows.find? (h : r.Grows r') {name : String} {s : NativeSymbol}
    (hs : r.find? path name = some s) : r'.find? path name = some s := by
  obtain ⟨w, hw, rfl⟩ := Option.map_eq_some_iff.1 hs
  obtain ⟨pkg, hpkg, hw⟩ := Option.bind_eq_some_iff.1 hw
  obtain ⟨pkg', hpkg', more, hsymbols⟩ := h.symbols path pkg hpkg
  unfold Registry.find?
  rw [hpkg', Option.bind_some, ← hsymbols, List.lookup_append, hw]
  rfl

/-- A change of one package that keeps its names. -/
theorem grows_updatePackage (r : Registry) {change : Package → Package}
    (h : ∀ pkg, pkg.symbols <+: (change pkg).symbols) : r.Grows (r.updatePackage path change) where
  natives := .refl _
  symbols path' pkg hpkg := by
    refine ⟨_, by rw [package?_updatePackage, hpkg, Option.map_some], ?_⟩
    split
    · exact h pkg
    · exact List.prefix_rfl

theorem grows_add (r : Registry) (e : HostEntry) : r.Grows (r.add e) where
  natives := r.natives.extends_push e
  symbols :=
    have hnames (pkg : Package) : pkg.symbols <+: (r.withName e pkg).symbols := List.prefix_append _ _
    (r.grows_updatePackage hnames).symbols

theorem grows_foldl {α : Type} {add' : Registry → α → Registry}
    (h : ∀ (r : Registry) (a : α), r.Grows (add' r a))
    (batch : List α) (r : Registry) : r.Grows (batch.foldl add' r) := by
  induction batch generalizing r with
  | nil => exact .refl r
  | cons a batch ih => exact (h r a).trans (ih _)

theorem grows_apply {q : Request} (hq : q.apply r = .ok r') : r.Grows r' := by
  cases q with
  | package path =>
    change r.newPackage path = .ok r' at hq
    unfold newPackage at hq
    split at hq
    · cases hq
    · cases hq
      refine ⟨.refl _, fun p pkg hpkg => ⟨pkg, ?_, List.prefix_rfl⟩⟩
      unfold package? at hpkg ⊢
      rw [List.lookup_append, hpkg, Option.some_or]
  | vars path batch =>
    obtain ⟨u, -, hq⟩ := bind_eq_ok hq
    cases hq
    exact grows_foldl (fun r v => r.grows_add ⟨path, v.1, .var v.2.1 v.2.2⟩) batch r
  | funcs path batch =>
    obtain ⟨u, -, hq⟩ := bind_eq_ok hq
    split at hq
    · cases hq
    · cases hq
      exact grows_foldl (fun r f => r.grows_add ⟨path, f.1, .func f.2⟩) batch r
  | funcvs path batch =>
    obtain ⟨u, -, hq⟩ := bind_eq_ok hq
    split at hq
    · cases hq
    · cases hq
      exact grows_foldl (fun r f => r.grows_add ⟨path, f.1, .funcv f.2⟩) batch r
  | types path batch =>
    change r.registerTypes path batch = .ok r' at hq
    unfold Registry.registerTypes at hq
    split at hq
    · cases hq
    · obtain ⟨named, -, hq⟩ := bind_eq_ok hq
      cases hq
      exact r.grows_updatePackage fun _ => List.prefix_rfl
  | host sig body =>
    cases hq
    exact ⟨⟨.refl _, .refl _, .refl _⟩, fun _ pkg h => ⟨pkg, h, List.prefix_rfl⟩⟩

/-! ### Histories of requests -/

/-- A request that fails leaves everything as it was. -/
theorem perform_fails {q : Request} {e : Stop RegistryError}
    (h : ((perform q).exec r).1 = .error e) : ((perform q).exec r).2 = r := by
  rw [exec_perform] at h ⊢
  split at h
  · cases h
  · rfl

theorem after_cons (r : Registry) (q : Request) (qs : List Request) : r.after (q :: qs) =
    ((perform q).exec r).2.after qs := rfl

theorem grows_perform (q : Request) (r : Registry) : r.Grows ((perform q).exec r).2 := by
  rw [exec_perform]
  split
  · rename_i r' hq
    exact grows_apply hq
  · exact .refl r

theorem grows_after (qs : List Request) (r : Registry) : r.Grows (r.after qs) :=
  grows_foldl (fun r q => grows_perform q r) qs r

theorem records_bare (bodies : Array HostBody) : (bare bodies).Records [] where
  paths := .nil
  names _ _ h := nomatch h
  types _ _ h := nomatch h
  found _ _ _ _ h := nomatch h
  kept _ h := nomatch h
  fixed _ h := nomatch Array.not_mem_empty _ h
  variadic _ h := nomatch Array.not_mem_empty _ h

/-- After a history the packages name what its requests added, and what was there. -/
theorem Records.after (h : r.Records es) (qs : List Request) :
    (r.after qs).Records (es ++ r.log qs) := by
  induction qs generalizing r es with
  | nil => simpa [log, Registry.after] using h
  | cons q qs ih =>
    rw [after_cons, log, ← List.append_assoc]
    refine ih ?_
    rw [exec_perform]
    split
    · rename_i r' hq
      exact h.apply hq
    · simpa [Except.isOk, Except.toBool] using h

/-- What is found under a name is the entry that was registered under it. -/
theorem Records.find? (h : r.Records es) (hr : r.natives.Addressable) {name : String}
    {s : NativeSymbol} (hs : r.find? path name = some s) :
    ∃ e ∈ es, e.path = path ∧ e.name = name ∧ r.natives.lookup? s = some e := by
  obtain ⟨w, hw, rfl⟩ := Option.map_eq_some_iff.1 hs
  obtain ⟨pkg, hpkg, hw⟩ := Option.bind_eq_some_iff.1 hw
  obtain ⟨s, e, rfl, hs, he, hpath, hname⟩ := h.found path pkg name w hpkg (lookup_mem hw)
  rw [NativeSymbol.unpack_pack (hr.addr_lt hs)]
  exact ⟨e, he, hpath, hname, hs⟩

/-- Every entry that was registered is found under its name. -/
theorem Records.exists_find? (h : r.Records es) (hr : r.natives.Addressable) {e : HostEntry}
    (he : e ∈ es) : ∃ s, r.find? e.path e.name = some s ∧ r.natives.lookup? s = some e := by
  obtain ⟨pkg, s, hpkg, hmem, hs⟩ := h.kept e he
  refine ⟨s, ?_, hs⟩
  have hlookup := lookup_of_mem (h.names _ _ hpkg) hmem
  unfold Registry.find?
  rw [hpkg, Option.bind_some, hlookup, Option.map_some, NativeSymbol.unpack_pack (hr.addr_lt hs)]

end Registry

end StackScript
