import StackScript.Proofs.Typing.Standing

/-!
# Packed arguments

A variadic call packs its trailing arguments into a slice. Where functions are declared as they should be,
the slice is of the type of the last parameter (`Standing.exec_pack`). Lax code may call host functions that
are not: then the machine refuses the arguments when it packs them, the function refuses the slice, or the
slice is of the type all the same (`Standing.takes_args`).
-/

namespace StackScript

section

variable {g : Setting} {cells : Array Ty} {b : Body} {ctx : Nat} {below args : List Value}
  {τ : List Slot} {t : Thread} {ops : List Value} {sig : Signature} {arity : Arity} {ts : List Ty}
  {vs : List Value}

/-! ## Slices of the declared type -/

/-- The last parameter of a variadic signature, and those before it. -/
theorem Signature.Packs.split (h : sig.Packs) : ∃ fixed last elem, sig.params = fixed ++ [last] ∧
    last.underlying = .slice elem := by
  obtain ⟨last, elem, hlast, hunder⟩ := h
  obtain ⟨fixed, hfixed⟩ := List.getLast?_eq_some_iff.1 hlast
  exact ⟨fixed, last, elem, hfixed, hunder⟩

/-- The types that arguments of a variadic call have. -/
theorem argTypes_variadic {fixed : List Ty} {last elem : Ty} {n : Nat} (hvariadic : sig.variadic = true)
    (hparams : sig.params = fixed ++ [last]) (helem : last.elem?.getD .any = elem)
    (hn : sig.Takes 0 n) :
    fixed.length ≤ n ∧ Compile.argTypes sig 0 n = fixed ++ List.replicate (n - fixed.length) elem := by
  have hcount : Compile.fixedCount sig 0 = fixed.length := by
    simp [Compile.fixedCount, hvariadic, hparams]
  have htrailing : Compile.trailing sig = elem := by
    simp [Compile.trailing, Signature.variadicElem?, hvariadic, hparams, helem]
  rw [Signature.Takes, if_pos hvariadic, hcount] at hn
  refine ⟨hn, ?_⟩
  simp only [Compile.argTypes, hcount, htrailing, hparams, List.drop_zero, List.take_left']
  rw [List.take_of_length_le (by simp; omega)]

/-- The arguments on a thread are packed for a last parameter, and are of the types of all parameters then. -/
def Thread.Packs (t : Thread) (g : Setting) (cells : Array Ty) (last : Ty) (fixed : Nat) (arity : Arity)
    (vs : List Value) (params : List Ty) : Prop :=
  ∃ t' packed, t.Later g cells cells t' ∧ t'.stack = t.stack ∧
    AreOf g cells t'.world.store packed params ∧ ∀ ops name,
      (Run.pack last fixed name arity).exec ((t.holding ops).above vs) =
        (.ok (), (t'.holding ops).above packed)

/-- Arguments that follow the fixed ones become a new slice. -/
theorem AreOf.packs_count {fixed : List Ty} {last elem : Ty} (hunder : last.underlying = .slice elem)
    (htyped : t.world.store.Typed g cells) {n : Nat} (hle : fixed.length ≤ n)
    (hvs : AreOf g cells t.world.store vs (fixed ++ List.replicate (n - fixed.length) elem)) :
    t.Packs g cells last fixed.length (.count n) vs (fixed ++ [last]) := by
  have hlater : t.Later g cells cells t.numbered := .numbered htyped
  have hlength : vs.length = n := by
    rw [List.Forall₂.length_eq hvs]
    simp
    omega
  have hitems : ∀ v ∈ vs.drop fixed.length, v.Has g cells t.world.store elem := by
    intro v hv
    obtain ⟨u, hu, hv⟩ :=
      exists_of_forall₂_of_mem (List.Forall₂.flip (List.forall₂_drop_append _ _ _ hvs)) hv
    rwa [(List.mem_replicate.1 hu).2] at hv
  have hslice : (Value.slice t.world.store.fresh elem (vs.drop fixed.length)).Has g cells
      t.numbered.world.store last :=
    Value.has_slice hunder fun w hw => Value.Has.mono (hitems w hw) (.refl _) hlater.world.grows
  refine ⟨t.numbered, _, hlater, rfl, List.rel_append
    (AreOf.mono (List.forall₂_take_append _ _ _ hvs) (.refl _) hlater.world.grows) (.cons hslice .nil),
    fun ops name => ?_⟩
  rw [← hlength]
  exact Run.exec_pack_count (Ty.getD_elem?_of_slice hunder) (by omega) fun v hv => (hitems v hv).fits

/-- The last of some values, and those before it. -/
theorem AreOf.unsnoc {s : Store} {fixed : List Ty} {last : Ty} (h : AreOf g cells s vs (fixed ++ [last])) :
    ∃ us v, vs = us ++ [v] ∧ AreOf g cells s us fixed ∧ v.Has g cells s last := by
  have hlast := List.forall₂_drop_append _ _ _ h
  obtain ⟨v, hv⟩ : ∃ v, vs.drop fixed.length = [v] := by
    rw [← List.length_eq_one_iff, List.Forall₂.length_eq hlast, List.length_singleton]
  rw [hv] at hlast
  exact ⟨vs.take fixed.length, v, by rw [← hv, List.take_append_drop],
    List.forall₂_take_append _ _ _ h, (List.forall₂_cons.1 hlast).1⟩

/-- A slice that is spread is handed on as it is; nil becomes the empty slice. -/
theorem AreOf.packs_spread {fixed : List Ty} {last elem : Ty} (hunder : last.underlying = .slice elem)
    (htyped : t.world.store.Typed g cells) (hvs : AreOf g cells t.world.store vs (fixed ++ [last])) :
    t.Packs g cells last fixed.length .spread vs (fixed ++ [last]) := by
  obtain ⟨us, v, rfl, hus, hv⟩ := hvs.unsnoc
  obtain rfl | ⟨id, items, rfl, hitems⟩ := hv.slice hunder
  · have hlater : t.Later g cells cells t.numbered := .numbered htyped
    have hempty : (Value.slice t.world.store.fresh elem []).Has g cells t.numbered.world.store last :=
      Value.has_slice hunder fun w hw => absurd hw List.not_mem_nil
    exact ⟨t.numbered, _, hlater, rfl, List.rel_append
      (AreOf.mono hus (.refl _) hlater.world.grows) (.cons hempty .nil),
      fun ops name => Run.exec_pack_nil (Ty.getD_elem?_of_slice hunder)⟩
  · exact ⟨t, _, .refl htyped, rfl, hvs, fun ops name => Run.exec_pack_slice⟩

/-- The trailing arguments of a variadic call become one slice of the type of the last parameter. -/
theorem Arity.Brings.exec_pack (h : arity.Brings sig 0 ts) (hvariadic : sig.variadic = true)
    {fixed : List Ty} {last elem : Ty} (hparams : sig.params = fixed ++ [last])
    (hunder : last.underlying = .slice elem) (htyped : t.world.store.Typed g cells)
    (hvs : AreOf g cells t.world.store vs ts) :
    t.Packs g cells last fixed.length arity vs sig.params := by
  rw [hparams]
  cases arity with
  | count n =>
    obtain ⟨htakes, rfl⟩ := h
    obtain ⟨hle, htypes⟩ :=
      argTypes_variadic hvariadic hparams (Ty.getD_elem?_of_slice hunder) htakes
    exact AreOf.packs_count hunder htyped hle (htypes ▸ hvs)
  | spread =>
    obtain ⟨-, rfl⟩ := h
    rw [List.drop_zero, hparams] at hvs
    exact hvs.packs_spread hunder htyped

namespace Standing

/-- The argument count of a variadic call is read from the stack. -/
theorem exec_readArity {field : ArityField} {arity : Arity} {σ : List Slot} (h : field.Reads arity σ)
    (hs : Standing g cells b ctx below args (σ ++ τ) t ops) : ∃ rest,
      Standing g cells b ctx below args τ t rest ∧
        (Run.readArity field).exec (t.holding ops) = (.ok arity, t.holding rest) := by
  cases h with
  | spread => exact ⟨ops, hs, rfl⟩
  | count n => exact ⟨ops, hs, rfl⟩
  | overflow n =>
    obtain ⟨v, rest, rfl, hv, hrest⟩ := hs.uncons
    refine ⟨rest, hrest, ?_⟩
    rw [Thread.holding_cons]
    exact Run.exec_readArity_overflow hv

/-- The arguments that a variadic function is called with. -/
theorem exec_pack {sig : Signature} {arity : Arity} {ts : List Ty} (hts : arity.Brings sig 0 ts)
    (hvariadic : sig.variadic = true) {fixed : List Ty} {last elem : Ty}
    (hparams : sig.params = fixed ++ [last]) (hunder : last.underlying = .slice elem)
    (hs : Standing g cells b ctx below args (Slot.values ts ++ τ) t ops) : ∃ t' packed rest,
      t.Later g cells cells t' ∧ Standing g cells b ctx below args τ t' rest ∧
        AreOf g cells t'.world.store packed sig.params ∧
        ∀ name, (Run.pack last fixed.length name arity).exec (t.holding ops) =
          (.ok (), t'.holding (packed.reverse ++ rest)) := by
  obtain ⟨vs, rest, rfl, hvs, hrest⟩ := hs.takes
  obtain ⟨t', packed, hlater, hstack, hpacked, hexec⟩ := hts.exec_pack hvariadic hparams hunder hs.typed hvs
  refine ⟨t', packed, rest, hlater, hrest.later hlater hstack, hpacked, fun name => ?_⟩
  rw [Thread.holding_append, Thread.holding_append]
  exact hexec rest name

theorem exec_popMany {vs rest : List Value} {n : Nat} (h : vs.length = n) :
    (Run.popMany n).exec (t.holding (vs.reverse ++ rest)) = (.ok vs, t.holding rest) := by
  rw [Thread.holding_append, ← h]
  exact Run.exec_popMany

theorem exec_checkCount {sig : Signature} {arity : Arity} {ts : List Ty} (hts : arity.Brings sig 0 ts)
    (hfixed : sig.variadic = false) (name : String) (s : Thread) :
    (Run.checkCount name sig.params.length arity).exec s = (.ok (), s) := by
  cases arity with
  | spread =>
    rw [hts.1] at hfixed
    cases hfixed
  | count n =>
    have htakes := hts.1
    simp only [Signature.Takes, hfixed, Bool.false_eq_true, if_false, Compile.fixedCount,
      Nat.sub_zero] at htakes
    rw [Run.checkCount, if_pos htakes]
    rfl

/-- The arguments that a host function is called with. -/
theorem exec_takeArgs {sig : Signature} {arity : Arity} {ts : List Ty} (hts : arity.Brings sig 0 ts)
    (hpacks : sig.variadic = true → sig.Packs)
    (hs : Standing g cells b ctx below args (Slot.values ts ++ τ) t ops) : ∃ t' vs rest,
      t.Later g cells cells t' ∧ Standing g cells b ctx below args τ t' rest ∧
        AreOf g cells t'.world.store vs sig.params ∧
        ∀ name, (Run.takeArgs sig name arity).exec (t.holding ops) = (.ok vs, t'.holding rest) := by
  cases hvariadic : sig.variadic with
  | true =>
    obtain ⟨fixed, last, elem, hparams, hunder⟩ := (hpacks hvariadic).split
    obtain ⟨t', packed, rest, hlater, hrest, hpacked, hexec⟩ := exec_pack hts hvariadic hparams hunder hs
    refine ⟨t', packed, rest, hlater, hrest, hpacked, fun name => ?_⟩
    rw [Run.takeArgs_eq hvariadic hparams]
    exact (Task.exec_bind_ok (hexec name)).trans (exec_popMany (List.Forall₂.length_eq hpacked))
  | false =>
    obtain rfl := hts.fixed hvariadic
    obtain ⟨vs, rest, rfl, hvs, hrest⟩ := hs.takes
    refine ⟨t, vs, rest, .refl hs.typed, hrest, hvs, fun name => ?_⟩
    unfold Run.takeArgs
    rw [hvariadic, if_neg Bool.false_ne_true]
    exact (Task.exec_bind_ok (exec_checkCount hts hvariadic name _)).trans
      (exec_popMany (List.Forall₂.length_eq hvs))

end Standing

/-! ## Slices of any type -/

/-- The machine takes no value of the first type for one of the second that it is not. -/
def Ty.Suits (g : Setting) (t u : Ty) : Prop :=
  ∀ (cells : Array Ty) (s : Store) (v : Value), v.Has g cells s t → v.fits u = true → v.Has g cells s u

/-- Arguments of the types are packed for a last parameter of which it is not known whether it takes
slices. -/
inductive Arity.Offers (g : Setting) (fixed : List Ty) (last : Ty) : Arity → List Ty → Prop
  | count {n : Nat} {us : List Ty} (hn : n = fixed.length + us.length)
    (h : ∀ u ∈ us, u.Suits g (last.elem?.getD .any)) : Offers g fixed last (.count n) (fixed ++ us)
  | spread : Offers g fixed last .spread (fixed ++ [last])

/-- Values that a host function is called with. They are of the types of its parameters, but lax code may
come with others, which the function refuses. -/
structure Signature.Offered (sig : Signature) (g : Setting) (cells : Array Ty) (s : Store)
    (vs : List Value) : Prop where
  typed : Value.FitAll vs sig.params → AreOf g cells s vs sig.params
  misfits : AreOf g cells s vs sig.params ∨ g.lax ∧ vs.length = sig.params.length

theorem AreOf.offered (h : AreOf g cells t.world.store vs sig.params) :
    sig.Offered g cells t.world.store vs := ⟨fun _ => h, .inl h⟩

theorem Ty.Suits.refl (u : Ty) : u.Suits g u := fun _ _ _ hv _ => hv

/-- The receiver of a method suits the elements of what it is packed into. -/
theorem Ty.Proper.suits {D : TypeNames} {last : Ty} (h : last.Proper D) :
    last.Suits g (last.elem?.getD .any) := by
  intro cells s v hv hfits
  cases helem : last.elem? with
  | none => exact hv.into (.inl rfl)
  | some elem =>
    rw [helem, Option.getD_some] at hfits
    exact hv.of_fits h helem (h.elem? helem) hfits

/-- What a variadic call brings may be packed, whatever the last parameter is. -/
theorem Arity.Brings.offers (h : arity.Brings sig 0 ts) (hvariadic : sig.variadic = true)
    {fixed : List Ty} {last : Ty} (hparams : sig.params = fixed ++ [last]) :
    arity.Offers g fixed last ts := by
  cases arity with
  | count n =>
    obtain ⟨htakes, rfl⟩ := h
    obtain ⟨hle, htypes⟩ := argTypes_variadic hvariadic hparams rfl htakes
    rw [htypes]
    refine .count (by rw [List.length_replicate]; omega) fun u hu => ?_
    exact (List.mem_replicate.1 hu).2 ▸ .refl _
  | spread =>
    obtain ⟨-, rfl⟩ := h
    rw [List.drop_zero, hparams]
    exact .spread

/-- A value that is no slice is not spread. -/
theorem Run.exec_pack_spread {s : Thread} {last : Ty} {fixed : Nat} {callee : String} {v : Value}
    (hnil : v ≠ .nil) (hslice : ∀ id elem items, v ≠ .slice id elem items) :
    (pack last fixed callee .spread).exec (s.above (vs ++ [v])) =
      (.error (.error (.of (.typeMismatch (.type last) v.type))), s.above vs) := by
  unfold pack
  simp only
  rw [← Thread.above_above, Task.exec_bind_ok exec_pop]
  cases v with
  | scalar x =>
    cases x with
    | nil => exact absurd rfl hnil
    | _ => rfl
  | slice id elem items => exact absurd rfl (hslice id elem items)
  | _ => rfl

namespace Standing

/-- Arguments are packed whatever the last parameter is: the machine refuses one of them, or the slice is
of the type of the parameter wherever it is taken. -/
theorem exec_offers {fixed : List Ty} {last : Ty} (hts : arity.Offers g fixed last ts)
    (hs : Standing g cells b ctx below args (Slot.values ts ++ τ) t ops) (name : String) :
    (∃ c u, Cause.Lax c ∧ (Run.pack last fixed.length name arity).exec (t.holding ops) =
      (.error (.error (.of c)), u) ∧ u.world = t.world) ∨
    ∃ t' us w rest, t.Later g cells cells t' ∧ Standing g cells b ctx below args τ t' rest ∧
      AreOf g cells t'.world.store us fixed ∧
      (w.fits last = true → w.Has g cells t'.world.store last) ∧
      (Run.pack last fixed.length name arity).exec (t.holding ops) =
        (.ok (), t'.holding ((us ++ [w]).reverse ++ rest)) := by
  obtain ⟨vs, rest, rfl, hvs, hrest⟩ := hs.takes
  have hnumbered : t.Later g cells cells t.numbered := .numbered hs.typed
  simp only [Thread.holding_append]
  cases hts with
  | @count _ us hn h =>
    obtain rfl := hn.trans (List.length_append.symm.trans (List.Forall₂.length_eq hvs).symm)
    have hle : fixed.length ≤ vs.length := by omega
    cases hbad : (vs.drop fixed.length).find? fun v => !v.fits (last.elem?.getD .any) with
    | some bad => exact .inl ⟨_, _, .mismatch .., Run.exec_pack_misfit rfl hle hbad, rfl⟩
    | none =>
      have hfit : ∀ v ∈ vs.drop fixed.length, v.fits (last.elem?.getD .any) = true := fun v hv => by
        simpa using List.find?_eq_none.1 hbad v hv
      have hitems : ∀ v ∈ vs.drop fixed.length,
          v.Has g cells t.numbered.world.store (last.elem?.getD .any) := fun v hv => by
        obtain ⟨u, hu, hvu⟩ :=
          exists_of_forall₂_of_mem (List.Forall₂.flip (List.forall₂_drop_append _ _ _ hvs)) hv
        exact (h u hu _ _ v hvu (hfit v hv)).mono (.refl _) hnumbered.world.grows
      have hfirst : AreOf g cells t.world.store (vs.take fixed.length) fixed :=
        List.forall₂_take_append _ _ _ hvs
      exact .inr ⟨t.numbered, _, _, rest, hnumbered, hrest.later hnumbered rfl,
        hfirst.mono (.refl _) hnumbered.world.grows, Value.has_slice_of_fits rfl hitems,
        Run.exec_pack_count rfl hle hfit⟩
  | spread =>
    obtain ⟨us, v, rfl, hus, hv⟩ := AreOf.unsnoc hvs
    by_cases hnil : v = .nil
    · subst hnil
      exact .inr ⟨t.numbered, _, _, rest, hnumbered, hrest.later hnumbered rfl,
        hus.mono (.refl _) hnumbered.world.grows,
        Value.has_slice_of_fits rfl fun w hw => absurd hw List.not_mem_nil, Run.exec_pack_nil rfl⟩
    · by_cases hslice : ∃ id elem items, v = .slice id elem items
      · obtain ⟨id, elem, items, rfl⟩ := hslice
        exact .inr ⟨t, _, _, rest, .refl hs.typed, hrest, hus, fun _ => hv, Run.exec_pack_slice⟩
      · have hnot : ∀ id elem items, v ≠ .slice id elem items := fun id elem items h =>
          hslice ⟨id, elem, items, h⟩
        exact .inl ⟨_, _, .mismatch .., Run.exec_pack_spread hnil hnot, rfl⟩

/-- The arguments that a host function is called with in lax code. -/
theorem exec_offered (hlax : g.lax) (hvariadic : sig.variadic = true)
    (hts : ∀ fixed last, sig.params = fixed ++ [last] → arity.Offers g fixed last ts)
    (hs : Standing g cells b ctx below args (Slot.values ts ++ τ) t ops) (name : String) :
    (∃ c u, g.Fails c ∧ (Run.takeArgs sig name arity).exec (t.holding ops) =
      (.error (.error (.of c)), u) ∧ u.world = t.world) ∨
    ∃ t' vs rest, t.Later g cells cells t' ∧ Standing g cells b ctx below args τ t' rest ∧
      sig.Offered g cells t'.world.store vs ∧
      (Run.takeArgs sig name arity).exec (t.holding ops) = (.ok vs, t'.holding rest) := by
  obtain hnone | ⟨fixed, last, hparams⟩ := List.eq_nil_or_concat sig.params
  · refine .inl ⟨.defect (.noParams name), t.holding ops, .inr ⟨hlax, .noParams name⟩, ?_, rfl⟩
    unfold Run.takeArgs
    rw [if_pos hvariadic, hnone]
    rfl
  · rw [List.concat_eq_append] at hparams
    rw [Run.takeArgs_eq hvariadic hparams]
    obtain ⟨c, u, hc, hexec, hworld⟩ | ⟨t', us, w, rest, hlater, hrest, hus, hw, hexec⟩ :=
      exec_offers (hts fixed last hparams) hs name
    · exact .inl ⟨c, u, .inr ⟨hlax, hc⟩, Task.exec_bind_error hexec, hworld⟩
    · have hlength : (us ++ [w]).length = sig.params.length := by
        rw [hparams, List.length_append, List.length_append, List.Forall₂.length_eq hus]
        rfl
      refine .inr ⟨t', us ++ [w], rest, hlater, hrest, ⟨fun hfits => ?_, .inr ⟨hlax, hlength⟩⟩,
        (Task.exec_bind_ok hexec).trans (exec_popMany hlength)⟩
      rw [hparams] at hfits ⊢
      have hlast := List.forall₂_drop_append _ _ _ hfits
      rw [← List.Forall₂.length_eq hus, List.drop_left] at hlast
      exact List.rel_append hus (.cons (hw (List.forall₂_cons.1 hlast).1) .nil)

/-- The arguments that a host function is called with. -/
theorem takes_args (hts : arity.Brings sig 0 ts) (hpacks : g.lax ∨ (sig.variadic = true → sig.Packs))
    (hs : Standing g cells b ctx below args (Slot.values ts ++ τ) t ops) (name : String) :
    (∃ c u, g.Fails c ∧ (Run.takeArgs sig name arity).exec (t.holding ops) =
      (.error (.error (.of c)), u) ∧ u.world = t.world) ∨
    ∃ t' vs rest, t.Later g cells cells t' ∧ Standing g cells b ctx below args τ t' rest ∧
      sig.Offered g cells t'.world.store vs ∧
      (Run.takeArgs sig name arity).exec (t.holding ops) = (.ok vs, t'.holding rest) := by
  by_cases hpacks' : sig.variadic = true → sig.Packs
  · obtain ⟨t', vs, rest, hlater, hrest, hvs, hexec⟩ := exec_takeArgs hts hpacks' hs
    exact .inr ⟨t', vs, rest, hlater, hrest, hvs.offered, hexec name⟩
  · obtain ⟨hvariadic, -⟩ := Classical.not_imp.1 hpacks'
    exact exec_offered (hpacks.resolve_right hpacks') hvariadic (fun _ _ => hts.offers hvariadic) hs name

end Standing

end

end StackScript
