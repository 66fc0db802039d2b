import StackScript.Host.Adapter
import StackScript.Proofs.Running.Linking
import StackScript.Proofs.Running.Variadic

/-!
# Typed host functions

A typed host function never meets values: its arguments are read as data of its parameters' types, and
its results are written from data of its results' types. What is read is told without reading
(`HostType.Shows`), and what is written reads back (`HostType.read_write`). A call either runs the function
on the data of its arguments, each in its place (`Adapted.Runs`), or ends without it
(`Adapted.Refuses`); `Adapted.runs_or_refuses` says which, for every list of arguments.
-/

namespace StackScript

/-! ## Values that fit at every depth -/

namespace Value

mutual

/-- Whether a value fits a type, and the items of its slices do, at every depth. -/
def fitsThrough : Value → Ty → Bool
  | slice id elem vs, t =>
    (slice id elem vs).fits t &&
      match t.underlying with
      | .slice u => allFitThrough vs u
      | _ => true
  | v, t => v.fits t
termination_by structural v => v

def allFitThrough : List Value → Ty → Bool
  | [], _ => true
  | v :: vs, t => v.fitsThrough t && allFitThrough vs t
termination_by structural vs => vs

end

mutual

/-- Whether the structs that a value is or holds in slices bear struct types. Hosts can make others. -/
def formed : Value → Bool
  | slice _ _ vs => allFormed vs
  | struct _ ty _ => ty.underlying.kind == .struct
  | _ => true
termination_by structural v => v

def allFormed : List Value → Bool
  | [] => true
  | v :: vs => v.formed && allFormed vs
termination_by structural vs => vs

end

/-- As many values as types, each of which fits at every depth. -/
abbrev FitAllThrough (vs : List Value) (ts : List Ty) : Prop :=
  List.Forall₂ (fun v t => v.fitsThrough t = true) vs ts

variable {v : Value} {vs : List Value} {t : Ty} {ts : List Ty}

theorem allFitThrough_iff : allFitThrough vs t = true ↔ ∀ v ∈ vs, v.fitsThrough t = true := by
  induction vs with
  | nil => exact ⟨fun _ => nofun, fun _ => rfl⟩
  | cons v vs ih => rw [allFitThrough, Bool.and_eq_true, ih, List.forall_mem_cons]

theorem allFormed_iff : allFormed vs = true ↔ ∀ v ∈ vs, v.formed = true := by
  induction vs with
  | nil => exact ⟨fun _ => nofun, fun _ => rfl⟩
  | cons v vs ih => rw [allFormed, Bool.and_eq_true, ih, List.forall_mem_cons]

theorem fits_of_fitsThrough (h : v.fitsThrough t = true) : v.fits t = true := by
  cases v with
  | slice id elem vs => exact (Bool.and_eq_true _ _ ▸ h : _ ∧ _).1
  | _ => exact h

theorem FitAllThrough.fit (h : FitAllThrough vs ts) : FitAll vs ts :=
  h.imp fun _ _ => fits_of_fitsThrough

theorem fitsThrough_any : ∀ v : Value, v.fitsThrough .any = true
  | slice .. | scalar _ | struct .. | ptr .. | closure _ | func _ => rfl

theorem fitsThrough_slice {id : Nat} {elem : Ty} :
    (slice id elem vs).fitsThrough (.slice t) = true ↔
      elem.same t = true ∧ ∀ v ∈ vs, v.fitsThrough t = true := by
  rw [← allFitThrough_iff, ← Bool.and_eq_true]
  rfl

end Value

namespace HostType

/-! ## Data of values -/

/-- That a value is some data: scalars are themselves, any value is itself, and a list is shown by a
slice of what shows its items, or by nil if it is empty. -/
def Shows : (t : HostType) → Value → t.Data → Prop
  | bool, v, b => v = .bool b
  | int k, v, n => v = .scalar (.int k n)
  | float p, v, x => v = .scalar (.float p x)
  | complex p, v, z => v = .scalar (.complex p z)
  | string, v, s => v = .string s
  | any, v, u => v = u
  | list t, v, xs =>
    (v = .nil ∧ xs = []) ∨ ∃ id elem vs, v = .slice id elem vs ∧ List.Forall₂ t.Shows vs xs

/-- Values that are data of some types, each in its place. -/
def ShowsAll : (ts : List HostType) → List Value → Tuple ts → Prop
  | [], vs, _ => vs = []
  | t :: ts, vs, (x, xs) => ∃ v rest, vs = v :: rest ∧ t.Shows v x ∧ ShowsAll ts rest xs

/-- What is read is the data of the value, and all data is read. -/
theorem read_eq_ok_iff : ∀ {t : HostType} {v : Value} {x : t.Data}, t.read v = .ok x ↔ t.Shows v x
  | bool, v, x | string, v, x => by
    constructor
    · intro h
      unfold read at h
      split at h
      · cases h
        rfl
      · cases h
    · rintro rfl
      rfl
  | int k, v, x | float k, v, x | complex k, v, x => by
    constructor
    · intro h
      unfold read at h
      split at h
      · split at h
        case isTrue hk =>
          subst hk
          cases h
          rfl
        case isFalse => cases h
      · cases h
    · rintro rfl
      exact dif_pos rfl
  | any, v, u => ⟨Except.ok.inj, congrArg Except.ok⟩
  | list t, v, xs => by
    have items (vs : List Value) (xs : List t.Data) :
        vs.mapM t.read = .ok xs ↔ List.Forall₂ t.Shows vs xs := by
      rw [mapM_eq_ok_iff]
      exact ⟨.imp fun _ _ => read_eq_ok_iff.1, .imp fun _ _ => read_eq_ok_iff.2⟩
    constructor
    · intro h
      cases v with
      | slice id elem vs => exact .inr ⟨id, elem, vs, rfl, (items vs xs).1 h⟩
      | scalar s =>
        cases s with
        | nil => exact .inl ⟨rfl, (Except.ok.inj h).symm⟩
        | _ => cases h
      | _ => cases h
    · rintro (⟨rfl, rfl⟩ | ⟨id, elem, vs, rfl, h⟩)
      · rfl
      · exact (items vs xs).2 h

/-- A value that fits a type at every depth is data of it. -/
theorem exists_shows : ∀ {t : HostType} {v : Value}, v.fitsThrough t.ty = true → v.formed = true →
    ∃ x, t.Shows v x
  | bool, v, h, _ | int _, v, h, _ | float _, v, h, _ | complex _, v, h, _ | string, v, h, _ => by
    have hkind := eq_of_beq (Value.fits_of_fitsThrough h)
    cases v with
    | scalar s =>
      cases s <;> cases hkind
      exact ⟨_, rfl⟩
    | _ => cases hkind
  | any, v, _, _ => ⟨v, rfl⟩
  | list t, v, h, hformed => by
    cases v with
    | slice id elem vs =>
      obtain ⟨xs, hxs⟩ : ∃ xs, List.Forall₂ t.Shows vs xs := exists_forall₂ fun v hv =>
        exists_shows ((Value.fitsThrough_slice.1 h).2 v hv) (Value.allFormed_iff.1 hformed v hv)
      exact ⟨xs, .inr ⟨id, elem, vs, rfl, hxs⟩⟩
    | scalar s =>
      cases s with
      | nil => exact ⟨[], .inl ⟨rfl, rfl⟩⟩
      | _ => cases h
    | struct id ty fields =>
      have hfits : ty.underlying.same (.slice t.ty) = true := h
      have hkind : ty.underlying.kind = .struct := eq_of_beq hformed
      cases hty : ty.underlying with
      | slice elem =>
        rw [hty] at hkind
        cases hkind
      | _ =>
        rw [hty] at hfits
        cases hfits
    | _ => cases h

/-- Writing goes through: it gives a value that is the data, and fits the type at every depth. -/
theorem exists_write : ∀ (t : HostType) (x : t.Data) (w : World), ∃ v w',
    (t.write x).exec w = (.ok v, w') ∧ t.Shows v x ∧ v.fitsThrough t.ty = true
  | bool, x, w | string, x, w => ⟨_, w, rfl, rfl, rfl⟩
  | int k, x, w | float k, x, w | complex k, x, w => ⟨_, w, rfl, rfl, beq_self_eq_true _⟩
  | any, v, w => ⟨v, w, rfl, rfl, v.fitsThrough_any⟩
  | list t, xs, w => by
    have items : ∀ (xs : List t.Data) (w : World), ∃ vs w', (xs.mapM t.write).exec w = (.ok vs, w') ∧
        List.Forall₂ t.Shows vs xs ∧ ∀ v ∈ vs, v.fitsThrough t.ty = true := by
      intro xs
      induction xs with
      | nil => exact fun w => ⟨[], w, rfl, .nil, nofun⟩
      | cons x xs ih =>
        intro w
        obtain ⟨v, w₁, hv, hshows, hfits⟩ := exists_write t x w
        obtain ⟨vs, w₂, hvs, hall, hfit⟩ := ih w₁
        refine ⟨v :: vs, w₂, ?_, .cons hshows hall, List.forall_mem_cons.2 ⟨hfits, hfit⟩⟩
        rw [List.mapM_cons, Task.exec_bind_ok hv, Task.exec_bind_ok hvs, Task.exec_pure]
    obtain ⟨vs, w', hvs, hall, hfit⟩ := items xs w
    refine ⟨_, _, Task.exec_bind_ok hvs, .inr ⟨_, t.ty, vs, rfl, hall⟩,
      Value.fitsThrough_slice.2 ⟨Ty.same_refl _, hfit⟩⟩

/-- What is written is read back. -/
theorem read_write (t : HostType) (x : t.Data) (w : World) : ∃ v w',
    (t.write x).exec w = (.ok v, w') ∧ t.read v = .ok x ∧ v.fits t.ty = true := by
  obtain ⟨v, w', hwrite, hshows, hfits⟩ := exists_write t x w
  exact ⟨v, w', hwrite, read_eq_ok_iff.2 hshows, Value.fits_of_fitsThrough hfits⟩

theorem readAll_eq_ok_iff : ∀ {ts : List HostType} {vs : List Value} {xs : Tuple ts},
    vs.length = ts.length → (readAll ts vs = .ok xs ↔ ShowsAll ts vs xs)
  | [], vs, xs, hlength => ⟨fun _ => List.length_eq_zero_iff.1 hlength, fun _ => rfl⟩
  | t :: ts, [], _, hlength => nomatch hlength
  | t :: ts, v :: vs, (x, xs), hlength => by
    have rest : readAll ts vs = .ok xs ↔ ShowsAll ts vs xs := readAll_eq_ok_iff (Nat.succ.inj hlength)
    constructor
    · intro h
      obtain ⟨y, hy, h⟩ := bind_eq_ok h
      obtain ⟨ys, hys, h⟩ := bind_eq_ok h
      cases h
      exact ⟨v, vs, rfl, read_eq_ok_iff.1 hy, rest.1 hys⟩
    · rintro ⟨_, _, heq, hx, hxs⟩
      cases heq
      show (do let x ← t.read v; let xs ← readAll ts vs; return (x, xs)) = _
      rw [read_eq_ok_iff.2 hx, rest.2 hxs]
      rfl

theorem exists_showsAll : ∀ {ts : List HostType} {vs : List Value},
    Value.FitAllThrough vs (ts.map ty) → (∀ v ∈ vs, v.formed = true) → ∃ xs, ShowsAll ts vs xs
  | [], _, .nil, _ => ⟨(), rfl⟩
  | _ :: _, _ :: _, .cons h hs, hformed => by
    obtain ⟨x, hx⟩ := exists_shows h (hformed _ (by simp))
    obtain ⟨xs, hxs⟩ := exists_showsAll hs fun v hv => hformed v (List.mem_cons_of_mem _ hv)
    exact ⟨(x, xs), _, _, rfl, hx, hxs⟩

theorem exists_writeAll : ∀ (ts : List HostType) (xs : Tuple ts) (w : World), ∃ vs w',
    (writeAll ts xs).exec w = (.ok vs, w') ∧ ShowsAll ts vs xs ∧ Value.FitAllThrough vs (ts.map ty)
  | [], _, w => ⟨[], w, rfl, rfl, .nil⟩
  | t :: ts, (x, xs), w => by
    obtain ⟨v, w₁, hv, hshows, hfits⟩ := exists_write t x w
    obtain ⟨vs, w₂, hvs, hall, hfit⟩ := exists_writeAll ts xs w₁
    refine ⟨v :: vs, w₂, ?_, ⟨v, vs, rfl, hshows, hall⟩, .cons hfits hfit⟩
    rw [writeAll, Task.exec_bind_ok hv, Task.exec_bind_ok hvs, Task.exec_pure]

end HostType

namespace Adapted

variable {f : Adapted} {args : List Value} {w : World}

/-! ## Calls -/

/-- However the host is set up, a call of the function on some arguments ends so. -/
def Ends (f : Adapted) (args : List Value) (w : World)
    (outcome : Except (Stop RuntimeError) (List Value) × World) : Prop :=
  ∀ (n : Natives) (i room : Nat) (script : Closure → List Value → HostTask (List Value)),
    n.bodies[i]? = some f.body →
      (n.invoke script (room + 1) ⟨f.sig, .host i⟩ args).exec w = outcome

/-- A call comes to the function run on some data: what that gives is written as results, which fit,
and where that stops, the call stops. -/
structure Runs (f : Adapted) (args : List Value) (xs : HostType.Tuple f.params) : Prop where
  results : ∀ ys w w', (f.run xs).exec w = (.ok ys, w') → ∃ vs w'', f.Ends args w (.ok vs, w'') ∧
    HostType.ShowsAll f.results vs ys ∧ Value.FitAllThrough vs f.sig.results
  stops : ∀ e w w', (f.run xs).exec w = (.error e, w') → f.Ends args w (.error e, w')

/-- A call ends the same way whatever the function does, with an error and nothing done. -/
def Refuses (f : Adapted) (args : List Value) : Prop :=
  ∃ c, ∀ run w, Ends { f with run } args w (.error (.error (.of c)), w)

theorem length_of_fit (h : Value.FitAll args f.sig.params) : args.length = f.params.length :=
  h.length_eq.trans (List.length_map _)

/-- Arguments that are as many as declared, and fit, get to the function's own conversions. -/
theorem ends_of_fits {r : Except (Stop RuntimeError) (List Value)} {w' : World}
    (hfits : Value.FitAll args f.sig.params)
    (hbody : ∀ invoke, (f.body invoke args).exec w = (r, w'))
    (hcount : ∀ vs, r = .ok vs → vs.length = f.sig.results.length) : f.Ends args w (r, w') := by
  intro n i room script hi
  have hchecked : (HostTask.ofExcept (.ok ()) : HostTask Unit) = pure () := rfl
  have hexpect : (Task.expect n.bodies[i]? : HostTask HostBody) = pure f.body := by
    rw [hi]
    rfl
  rw [Natives.invoke, Natives.checkArgs_eq_ok_iff.2 hfits, hchecked, pure_bind]
  dsimp only
  rw [hexpect, pure_bind]
  cases r with
  | error e => exact Task.exec_bind_error (hbody _)
  | ok vs =>
    rw [Task.exec_bind_ok (hbody _), if_neg (not_not.2 (hcount vs rfl))]
    rfl

/-- What the check of arguments or the conversions refuse ends the call. -/
theorem refuses_of_not_fits (h : ¬ Value.FitAll args f.sig.params) : f.Refuses args := by
  cases hcheck : Natives.checkArgs f.sig args with
  | ok => exact absurd (Natives.checkArgs_eq_ok_iff.1 hcheck) h
  | error c =>
    refine ⟨c, fun run w n i room script _ => ?_⟩
    have hsig : Adapted.sig { f with run } = f.sig := rfl
    rw [Natives.invoke, hsig, hcheck]
    rfl

theorem refuses_of_no_data (hfits : Value.FitAll args f.sig.params)
    (h : ∀ xs, ¬ HostType.ShowsAll f.params args xs) : f.Refuses args := by
  cases hread : HostType.readAll f.params args with
  | ok xs => exact absurd ((HostType.readAll_eq_ok_iff (length_of_fit hfits)).1 hread) (h xs)
  | error c =>
    refine ⟨c, fun run w => ends_of_fits (f := { f with run }) hfits (fun invoke => ?_) nofun⟩
    rw [body, hread]
    rfl

theorem runs_of_shows (hfits : Value.FitAll args f.sig.params)
    {xs : HostType.Tuple f.params} (hxs : HostType.ShowsAll f.params args xs) : f.Runs args xs := by
  have hread : (HostTask.ofExcept (HostType.readAll f.params args) : HostTask _) = pure xs := by
    rw [(HostType.readAll_eq_ok_iff (length_of_fit hfits)).2 hxs]
    rfl
  constructor
  · intro ys w w' hrun
    obtain ⟨vs, w'', hwrite, hshows, hall⟩ := HostType.exists_writeAll f.results ys w'
    refine ⟨vs, w'', ends_of_fits hfits (fun invoke => ?_) ?_, hshows, hall⟩
    · rw [body, hread, pure_bind, Task.exec_bind_ok hrun, hwrite]
    · intro _ heq
      cases heq
      exact hall.length_eq
  · intro e w w' hrun
    refine ends_of_fits hfits (fun invoke => ?_) nofun
    rw [body, hread, pure_bind, Task.exec_bind_error hrun]

/-- The function is run on the data of its arguments, or not at all. -/
theorem runs_or_refuses (f : Adapted) (args : List Value) :
    (∃ xs, HostType.ShowsAll f.params args xs ∧ f.Runs args xs) ∨ f.Refuses args := by
  by_cases hfits : Value.FitAll args f.sig.params
  · by_cases hdata : ∃ xs, HostType.ShowsAll f.params args xs
    · obtain ⟨xs, hxs⟩ := hdata
      exact .inl ⟨xs, hxs, runs_of_shows hfits hxs⟩
    · exact .inr (refuses_of_no_data hfits fun xs hxs => hdata ⟨xs, hxs⟩)
  · exact .inr (refuses_of_not_fits hfits)

/-- A call is refused just where an argument is missing or left over, does not fit, or is no data. -/
theorem refuses_iff : f.Refuses args ↔
    ¬ (Value.FitAll args f.sig.params ∧ ∃ xs, HostType.ShowsAll f.params args xs) := by
  constructor
  · rintro ⟨c, hends⟩ ⟨hfits, xs, hxs⟩
    -- A function that does nothing but stop tells whether it was run.
    let stopping : Adapted := { f with run := fun _ => Task.fault .outOfRange }
    have hstops : stopping.Ends args default (.error (.fault .outOfRange), default) :=
      (runs_of_shows (f := stopping) hfits hxs).stops _ _ _ rfl
    let n : Natives := ⟨#[], #[], #[], #[stopping.body]⟩
    have hrefused := hends (fun _ => Task.fault .outOfRange) default n 0 0 (fun _ _ => pure []) rfl
    rw [hstops n 0 0 (fun _ _ => pure []) rfl] at hrefused
    cases hrefused
  · intro h
    by_cases hfits : Value.FitAll args f.sig.params
    · exact refuses_of_no_data hfits fun xs hxs => h ⟨hfits, xs, hxs⟩
    · exact refuses_of_not_fits hfits

/-- A struct that bears a slice type. -/
def falseSlice : Value := .struct 0 (.slice Sample.int) []

/-- A slice of slices of texts that holds an empty slice of integers. -/
def mixedSlice : Value := .slice 0 (.slice (.basic .string)) [.slice 0 Sample.int []]

/-- Fitting and being data are not the same: a value that fits may be no data, so that a call is refused,
and a value whose items do not fit may be data, so that the function is run. -/
theorem fits_and_data_differ :
    (Value.FitAllThrough [falseSlice] Sample.sum.sig.params ∧ Sample.sum.Refuses [falseSlice]) ∧
    ¬ Value.FitAllThrough [mixedSlice] (Sample.identity (.list (.list .string))).sig.params ∧
      (Sample.identity (.list (.list .string))).Runs [mixedSlice] ([[]], ()) := by
  have hmixed : HostType.ShowsAll [.list (.list .string)] [mixedSlice] ([[]], ()) :=
    ⟨_, _, rfl, .inr ⟨0, _, _, rfl, .cons (.inr ⟨0, _, _, rfl, .nil⟩) .nil⟩, rfl⟩
  refine ⟨⟨.cons (by decide) .nil, refuses_iff.2 ?_⟩, ?_, runs_of_shows (.cons (by decide) .nil) hmixed⟩
  · rintro ⟨-, xs, v, rest, heq, hshows, -⟩
    cases heq
    obtain ⟨h, -⟩ | ⟨_, _, _, h, -⟩ := hshows <;> cases h
  · rintro (_ | ⟨h, -⟩)
    exact absurd h (by decide)

/-- Typed host functions are called faithfully. Data that is written fits its type and is read back. A
call with as many arguments as declared, each of which fits with the items of its slices at every
depth, runs the function on the data of its arguments, each in its place. With another number of
arguments, with one that does not fit, or with one that is no data at some depth, the function is not
run. And whatever a call gives fits the declared results.

At the top the type that a slice bears is compared, further down only its items count. -/
theorem faithful :
    (∀ (t : HostType) (x : t.Data) (w : World), ∃ v w',
      (t.write x).exec w = (.ok v, w') ∧ t.read v = .ok x ∧ v.fits t.ty = true) ∧
    ∀ (f : Adapted) (args : List Value),
      (Value.FitAllThrough args f.sig.params → (∀ v ∈ args, v.formed = true) →
        ∃ xs, HostType.ShowsAll f.params args xs ∧ f.Runs args xs) ∧
      (args.length ≠ f.sig.params.length ∨ (∃ p ∈ args.zip f.sig.params, p.1.fits p.2 = false) ∨
        (∀ xs, ¬ HostType.ShowsAll f.params args xs) → f.Refuses args) ∧
      ∀ (n : Natives) (i room : Nat) (script : Closure → List Value → HostTask (List Value))
        (w w' : World) (vs : List Value), n.bodies[i]? = some f.body →
          (n.invoke script (room + 1) ⟨f.sig, .host i⟩ args).exec w = (.ok vs, w') →
            Value.FitAll vs f.sig.results := by
  refine ⟨HostType.read_write, fun f args => ⟨?runs, ?refused, ?results⟩⟩
  case runs =>
    intro hthrough hformed
    obtain ⟨xs, hxs⟩ := HostType.exists_showsAll hthrough hformed
    exact ⟨xs, hxs, runs_of_shows (Value.FitAllThrough.fit hthrough) hxs⟩
  case refused =>
    intro h
    rw [refuses_iff]
    rintro ⟨hfits, xs, hxs⟩
    obtain hlength | ⟨p, hp, hne⟩ | hdata := h
    · exact hlength hfits.length_eq
    · exact Bool.false_ne_true (hne ▸ (List.forall₂_iff_zip.1 hfits).2 hp)
    · exact hdata xs hxs
  case results =>
    intro n i room script w w' vs hi hcall
    obtain ⟨xs, hxs, hruns⟩ | ⟨c, hends⟩ := runs_or_refuses f args
    · cases hrun : (f.run xs).exec w with
      | mk r w₁ =>
        cases r with
        | ok ys =>
          obtain ⟨us, w₂, hus, -, hfit⟩ := hruns.results ys w w₁ hrun
          rw [hus n i room script hi] at hcall
          cases hcall
          exact Value.FitAllThrough.fit hfit
        | error e =>
          rw [hruns.stops e w w₁ hrun n i room script hi] at hcall
          cases hcall
    · rw [hends f.run w n i room script hi] at hcall
      cases hcall

/-- A call with fitting arguments, one with too few, and the results of a third. -/
theorem samples_faithful :
    let args : List Value := [.int 0, .int 9, .slice 1 Sample.int [.int 12, .int 5]]
    let natives : Natives := ⟨#[], #[], #[], #[Sample.sum.body]⟩
    (∃ xs, HostType.ShowsAll Sample.clamp.params args xs ∧ Sample.clamp.Runs args xs) ∧
    Sample.clamp.Refuses [.int 0, .int 9] ∧
    (natives.invoke (fun _ _ => pure []) 1 ⟨Sample.sum.sig, .host 0⟩ [.nil]).exec default =
      (.ok [.int 0], default) ∧
    Value.FitAll [.int 0] Sample.sum.sig.results := by
  intro args natives
  refine ⟨(faithful.2 Sample.clamp args).1 ?_ (by decide),
    (faithful.2 Sample.clamp _).2.1 (.inl (by decide)), rfl, ?_⟩
  · exact .cons (by decide) (.cons (by decide) (.cons (by decide) .nil))
  · exact (faithful.2 Sample.sum [.nil]).2.2 natives 0 0 (fun _ _ => pure []) default default _ rfl rfl

end Adapted

end StackScript
