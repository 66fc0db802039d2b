import StackScript.Proofs.Translation.Files
import StackScript.Proofs.Wire.Reading
import StackScript.Wire.Program

/-!
# Programs and their bytes

What is written for a program is read back as the same program, field by field
(`Wire.reads_program`). The readers and writers of a type meet in one lemma each, by recursion on
the type for those that nest. Bytes know numbers of a fixed width only, so a program has to be
`Program.Sized`: the numbers that it consists of fit the widths that they are declared with.
-/

namespace StackScript

namespace Wire

/-! ## Widths -/

/-- A length or an offset. -/
abbrev SizeFits (n : Nat) : Prop := n < 1 <<< sizeBits

/-- The number of a function, of a variable or of a constructor. -/
abbrev IdFits (n : Nat) : Prop := n < 1 <<< idBits

def TextFits (s : String) : Prop := SizeFits s.utf8ByteSize

mutual

/-- The names and the lengths within a type. -/
def TyFits : Ty → Prop
  | .basic _ | .any => True
  | .slice e | .ptr e => TyFits e
  | .func s => SigFits s
  | .struct fs => SizeFits fs.length ∧ FieldsFit fs
  | .named p n t => TextFits p ∧ TextFits n ∧ TyFits t
termination_by structural t => t

def SigFits : Signature → Prop
  | ⟨ps, rs, _⟩ => (SizeFits ps.length ∧ TysFit ps) ∧ SizeFits rs.length ∧ TysFit rs
termination_by structural s => s

def TysFit : List Ty → Prop
  | [] => True
  | t :: ts => TyFits t ∧ TysFit ts
termination_by structural ts => ts

def FieldFits : Field → Prop
  | ⟨n, t⟩ => TextFits n ∧ TyFits t
termination_by structural f => f

def FieldsFit : List Field → Prop
  | [] => True
  | f :: fs => FieldFits f ∧ FieldsFit fs
termination_by structural fs => fs

end

def ScalarFits : Scalar → Prop
  | .string s => TextFits s
  | _ => True

def VarNameFits : VarName → Prop
  | .named s => TextFits s
  | .positional i => SizeFits i

structure VarFits (v : Var) : Prop where
  name : VarNameFits v.name
  ty : TyFits v.ty
  addr : ∀ a ∈ v.addr, IdFits a.depth ∧ IdFits a.index

/-- Not more of them than a length can count, and each as described. -/
def AllFit {α : Type} (fits : α → Prop) (as : List α) : Prop :=
  SizeFits as.length ∧ ∀ a ∈ as, fits a

structure FuncFits (f : FuncInfo) : Prop where
  name : TextFits f.name
  depth : IdFits f.depth
  params : AllFit TyFits f.params
  numOut : SizeFits f.numOut
  vars : AllFit IdFits f.vars.toList
  entry : ∀ n ∈ f.entry, SizeFits n
  stop : ∀ n ∈ f.stop, SizeFits n
  sig : ∀ s ∈ f.sig, SigFits s

end Wire

open Wire in
/-- The numbers of the program fit the widths that they have in memory: thirty-two bits for numbers
of functions and variables, sixty-four bits for lengths, counts and offsets. -/
structure Program.Sized (p : Program) : Prop where
  code : SizeFits p.code.size
  consts : AllFit (fun c : Value => ∀ s ∈ c.scalar?, ScalarFits s) p.consts.toList
  funcs : AllFit FuncFits p.funcs.toList
  fixed : AllFit IdFits p.fixed.toList
  variadic : AllFit IdFits p.variadic.toList
  vars : AllFit VarFits p.vars.toList
  mainVars : AllFit IdFits p.mainVars.toList
  mainEnd : SizeFits p.mainEnd

namespace Wire

/-! ## Types -/

theorem Kind.code_lt (k : Kind) : k.code < 21 := by
  rcases k with _ | ⟨_ | _⟩ | ⟨_ | _⟩ | ⟨_ | _⟩ | _ | _ | _ | _ | _ | _ <;> decide

theorem reads_tag {n : Nat} (h : IdFits n) : Reads readTag (writeTag n) n :=
  reads_nat (by decide) h

theorem reads_kind (k : Kind) : Reads readKind (writeKind k) k := by
  have hcode : IdFits k.code := Nat.lt_trans (Kind.code_lt k) (by decide)
  refine (reads_tag hcode).last ?_
  rw [Kind.ofCode?_code]
  exact .pure k

theorem writeTys_eq (ts : List Ty) : writeTys ts = ts.flatMap writeTy := by
  induction ts with
  | nil => rfl
  | cons t ts ih => rw [writeTys, ih, List.flatMap_cons]

theorem writeFields_eq (fs : List Field) : writeFields fs = fs.flatMap writeField := by
  induction fs with
  | nil => rfl
  | cons f fs ih => rw [writeFields, ih, List.flatMap_cons]

theorem reads_field {ty : Reader Ty} {n : String} {t : Ty} (hname : TextFits n)
    (hty : Reads ty (writeTy t) t) : Reads (readField ty) (writeField ⟨n, t⟩) ⟨n, t⟩ := by
  rw [writeField]
  unfold readField
  exact (reads_string hname).bind (hty.map (f := fun t => (⟨n, t⟩ : Field)))

theorem reads_sig {ty : Reader Ty} {ps rs : List Ty} {v : Bool} (hps : SizeFits ps.length)
    (hrs : SizeFits rs.length) (hparams : ∀ t ∈ ps, Reads ty (writeTy t) t)
    (hresults : ∀ t ∈ rs, Reads ty (writeTy t) t) :
    Reads (readSig ty) (writeSig ⟨ps, rs, v⟩) ⟨ps, rs, v⟩ := by
  rw [writeSig, writeTys_eq, writeTys_eq, List.append_assoc]
  unfold readSig
  refine (reads_list hps hparams).bind ((reads_list hrs hresults).bind ?_)
  exact (reads_bool v).map (f := fun v => (⟨ps, rs, v⟩ : Signature))

/-- The bytes of a part of a type leave a level for the type itself. -/
theorem exists_depth {n depth : Nat} {bytes : Bytes} (h : (writeTag n ++ bytes).length ≤ depth)
    (hn : n < 128) : ∃ inner, depth = inner + 1 ∧ bytes.length ≤ inner := by
  have htag : (writeTag n).length = 1 := by
    show (writeGroups 5 n).length = 1
    rw [writeGroups, if_pos hn]
    rfl
  rw [List.length_append, htag] at h
  exact ⟨depth - 1, by omega, by omega⟩

mutual

/-- Every level of a type takes a byte, so as many levels as bytes are enough to read it. -/
theorem reads_tyWithin : ∀ (t : Ty) (depth : Nat), TyFits t → (writeTy t).length ≤ depth →
    Reads (readTyWithin depth) (writeTy t) t
  | .basic k, depth, _, hdepth => by
    rw [writeTy] at hdepth ⊢
    obtain ⟨inner, rfl, -⟩ := exists_depth hdepth (by omega)
    exact (reads_tag (by decide)).bind (reads_kind k).map
  | .any, depth, _, hdepth => by
    rw [writeTy, ← List.append_nil (writeTag 1)] at hdepth
    obtain ⟨inner, rfl, -⟩ := exists_depth hdepth (by omega)
    exact (reads_tag (by decide)).last (.pure Ty.any)
  | .slice e, depth, he, hdepth => by
    rw [writeTy] at hdepth ⊢
    obtain ⟨inner, rfl, hinner⟩ := exists_depth hdepth (by omega)
    exact (reads_tag (by decide)).bind (reads_tyWithin e inner he hinner).map
  | .ptr e, depth, he, hdepth => by
    rw [writeTy] at hdepth ⊢
    obtain ⟨inner, rfl, hinner⟩ := exists_depth hdepth (by omega)
    exact (reads_tag (by decide)).bind (reads_tyWithin e inner he hinner).map
  | .func s, depth, hs, hdepth => by
    rw [writeTy] at hdepth ⊢
    obtain ⟨inner, rfl, hinner⟩ := exists_depth hdepth (by omega)
    exact (reads_tag (by decide)).bind (reads_sigWithin s inner hs hinner).map
  | .struct fs, depth, hfs, hdepth => by
    rw [writeTy, List.append_assoc] at hdepth ⊢
    obtain ⟨inner, rfl, hinner⟩ := exists_depth hdepth (by omega)
    rw [List.length_append] at hinner
    have hfields := reads_fieldsWithin fs inner hfs.2 (by omega)
    rw [writeFields_eq]
    exact (reads_tag (by decide)).bind (reads_list hfs.1 hfields).map
  | .named p n t, depth, h, hdepth => by
    rw [writeTy, List.append_assoc, List.append_assoc] at hdepth ⊢
    obtain ⟨inner, rfl, hinner⟩ := exists_depth hdepth (by omega)
    rw [List.length_append, List.length_append] at hinner
    have hty := reads_tyWithin t inner h.2.2 (by omega)
    exact (reads_tag (by decide)).bind ((reads_string h.1).bind ((reads_string h.2.1).bind hty.map))
termination_by structural t => t

theorem reads_sigWithin : ∀ (s : Signature) (depth : Nat), SigFits s → (writeSig s).length ≤ depth →
    Reads (readSig (readTyWithin depth)) (writeSig s) s
  | ⟨ps, rs, v⟩, depth, hs, hdepth => by
    rw [writeSig] at hdepth
    simp only [List.length_append] at hdepth
    exact reads_sig hs.1.1 hs.2.1 (reads_tysWithin ps depth hs.1.2 (by omega))
      (reads_tysWithin rs depth hs.2.2 (by omega))
termination_by structural s => s

theorem reads_tysWithin : ∀ (ts : List Ty) (depth : Nat), TysFit ts → (writeTys ts).length ≤ depth →
    ∀ t ∈ ts, Reads (readTyWithin depth) (writeTy t) t
  | [], _, _, _ => fun _ h => nomatch h
  | t :: ts, depth, h, hdepth => by
    rw [writeTys, List.length_append] at hdepth
    intro u hu
    cases List.mem_cons.1 hu with
    | inl heq => exact heq ▸ reads_tyWithin t depth h.1 (by omega)
    | inr hu => exact reads_tysWithin ts depth h.2 (by omega) u hu
termination_by structural ts => ts

theorem reads_fieldWithin : ∀ (f : Field) (depth : Nat), FieldFits f → (writeField f).length ≤ depth →
    Reads (readField (readTyWithin depth)) (writeField f) f
  | ⟨n, t⟩, depth, h, hdepth => by
    rw [writeField, List.length_append] at hdepth
    exact reads_field h.1 (reads_tyWithin t depth h.2 (by omega))
termination_by structural f => f

theorem reads_fieldsWithin : ∀ (fs : List Field) (depth : Nat), FieldsFit fs →
    (writeFields fs).length ≤ depth →
    ∀ f ∈ fs, Reads (readField (readTyWithin depth)) (writeField f) f
  | [], _, _, _ => fun _ h => nomatch h
  | f :: fs, depth, h, hdepth => by
    rw [writeFields, List.length_append] at hdepth
    intro g hg
    cases List.mem_cons.1 hg with
    | inl heq => exact heq ▸ reads_fieldWithin f depth h.1 (by omega)
    | inr hg => exact reads_fieldsWithin fs depth h.2 (by omega) g hg
termination_by structural fs => fs

end

theorem reads_ty {t : Ty} (h : TyFits t) : Reads readTy (writeTy t) t := fun rest =>
  reads_tyWithin t (writeTy t ++ rest).length h (by simp) rest

/-! ## Constants -/

theorem reads_int (k : IntKind) (n : BitVec k.width) : Reads (readInt k) (writeInt k n) n := by
  have hwidth : 0 < k.width := by cases k <;> decide
  unfold readInt writeInt
  split
  · rename_i h8
    have hbyte : n.toNat < 256 := Nat.lt_of_lt_of_eq n.isLt (by rw [h8])
    have hread := (reads_byte (UInt8.ofNat n.toNat)).map (f := fun b => BitVec.ofNat k.width b.toNat)
    rwa [toNat_byte hbyte, BitVec.ofNat_toNat, BitVec.setWidth_eq] at hread
  · cases hsigned : k.signed with
    | true =>
      have hread := (reads_nat hwidth (zigzag_lt hwidth n)).map
        (f := fun m => BitVec.ofInt k.width (unzigzag m))
      rw [unzigzag_zigzag, BitVec.ofInt_toInt] at hread
      exact hread
    | false =>
      have hlt : n.toNat < 1 <<< k.width := by
        rw [Nat.one_shiftLeft]
        exact n.isLt
      have hread := (reads_nat hwidth hlt).map (f := BitVec.ofNat k.width)
      rw [BitVec.ofNat_toNat, BitVec.setWidth_eq] at hread
      exact hread

theorem reads_binary {p : Precision} (x : Binary p) : Reads (readBinary p) (writeBinary x) x := by
  have hlt : x.bits.toNat < 256 ^ (p.width / 8) := by
    cases p <;> exact x.bits.isLt
  have hread := (reads_fixed _ hlt).map (f := fun n => (⟨BitVec.ofNat p.width n⟩ : Binary p))
  rw [BitVec.ofNat_toNat, BitVec.setWidth_eq] at hread
  exact hread

theorem reads_scalar {s : Scalar} (h : ScalarFits s) : Reads readScalar (writeScalar s) s := by
  have hof {bytes : Bytes} (k : Kind) (hread : Reads (readScalarOf k) bytes s) :
      Reads readScalar (writeTag (k.code + 1) ++ bytes) s := by
    have htag : IdFits (k.code + 1) :=
      Nat.lt_trans (Nat.succ_lt_succ (Kind.code_lt k)) (by decide)
    refine (reads_tag htag).bind ?_
    simp only [Kind.ofCode?_code]
    exact hread
  cases s with
  | nil => exact (reads_tag (by decide)).last (.pure Scalar.nil)
  | bool b => exact hof .bool (reads_bool b).map
  | int k n => exact hof (.int k) (reads_int k n).map
  | float p x => exact hof (.float p) (reads_binary x).map
  | complex p z =>
    rw [writeScalar, List.append_assoc]
    have him := (reads_binary z.im).map (f := fun im => Scalar.complex p ⟨z.re, im⟩)
    exact hof (.complex p) ((reads_binary z.re).bind him)
  | string t => exact hof .string (reads_string h).map

/-! ## Variables and functions -/

theorem reads_varName {n : VarName} (h : VarNameFits n) : Reads readVarName (writeVarName n) n := by
  cases n with
  | named s => exact (reads_tag (by decide)).bind (reads_string h).map
  | positional i => exact (reads_tag (by decide)).bind (reads_size h).map

theorem reads_varAddr {a : VarAddr} (hdepth : IdFits a.depth) (hindex : IdFits a.index) :
    Reads readVarAddr (writeVarAddr a) a :=
  (reads_tag hdepth).bind ((reads_tag hindex).map (f := fun i => (⟨a.depth, i⟩ : VarAddr)))

theorem reads_var {v : Var} (h : VarFits v) : Reads readVar (writeVar v) v := by
  unfold writeVar readVar
  simp only [List.append_assoc]
  refine (reads_varName h.name).bind ((reads_ty h.ty).bind ((reads_option fun a ha =>
    reads_varAddr (h.addr a ha).1 (h.addr a ha).2).bind ?_))
  exact (reads_bool v.block).map (f := fun b => (⟨v.name, v.ty, v.addr, b⟩ : Var))

theorem reads_variadicity (v : Variadicity) : Reads readVariadicity (writeVariadicity v) v := by
  cases v <;> exact (reads_tag (by decide)).last (.pure _)

theorem TysFit.fits {ts : List Ty} (h : TysFit ts) : ∀ t ∈ ts, TyFits t := by
  induction ts with
  | nil => exact fun _ ht => nomatch ht
  | cons t ts ih => exact List.forall_mem_cons.2 ⟨h.1, ih h.2⟩

theorem reads_sig_readTy {s : Signature} (h : SigFits s) :
    Reads (readSig readTy) (writeSig s) s := by
  obtain ⟨ps, rs, v⟩ := s
  exact reads_sig h.1.1 h.2.1 (fun t ht => reads_ty (h.1.2.fits t ht))
    fun t ht => reads_ty (h.2.2.fits t ht)

theorem reads_all {α : Type} {read : Reader α} {write : α → Bytes} {fits : α → Prop} {as : List α}
    (h : AllFit fits as) (hread : ∀ a, fits a → Reads read (write a) a) :
    Reads (readList read) (writeList write as) as :=
  reads_list h.1 fun a ha => hread a (h.2 a ha)

theorem reads_func {f : FuncInfo} (h : FuncFits f) : Reads readFunc (writeFunc f) f := by
  unfold writeFunc readFunc
  simp only [List.append_assoc]
  refine (reads_string h.name).bind ((reads_tag h.depth).bind
    ((reads_all h.params fun _ => reads_ty).bind ((reads_variadicity _).bind
    ((reads_size h.numOut).bind ((reads_all h.vars fun _ => reads_tag).bind
    ((reads_option fun n hn => reads_size (h.entry n hn)).bind
    ((reads_option fun n hn => reads_size (h.stop n hn)).bind ?_)))))))
  exact (reads_option fun s hs => reads_sig_readTy (h.sig s hs)).last (.pure f)

theorem reads_word (w : Word) : Reads readWord (writeTag w.toNat) w := by
  have hlt : IdFits w.toNat := by
    rw [IdFits, Nat.one_shiftLeft]
    exact w.isLt
  have hread := (reads_tag hlt).map (f := BitVec.ofNat 32)
  rwa [BitVec.ofNat_toNat, BitVec.setWidth_eq] at hread

/-! ## Programs -/

/-- The bytes that are written for a program whose constants are the given scalars. -/
def programBytes (p : Program) (consts : List Scalar) : Bytes :=
  writeList (fun w : Word => writeTag w.toNat) p.code.toList ++
    writeList writeScalar consts ++ writeList writeFunc p.funcs.toList ++
    writeList writeTag p.fixed.toList ++ writeList writeTag p.variadic.toList ++
    writeList writeVar p.vars.toList ++ writeList writeTag p.mainVars.toList ++
    writeSize p.mainEnd

theorem reads_program {p : Program} (hp : p.Sized) {consts : List Scalar}
    (hconsts : p.consts.toList = consts.map Value.scalar) :
    Reads Program.read (programBytes p consts) p := by
  have hscalars : AllFit ScalarFits consts := by
    have hfit := hp.consts
    rw [hconsts] at hfit
    refine ⟨by simpa [SizeFits] using hfit.1, fun x hx => ?_⟩
    exact hfit.2 (.scalar x) (List.mem_map_of_mem hx) x rfl
  unfold programBytes Program.read
  simp only [List.append_assoc]
  refine (reads_list hp.code fun w _ => reads_word w).bind
    ((reads_all hscalars fun _ => reads_scalar).bind ((reads_all hp.funcs fun _ => reads_func).bind
    ((reads_all hp.fixed fun _ => reads_tag).bind ((reads_all hp.variadic fun _ => reads_tag).bind
    ((reads_all hp.vars fun _ => reads_var).bind
    ((reads_all hp.mainVars fun _ => reads_tag).bind ?_))))))
  refine (reads_size hp.mainEnd).last ?_
  simp only [← hconsts]
  exact .pure p

end Wire

/-! ## Bytes of programs -/

/-- A value that is made of others or stands for a function has no byte form. -/
def Value.IsCompound : Value → Prop
  | .scalar _ => False
  | .slice .. | .struct .. | .ptr .. | .closure _ | .func _ => True

theorem Value.not_isScalar {v : Value} : ¬v.IsScalar ↔ v.IsCompound := by
  cases v <;> simp [IsScalar, IsCompound]

theorem mapM_scalar? {vs : List Value} {xs : List Scalar} :
    vs.mapM Value.scalar? = some xs ↔ vs = xs.map Value.scalar := by
  induction vs generalizing xs with
  | nil => cases xs <;> simp
  | cons v vs ih =>
    rw [List.mapM_cons]
    constructor
    · intro h
      obtain ⟨x, hx, h⟩ := Option.bind_eq_some_iff.1 h
      obtain ⟨ys, hys, h⟩ := Option.bind_eq_some_iff.1 h
      cases h
      cases v <;> cases hx
      rw [ih.1 hys, List.map_cons]
    · intro h
      cases xs with
      | nil => cases h
      | cons x xs =>
        obtain ⟨rfl, hvs⟩ := List.cons.inj h
        rw [ih.2 hvs]
        rfl

theorem AllScalar.exists_scalars {consts : Array Value} (h : AllScalar consts) :
    ∃ xs : List Scalar, consts.toList = xs.map Value.scalar := by
  have hall : ∀ v ∈ consts.toList, v.IsScalar := fun v hv => h v (Array.mem_toList_iff.1 hv)
  generalize consts.toList = vs at *
  clear h
  induction vs with
  | nil => exact ⟨[], rfl⟩
  | cons v vs ih =>
    obtain ⟨x, rfl⟩ := hall v List.mem_cons_self
    obtain ⟨xs, rfl⟩ := ih fun u hu => hall u (List.mem_cons_of_mem _ hu)
    exact ⟨x :: xs, rfl⟩

namespace Program

variable {p : Program}

theorem toBytes?_eq : p.toBytes? = (p.consts.toList.mapM Value.scalar?).map (Wire.programBytes p) := by
  unfold toBytes?
  cases p.consts.toList.mapM Value.scalar? <;> rfl

/-- Scalar constants are all that a program needs to have a byte form. -/
theorem toBytes?_eq_none : p.toBytes? = none ↔ ∃ v ∈ p.consts, v.IsCompound := by
  rw [toBytes?_eq, Option.map_eq_none_iff]
  constructor
  · intro hnone
    by_contra hno
    have hall : AllScalar p.consts := fun v hv => by
      by_contra hv'
      exact hno ⟨v, hv, Value.not_isScalar.1 hv'⟩
    obtain ⟨xs, hxs⟩ := hall.exists_scalars
    rw [mapM_scalar?.2 hxs] at hnone
    cases hnone
  · rintro ⟨v, hv, hcompound⟩
    rw [Option.eq_none_iff_forall_ne_some]
    intro xs hxs
    rw [← Array.mem_toList_iff, mapM_scalar?.1 hxs] at hv
    obtain ⟨x, -, rfl⟩ := List.mem_map.1 hv
    exact hcompound

/-- The bytes of a program with scalar constants are read back as the same program, whatever
follows them. -/
theorem ofBytes?_toBytes? (hp : p.Sized) (hconsts : AllScalar p.consts) :
    ∃ bytes, p.toBytes? = some bytes ∧ ∀ rest, ofBytes? (bytes ++ rest) = some p := by
  obtain ⟨xs, hxs⟩ := hconsts.exists_scalars
  refine ⟨Wire.programBytes p xs, ?_, fun rest => ?_⟩
  · rw [toBytes?_eq, mapM_scalar?.2 hxs, Option.map_some]
  · rw [ofBytes?, Wire.reads_program hp hxs rest, Option.map_some]

/-- The bytes of a program give it back if its constants are scalars, as those of all compiled
programs are; there are none if a constant is a slice, a struct, a pointer or a function. -/
theorem bytes_round_trip (p : Program) :
    (p.Sized → AllScalar p.consts →
      ∃ bytes, p.toBytes? = some bytes ∧ ∀ rest, ofBytes? (bytes ++ rest) = some p) ∧
    (p.toBytes? = none ↔ ∃ v ∈ p.consts, v.IsCompound) ∧
    ∀ (r : Registry) (folds : Bool) (f : File), f.compile r folds = .ok p → AllScalar p.consts :=
  ⟨ofBytes?_toBytes?, toBytes?_eq_none, fun _ _ _ => File.allScalar_of_compile⟩

/-- A variadic function that returns a text, and two constants. -/
def greeting : Program where
  code := #[1, 2]
  consts := #[.string "hello", .int (-1)]
  funcs := #[{
    name := "greet", depth := 1, params := [.slice (.basic .string)], variadicity := .variadic,
    numOut := 1, vars := #[0], entry := some 0, stop := some 2,
    sig := some ⟨[.slice (.basic .string)], [.basic .string], true⟩ }]
  fixed := #[]
  variadic := #[0]
  vars := #[⟨.named "answer", .basic .string, some ⟨1, 0⟩, true⟩]
  mainVars := #[]
  mainEnd := 0

open Wire in
theorem greeting_round_trips : greeting.Sized ∧ AllScalar greeting.consts ∧
    ∃ bytes, greeting.toBytes? = some bytes ∧ ofBytes? bytes = some greeting := by
  have one {α : Type} {fits : α → Prop} {a : α} (h : fits a) : AllFit fits [a] :=
    ⟨by simp +decide, by simpa using h⟩
  have htexts : SigFits ⟨[.slice (.basic .string)], [.basic .string], true⟩ :=
    ⟨⟨by decide, trivial, trivial⟩, by decide, trivial, trivial⟩
  have hgreet (f : FuncInfo) (hf : f ∈ greeting.funcs.toList) : FuncFits f := by
    obtain rfl := List.mem_singleton.1 hf
    exact
      { name := by unfold TextFits; decide
        depth := by decide
        params := one htexts.1.2.1
        numOut := by decide
        vars := one (by decide)
        entry := by simp +decide
        stop := by simp +decide
        sig := by simpa using htexts }
  have hconsts (c : Value) (hc : c ∈ greeting.consts.toList) (x : Scalar) (hx : x ∈ c.scalar?) :
      ScalarFits x := by
    obtain rfl | hc := List.mem_cons.1 hc
    · obtain rfl := Option.some.inj hx
      show SizeFits "hello".utf8ByteSize
      decide
    · obtain rfl := List.mem_singleton.1 hc
      obtain rfl := Option.some.inj hx
      trivial
  have hsized : greeting.Sized :=
    { code := by decide
      consts := ⟨by decide, hconsts⟩
      funcs := ⟨by decide, hgreet⟩
      fixed := ⟨by decide, by simp [greeting]⟩
      variadic := one (by decide)
      vars := one ⟨by unfold VarNameFits TextFits; decide, trivial, by simp +decide⟩
      mainVars := ⟨by decide, by simp [greeting]⟩
      mainEnd := by decide }
  have hscalar : AllScalar greeting.consts := by
    simp [greeting, AllScalar, Value.IsScalar, Value.string, Value.int, Value.ofInt]
  obtain ⟨bytes, hbytes, hread⟩ := (bytes_round_trip greeting).1 hsized hscalar
  refine ⟨hsized, hscalar, bytes, hbytes, ?_⟩
  simpa using hread []

end Program

end StackScript
