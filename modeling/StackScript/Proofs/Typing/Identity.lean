import StackScript.Value

/-!
# Identity of types

Identity compares named types by name and all others part by part. It is reflexive.
-/

namespace StackScript

mutual

@[simp] theorem Ty.same_refl : ∀ t : Ty, t.same t = true
  | .basic k => by rw [Ty.same, beq_self_eq_true]
  | .any => by rw [Ty.same]
  | .slice t => by rw [Ty.same, Ty.same_refl t]
  | .ptr t => by rw [Ty.same, Ty.same_refl t]
  | .func s => by rw [Ty.same, Signature.same_refl s]
  | .struct fs => by rw [Ty.same, sameFields_refl fs]
  | .named p n _ => by simp [Ty.same]

@[simp] theorem Signature.same_refl : ∀ s : Signature, s.same s = true
  | ⟨ps, rs, v⟩ => by simp [Signature.same, sameTypes_refl ps, sameTypes_refl rs]

@[simp] theorem sameTypes_refl : ∀ ts : List Ty, sameTypes ts ts = true
  | [] => by rw [sameTypes]
  | t :: ts => by rw [sameTypes, Ty.same_refl t, sameTypes_refl ts, Bool.and_self]

theorem Field.same_refl : ∀ f : Field, f.same f = true
  | ⟨n, t⟩ => by rw [Field.same, Ty.same_refl t, beq_self_eq_true, Bool.and_self]

theorem sameFields_refl : ∀ fs : List Field, sameFields fs fs = true
  | [] => by rw [sameFields]
  | f :: fs => by rw [sameFields, Field.same_refl f, sameFields_refl fs, Bool.and_self]

end

end StackScript
