import Unerase.JType.Erasure
import Unerase.Proofs.JType.Same
import Unerase.Proofs.JType.Substitution

/-!
# Erased types

Erasure keeps what a type is at its *head*, which is reached through array elements and upper
bounds, and puts the array levels on the way around it. All else is dropped. So what comes out is in
a normal form, and a substitution, which never changes any node but a variable, makes no difference
to it unless the head is a variable itself (`erasure_normal`).
-/

namespace Unerase.JType

/-- A type is erased if it consists of array levels over a primitive type or over a class without
arguments. -/
inductive IsErased : JType → Prop
  | prim (p : Primitive) : IsErased (.prim p)
  | cls (name : String) : IsErased (.cls name [])
  | array {elem : JType} : IsErased elem → IsErased (.array elem)

/-- The part of a type that is found below its array levels and upper bounds. -/
def head : JType → JType
  | .array elem => head elem
  | .bounded .upper bound => head bound
  | t => t

/-! ## The normal form -/

theorem isErased_object : object.IsErased := .cls objectName

theorem isErased_erasure (t : JType) : t.erasure.IsErased := by
  induction t using inductOn with
  | prim p => exact .prim p
  | cls name args ih => exact .cls name
  | array elem ih => exact .array ih
  | var v => exact isErased_object
  | unbounded => exact isErased_object
  | bounded dir bound ih =>
    cases dir with
    | upper => exact ih
    | lower => exact isErased_object

theorem IsErased.erasure_eq {t : JType} (h : t.IsErased) : t.erasure = t := by
  induction h with
  | prim p => rfl
  | cls name => rfl
  | array h ih => rw [erasure, ih]

/-- There are no variables in an erased type, and so no display names. -/
theorem isErased_unnamed_iff {t : JType} : t.unnamed.IsErased ↔ t.IsErased := by
  induction t using inductOn with
  | prim p => rfl
  | cls name args ih =>
    rw [unnamed_cls]
    constructor
    · intro h
      cases args with
      | nil => exact .cls name
      | cons a args => cases h
    · intro h
      cases h
      exact .cls name
  | array elem ih =>
    constructor
    · intro h
      cases h with
      | array helem => exact .array (ih.1 helem)
    · intro h
      cases h with
      | array helem => exact .array (ih.2 helem)
  | var v => exact ⟨nofun, nofun⟩
  | unbounded => rfl
  | bounded dir bound ih => exact ⟨nofun, nofun⟩

/-- A type that erasure does not change, but for the display names that are lost, is erased. -/
theorem isErased_of_same {t : JType} (h : t.erasure.same t = true) : t.IsErased := by
  have hnames : t.erasure.unnamed = t.unnamed := same_iff.1 h
  rw [← isErased_unnamed_iff, ← hnames, isErased_unnamed_iff]
  exact isErased_erasure t

/-! ## Substitution -/

/-- The parts of a type that erasure keeps are not filled if the head is no variable. -/
theorem erasure_fillAt {t : JType} (h : ∀ v, t.head ≠ .var v) (f : Nat → TypeVar → JType)
    (depth : Nat) : (t.fillAt f depth).erasure = t.erasure := by
  induction t using inductOn generalizing depth with
  | prim p => rfl
  | cls name args ih => rw [fillAt_cls, erasure, erasure]
  | array elem ih => rw [fillAt_array, erasure, erasure, ih h]
  | var v => exact absurd rfl (h v)
  | unbounded => rfl
  | bounded dir bound ih =>
    rw [fillAt_bounded]
    cases dir with
    | upper =>
      rw [erasure, erasure]
      exact ih h (depth + 1)
    | lower => rfl

/-- Erasure brings a type into its normal form, which it does not change any more and in which no
other types are. A substitution, however deep it goes, does not change the normal form of a type
whose head is no variable. -/
theorem erasure_normal (t : JType) :
    t.erasure.IsErased ∧ t.erasure.erasure = t.erasure ∧
    (t.erasure = t ↔ t.IsErased) ∧ (t.erasure.same t = true ↔ t.IsErased) ∧
    ((∀ v, t.head ≠ .var v) →
      ∀ b limit, ((t.subst b limit).getD t).erasure = t.erasure) := by
  refine ⟨isErased_erasure t, (isErased_erasure t).erasure_eq, ⟨fun h => ?_, IsErased.erasure_eq⟩,
    ⟨isErased_of_same, fun h => ?_⟩, fun h b limit => ?_⟩
  · rw [← h]
    exact isErased_erasure t
  · rw [h.erasure_eq]
    exact same_refl t
  · rw [getD_subst]
    exact erasure_fillAt h _ 0

/-- In `? extends Map<? super T, T[]>[]` the substitution reaches the first of the variables that
erasure drops, and not the second, which stands one deeper. -/
theorem erasure_normal_map :
    let var : TypeVar := ⟨⟨.ofClass "C", 0⟩, "T"⟩
    let map (key value : JType) : JType :=
      .bounded .upper (.array (.cls "java.util.Map" [.bounded .lower key, .array (.array value)]))
    let b := Bindings.ofList [(var, .cls "java.lang.String" [])]
    (∀ v, (map (.var var) (.var var)).head ≠ .var v) ∧
    (map (.var var) (.var var)).subst b 4 =
      .replaced (map (.cls "java.lang.String" []) (.var var)) ∧
    (map (.cls "java.lang.String" []) (.var var)).erasure = .array (.cls "java.util.Map" []) ∧
    (map (.var var) (.var var)).erasure = .array (.cls "java.util.Map" []) := by
  intro var map b
  have hhead : ∀ v, (map (.var var) (.var var)).head ≠ .var v := fun v => by simp [map, head]
  have hsubst : (map (.var var) (.var var)).subst b 4 =
      .replaced (map (.cls "java.lang.String" []) (.var var)) := by decide +kernel
  have hsame := (erasure_normal (map (.var var) (.var var))).2.2.2.2 hhead b 4
  rw [hsubst] at hsame
  exact ⟨hhead, hsubst, hsame, rfl⟩

end Unerase.JType
