import Mathlib.Data.List.Forall2
import Unerase.JType.Erasure
import Unerase.JType.Same
import Unerase.Proofs.JType.Occurrence

/-!
# Filling and display names

Wiping the display names of a type is itself a filling, so it goes past every other filling: what
a filled type is up to names depends on what was put in up to names.
-/

namespace Unerase

/-- A variable without its display name. -/
def TypeVar.unnamed (v : TypeVar) : TypeVar := ⟨v.toVarId, ""⟩

namespace JType

theorem unnamedArgs_eq_map (args : List JType) : unnamedArgs args = args.map unnamed := by
  induction args with
  | nil => rfl
  | cons a as ih => simp [unnamedArgs, ih]

@[simp] theorem unnamed_cls (name : String) (args : List JType) :
    unnamed (.cls name args) = .cls name (args.map unnamed) := by
  rw [unnamed, unnamedArgs_eq_map]

/-- A type without display names has unnamed variables in the place of its variables. -/
theorem unnamed_eq_fill (t : JType) : t.unnamed = t.fill fun v => .var v.unnamed := by
  induction t using inductOn with
  | prim p => rfl
  | cls name args ih =>
    rw [unnamed_cls, fill_cls]
    exact congrArg _ (List.map_congr_left ih)
  | array elem ih => rw [unnamed, fill_array, ih]
  | var v => rfl
  | unbounded => rfl
  | bounded dir bound ih => rw [unnamed, fill_bounded, ih]

/-- The names in a filled type are those of the types that were put in. -/
theorem unnamed_fillAt (f : Nat → TypeVar → JType) (t : JType) (depth : Nat) :
    (t.fillAt f depth).unnamed = t.fillAt (fun d v => (f d v).unnamed) depth := by
  simp only [unnamed_eq_fill, fill_fillAt]

theorem unnamed_fill (f : TypeVar → JType) (t : JType) :
    (t.fill f).unnamed = t.fill fun v => (f v).unnamed := unnamed_fillAt (fun _ => f) t 0

/-- What a type without display names is filled with is chosen without them. -/
theorem fillAt_unnamed (f : Nat → TypeVar → JType) (t : JType) (depth : Nat) :
    t.unnamed.fillAt f depth = t.fillAt (fun d v => f d v.unnamed) depth := by
  induction t using inductOn generalizing depth with
  | prim p => rfl
  | cls name args ih =>
    rw [unnamed_cls, fillAt_cls, fillAt_cls, List.map_map]
    exact congrArg _ (List.map_congr_left fun a ha => ih a ha (depth + 1))
  | array elem ih => rw [unnamed, fillAt_array, fillAt_array, ih]
  | var v => rfl
  | unbounded => rfl
  | bounded dir bound ih => rw [unnamed, fillAt_bounded, fillAt_bounded, ih]

/-- Wiping the display names leaves every occurrence where it is. -/
theorem occurrencesAt_unnamed (t : JType) (depth : Nat) :
    t.unnamed.occurrencesAt depth =
      (t.occurrencesAt depth).map fun o => ⟨o.depth, o.var.unnamed⟩ := by
  induction t using inductOn generalizing depth with
  | prim p => rfl
  | cls name args ih =>
    rw [unnamed_cls, occurrencesAt_cls, occurrencesAt_cls, List.flatMap_map, List.map_flatMap]
    exact List.flatMap_congr fun a ha => ih a ha (depth + 1)
  | array elem ih => exact ih (depth + 1)
  | var v => rfl
  | unbounded => rfl
  | bounded dir bound ih => exact ih (depth + 1)

/-- No variable is left by erasure, and so no display name. -/
theorem erasure_unnamed (t : JType) : t.unnamed.erasure = t.erasure := by
  induction t using inductOn with
  | prim p => rfl
  | cls name args ih => rfl
  | array elem ih => rw [unnamed, erasure, erasure, ih]
  | var v => rfl
  | unbounded => rfl
  | bounded dir bound ih =>
    cases dir with
    | upper => exact ih
    | lower => rfl

@[simp] theorem className?_unnamed (t : JType) : t.unnamed.className? = t.className? := by
  cases t <;> rfl

/-- Lists of types are the same one by one. -/
theorem forall₂_unnamed_iff {ts us : List JType} :
    List.Forall₂ (fun t u => t.unnamed = u.unnamed) ts us ↔ ts.map unnamed = us.map unnamed := by
  rw [← List.forall₂_eq_eq_eq, List.forall₂_map_left_iff, List.forall₂_map_right_iff]

theorem className?_eq_of_same {a b : JType} (h : a.unnamed = b.unnamed) :
    a.className? = b.className? := by
  rw [← className?_unnamed a, h, className?_unnamed]

end JType

end Unerase
