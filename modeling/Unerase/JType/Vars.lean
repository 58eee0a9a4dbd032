import Unerase.JType.Basic

/-!
# Variables of a type

`vars` lists the type variables of a type from left to right, one entry for each occurrence, and
`hasVar` says whether there is any.
-/

namespace Unerase.JType

mutual

/-- Whether a type variable occurs anywhere in a type. -/
def hasVar : JType → Bool
  | .prim _ => false
  | .cls _ args => hasVarArgs args
  | .array elem => hasVar elem
  | .var _ => true
  | .unbounded => false
  | .bounded _ bound => hasVar bound

/-- Whether a type variable occurs in any argument. -/
def hasVarArgs : List JType → Bool
  | [] => false
  | a :: as => hasVar a || hasVarArgs as

end

mutual

/-- The occurrences of type variables in a type, from left to right. -/
def vars : JType → List TypeVar
  | .prim _ => []
  | .cls _ args => varsArgs args
  | .array elem => vars elem
  | .var v => [v]
  | .unbounded => []
  | .bounded _ bound => vars bound

/-- The occurrences of type variables in a list of arguments, from left to right. -/
def varsArgs : List JType → List TypeVar
  | [] => []
  | a :: as => vars a ++ varsArgs as

end

theorem varsArgs_eq_flatMap (args : List JType) : varsArgs args = args.flatMap vars := by
  induction args with
  | nil => rfl
  | cons a as ih => simp [varsArgs, ih]

mutual

/-- A type has a variable exactly when the list of its occurrences is not empty. -/
theorem hasVar_eq : ∀ t : JType, hasVar t = !(vars t).isEmpty
  | .prim _ => rfl
  | .cls _ args => by simp [hasVar, vars, hasVarArgs_eq args]
  | .array elem => by simp [hasVar, vars, hasVar_eq elem]
  | .var _ => rfl
  | .unbounded => rfl
  | .bounded _ bound => by simp [hasVar, vars, hasVar_eq bound]

theorem hasVarArgs_eq : ∀ args : List JType, hasVarArgs args = !(varsArgs args).isEmpty
  | [] => rfl
  | a :: as => by
    rw [hasVarArgs, varsArgs, hasVar_eq a, hasVarArgs_eq as]
    cases vars a <;> simp

end

end Unerase.JType
