import Unerase.JType.Basic

/-!
# Sameness of types

Two types are the same when they differ at most in the names that their type variables are
displayed under. `same` decides this directly; `same_iff` says that it is equality once all
names are wiped, and so an equivalence that keeps the size of a type.
-/

namespace Unerase.JType

mutual

/-- Equality up to the display names of type variables. -/
def same : JType → JType → Bool
  | .prim p, .prim q => p == q
  | .cls m as, .cls n bs => m == n && sameArgs as bs
  | .array a, .array b => same a b
  | .var v, .var w => v.toVarId == w.toVarId
  | .unbounded, .unbounded => true
  | .bounded d a, .bounded e b => d == e && same a b
  | _, _ => false

/-- Argument lists are the same when they are so position by position. -/
def sameArgs : List JType → List JType → Bool
  | [], [] => true
  | a :: as, b :: bs => same a b && sameArgs as bs
  | _, _ => false

end

mutual

/-- The type with every display name wiped. -/
def unnamed : JType → JType
  | .prim p => .prim p
  | .cls name args => .cls name (unnamedArgs args)
  | .array elem => .array (unnamed elem)
  | .var v => .var ⟨v.toVarId, ""⟩
  | .unbounded => .unbounded
  | .bounded dir bound => .bounded dir (unnamed bound)

/-- Wipes the display names of every argument. -/
def unnamedArgs : List JType → List JType
  | [] => []
  | a :: as => unnamed a :: unnamedArgs as

end

mutual

/-- The number of nodes of a type. -/
def size : JType → Nat
  | .prim _ => 1
  | .cls _ args => 1 + sizeArgs args
  | .array elem => 1 + size elem
  | .var _ => 1
  | .unbounded => 1
  | .bounded _ bound => 1 + size bound

/-- The number of nodes of all arguments together. -/
def sizeArgs : List JType → Nat
  | [] => 0
  | a :: as => size a + sizeArgs as

end

mutual

/-- Types are the same exactly when they agree once their display names are wiped. -/
theorem same_iff : ∀ {a b : JType}, same a b = true ↔ unnamed a = unnamed b
  | .prim _, b => by cases b <;> simp [same, unnamed]
  | .cls _ _, b => by cases b <;> simp [same, unnamed, sameArgs_iff]
  | .array _, b => by cases b <;> simp [same, unnamed, same_iff]
  | .var _, b => by cases b <;> simp [same, unnamed]
  | .unbounded, b => by cases b <;> simp [same, unnamed]
  | .bounded _ _, b => by cases b <;> simp [same, unnamed, same_iff]

/-- The same for argument lists. -/
theorem sameArgs_iff : ∀ {as bs : List JType},
    sameArgs as bs = true ↔ unnamedArgs as = unnamedArgs bs
  | [], bs => by cases bs <;> simp [sameArgs, unnamedArgs]
  | _ :: _, bs => by cases bs <;> simp [sameArgs, unnamedArgs, same_iff, sameArgs_iff]

end

theorem same_refl (a : JType) : same a a = true := same_iff.2 rfl

theorem same_symm {a b : JType} (h : same a b = true) : same b a = true :=
  same_iff.2 (same_iff.1 h).symm

theorem same_trans {a b c : JType} (h₁ : same a b = true) (h₂ : same b c = true) :
    same a c = true :=
  same_iff.2 ((same_iff.1 h₁).trans (same_iff.1 h₂))

mutual

theorem size_unnamed : ∀ t : JType, size (unnamed t) = size t
  | .prim _ => rfl
  | .cls _ args => by simp [unnamed, size, sizeArgs_unnamedArgs args]
  | .array elem => by simp [unnamed, size, size_unnamed elem]
  | .var _ => rfl
  | .unbounded => rfl
  | .bounded _ bound => by simp [unnamed, size, size_unnamed bound]

theorem sizeArgs_unnamedArgs : ∀ ts : List JType, sizeArgs (unnamedArgs ts) = sizeArgs ts
  | [] => rfl
  | t :: ts => by simp [unnamedArgs, sizeArgs, size_unnamed t, sizeArgs_unnamedArgs ts]

end

/-- The same types have the same size, so a difference in size settles a comparison. -/
theorem size_eq_of_same {a b : JType} (h : same a b = true) : size a = size b := by
  rw [← size_unnamed a, same_iff.1 h, size_unnamed]

end Unerase.JType
