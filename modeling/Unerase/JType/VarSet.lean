import Unerase.Table
import Unerase.JType.Vars

/-!
# Sets of type variables

A set of type variables by identity. A variable that is met again under another name keeps the
name it was first met under.
-/

namespace Unerase

/-- The members of a set, each with the name it was first met under. -/
structure VarSet where
  names : Table VarId String

namespace VarSet

/-- The set without members. -/
def empty : VarSet := ⟨Table.empty⟩

/-- Adds a variable; a member keeps its first name. -/
def insert (s : VarSet) (v : TypeVar) : VarSet := ⟨s.names.putNew v.toVarId v.name⟩

/-- Adds variables from left to right. -/
def insertAll (s : VarSet) (vs : List TypeVar) : VarSet := vs.foldl insert s

/-- The set of the listed variables. -/
def ofList (vs : List TypeVar) : VarSet := empty.insertAll vs

/-- Membership by identity. -/
def contains (s : VarSet) (v : VarId) : Bool := s.names.contains v

/-- The number of members. -/
def size (s : VarSet) : Nat := s.names.size

/-- A set is empty when it has no member. -/
def isEmpty (s : VarSet) : Bool := s.names.isEmpty

/-- The members in the order of their identities: class owners before method owners, then by
owner, then by index. -/
def toList (s : VarSet) : List TypeVar := s.names.sorted.map fun entry => ⟨entry.1, entry.2⟩

/-- Two sets are the same when they have the same members, whatever the names. -/
def same (s t : VarSet) : Bool :=
  s.names.keys.all t.contains && t.names.keys.all s.contains

@[simp] theorem contains_empty (v : VarId) : empty.contains v = false := rfl

@[simp] theorem contains_insert (s : VarSet) (v : TypeVar) (w : VarId) :
    (s.insert v).contains w = (decide (w = v.toVarId) || s.contains w) := by
  by_cases h : w = v.toVarId <;> simp [contains, insert, Table.contains, h]

theorem contains_insertAll (s : VarSet) (vs : List TypeVar) (w : VarId) :
    (s.insertAll vs).contains w = true ↔ s.contains w = true ∨ ∃ v ∈ vs, v.toVarId = w := by
  induction vs generalizing s with
  | nil => simp [insertAll]
  | cons v rest ih =>
    have hstep : s.insertAll (v :: rest) = (s.insert v).insertAll rest := rfl
    rw [hstep, ih, contains_insert, Bool.or_eq_true, decide_eq_true_eq]
    simp only [List.mem_cons, exists_eq_or_imp]
    rw [eq_comm (a := w), or_assoc, or_left_comm]

theorem contains_ofList (vs : List TypeVar) (w : VarId) :
    (ofList vs).contains w = true ↔ ∃ v ∈ vs, v.toVarId = w := by
  simp [ofList, contains_insertAll]

/-- Sameness is having the same members. -/
theorem same_iff {s t : VarSet} : s.same t = true ↔ ∀ v, s.contains v = t.contains v := by
  have hmem : ∀ (u : VarSet) v, v ∈ u.names.keys ↔ u.contains v = true := fun u v =>
    Table.mem_keys_iff
  simp only [same, Bool.and_eq_true, List.all_eq_true, hmem]
  constructor
  · rintro ⟨hst, hts⟩ v
    rw [Bool.eq_iff_iff]
    exact ⟨hst v, hts v⟩
  · intro h
    exact ⟨fun v hv => h v ▸ hv, fun v hv => (h v).symm ▸ hv⟩

end VarSet

/-- The set of the variables that occur in a type. -/
def JType.varSet (t : JType) : VarSet := VarSet.ofList t.vars

end Unerase
