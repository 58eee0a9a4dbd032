import Unerase.Table
import Unerase.JType.Basic

/-!
# Bindings

A finite map from type variables to the types they stand for. Variables are told apart by
identity: binding a variable again replaces its type and keeps the name it was first bound
under. No bindings at all means that nothing is known.
-/

namespace Unerase

/-- What is kept for a bound variable: its first name and its latest type. -/
structure Binding where
  name : String
  type : JType

/-- Type variables with the types they stand for. -/
structure Bindings where
  table : Table VarId Binding

namespace Bindings

/-- The map that binds nothing. -/
def empty : Bindings := ⟨Table.empty⟩

/-- The type that a variable stands for. -/
def get? (b : Bindings) (v : VarId) : Option JType := (b.table.get? v).map (·.type)

/-- Binds a variable, replacing the type it stood for before. -/
def insert (b : Bindings) (v : TypeVar) (type : JType) : Bindings :=
  ⟨b.table.update v.toVarId fun old => ⟨(old.map (·.name)).getD v.name, type⟩⟩

/-- Binds the listed variables from left to right. -/
def ofList (pairs : List (TypeVar × JType)) : Bindings :=
  pairs.foldl (fun b pair => b.insert pair.1 pair.2) empty

/-- The number of bound variables. -/
def size (b : Bindings) : Nat := b.table.size

/-- A map is empty when it binds nothing. -/
def isEmpty (b : Bindings) : Bool := b.table.isEmpty

/-- The bindings in the order of the identities of the variables. -/
def toList (b : Bindings) : List (TypeVar × JType) :=
  b.table.sorted.map fun entry => (⟨entry.1, entry.2.name⟩, entry.2.type)

@[simp] theorem get?_empty (v : VarId) : empty.get? v = none := rfl

@[simp] theorem get?_insert (b : Bindings) (v : TypeVar) (type : JType) (w : VarId) :
    (b.insert v type).get? w = if w = v.toVarId then some type else b.get? w := by
  by_cases h : w = v.toVarId <;> simp [get?, insert, Table.get?_update, h]

theorem isEmpty_iff {b : Bindings} : b.isEmpty = true ↔ ∀ v, b.get? v = none := by
  simp [isEmpty, Table.isEmpty_iff, get?]

end Bindings

end Unerase
