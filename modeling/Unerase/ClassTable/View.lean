import Unerase.ClassTable.Binding
import Unerase.Config.Basic
import Unerase.JType.Erasure
import Unerase.JType.Same
import Unerase.Search

/-!
# Views as a supertype

A class type is also a use of every class above its own. The search for the use of a given class
goes breadth-first over class types, the superclass before the interfaces, and carries the
arguments along. It meets a class more than once if the class is used with different arguments.
-/

namespace Unerase

/-- A type together with its size, by which most different types can be told apart at once. -/
structure SizedType where
  type : JType
  size : Nat
  size_eq : size = type.size

namespace SizedType

/-- A type with its size. -/
def of (type : JType) : SizedType := ⟨type, type.size, rfl⟩

/-- Sameness of types, settled by the sizes where they differ. -/
instance : BEq SizedType := ⟨fun a b => a.size == b.size && a.type.same b.type⟩

theorem beq_eq_same (a b : SizedType) : (a == b) = a.type.same b.type := by
  change (a.size == b.size && a.type.same b.type) = a.type.same b.type
  cases h : a.type.same b.type with
  | false => simp
  | true => simp [a.size_eq, b.size_eq, JType.size_eq_of_same h]

end SizedType

/-- Whether a type is a use of the given class. -/
def JType.isUseOf (target : String) (type : JType) : Bool := type.className? == some target

namespace ClassTable

/-- A declared supertype as it reads for a use of its class: erased if the use is raw, and with
the bound parameters replaced otherwise. -/
def supertypeFor (config : Config) (raw : Bool) (b : Bindings) (supertype : JType) : JType :=
  if raw then supertype.erasure
  else (supertype.subst b config.maxSubstitutionDepth).getD supertype

/-- The direct supertypes of a class type that are class types. A use of a class with parameters
that binds none of them is raw. -/
def typesAbove (classes : ClassTable) (config : Config) (type : JType) : List JType :=
  match type.className?.bind classes with
  | none => []
  | some c =>
    let b := classes.bindings type
    let raw := !c.typeParams.isEmpty && b.isEmpty
    (c.supertypes.map (supertypeFor config raw b)).filter fun t => t.className?.isSome

/-- The class types above a class type, the type itself first, in the order in which they are
met, up to the first that is a use of the target. -/
def typesUpTo (classes : ClassTable) (config : Config) (target : String) (type : JType) :
    List SizedType :=
  explore (fun t => (classes.typesAbove config t.type).map .of) (fun t => t.type.isUseOf target)
    (config.maxAncestors + 1) [] [.of type]

/-- A class type viewed as a use of a class above its own, or of its own; nothing if the search
does not meet one. -/
def viewAs (classes : ClassTable) (config : Config) (type : JType) (target : String) :
    Option JType :=
  if type.className?.isSome then
    ((classes.typesUpTo config target type).find? fun t => t.type.isUseOf target).map (·.type)
  else none

end ClassTable

end Unerase
