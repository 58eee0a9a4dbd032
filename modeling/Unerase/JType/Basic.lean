/-!
# Types

The types that a class file can mention: primitives, class types with their arguments, arrays,
type variables and wildcards. A type variable is the *position* of a declared type parameter;
the name it was declared with is carried along for display and is no part of what it is
(`VarId`).
-/

namespace Unerase

/-- The primitive types, with `void`, which only a method can return. -/
inductive Primitive where
  | boolean
  | byte
  | char
  | short
  | int
  | long
  | float
  | double
  | void
  deriving DecidableEq

/-- The keyword that names a primitive type in program text. -/
def Primitive.keyword : Primitive → String
  | .boolean => "boolean"
  | .byte => "byte"
  | .char => "char"
  | .short => "short"
  | .int => "int"
  | .long => "long"
  | .float => "float"
  | .double => "double"
  | .void => "void"

/-- Every primitive type, in the order of its constructors. -/
def Primitive.all : List Primitive :=
  [.boolean, .byte, .char, .short, .int, .long, .float, .double, .void]

/-- The primitive type that a keyword names. -/
def Primitive.ofKeyword? (word : String) : Option Primitive :=
  Primitive.all.find? (·.keyword == word)

/-- A method is identified by its declaring class, its name and its erased descriptor. -/
structure MethodRef where
  className : String
  name : String
  descriptor : String
  deriving DecidableEq, Ord

/-- The declaration that introduces a type parameter. -/
inductive Owner where
  | ofClass (name : String)
  | ofMethod (id : MethodRef)
  deriving DecidableEq, Ord

/-- The identity of a type variable: which declaration introduces it, and at which position.
Positions have 32 bits. -/
structure VarId where
  owner : Owner
  index : UInt32
  deriving DecidableEq, Ord

/-- A type variable together with the name it is displayed under. -/
structure TypeVar extends VarId where
  name : String
  deriving DecidableEq

/-- The direction of a wildcard's bound: `? extends B` is bounded from above by `B`, and
`? super B` from below. -/
inductive Variance where
  | upper
  | lower
  deriving DecidableEq

/-- A type expression. A class type without arguments is either the plain use of a class that
declares no parameters or the raw use of one that does. -/
inductive JType where
  | prim (p : Primitive)
  | cls (name : String) (args : List JType)
  | array (elem : JType)
  | var (v : TypeVar)
  | unbounded
  | bounded (dir : Variance) (bound : JType)

namespace JType

/-- The name of the class at the root of every hierarchy. -/
def objectName : String := "java.lang.Object"

/-- The class type at the root of every hierarchy. -/
def object : JType := .cls objectName []

/-- Induction on types in which the arguments of a class type come as members of a list. -/
@[elab_as_elim]
theorem inductOn {motive : JType → Prop} (t : JType)
    (prim : ∀ p, motive (.prim p))
    (cls : ∀ name args, (∀ a ∈ args, motive a) → motive (.cls name args))
    (array : ∀ elem, motive elem → motive (.array elem))
    (var : ∀ v, motive (.var v))
    (unbounded : motive .unbounded)
    (bounded : ∀ dir bound, motive bound → motive (.bounded dir bound)) : motive t :=
  JType.rec (motive_1 := motive) (motive_2 := fun args => ∀ a ∈ args, motive a)
    prim cls array var unbounded bounded
    (fun _ h => nomatch h)
    (fun _ _ hHead hTail a h => by
      rcases List.mem_cons.1 h with rfl | h
      · exact hHead
      · exact hTail a h)
    t

/-! ## Equality -/

mutual

/-- Equality of types, the names of variables included. -/
def eqb : JType → JType → Bool
  | .prim p, .prim q => p == q
  | .cls m as, .cls n bs => m == n && eqbArgs as bs
  | .array a, .array b => eqb a b
  | .var v, .var w => v == w
  | .unbounded, .unbounded => true
  | .bounded d a, .bounded e b => d == e && eqb a b
  | _, _ => false

/-- Equality of argument lists. -/
def eqbArgs : List JType → List JType → Bool
  | [], [] => true
  | a :: as, b :: bs => eqb a b && eqbArgs as bs
  | _, _ => false

end

mutual

theorem eqb_iff : ∀ {a b : JType}, eqb a b = true ↔ a = b
  | .prim _, b => by cases b <;> simp [eqb]
  | .cls _ _, b => by cases b <;> simp [eqb, eqbArgs_iff]
  | .array _, b => by cases b <;> simp [eqb, eqb_iff]
  | .var _, b => by cases b <;> simp [eqb]
  | .unbounded, b => by cases b <;> simp [eqb]
  | .bounded _ _, b => by cases b <;> simp [eqb, eqb_iff]

theorem eqbArgs_iff : ∀ {as bs : List JType}, eqbArgs as bs = true ↔ as = bs
  | [], bs => by cases bs <;> simp [eqbArgs]
  | _ :: _, bs => by cases bs <;> simp [eqbArgs, eqb_iff, eqbArgs_iff]

end

instance : DecidableEq JType := fun _ _ => decidable_of_iff _ eqb_iff

/-! ## Parts of a type -/

/-- A class type is generic when it is applied to at least one argument. -/
def isGeneric : JType → Bool
  | .cls _ args => !args.isEmpty
  | _ => false

/-- The class that a class type names. -/
def className? : JType → Option String
  | .cls name _ => some name
  | _ => none

/-- The arguments of a class type, possibly none. -/
def genericArgs? : JType → Option (List JType)
  | .cls _ args => some args
  | _ => none

/-- The element type of an array type. -/
def arrayElement? : JType → Option JType
  | .array elem => some elem
  | _ => none

/-- Gives a bounded wildcard another bound in the same direction; every other type, an unbounded
wildcard among them, stays as it is. -/
def withBound (t : JType) (bound : JType) : JType :=
  match t with
  | .bounded dir _ => .bounded dir bound
  | other => other

end JType

end Unerase
