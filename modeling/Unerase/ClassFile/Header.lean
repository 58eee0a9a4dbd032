import Unerase.ClassFile.Grammar
import Unerase.Declaration

/-!
# Headers of type parameters

The list of type parameters in front of a class or method signature. A parameter is a name with
its bounds, each behind a `:`; the first bound, that by a class, may be left out when another
follows.

A bound may mention every parameter of its own header, the later ones too. So a header is read
twice: once for the names, taking every variable for `java.lang.Object`, and once for the bounds
with the names in scope.
-/

namespace Unerase.Grammar

open Text

/-- Reads the bounds of a parameter. -/
def bounds (reference : Reader JType) : Reader (List JType) :=
  (Reader.byFirst fun
    | ':' => reference.after ':'
    | _ => reference).chain ':' reference

/-- Reads a parameter. -/
def typeParam (reference : Reader JType) : Reader (List Char × List JType) :=
  ((Reader.run (· == ':')).before ':').both (bounds reference)

/-- Reads a header, which has at least one parameter. -/
def header (reference : Reader JType) : Reader (List (List Char × List JType)) :=
  (((typeParam reference).manyTill '>').nonempty).after '<'

/-- The signatures in which every variable is taken for `java.lang.Object`. -/
def Dialect.anyVariable : Dialect := .signature fun _ => some .object

/-- The signatures in which the given variables are in scope; of several variables with one name,
the last is meant. -/
def Dialect.inScope (scope : List TypeVar) : Dialect :=
  .signature fun name => (scope.reverse.find? (·.name == name)).map .var

/-- The variables of parameters that an owner declares under the given names. Their indices start
again at zero where they run out. -/
def declared (owner : Owner) (names : List (List Char)) : List TypeVar :=
  names.mapIdx fun index name => ⟨⟨owner, UInt32.ofNat index⟩, String.ofList name⟩

/-- Reads the header in front of a signature, if there is one, and leaves the signature. -/
def typeParams (owner : Owner) (scope : List TypeVar) (s : List Char) :
    Option (List TypeParam × List Char) :=
  if s.head? = some '<' then
    match (header (top .anyVariable).reference).read s with
    | none => none
    | some (named, _) =>
      let vars := declared owner (named.map (·.1))
      match (header (top (.inScope (scope ++ vars))).reference).read s with
      | none => none
      | some (bounded, rest) =>
        some (vars.zipWith (fun var param => ⟨var, param.2⟩) bounded, rest)
  else some ([], s)

end Unerase.Grammar
