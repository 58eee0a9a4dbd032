import Unerase.JType.Basic

/-!
# Display of types

The spelling of a type in program text. A nested class is written with `.` between the classes,
and arguments are separated by a comma and a blank.
-/

namespace Unerase

/-- A binary class name with its nesting written as `.`. -/
def displayClassName (name : String) : String :=
  String.ofList (name.toList.map fun c => if c = '$' then '.' else c)

/-- The keyword that introduces the bound of a wildcard. -/
def Variance.keyword : Variance → String
  | .upper => "extends"
  | .lower => "super"

namespace JType

mutual

/-- The spelling of a type in program text. -/
def display : JType → String
  | .prim p => p.keyword
  | .cls name [] => displayClassName name
  | .cls name (a :: as) => displayClassName name ++ "<" ++ display a ++ displayMore as ++ ">"
  | .array elem => display elem ++ "[]"
  | .var v => v.name
  | .unbounded => "?"
  | .bounded dir bound => "? " ++ dir.keyword ++ " " ++ display bound

/-- The arguments after the first, each behind its separator. -/
def displayMore : List JType → String
  | [] => ""
  | a :: as => ", " ++ display a ++ displayMore as

end

end JType

end Unerase
