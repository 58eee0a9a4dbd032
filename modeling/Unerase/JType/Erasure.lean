import Unerase.JType.Basic

/-!
# Erasure

The type that a descriptor shows for a generic type: arguments are dropped, and a type variable
stands for `java.lang.Object` whatever bounds it was declared with. A wildcard erases to its
upper bound, which is `java.lang.Object` when it has none.
-/

namespace Unerase.JType

/-- The type left once all generic information is dropped. -/
def erasure : JType → JType
  | .prim p => .prim p
  | .cls name _ => .cls name []
  | .array elem => .array (erasure elem)
  | .var _ => object
  | .unbounded => object
  | .bounded .upper bound => erasure bound
  | .bounded .lower _ => object

end Unerase.JType
