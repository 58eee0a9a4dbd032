import Unerase.JType.Bindings
import Unerase.JType.Vars

/-!
# Substitution

Replacing the bound variables of a type, all at once: a type that is put in is not looked into
again. Substitution tells three outcomes apart, because a caller must not take "there was
nothing to substitute with" for "nothing had to be replaced".

Descent is limited. The root has depth 0, and an array element, a wildcard's bound and a class
argument are each one deeper; nothing below the limit is replaced.
-/

namespace Unerase

/-- What a request for substitution can come to. -/
inductive Outcome where
  /-- There were no bindings to substitute with. -/
  | noBindings
  /-- There were bindings, and none applied. -/
  | unchanged
  /-- At least one variable was replaced. -/
  | replaced (type : JType)
  deriving DecidableEq

namespace Outcome

/-- Whether any variable was replaced. -/
def isReplaced : Outcome → Bool
  | .replaced _ => true
  | _ => false

/-- The resulting type, if any variable was replaced. -/
def type? : Outcome → Option JType
  | .replaced type => some type
  | _ => none

/-- The resulting type, which is the given one when nothing was replaced. -/
def getD (outcome : Outcome) (given : JType) : JType := outcome.type?.getD given

end Outcome

namespace JType

mutual

/-- Replaces the bound variables of a type down to the given depth; `none` if there is no such
variable. A wildcard is looked into only if its bound mentions a variable. -/
def replace? (b : Bindings) : JType → Nat → Option JType
  | .var v, _ => b.get? v.toVarId
  | .array elem, depth + 1 => (replace? b elem depth).map .array
  | .bounded dir bound, depth + 1 =>
    if bound.hasVar then (replace? b bound depth).map (.bounded dir) else none
  | .cls name args, depth + 1 => (replaceArgs? b args depth).map (.cls name)
  | _, _ => none

/-- Replaces within each argument, and keeps the arguments in which there is nothing to replace;
`none` if there is nothing to replace in any of them. -/
def replaceArgs? (b : Bindings) : List JType → Nat → Option (List JType)
  | [], _ => none
  | a :: as, depth =>
    match replace? b a depth, replaceArgs? b as depth with
    | none, none => none
    | a', as' => some (a'.getD a :: as'.getD as)

end

/-- Replaces every bound variable that is no deeper than `maxDepth`. -/
def subst (t : JType) (b : Bindings) (maxDepth : Nat) : Outcome :=
  if b.isEmpty then .unchanged
  else
    match t.replace? b maxDepth with
    | some type => .replaced type
    | none => .unchanged

end JType

end Unerase
