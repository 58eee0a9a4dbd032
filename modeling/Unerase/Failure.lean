/-!
# Failures

The causes for which a request has no answer. Not finding something is no failure: an unknown
class, a raw type or an argument count that does not fit merely yields no information.
-/

namespace Unerase

/-- Why a request has no answer. -/
inductive Failure where
  /-- The text is not a descriptor. -/
  | notDescriptor (text : String)
  /-- The text is not a generic signature, or names a type variable that is not in scope. -/
  | notSignature (text : String)
  /-- A call passes no argument at a position where a declared parameter needs one. -/
  | noArgument (index count : Nat)
  /-- The text is not a configuration, for a cause that the decoder of the text puts in words. -/
  | notConfig (cause : String)
  deriving DecidableEq

/-- The wording of a failure. -/
def Failure.message : Failure → String
  | .notDescriptor text => "invalid descriptor: " ++ text
  | .notSignature text => "invalid signature: " ++ text
  | .noArgument index count =>
    "call site has no argument at index " ++ toString index ++
      " (argument count: " ++ toString count ++ ")"
  | .notConfig cause => "config error: " ++ cause

/-- Answers and failures can be told apart where both of them can. -/
instance decidableEqExcept {ε α : Type} [DecidableEq ε] [DecidableEq α] :
    DecidableEq (Except ε α)
  | .ok a, .ok b => decidable_of_iff (a = b) (by simp)
  | .error e, .error f => decidable_of_iff (e = f) (by simp)
  | .ok _, .error _ => isFalse nofun
  | .error _, .ok _ => isFalse nofun

end Unerase
