import Unerase.Failure
import Unerase.JType.Same

/-!
# Calls

A type variable of a generic method can be read off a call when some parameter is declared with
exactly that variable: the argument passed for it has the type that the variable stands for. No
other parameter says anything, not even one that contains the variable.
-/

namespace Unerase

/-- The arguments of a call as far as their types are known. The first `skipped` of them are
passed for no declared parameter, as the receiver of an instance call is. -/
structure Arguments where
  skipped : Nat
  count : Nat
  type? : Nat → Option JType

/-- The ways to call a method. -/
inductive CallKind where
  | static
  | virtual
  | interface
  | special
  deriving DecidableEq

/-- The number of leading arguments that are the receiver. -/
def CallKind.receivers : CallKind → Nat
  | .static => 0
  | .virtual | .interface | .special => 1

/-- A call with the types of all its arguments, the receiver of an instance call first. -/
structure Call where
  kind : CallKind
  args : List JType

/-- The arguments of a call. -/
def Call.arguments (call : Call) : Arguments where
  skipped := call.kind.receivers
  count := call.args.length
  type? := fun index => call.args[index]?

namespace Arguments

/-- Compares declared parameters with the target from left to right, the first of them with its
argument at `index`. A parameter without an argument is a failure, whether it is the target or
not. -/
def passedFrom (args : Arguments) (target : JType) :
    Nat → List JType → Except Failure (Option JType)
  | _, [] => .ok none
  | index, param :: rest =>
    match args.type? index with
    | none => .error (.noArgument index args.count)
    | some arg =>
      if param.same target then .ok (some arg) else passedFrom args target (index + 1) rest

/-- The type of the argument that is passed for the first parameter declared as the target. -/
def passedFor (args : Arguments) (params : List JType) (target : JType) :
    Except Failure (Option JType) :=
  args.passedFrom target args.skipped params

end Arguments

end Unerase
