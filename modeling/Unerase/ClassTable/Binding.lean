import Unerase.ClassTable.Basic
import Unerase.JType.Substitution

/-!
# What a type says of the parameters of its class

A generic class type binds the parameters of its class to its arguments, position by position.
If there are not as many arguments as parameters, nothing is bound; so a raw type binds nothing,
nor does a type whose class is unknown.
-/

namespace Unerase.ClassTable

/-- Binds each of the parameters to the argument at its position, or nothing at all. -/
def bindAll (params : List TypeParam) (args : List JType) : Bindings :=
  if params.length = args.length then
    Bindings.ofList (params.zipWith (fun param arg => (param.var, arg)) args)
  else .empty

/-- The bindings that a type makes for the parameters of its class. -/
def bindings (classes : ClassTable) : JType → Bindings
  | .cls name args => bindAll (classes.paramsOf name) args
  | _ => .empty

/-- A type that is written inside of a class, as it reads for an instance of the class: the
arguments of the instance take the place of the parameters. -/
def readFor (classes : ClassTable) (instanceType type : JType) (maxDepth : Nat) : Outcome :=
  let b := classes.bindings instanceType
  if b.isEmpty then .noBindings else type.subst b maxDepth

end Unerase.ClassTable
