import Unerase.ClassFile.Grammar
import Unerase.Failure

/-!
# Descriptors

Reading the erased types of fields and methods. A text that is no descriptor is reported as a
whole.
-/

namespace Unerase

open Grammar

/-- The type that a field descriptor writes. -/
def JType.ofDescriptor (text : String) : Except Failure JType :=
  match (fieldType (top .descriptor).reference).all text.toList with
  | some type => .ok type
  | none => .error (.notDescriptor text)

/-- The erased types of a method. -/
structure MethodDescriptor where
  params : List JType
  returnType : JType
  deriving DecidableEq

/-- The types that a method descriptor writes. -/
def MethodDescriptor.read (text : String) : Except Failure MethodDescriptor :=
  match (methodTypes (top .descriptor).reference).all text.toList with
  | some (params, returnType) => .ok ⟨params, returnType⟩
  | none => .error (.notDescriptor text)

end Unerase
