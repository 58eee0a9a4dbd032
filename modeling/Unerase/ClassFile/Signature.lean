import Unerase.ClassFile.Header
import Unerase.Failure

/-!
# Signatures

Reading the generic types of fields, classes and methods. A text that is no signature, or that
names a type variable out of scope, is reported as a whole.
-/

namespace Unerase

open Grammar

/-- The type that a field signature writes, with the given parameters in scope. -/
def JType.ofSignature (scope : List TypeParam) (text : String) : Except Failure JType :=
  match (top (.inScope (TypeParam.vars scope))).reference.all text.toList with
  | some type => .ok type
  | none => .error (.notSignature text)

/-- What a class declares in its signature. -/
structure ClassSignature where
  typeParams : List TypeParam
  superClass : JType
  interfaces : List JType
  deriving DecidableEq

namespace ClassSignature

/-- Reads a superclass and the interfaces that take up the rest of the text. -/
def supertypes (arguments : Text.Reader (List JType)) (s : List Char) :
    Option (JType × List JType) :=
  match (classType arguments).read s with
  | none => none
  | some (superClass, rest) =>
    ((classType arguments).listToEnd rest).map fun interfaces => (superClass, interfaces)

/-- The declaration that the signature of a class writes, or nothing if it is none. -/
def read? (owner : String) (s : List Char) : Option ClassSignature :=
  match Grammar.typeParams (.ofClass owner) [] s with
  | none => none
  | some (params, rest) =>
    (supertypes (top (.inScope (TypeParam.vars params))).arguments rest).map fun supers =>
      ⟨params, supers.1, supers.2⟩

/-- The declaration that the signature of a class writes. -/
def read (owner : String) (text : String) : Except Failure ClassSignature :=
  match read? owner text.toList with
  | some signature => .ok signature
  | none => .error (.notSignature text)

end ClassSignature

/-- What a method declares in its signature. -/
structure MethodSignature where
  typeParams : List TypeParam
  params : List JType
  returnType : JType
  throws : List JType
  deriving DecidableEq

namespace MethodSignature

/-- The declaration that the signature of a method writes, or nothing if it is none. The
parameters of the method hide those of its class. -/
def read? (id : MethodRef) (classParams : List TypeParam) (s : List Char) :
    Option MethodSignature :=
  let outer := TypeParam.vars classParams
  match Grammar.typeParams (.ofMethod id) outer s with
  | none => none
  | some (typeParams, rest) =>
    let reference := (top (.inScope (outer ++ TypeParam.vars typeParams))).reference
    match (methodTypes reference).read rest with
    | none => none
    | some ((params, returnType), rest) =>
      ((reference.after '^').listToEnd rest).map fun throws =>
        ⟨typeParams, params, returnType, throws⟩

/-- The declaration that the signature of a method writes. -/
def read (id : MethodRef) (classParams : List TypeParam) (text : String) :
    Except Failure MethodSignature :=
  match read? id classParams text.toList with
  | some signature => .ok signature
  | none => .error (.notSignature text)

end MethodSignature

end Unerase
