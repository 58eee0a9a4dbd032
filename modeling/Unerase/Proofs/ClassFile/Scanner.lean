import Unerase.ClassFile.Descriptor
import Unerase.ClassFile.Signature
import Unerase.Proofs.Text.Scanner

/-!
# Scanners of descriptors and signatures

The grammar of written types as scanners, production by production. References and lists of
arguments are nested calls, of which `maxNesting` may be active at a time; how often they call each
other is not limited otherwise, except by the clock. A header of type parameters is scanned, and
then scanned again from its start.
-/

namespace Unerase.Scan

open Grammar

/-- Scanners for references and lists of arguments. -/
structure Calls where
  reference : Scanner JType
  arguments : Scanner (List JType)

/-! ## Types -/

/-- Scans a primitive type or a reference. -/
def fieldType (reference : Scanner JType) : Scanner JType := part do
  match (← peek).bind Primitive.ofLetter? with
  | some p =>
    advance
    pure (.prim p)
  | none => reference

section

variable (clock : Nat)

/-- Scans one class of a nested class name, with its arguments if it has any. -/
def segment (arguments : Scanner (List JType)) : Scanner Segment := do
  let chars ← name clock endsSegment
  if (← peek) = some '<' then
    let args ← arguments
    pure (chars, some args)
  else
    pure (chars, none)

/-- One turn of the loop over the classes of a nested class name. -/
def segmentTurn (arguments : Scanner (List JType)) (segments : List Segment) :
    Scanner (List Segment ⊕ List Segment) := do
  let last ← segment clock arguments
  if ← eat '.' then
    pure (.inl (segments ++ [last]))
  else
    expect ';'
    pure (.inr (segments ++ [last]))

/-- Scans a class type. -/
def classType (arguments : Scanner (List JType)) : Scanner JType := part do
  expect 'L'
  let segments ← loop (segmentTurn clock arguments) clock []
  pure (classOfSegments segments)

/-- Scans a type variable, which has to be known. Descriptors have none. -/
def typeVariable : Dialect → Scanner JType
  | .descriptor => reject
  | .signature resolve => part do
    expect 'T'
    let chars ← name clock (· == ';')
    expect ';'
    match resolve (String.ofList chars) with
    | some type => pure type
    | none => reject

/-- Scans a reference that begins with the given byte, and in which others are scanned by the given
calls. -/
def referenceBy (d : Dialect) (inner : Calls) : Option Char → Scanner JType
  | some 'L' => classType clock inner.arguments
  | some '[' => do
    advance
    let elem ← fieldType inner.reference
    pure (.array elem)
  | some 'T' => typeVariable clock d
  | _ => reject

/-- Scans a reference. -/
def referenceOver (d : Dialect) (inner : Calls) : Scanner JType := do
  referenceBy clock d inner (← peek)

/-- Scans an argument that begins with the given byte. -/
def argumentBy (reference : Scanner JType) : Option Char → Scanner JType
  | some '*' => do
    advance
    pure .unbounded
  | some '+' => do
    advance
    let bound ← reference
    pure (.bounded .upper bound)
  | some '-' => do
    advance
    let bound ← reference
    pure (.bounded .lower bound)
  | some _ => reference
  | none => reject

/-- Scans one argument. -/
def argument (reference : Scanner JType) : Scanner JType := do
  argumentBy reference (← peek)

/-- Scans a list of arguments. -/
def argumentsOver (inner : Calls) : Scanner (List JType) :=
  enclosed clock '<' '>' (argument inner.reference)

/-- The nested calls, as far as a number of calls goes. A descriptor has no arguments. -/
def calls (d : Dialect) : Nat → Calls
  | 0 => ⟨hang, hang⟩
  | count + 1 =>
    let inner := calls d count
    { reference := part (nested maxNesting (referenceOver clock d inner))
      arguments :=
        match d with
        | .descriptor => reject
        | .signature _ => part (nested maxNesting (argumentsOver clock inner)) }

/-- The calls that are not nested in anything. -/
def topCalls (d : Dialect) : Calls := calls clock d clock

/-! ## Headers -/

/-- Scans the bound of a type parameter by a class, if it is there. -/
def classBound (reference : Scanner JType) : Scanner (List JType) := do
  if (← peek) = some ':' then
    pure []
  else
    let bound ← reference
    pure [bound]

/-- Scans the bounds of a type parameter. Without any, it is bounded by `java.lang.Object`. -/
def bounds (reference : Scanner JType) : Scanner (List JType) := do
  let first ← classBound reference
  let all ← listAfter clock ':' reference first
  if all.isEmpty then pure [.object] else pure all

/-- Scans a type parameter. -/
def typeParam (reference : Scanner JType) : Scanner (List Char × List JType) := part do
  let chars ← name clock (· == ':')
  expect ':'
  let all ← bounds clock reference
  pure (chars, all)

/-- Scans a header of type parameters. -/
def header (reference : Scanner JType) : Scanner (List (List Char × List JType)) :=
  part (enclosed clock '<' '>' (typeParam clock reference))

/-- Scans the header in front of a signature, if there is one: once for the names, and from its
start again for the bounds. -/
def typeParams (owner : Owner) (scope : List TypeVar) : Scanner (List TypeParam) := part do
  if (← peek) = some '<' then
    let start ← position
    let named ← header clock (topCalls clock .anyVariable).reference
    let vars := declared owner (named.map (·.1))
    rewind start
    let bounded ← header clock (topCalls clock (.inScope (scope ++ vars))).reference
    pure (vars.zipWith (fun var param => ⟨var, param.2⟩) bounded)
  else
    pure []

/-! ## Methods -/

/-- Scans a parameter type of a method. -/
def paramType (reference : Scanner JType) : Scanner JType := do
  if ← atEnd then reject else fieldType reference

/-- Scans what a method may return. -/
def returnType (reference : Scanner JType) : Scanner JType := do
  if ← eat 'V' then pure (.prim .void) else fieldType reference

/-- Scans the parameter types and the return type of a method. -/
def methodTypes (reference : Scanner JType) : Scanner (List JType × JType) := part do
  expect '('
  let params ← listTill clock ')' (paramType reference)
  let result ← returnType reference
  pure (params, result)

/-! ## Whole texts -/

/-- Scans a field descriptor. -/
def fieldDescriptor : Scanner JType := do
  let type ← fieldType (topCalls clock .descriptor).reference
  expectEnd
  pure type

/-- Scans a method descriptor. -/
def methodDescriptor : Scanner MethodDescriptor := do
  let types ← methodTypes clock (topCalls clock .descriptor).reference
  expectEnd
  pure ⟨types.1, types.2⟩

/-- Scans a field signature. -/
def fieldSignature (scope : List TypeParam) : Scanner JType := do
  let type ← (topCalls clock (.inScope (TypeParam.vars scope))).reference
  expectEnd
  pure type

/-- Scans a class signature. -/
def classSignature (owner : String) : Scanner ClassSignature := do
  let params ← typeParams clock (.ofClass owner) []
  let supertype := classType clock (topCalls clock (.inScope (TypeParam.vars params))).arguments
  let superClass ← supertype
  let interfaces ← listToEnd clock supertype
  pure ⟨params, superClass, interfaces⟩

/-- Scans a method signature. -/
def methodSignature (id : MethodRef) (classParams : List TypeParam) : Scanner MethodSignature := do
  let outer := TypeParam.vars classParams
  let params ← typeParams clock (.ofMethod id) outer
  let reference := (topCalls clock (.inScope (outer ++ TypeParam.vars params))).reference
  let types ← methodTypes clock reference
  let throws ← listAfter clock '^' reference []
  expectEnd
  pure ⟨params, types.1, types.2, throws⟩

end

end Unerase.Scan
