import Unerase.JType.Basic
import Unerase.Text.Reader.Basic

/-!
# The grammar of written types

The types of descriptors and of generic signatures. Both write a primitive type as a letter, an
array as `[` before its element and a class as `L`, its name with `/` between the packages, and
`;`. A signature also gives arguments in `<` and `>` and names type variables as `T`, name, `;`;
the classes between which a nested class stands are separated by `.`, and each may have
arguments, of which only those of the innermost are kept.

The next character always tells what is to be read. A reference or an argument list inside of
another is one level deeper, and there are no more than `maxNesting` levels. A `Level` holds the
readers for a given number of levels that are left.
-/

namespace Unerase

/-- The primitive type that a letter stands for, `void` excepted. -/
def Primitive.ofLetter? : Char → Option Primitive
  | 'B' => some .byte
  | 'C' => some .char
  | 'D' => some .double
  | 'F' => some .float
  | 'I' => some .int
  | 'J' => some .long
  | 'S' => some .short
  | 'Z' => some .boolean
  | _ => none

namespace Grammar

open Text

/-- The two ways of writing types. A signature needs to know what its type variables are. -/
inductive Dialect where
  | descriptor
  | signature (resolve : String → Option JType)

/-- The greatest number of levels that references and argument lists may be nested. -/
def maxNesting : Nat := 300

/-- Readers for references and argument lists. -/
structure Level where
  reference : Reader JType
  arguments : Reader (List JType)

/-! ## Class types -/

/-- One class of a nested class name, with its arguments if it has any. -/
abbrev Segment := List Char × Option (List JType)

/-- The binary name of a class that is written as a list of nested classes. -/
def binaryName : List (List Char) → List Char
  | [] => []
  | outer :: inner => outer.map (fun c => if c = '/' then '.' else c) ++ inner.flatMap ('$' :: ·)

/-- The class type that is written as a list of nested classes. -/
def classOfSegments (segments : List Segment) : JType :=
  .cls (String.ofList (binaryName (segments.map (·.1))))
    ((segments.getLast?.bind (·.2)).getD [])

/-- The characters that end one class of a nested class name. -/
def endsSegment (c : Char) : Bool := c == '<' || c == '.' || c == ';'

/-- Reads one class of a nested class name. -/
def segment (arguments : Reader (List JType)) : Reader Segment :=
  (Reader.run endsSegment).andIf '<' arguments

/-- Reads a class type. -/
def classType (arguments : Reader (List JType)) : Reader JType :=
  ((((segment arguments).chain '.' (segment arguments)).before ';').after 'L').map classOfSegments

/-! ## References and arguments -/

/-- Reads a type variable, which has to be known. Descriptors have none. -/
def typeVariable : Dialect → Reader JType
  | .descriptor => .fail
  | .signature resolve =>
    (((Reader.run (· == ';')).before ';').after 'T').filterMap fun name =>
      resolve (String.ofList name)

/-- Reads a primitive type or a reference. -/
def fieldType (reference : Reader JType) : Reader JType :=
  .byFirst fun c =>
    match Primitive.ofLetter? c with
    | some p => .mark c (.prim p)
    | none => reference

/-- Reads a reference in which others are read by the given level. -/
def referenceOver (d : Dialect) (inner : Level) : Reader JType :=
  .byFirst fun
    | 'L' => classType inner.arguments
    | '[' => ((fieldType inner.reference).after '[').map .array
    | _ => typeVariable d

/-- Reads one argument. -/
def argument (reference : Reader JType) : Reader JType :=
  .byFirst fun
    | '*' => .mark '*' .unbounded
    | '+' => (reference.after '+').map (.bounded .upper)
    | '-' => (reference.after '-').map (.bounded .lower)
    | _ => reference

/-- Reads a list of arguments, which has at least one. Descriptors have none. -/
def argumentsOver : Dialect → Level → Reader (List JType)
  | .descriptor, _ => .fail
  | .signature _, inner => (((argument inner.reference).manyTill '>').nonempty).after '<'

/-- The readers when a number of levels are left. -/
def level (d : Dialect) : Nat → Level
  | 0 => ⟨.fail, .fail⟩
  | room + 1 =>
    let inner := level d room
    ⟨referenceOver d inner, argumentsOver d inner⟩

/-- The readers for what is not nested in anything. -/
def top (d : Dialect) : Level := level d maxNesting

/-! ## Methods -/

/-- Reads what a method may return. -/
def returnType (reference : Reader JType) : Reader JType :=
  .byFirst fun
    | 'V' => .mark 'V' (.prim .void)
    | _ => fieldType reference

/-- Reads the parameter types and the return type of a method. -/
def methodTypes (reference : Reader JType) : Reader (List JType × JType) :=
  (((fieldType reference).manyTill ')').after '(').both (returnType reference)

end Grammar

end Unerase
