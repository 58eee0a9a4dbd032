import Unerase.ClassFile.Signature

/-!
# Class files

What the index of a classpath records of a class file: raw names and, for a generic class, the
text of its signature. The header of the class is taken wholly from the signature if that can be
read, and wholly from the raw names otherwise.
-/

namespace Unerase

/-- The entries of a class file that tell its place in the hierarchy. -/
structure ClassFile where
  name : String
  accessFlags : UInt16
  superName : Option String
  interfaceNames : List String
  signature : Option String

namespace ClassFile

/-- The access flag that marks an interface. -/
def interfaceFlag : UInt16 := 0x0200

/-- An interface is told by its access flag. -/
def isInterface (file : ClassFile) : Bool := file.accessFlags &&& interfaceFlag != 0

/-- The superclass, which an interface does not have: the one that its class file gives does not
count. -/
def superOf (file : ClassFile) (given : Option JType) : Option JType :=
  if file.isInterface then none else given

/-- The signature of the class, if there is one that can be read. -/
def signature? (file : ClassFile) : Option ClassSignature :=
  file.signature.bind fun text => ClassSignature.read? file.name text.toList

/-- The header of a class with a signature. -/
def genericHeader (file : ClassFile) (signature : ClassSignature) : ClassHeader where
  name := file.name
  isInterface := file.isInterface
  typeParams := signature.typeParams
  superClass := file.superOf (some signature.superClass)
  interfaces := signature.interfaces

/-- The header of a class without signature. -/
def rawHeader (file : ClassFile) : ClassHeader where
  name := file.name
  isInterface := file.isInterface
  typeParams := []
  superClass := file.superOf (file.superName.map (.cls · []))
  interfaces := file.interfaceNames.map (.cls · [])

/-- The header of the class. -/
def header (file : ClassFile) : ClassHeader :=
  match file.signature? with
  | some signature => file.genericHeader signature
  | none => file.rawHeader

theorem name_header (file : ClassFile) : file.header.name = file.name := by
  unfold header
  split <;> rfl

end ClassFile

end Unerase
