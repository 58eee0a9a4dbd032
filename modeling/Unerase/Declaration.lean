import Unerase.JType.Basic

/-!
# Declarations

What a class or a method declares, as far as generic types are concerned. A class header is what
is known of every class; only of a class of the program the methods are known too.
-/

namespace Unerase

/-- A declared type parameter with its bounds. -/
structure TypeParam where
  var : TypeVar
  bounds : List JType
  deriving DecidableEq

namespace TypeParam

/-- Declares parameters on an owner in the given order, each bounded by `java.lang.Object`. Their
indices start again at zero where they run out. -/
def declare (owner : Owner) (names : List String) : List TypeParam :=
  names.mapIdx fun index name => ⟨⟨⟨owner, UInt32.ofNat index⟩, name⟩, [.object]⟩

/-- The parameter used as a type. -/
def asType (param : TypeParam) : JType := .var param.var

/-- The variables of a list of parameters. -/
def vars (params : List TypeParam) : List TypeVar := params.map (·.var)

end TypeParam

/-- A declared method. -/
structure MethodDecl where
  id : MethodRef
  typeParams : List TypeParam
  params : List JType
  returnType : JType
  isStatic : Bool
  deriving DecidableEq

/-- The head of the declaration of a class or an interface. -/
structure ClassHeader where
  name : String
  isInterface : Bool
  typeParams : List TypeParam
  superClass : Option JType
  interfaces : List JType
  deriving DecidableEq

namespace ClassHeader

/-- The direct supertypes: the superclass, then the interfaces in the order of declaration. -/
def supertypes (c : ClassHeader) : List JType := c.superClass.toList ++ c.interfaces

/-- The names of the direct supertypes that are class types. -/
def supertypeNames (c : ClassHeader) : List String := c.supertypes.filterMap JType.className?

/-- The class applied to its own parameters. -/
def selfType (c : ClassHeader) : JType := .cls c.name (c.typeParams.map TypeParam.asType)

end ClassHeader

/-- The declaration of a class with its methods. -/
structure ClassDecl extends ClassHeader where
  methods : List MethodDecl
  deriving DecidableEq

/-- The first method declared under a name. -/
def ClassDecl.method? (c : ClassDecl) (name : String) : Option MethodDecl :=
  c.methods.find? (·.id.name == name)

end Unerase
