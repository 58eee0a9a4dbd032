import Unerase.Declaration

/-!
# Class tables

A class table says what is known of a class. It is a mere function of the name: there may be
infinitely many classes, and their hierarchy may be cyclic.
-/

namespace Unerase

/-- Where a class is known from. -/
inductive Origin where
  /-- The class is part of the program. -/
  | program
  /-- The class is known from the classpath alone. -/
  | classpath
  deriving DecidableEq

/-- A known class. -/
structure KnownClass extends ClassHeader where
  origin : Origin
  deriving DecidableEq

/-- The known classes by name. -/
abbrev ClassTable := String → Option KnownClass

namespace ClassTable

/-- The type parameters of a class, none if it is unknown. -/
def paramsOf (classes : ClassTable) (name : String) : List TypeParam :=
  ((classes name).map fun c => c.typeParams).getD []

/-- The type parameters of the class that a type names, none if it names no class. -/
def paramsOfType (classes : ClassTable) (type : JType) : List TypeParam :=
  (type.className?.map classes.paramsOf).getD []

end ClassTable

end Unerase
