import Unerase.ClassTable.View
import Unerase.ClassTable.Visible
import Unerase.Workspace.Classpath
import Unerase.Workspace.Program

/-!
# Workspaces

A program together with its classpath and the configuration under which generic types are
resolved. A class of the program hides one of the same name on the classpath.
-/

namespace Unerase

/-- What generic types are resolved against. -/
structure Workspace where
  program : Program := .empty
  classpath : Classpath := .empty
  config : Config := {}

namespace Workspace

/-- What is known of a class. -/
def classes (w : Workspace) : ClassTable := fun name =>
  match w.program.get? name with
  | some decl => some ⟨decl.toClassHeader, .program⟩
  | none => (w.classpath.get? name).map fun header => ⟨header, .classpath⟩

/-- A type with given bindings put in. -/
def subst (w : Workspace) (type : JType) (b : Bindings) : Outcome :=
  type.subst b w.config.maxSubstitutionDepth

/-- A type that is written inside of a class, as it reads for an instance of the class. -/
def readFor (w : Workspace) (instanceType type : JType) : Outcome :=
  w.classes.readFor instanceType type w.config.maxSubstitutionDepth

/-- The classes above a class. -/
def ancestors (w : Workspace) (name : String) : List KnownClass :=
  w.classes.ancestors w.config name

/-- A class type viewed as a use of a class above its own. -/
def viewAs (w : Workspace) (type : JType) (target : String) : Option JType :=
  w.classes.viewAs w.config type target

/-- The type variables visible inside of a method. -/
def visibleVars (w : Workspace) (method : MethodDecl) : VarSet :=
  w.classes.visibleVars w.config method

/-- The type variables visible inside of each method, worked out once for methods of one
identity. -/
def visibleVarsOfAll (w : Workspace) (methods : List MethodDecl) : List VarSet :=
  (Memo.empty.visibleVarsOfAll w.classes w.config methods).1

end Workspace

end Unerase
