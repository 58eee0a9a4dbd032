import Unerase.ClassTable.Basic
import Unerase.Config.Basic
import Unerase.Search

/-!
# Ancestors

The classes above a class, found by names alone: breadth-first, the superclass before the
interfaces. Classes that are unknown are passed over with all that is above them, and so are
those of the classpath where the configuration does not let them count.
-/

namespace Unerase.ClassTable

/-- The class of a name, if it is known and counts as an ancestor. -/
def admitted? (classes : ClassTable) (config : Config) (name : String) : Option KnownClass :=
  (classes name).filter fun c => config.classpathAncestors || c.origin = .program

/-- The names of the direct supertypes of a class that count as ancestors. -/
def namesAbove (classes : ClassTable) (config : Config) (c : KnownClass) : List String :=
  c.supertypeNames.filter fun name => (classes.admitted? config name).isSome

/-- The names of the ancestors of a class in the order in which they are met. -/
def ancestorNames (classes : ClassTable) (config : Config) (start : KnownClass) : List String :=
  explore (fun name => ((classes name).map (classes.namesAbove config)).getD []) (fun _ => false)
    config.maxAncestors [start.name] (classes.namesAbove config start)

/-- The classes above a class, each once and never the class itself, even if it is its own
supertype. The class itself has to be known, and need not count as an ancestor. -/
def ancestors (classes : ClassTable) (config : Config) (name : String) : List KnownClass :=
  match classes name with
  | none => []
  | some start => (classes.ancestorNames config start).filterMap classes

end Unerase.ClassTable
