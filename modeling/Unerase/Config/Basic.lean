/-!
# Configuration

The limits under which generic types are resolved, and the keys under which they are set. `get`
and `set?` are the only access by key; a value of the wrong kind is not set.
-/

namespace Unerase

/-- Limits and toggles of resolution. -/
structure Config where
  /-- The number of ancestors that a walk over a hierarchy visits at most. -/
  maxAncestors : Nat := 4096
  /-- The depth below which substitution does not descend. -/
  maxSubstitutionDepth : Nat := 256
  /-- Whether ancestors that are known from the classpath alone count. -/
  classpathAncestors : Bool := true
  deriving DecidableEq

namespace Config

/-- The settings of a configuration. -/
inductive Key where
  | maxAncestors
  | maxSubstitutionDepth
  | classpathAncestors
  deriving DecidableEq

/-- Every key. -/
def Key.all : List Key := [.maxAncestors, .maxSubstitutionDepth, .classpathAncestors]

/-- The written form of a key. -/
def Key.name : Key → String
  | .maxAncestors => "max_ancestors"
  | .maxSubstitutionDepth => "max_substitution_depth"
  | .classpathAncestors => "classpath_ancestors"

/-- The key of a written form. -/
def Key.ofName? (name : String) : Option Key := Key.all.find? (·.name == name)

/-- The value of a setting. -/
inductive Value where
  | count (n : Nat)
  | toggle (b : Bool)
  deriving DecidableEq

/-- The value of a setting in a configuration. -/
def get (c : Config) : Key → Value
  | .maxAncestors => .count c.maxAncestors
  | .maxSubstitutionDepth => .count c.maxSubstitutionDepth
  | .classpathAncestors => .toggle c.classpathAncestors

/-- Changes a setting to a value of its kind. -/
def set? (c : Config) : Key → Value → Option Config
  | .maxAncestors, .count n => some { c with maxAncestors := n }
  | .maxSubstitutionDepth, .count n => some { c with maxSubstitutionDepth := n }
  | .classpathAncestors, .toggle b => some { c with classpathAncestors := b }
  | _, _ => none

end Config

end Unerase
