import Unerase.Config.Basic

/-!
# The schema of a configuration

What the keys of a configuration mean and which values they admit, and the JSON text in which
this is published.
-/

namespace Unerase.Config

/-! ## Properties -/

/-- What is published of a key. A key with a minimum has counts as values, any other is a
toggle. -/
structure Property where
  key : Key
  description : String
  minimum : Option Nat

/-- The published properties. -/
def properties : List Property :=
  [⟨.classpathAncestors,
      "Collect type variables from ancestors known only through classpath metadata.", none⟩,
    ⟨.maxAncestors,
      "Upper bound on the number of ancestors visited by a single hierarchy walk.", some 1⟩,
    ⟨.maxSubstitutionDepth, "Nesting depth past which substitution stops descending and reports " ++
      "no substitution for the remaining subtree.", some 1⟩]

/-- Whether a property admits a value. -/
def Property.admits (p : Property) : Value → Bool
  | .count n => p.minimum.any (· ≤ n)
  | .toggle _ => p.minimum.isNone

/-- A configuration conforms to the schema when every property admits the value of its key. -/
def conforms (c : Config) : Bool := properties.all fun p => p.admits (c.get p.key)

/-! ## The published text -/

namespace Json

/-- A string as a JSON value. -/
def string (s : String) : String :=
  "\"" ++ String.join (s.toList.map fun c =>
    if c = '"' then "\\\"" else if c = '\\' then "\\\\" else if c = '\n' then "\\n"
    else String.singleton c) ++ "\""

/-- An object with the given members, whose values are JSON texts. -/
def object (members : List (String × String)) : String :=
  "\x7b" ++ String.intercalate "," (members.map fun m => string m.1 ++ ":" ++ m.2) ++ "\x7d"

/-- A truth value as a JSON value. -/
def bool (b : Bool) : String := if b then "true" else "false"

end Json

/-- A default value as a JSON value. -/
def Value.toJson : Value → String
  | .count n => toString n
  | .toggle b => Json.bool b

/-- A property as a JSON value. Minimums are written with one decimal. -/
def Property.toJson (p : Property) : String :=
  let general := [("default", (({} : Config).get p.key).toJson),
    ("description", Json.string p.description)]
  match p.minimum with
  | none => Json.object (general ++ [("type", Json.string "boolean")])
  | some n =>
    Json.object (general ++ [("format", Json.string "uint"), ("minimum", toString n ++ ".0"),
      ("type", Json.string "integer")])

/-- The schema as JSON text, in the language that has the given name. No key is required, and no
other key is admitted. -/
def schema (language : String) : String :=
  Json.object [("$schema", Json.string language),
    ("additionalProperties", Json.bool false),
    ("description", Json.string ("Limits and toggles for generic type resolution.\n\n" ++
      "Usually embedded as a `[generics]` table in the decompiler config; " ++
      "every key is optional.")),
    ("properties", Json.object (properties.map fun p => (p.key.name, p.toJson))),
    ("title", Json.string "GenericsConfig"),
    ("type", Json.string "object")]

end Unerase.Config
