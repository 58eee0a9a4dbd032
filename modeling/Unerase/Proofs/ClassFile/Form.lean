import Unerase.Declaration

/-!
# Written types

The syntax of the types in a signature as trees, apart from what a reader makes of it. A tree has
its text, the number of levels that it is nested, the type variables that it names and the type
that it denotes when every name stands for a type. The trees are made so that each of them has a
text: words are not empty, and there are no empty lists between `<` and `>`.
-/

namespace Unerase

/-- The letter that writes a primitive type. -/
def Primitive.letter : Primitive → Char
  | .boolean => 'Z'
  | .byte => 'B'
  | .char => 'C'
  | .short => 'S'
  | .int => 'I'
  | .long => 'J'
  | .float => 'F'
  | .double => 'D'
  | .void => 'V'

/-- The sign before a bound in the given direction. -/
def Variance.sign : Variance → Char
  | .upper => '+'
  | .lower => '-'

namespace Form

/-- A name, which is not empty and in which none of the given characters occurs. -/
structure Word (stops : List Char) where
  chars : List Char
  ne_nil : chars ≠ []
  free : ∀ c ∈ chars, c ∉ stops

mutual

/-- A written reference type. A class is written as the list of the classes in which it is
nested, the outermost first, and the class itself. -/
inductive Ref where
  | cls (outermost : Segment) (inner : List Segment)
  | array (elem : Field)
  | var (name : Word [';'])

/-- A written type other than `void`. -/
inductive Field where
  | prim (p : Primitive) (h : p ≠ .void)
  | ref (r : Ref)

/-- One class of a nested class name with its arguments, for which nothing is written if there are
none. -/
inductive Segment where
  | mk (name : Word ['<', '.', ';']) (args : List Arg)

/-- A written type argument. -/
inductive Arg where
  | any
  | bounded (dir : Variance) (bound : Ref)
  | exact (type : Ref)

end

/-- A written class type, which is a reference that begins with `L`. -/
structure ClassRef where
  outermost : Segment
  inner : List Segment

/-- A class type as a reference. -/
def ClassRef.ref (c : ClassRef) : Ref := .cls c.outermost c.inner

/-! ## Texts -/

mutual

/-- The text of a reference. -/
def Ref.text : Ref → List Char
  | .cls outermost inner =>
    'L' :: (outermost.text ++ inner.flatMap (fun segment => '.' :: segment.text) ++ [';'])
  | .array elem => '[' :: elem.text
  | .var name => 'T' :: (name.chars ++ [';'])

/-- The text of a primitive type or a reference. -/
def Field.text : Field → List Char
  | .prim p _ => [p.letter]
  | .ref r => r.text

/-- The text of one class of a nested class name. -/
def Segment.text : Segment → List Char
  | .mk name args =>
    name.chars ++
      if args.isEmpty then [] else '<' :: (args.flatMap (fun arg => arg.text) ++ ['>'])

/-- The text of an argument. -/
def Arg.text : Arg → List Char
  | .any => ['*']
  | .bounded dir bound => dir.sign :: bound.text
  | .exact type => type.text

end

/-! ## Nesting -/

mutual

/-- The number of levels that a reference is nested: a reference and a list of arguments take up
one level each. -/
def Ref.cost : Ref → Nat
  | .cls outermost inner => 1 + (inner.map fun segment => segment.cost).foldr max outermost.cost
  | .array elem => 1 + elem.cost
  | .var _ => 1

/-- The number of levels of a primitive type or a reference. -/
def Field.cost : Field → Nat
  | .prim _ _ => 0
  | .ref r => r.cost

/-- The number of levels that the arguments of a class are nested. -/
def Segment.cost : Segment → Nat
  | .mk _ args => if args.isEmpty then 0 else 1 + (args.map fun arg => arg.cost).foldr max 0

/-- The number of levels of the reference in an argument. -/
def Arg.cost : Arg → Nat
  | .any => 0
  | .bounded _ bound => bound.cost
  | .exact type => type.cost

end

/-! ## Names -/

mutual

/-- The names of type variables in a reference, those in the arguments of outer classes too. -/
def Ref.names : Ref → List String
  | .cls outermost inner => outermost.names ++ inner.flatMap fun segment => segment.names
  | .array elem => elem.names
  | .var name => [String.ofList name.chars]

/-- The names of type variables in a primitive type or a reference. -/
def Field.names : Field → List String
  | .prim _ _ => []
  | .ref r => r.names

/-- The names of type variables in the arguments of a class. -/
def Segment.names : Segment → List String
  | .mk _ args => args.flatMap fun arg => arg.names

/-- The names of type variables in an argument. -/
def Arg.names : Arg → List String
  | .any => []
  | .bounded _ bound => bound.names
  | .exact type => type.names

end

/-! ## Denotations -/

/-- The name of one class of a nested class name. -/
def Segment.name : Segment → List Char
  | .mk name _ => name.chars

/-- The binary name of a class: the packages of the outermost class are separated by `.`, and
each of the inner classes stands behind a `$`. -/
def className (outermost : Segment) (inner : List Segment) : String :=
  String.ofList
    (outermost.name.map (fun c => if c = '/' then '.' else c) ++
      inner.flatMap fun segment => '$' :: segment.name)

mutual

/-- The type that a reference denotes when the names of variables stand for the given types. A
class has the arguments of the innermost class. -/
def Ref.denote (env : String → JType) : Ref → JType
  | .cls outermost inner =>
    .cls (className outermost inner)
      ((inner.map fun segment => segment.denote env).getLastD (outermost.denote env))
  | .array elem => .array (elem.denote env)
  | .var name => env (String.ofList name.chars)

/-- The type that a primitive type or a reference denotes. -/
def Field.denote (env : String → JType) : Field → JType
  | .prim p _ => .prim p
  | .ref r => r.denote env

/-- The types that the arguments of a class denote. -/
def Segment.denote (env : String → JType) : Segment → List JType
  | .mk _ args => args.map fun arg => arg.denote env

/-- The type that an argument denotes. -/
def Arg.denote (env : String → JType) : Arg → JType
  | .any => .unbounded
  | .bounded dir bound => .bounded dir (bound.denote env)
  | .exact type => type.denote env

end

section Congr

variable {env env' : String → JType}

/-! What a form denotes depends on no names but its own. -/

mutual

theorem Ref.denote_congr (r : Ref) (h : ∀ name ∈ r.names, env name = env' name) :
    r.denote env = r.denote env' := by
  cases r with
  | cls outermost inner =>
    rw [Ref.names, List.forall_mem_append] at h
    have hinner : inner.map (Segment.denote env) = inner.map (Segment.denote env') :=
      List.map_congr_left fun segment hs => Segment.denote_congr segment fun name hname =>
        h.2 name (List.mem_flatMap.2 ⟨segment, hs, hname⟩)
    rw [Ref.denote, Ref.denote, hinner, Segment.denote_congr outermost h.1]
  | array elem =>
    rw [Ref.denote, Ref.denote, Field.denote_congr elem (by simpa [Ref.names] using h)]
  | var name => rw [Ref.denote, Ref.denote, h _ (by simp [Ref.names])]

theorem Field.denote_congr (f : Field) (h : ∀ name ∈ f.names, env name = env' name) :
    f.denote env = f.denote env' := by
  cases f with
  | prim p hp => rw [Field.denote, Field.denote]
  | ref r => rw [Field.denote, Field.denote, Ref.denote_congr r (by simpa [Field.names] using h)]

theorem Segment.denote_congr (segment : Segment)
    (h : ∀ name ∈ segment.names, env name = env' name) :
    segment.denote env = segment.denote env' := by
  cases segment with
  | mk name args =>
    rw [Segment.names] at h
    rw [Segment.denote, Segment.denote]
    exact List.map_congr_left fun arg harg => Arg.denote_congr arg fun name hname =>
      h name (List.mem_flatMap.2 ⟨arg, harg, hname⟩)

theorem Arg.denote_congr (arg : Arg) (h : ∀ name ∈ arg.names, env name = env' name) :
    arg.denote env = arg.denote env' := by
  cases arg with
  | any => rw [Arg.denote, Arg.denote]
  | bounded dir bound =>
    rw [Arg.denote, Arg.denote, Ref.denote_congr bound (by simpa [Arg.names] using h)]
  | exact type => rw [Arg.denote, Arg.denote, Ref.denote_congr type (by simpa [Arg.names] using h)]

end

end Congr

/-! ## Scopes -/

/-- What a name stands for in a scope: the last of the variables that are declared under it. -/
def StandsFor (scope : List TypeVar) (name : String) (t : JType) : Prop :=
  ∃ before v after, scope = before ++ v :: after ∧ v.name = name ∧
    (∀ w ∈ after, w.name ≠ name) ∧ t = .var v

/-- Each of the names is in scope and has its meaning there. -/
def Resolves (scope : List TypeVar) (names : List String) (env : String → JType) : Prop :=
  ∀ name ∈ names, StandsFor scope name (env name)

/-- The text writes the type: it is that of a reference that denotes the type, and in which every
named variable is in scope and no more than 300 levels are nested. -/
def Writes (scope : List TypeVar) (s : List Char) (t : JType) : Prop :=
  ∃ (ref : Ref) (env : String → JType), ref.text = s ∧ ref.cost ≤ 300 ∧
    Resolves scope ref.names env ∧ ref.denote env = t

end Form

end Unerase
