import Mathlib.Data.List.Basic
import Unerase.JType.Vars

/-!
# Occurrences of variables and filling them

Where the variables of a type stand, and what becomes of the type when another type is put in the
place of each of them. The root of a type has depth 0; an array element, a wildcard's bound and a
class argument are each one deeper than what they are part of.

`fillAt` is the reference for every kind of substitution: one traversal, in which a type that is
put in is not looked into again and every other node stays what it was.
-/

namespace Unerase

/-- An occurrence of a type variable: how deep it stands, and the variable. -/
structure Occurrence where
  depth : Nat
  var : TypeVar
  deriving DecidableEq

namespace JType

/-! ## Occurrences -/

mutual

/-- The occurrences of variables in a type that itself stands at the given depth. -/
def occurrencesAt : JType → Nat → List Occurrence
  | .prim _, _ => []
  | .cls _ args, depth => occurrencesAtArgs args (depth + 1)
  | .array elem, depth => occurrencesAt elem (depth + 1)
  | .var v, depth => [⟨depth, v⟩]
  | .unbounded, _ => []
  | .bounded _ bound, depth => occurrencesAt bound (depth + 1)

/-- The occurrences of variables in arguments that stand at the given depth. -/
def occurrencesAtArgs : List JType → Nat → List Occurrence
  | [], _ => []
  | a :: as, depth => occurrencesAt a depth ++ occurrencesAtArgs as depth

end

/-- The occurrences of variables in a type, from left to right. -/
def occurrences (t : JType) : List Occurrence := t.occurrencesAt 0

theorem occurrencesAtArgs_eq_flatMap (args : List JType) (depth : Nat) :
    occurrencesAtArgs args depth = args.flatMap (occurrencesAt · depth) := by
  induction args with
  | nil => rfl
  | cons a as ih => simp [occurrencesAtArgs, ih]

@[simp] theorem occurrencesAt_prim (p : Primitive) (depth : Nat) :
    occurrencesAt (.prim p) depth = [] := rfl

@[simp] theorem occurrencesAt_cls (name : String) (args : List JType) (depth : Nat) :
    occurrencesAt (.cls name args) depth = args.flatMap (occurrencesAt · (depth + 1)) :=
  occurrencesAtArgs_eq_flatMap args (depth + 1)

@[simp] theorem occurrencesAt_array (elem : JType) (depth : Nat) :
    occurrencesAt (.array elem) depth = occurrencesAt elem (depth + 1) := rfl

@[simp] theorem occurrencesAt_var (v : TypeVar) (depth : Nat) :
    occurrencesAt (.var v) depth = [⟨depth, v⟩] := rfl

@[simp] theorem occurrencesAt_unbounded (depth : Nat) : occurrencesAt .unbounded depth = [] := rfl

@[simp] theorem occurrencesAt_bounded (dir : Variance) (bound : JType) (depth : Nat) :
    occurrencesAt (.bounded dir bound) depth = occurrencesAt bound (depth + 1) := rfl

/-- The variables of a type are those that occur in it, one by one. -/
theorem map_var_occurrencesAt (t : JType) (depth : Nat) :
    (t.occurrencesAt depth).map (·.var) = t.vars := by
  induction t using inductOn generalizing depth with
  | prim p => rfl
  | cls name args ih =>
    simp only [occurrencesAt_cls, vars, varsArgs_eq_flatMap, List.map_flatMap]
    exact List.flatMap_congr fun a ha => ih a ha (depth + 1)
  | array elem ih => exact ih (depth + 1)
  | var v => rfl
  | unbounded => rfl
  | bounded dir bound ih => exact ih (depth + 1)

theorem mem_vars_iff {t : JType} {v : TypeVar} : v ∈ t.vars ↔ ∃ o ∈ t.occurrences, o.var = v := by
  rw [← map_var_occurrencesAt t 0, List.mem_map]
  rfl

/-- Without variables there are no occurrences of them. -/
theorem occurrencesAt_eq_nil_iff {t : JType} {depth : Nat} :
    t.occurrencesAt depth = [] ↔ t.vars = [] := by
  rw [← map_var_occurrencesAt t depth, List.map_eq_nil_iff]

/-- Nothing in a type stands above the type itself. -/
theorem le_depth_of_mem_occurrencesAt {t : JType} {depth : Nat} {o : Occurrence}
    (h : o ∈ t.occurrencesAt depth) : depth ≤ o.depth := by
  induction t using inductOn generalizing depth with
  | prim p => simp at h
  | cls name args ih =>
    simp only [occurrencesAt_cls, List.mem_flatMap] at h
    obtain ⟨a, ha, ho⟩ := h
    exact Nat.le_of_succ_le (ih a ha ho)
  | array elem ih => exact Nat.le_of_succ_le (ih h)
  | var v =>
    obtain rfl : o = ⟨depth, v⟩ := by simpa using h
    exact Nat.le_refl depth
  | unbounded => simp at h
  | bounded dir bound ih => exact Nat.le_of_succ_le (ih h)

/-- Moving a type down moves all of its occurrences down. -/
theorem occurrencesAt_add (t : JType) (depth more : Nat) :
    t.occurrencesAt (depth + more) =
      (t.occurrencesAt depth).map fun o => ⟨o.depth + more, o.var⟩ := by
  induction t using inductOn generalizing depth with
  | prim p => rfl
  | cls name args ih =>
    simp only [occurrencesAt_cls, List.map_flatMap]
    refine List.flatMap_congr fun a ha => ?_
    rw [show depth + more + 1 = depth + 1 + more by omega]
    exact ih a ha (depth + 1)
  | array elem ih =>
    rw [occurrencesAt_array, show depth + more + 1 = depth + 1 + more by omega]
    exact ih (depth + 1)
  | var v => rfl
  | unbounded => rfl
  | bounded dir bound ih =>
    rw [occurrencesAt_bounded, show depth + more + 1 = depth + 1 + more by omega]
    exact ih (depth + 1)

/-! ## Nesting depth -/

mutual

/-- The depth of the deepest node of a type. -/
def depth : JType → Nat
  | .prim _ => 0
  | .cls _ args => depthArgs args
  | .array elem => depth elem + 1
  | .var _ => 0
  | .unbounded => 0
  | .bounded _ bound => depth bound + 1

/-- The depth of the deepest node among the arguments of a class. -/
def depthArgs : List JType → Nat
  | [] => 0
  | a :: as => max (depth a + 1) (depthArgs as)

end

theorem depth_lt_depthArgs {a : JType} {args : List JType} (h : a ∈ args) :
    depth a < depthArgs args := by
  induction args with
  | nil => cases h
  | cons b rest ih =>
    rw [depthArgs]
    rcases List.mem_cons.1 h with rfl | h
    · omega
    · have := ih h
      omega

/-- No variable stands deeper than the deepest node. -/
theorem depth_le_of_mem_occurrencesAt {t : JType} {depth : Nat} {o : Occurrence}
    (h : o ∈ t.occurrencesAt depth) : o.depth ≤ depth + t.depth := by
  induction t using inductOn generalizing depth with
  | prim p => simp at h
  | cls name args ih =>
    simp only [occurrencesAt_cls, List.mem_flatMap] at h
    obtain ⟨a, ha, ho⟩ := h
    have hdeep := depth_lt_depthArgs ha
    have := ih a ha ho
    rw [JType.depth]
    omega
  | array elem ih =>
    have := ih h
    rw [JType.depth]
    omega
  | var v =>
    obtain rfl : o = ⟨depth, v⟩ := by simpa using h
    exact Nat.le_add_right ..
  | unbounded => simp at h
  | bounded dir bound ih =>
    have := ih h
    rw [JType.depth]
    omega

theorem depth_le_of_mem_occurrences {t : JType} {o : Occurrence} (h : o ∈ t.occurrences) :
    o.depth ≤ t.depth := by
  have := depth_le_of_mem_occurrencesAt h
  omega

/-! ## Filling -/

mutual

/-- Puts another type in the place of every variable of a type that itself stands at the given
depth. What is put in may depend on the depth of the occurrence. -/
def fillAt (f : Nat → TypeVar → JType) : JType → Nat → JType
  | .prim p, _ => .prim p
  | .cls name args, depth => .cls name (fillAtArgs f args (depth + 1))
  | .array elem, depth => .array (fillAt f elem (depth + 1))
  | .var v, depth => f depth v
  | .unbounded, _ => .unbounded
  | .bounded dir bound, depth => .bounded dir (fillAt f bound (depth + 1))

/-- Puts another type in the place of every variable of arguments that stand at the given
depth. -/
def fillAtArgs (f : Nat → TypeVar → JType) : List JType → Nat → List JType
  | [], _ => []
  | a :: as, depth => fillAt f a depth :: fillAtArgs f as depth

end

/-- Puts a type in the place of every variable, however deep it stands. -/
def fill (f : TypeVar → JType) (t : JType) : JType := t.fillAt (fun _ => f) 0

variable {f g : Nat → TypeVar → JType}

theorem fillAtArgs_eq_map (args : List JType) (depth : Nat) :
    fillAtArgs f args depth = args.map (fillAt f · depth) := by
  induction args with
  | nil => rfl
  | cons a as ih => simp [fillAtArgs, ih]

@[simp] theorem fillAt_prim (p : Primitive) (depth : Nat) :
    fillAt f (.prim p) depth = .prim p := rfl

@[simp] theorem fillAt_cls (name : String) (args : List JType) (depth : Nat) :
    fillAt f (.cls name args) depth = .cls name (args.map (fillAt f · (depth + 1))) := by
  rw [← fillAtArgs_eq_map]
  rfl

@[simp] theorem fillAt_array (elem : JType) (depth : Nat) :
    fillAt f (.array elem) depth = .array (fillAt f elem (depth + 1)) := rfl

@[simp] theorem fillAt_var (v : TypeVar) (depth : Nat) : fillAt f (.var v) depth = f depth v := rfl

@[simp] theorem fillAt_unbounded (depth : Nat) : fillAt f .unbounded depth = .unbounded := rfl

@[simp] theorem fillAt_bounded (dir : Variance) (bound : JType) (depth : Nat) :
    fillAt f (.bounded dir bound) depth = .bounded dir (fillAt f bound (depth + 1)) := rfl

/-- Only what is put in for the variables that occur matters. -/
theorem fillAt_congr {t : JType} {depth : Nat}
    (h : ∀ o ∈ t.occurrencesAt depth, f o.depth o.var = g o.depth o.var) :
    t.fillAt f depth = t.fillAt g depth := by
  induction t using inductOn generalizing depth with
  | prim p => rfl
  | cls name args ih =>
    simp only [fillAt_cls, JType.cls.injEq, true_and]
    refine List.map_congr_left fun a ha => ih a ha fun o ho => h o ?_
    rw [occurrencesAt_cls, List.mem_flatMap]
    exact ⟨a, ha, ho⟩
  | array elem ih => rw [fillAt_array, fillAt_array, ih h]
  | var v => exact h ⟨depth, v⟩ (by simp)
  | unbounded => rfl
  | bounded dir bound ih => rw [fillAt_bounded, fillAt_bounded, ih h]

/-- A type in which every variable stands for itself stays as it is. -/
theorem fillAt_eq_self {t : JType} {depth : Nat}
    (h : ∀ o ∈ t.occurrencesAt depth, f o.depth o.var = .var o.var) : t.fillAt f depth = t := by
  induction t using inductOn generalizing depth with
  | prim p => rfl
  | cls name args ih =>
    simp only [fillAt_cls, JType.cls.injEq, true_and]
    refine (List.map_congr_left fun a ha => ih a ha fun o ho => h o ?_).trans (List.map_id' args)
    rw [occurrencesAt_cls, List.mem_flatMap]
    exact ⟨a, ha, ho⟩
  | array elem ih => rw [fillAt_array, ih h]
  | var v => exact h ⟨depth, v⟩ (by simp)
  | unbounded => rfl
  | bounded dir bound ih => rw [fillAt_bounded, ih h]

/-- Filling regardless of depth may start at any depth. -/
theorem fillAt_const (f : TypeVar → JType) (t : JType) (depth : Nat) :
    t.fillAt (fun _ => f) depth = t.fill f := by
  induction t using inductOn generalizing depth with
  | prim p => rfl
  | cls name args ih =>
    simp only [fill, fillAt_cls, JType.cls.injEq, true_and]
    refine List.map_congr_left fun a ha => ?_
    rw [ih a ha, ih a ha]
  | array elem ih => rw [fill, fillAt_array, fillAt_array, ih, ih]
  | var v => rfl
  | unbounded => rfl
  | bounded dir bound ih => rw [fill, fillAt_bounded, fillAt_bounded, ih, ih]

@[simp] theorem fill_cls (f : TypeVar → JType) (name : String) (args : List JType) :
    fill f (.cls name args) = .cls name (args.map (fill f)) := by
  rw [fill, fillAt_cls]
  simp only [fillAt_const]

@[simp] theorem fill_array (f : TypeVar → JType) (elem : JType) :
    fill f (.array elem) = .array (fill f elem) := by
  rw [fill, fillAt_array, fillAt_const]

@[simp] theorem fill_bounded (f : TypeVar → JType) (dir : Variance) (bound : JType) :
    fill f (.bounded dir bound) = .bounded dir (fill f bound) := by
  rw [fill, fillAt_bounded, fillAt_const]

/-- Filling what was filled before is filling once with what was put in filled itself. -/
theorem fill_fillAt (g : TypeVar → JType) (t : JType) (depth : Nat) :
    (t.fillAt f depth).fill g = t.fillAt (fun d v => (f d v).fill g) depth := by
  induction t using inductOn generalizing depth with
  | prim p => rfl
  | cls name args ih =>
    simp only [fillAt_cls, fill_cls, List.map_map, JType.cls.injEq, true_and]
    exact List.map_congr_left fun a ha => ih a ha (depth + 1)
  | array elem ih => rw [fillAt_array, fill_array, fillAt_array, ih]
  | var v => rfl
  | unbounded => rfl
  | bounded dir bound ih => rw [fillAt_bounded, fill_bounded, fillAt_bounded, ih]

theorem fill_fill (f g : TypeVar → JType) (t : JType) :
    (t.fill f).fill g = t.fill fun v => (f v).fill g := fill_fillAt g t 0

/-- The variables of a filled type are those of the types that were put in. -/
theorem mem_vars_fillAt {t : JType} {depth : Nat} {w : TypeVar} :
    w ∈ (t.fillAt f depth).vars ↔ ∃ o ∈ t.occurrencesAt depth, w ∈ (f o.depth o.var).vars := by
  induction t using inductOn generalizing depth with
  | prim p => simp [vars]
  | cls name args ih =>
    simp only [fillAt_cls, vars, varsArgs_eq_flatMap, occurrencesAt_cls, List.mem_flatMap,
      List.mem_map]
    constructor
    · intro h
      obtain ⟨_, ⟨a, ha, rfl⟩, hw⟩ := h
      obtain ⟨o, ho, hw⟩ := (ih a ha).1 hw
      exact ⟨o, ⟨a, ha, ho⟩, hw⟩
    · intro h
      obtain ⟨o, ⟨a, ha, ho⟩, hw⟩ := h
      exact ⟨_, ⟨a, ha, rfl⟩, (ih a ha).2 ⟨o, ho, hw⟩⟩
  | array elem ih => exact ih
  | var v => simp
  | unbounded => simp [vars]
  | bounded dir bound ih => exact ih

end JType

end Unerase
