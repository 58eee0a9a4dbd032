import Unerase.Proofs.ClassFile.Signature
import Unerase.Proofs.ClassTable.Visible

/-!
# Method signatures in their scope

A variable in a signature is written by its name, and the last variable of that name in scope is
meant. For a method the scope is made of the parameters of its class and, behind them, those of the
method itself. All of them are visible in the method, so a signature never mentions a variable
that is not, however deep it is nested (`contains_visibleVars_of_read`).
-/

namespace Unerase

namespace MethodSignature

/-- All types in the signature of a method: the bounds of its type parameters, its parameters, its
result and its exceptions. -/
def types (s : MethodSignature) : List JType :=
  s.typeParams.flatMap (·.bounds) ++ (s.params ++ s.returnType :: s.throws)

/-- The occurrences of variables anywhere in the signature of a method. -/
def vars (s : MethodSignature) : List TypeVar := s.types.flatMap JType.vars

end MethodSignature

namespace Form

/-! ## The variables of what a form denotes -/

section Vars

variable {env : String → JType} {v : TypeVar}

/-! All variables of a denoted type come from the types that its names stand for. -/

mutual

theorem Ref.mem_vars_denote (r : Ref) (h : v ∈ (r.denote env).vars) :
    ∃ name ∈ r.names, v ∈ (env name).vars := by
  cases r with
  | cls outermost inner =>
    rw [Ref.denote, JType.vars, JType.varsArgs_eq_flatMap] at h
    obtain ⟨a, ha, hv⟩ := List.mem_flatMap.1 h
    rw [Ref.names]
    -- the arguments are those of the innermost class, which is the outermost if there is no other
    cases hlast : inner.getLast? with
    | none =>
      obtain rfl : inner = [] := List.getLast?_eq_none_iff.1 hlast
      obtain ⟨name, hname, hv⟩ := Segment.mem_vars_denote outermost ha hv
      exact ⟨name, List.mem_append_left _ hname, hv⟩
    | some segment =>
      have hs : segment ∈ inner := List.mem_of_getLast? hlast
      rw [List.getLastD_eq_getLast?, List.getLast?_map, hlast] at ha
      obtain ⟨name, hname, hv⟩ := Segment.mem_vars_denote segment ha hv
      exact ⟨name, List.mem_append_right _ (List.mem_flatMap.2 ⟨segment, hs, hname⟩), hv⟩
  | array elem =>
    rw [Ref.denote] at h
    rw [Ref.names]
    exact Field.mem_vars_denote elem h
  | var name =>
    rw [Ref.denote] at h
    exact ⟨_, by simp [Ref.names], h⟩

theorem Field.mem_vars_denote (f : Field) (h : v ∈ (f.denote env).vars) :
    ∃ name ∈ f.names, v ∈ (env name).vars := by
  cases f with
  | prim p hp => simp [Field.denote, JType.vars] at h
  | ref r =>
    rw [Field.denote] at h
    rw [Field.names]
    exact Ref.mem_vars_denote r h

theorem Segment.mem_vars_denote (segment : Segment) {a : JType} (ha : a ∈ segment.denote env)
    (h : v ∈ a.vars) : ∃ name ∈ segment.names, v ∈ (env name).vars := by
  cases segment with
  | mk name args =>
    rw [Segment.denote] at ha
    obtain ⟨arg, harg, rfl⟩ := List.mem_map.1 ha
    obtain ⟨name, hname, hv⟩ := Arg.mem_vars_denote arg h
    rw [Segment.names]
    exact ⟨name, List.mem_flatMap.2 ⟨arg, harg, hname⟩, hv⟩

theorem Arg.mem_vars_denote (arg : Arg) (h : v ∈ (arg.denote env).vars) :
    ∃ name ∈ arg.names, v ∈ (env name).vars := by
  cases arg with
  | any => simp [Arg.denote, JType.vars] at h
  | bounded dir bound =>
    rw [Arg.denote, JType.vars] at h
    rw [Arg.names]
    exact Ref.mem_vars_denote bound h
  | exact type =>
    rw [Arg.denote] at h
    rw [Arg.names]
    exact Ref.mem_vars_denote type h

end

theorem Result.mem_vars_denote (result : Result) (h : v ∈ (result.denote env).vars) :
    ∃ name ∈ result.names, v ∈ (env name).vars := by
  cases result with
  | void => simp [Result.denote, JType.vars] at h
  | value type => exact type.mem_vars_denote h

/-- The bounds that a header declares are those that are written in it. -/
theorem Header.exists_of_mem_bounds {owner : Owner} {form : Header} {t : JType}
    (h : t ∈ (form.declare owner env).flatMap (·.bounds)) :
    ∃ r ∈ form.refs, r.denote env = t := by
  obtain ⟨param, hparam, ht⟩ := List.mem_flatMap.1 h
  obtain ⟨i, hi, rfl⟩ := List.mem_mapIdx.1 hparam
  obtain ⟨r, hr, rfl⟩ := List.mem_map.1 ht
  exact ⟨r, List.mem_flatMap.2 ⟨form.params[i], List.getElem_mem hi, hr⟩, rfl⟩

theorem MethodForm.mem_vars_denote {id : MethodRef} (form : MethodForm)
    (h : v ∈ (form.denote id env).vars) : ∃ name ∈ form.names, v ∈ (env name).vars := by
  obtain ⟨t, ht, hv⟩ := List.mem_flatMap.1 h
  simp only [MethodSignature.types, denote, List.mem_append, List.mem_cons] at ht
  simp only [names, List.mem_append]
  rcases ht with hbound | hparam | rfl | hthrown
  · obtain ⟨r, hr, rfl⟩ := Header.exists_of_mem_bounds hbound
    obtain ⟨name, hname, hv⟩ := r.mem_vars_denote hv
    exact ⟨name, .inl (.inl (.inl (List.mem_flatMap.2 ⟨r, hr, hname⟩))), hv⟩
  · obtain ⟨f, hf, rfl⟩ := List.mem_map.1 hparam
    obtain ⟨name, hname, hv⟩ := f.mem_vars_denote hv
    exact ⟨name, .inl (.inl (.inr (List.mem_flatMap.2 ⟨f, hf, hname⟩))), hv⟩
  · obtain ⟨name, hname, hv⟩ := form.result.mem_vars_denote hv
    exact ⟨name, .inl (.inr hname), hv⟩
  · obtain ⟨r, hr, rfl⟩ := List.mem_map.1 hthrown
    obtain ⟨name, hname, hv⟩ := r.mem_vars_denote hv
    exact ⟨name, .inr (List.mem_flatMap.2 ⟨r, hr, hname⟩), hv⟩

end Vars

/-! ## Variables that are not hidden -/

/-- The variable is in scope, and no later one of its name hides it. -/
def Unhidden (scope : List TypeVar) (v : TypeVar) : Prop :=
  ∃ before after, scope = before ++ v :: after ∧ ∀ w ∈ after, w.name ≠ v.name

/-- A name that resolves stands for a variable that is not hidden. -/
theorem Resolves.unhidden {scope : List TypeVar} {names : List String} {env : String → JType}
    {name : String} {v : TypeVar} (h : Resolves scope names env) (hname : name ∈ names)
    (hv : v ∈ (env name).vars) : Unhidden scope v := by
  obtain ⟨before, w, after, hscope, rfl, hafter, ht⟩ := h name hname
  rw [ht] at hv
  obtain rfl : v = w := by simpa [JType.vars] using hv
  exact ⟨before, after, hscope, hafter⟩

theorem Unhidden.mem {scope : List TypeVar} {v : TypeVar} (h : Unhidden scope v) : v ∈ scope := by
  obtain ⟨before, after, rfl, -⟩ := h
  simp

/-- Variables that come later hide all others of their names. -/
theorem Unhidden.mem_of_name_eq {outer own : List TypeVar} {v w : TypeVar}
    (h : Unhidden (outer ++ own) v) (hw : w ∈ own) (hname : w.name = v.name) : v ∈ own := by
  obtain ⟨before, after, hscope, hafter⟩ := h
  rcases List.append_eq_append_iff.1 hscope with ⟨gap, -, hown⟩ | ⟨gap, -, hafter'⟩
  · rw [hown]
    simp
  · -- the variable would stand before all of the own ones, so one of them would hide it
    cases gap with
    | nil =>
      rw [List.nil_append] at hafter'
      rw [← hafter']
      simp
    | cons x gap =>
      obtain ⟨-, rfl⟩ := List.cons.inj hafter'
      exact absurd hname (hafter w (List.mem_append_right _ hw))

end Form

namespace MethodSignature

open Form

variable {id : MethodRef} {classParams : List TypeParam} {s : List Char}
  {signature : MethodSignature} {v : TypeVar}

/-- The variables of a signature are in the scope of the method and are not hidden there. -/
theorem unhidden_of_read? (h : read? id classParams s = some signature) (hv : v ∈ signature.vars) :
    Unhidden (TypeParam.vars classParams ++ TypeParam.vars signature.typeParams) v := by
  obtain ⟨form, env, -, -, hresolves, rfl⟩ := read?_eq_some_iff.1 h
  obtain ⟨name, hname, hv⟩ := form.mem_vars_denote hv
  rw [MethodForm.denote, Header.vars_declare]
  exact hresolves.unhidden hname hv

/-- The type parameters of a signature belong to the method. -/
theorem owner_eq_of_read? (h : read? id classParams s = some signature)
    (hv : v ∈ TypeParam.vars signature.typeParams) : v.owner = .ofMethod id := by
  obtain ⟨form, env, -, -, -, rfl⟩ := read?_eq_some_iff.1 h
  rw [MethodForm.denote, Header.vars_declare] at hv
  obtain ⟨i, hi, rfl⟩ := List.mem_mapIdx.1 hv
  rfl

theorem read?_eq_some_of_read {text : String} (h : read id classParams text = .ok signature) :
    read? id classParams text.toList = some signature := by
  unfold read at h
  split at h
  · rename_i other hother
    cases h
    exact hother
  · cases h

end MethodSignature

namespace ClassTable

/-- All variables in the signature of a method are visible in a method that declares its type
parameters, whatever counts as an ancestor of its class, and a name that the signature declares
itself always means a variable of the method. -/
theorem contains_visibleVars_of_read (classes : ClassTable) (id : MethodRef) (c : KnownClass)
    (hc : classes id.className = some c) (text : String) (signature : MethodSignature)
    (hread : MethodSignature.read id c.typeParams text = .ok signature) (m : MethodDecl)
    (hid : m.id = id) (hparams : ∀ param ∈ signature.typeParams, m.Declares param.var.toVarId)
    (config : Config) :
    ∀ v ∈ signature.vars, (classes.visibleVars config m).contains v.toVarId = true ∧
      ((∃ param ∈ signature.typeParams, param.var.name = v.name) → v.owner = .ofMethod id) := by
  intro v hv
  have hread? := MethodSignature.read?_eq_some_of_read hread
  have hunhidden := MethodSignature.unhidden_of_read? hread? hv
  constructor
  · rw [contains_visibleVars_iff, hid]
    rcases List.mem_append.1 hunhidden.mem with hmem | hmem
    · obtain ⟨param, hparam, rfl⟩ := List.mem_map.1 hmem
      exact .inr (.inl ⟨c, hc, param, hparam, rfl⟩)
    · obtain ⟨param, hparam, rfl⟩ := List.mem_map.1 hmem
      exact .inl (hparams param hparam)
  · intro hname
    obtain ⟨param, hparam, hname⟩ := hname
    exact MethodSignature.owner_eq_of_read? hread?
      (hunhidden.mem_of_name_eq (List.mem_map_of_mem hparam) hname)

/-- A class `Cell<T, U>`. -/
def cellClass : KnownClass where
  name := "Cell"
  isInterface := false
  typeParams := TypeParam.declare (.ofClass "Cell") ["T", "U"]
  superClass := some (.cls "Base" [])
  interfaces := []
  origin := .classpath

/-- The table that knows this class and no other. -/
def cellTable : ClassTable := fun name => if name = "Cell" then some cellClass else none

/-- A method of the class. -/
def cellMethod : MethodRef := ⟨"Cell", "move", "([Ljava/util/List;)Ljava/lang/Object;"⟩

/-- The signature `<T extends U, S extends List<? super T>> T move(S[]) throws T`. The method hides
the first parameter of its class and mentions the second. -/
def cellSignature : MethodSignature where
  typeParams :=
    [⟨⟨⟨.ofMethod cellMethod, 0⟩, "T"⟩, [.var ⟨⟨.ofClass "Cell", 1⟩, "U"⟩]⟩,
      ⟨⟨⟨.ofMethod cellMethod, 1⟩, "S"⟩,
        [.cls "java.util.List" [.bounded .lower (.var ⟨⟨.ofMethod cellMethod, 0⟩, "T"⟩)]]⟩]
  params := [.array (.var ⟨⟨.ofMethod cellMethod, 1⟩, "S"⟩)]
  returnType := .var ⟨⟨.ofMethod cellMethod, 0⟩, "T"⟩
  throws := [.var ⟨⟨.ofMethod cellMethod, 0⟩, "T"⟩]

/-- The declaration of the method. -/
def cellDecl : MethodDecl where
  id := cellMethod
  typeParams := cellSignature.typeParams
  params := cellSignature.params
  returnType := cellSignature.returnType
  isStatic := false

/-- There is no room for ancestors, and the class is known from the classpath, which does not
count. -/
theorem contains_visibleVars_of_read_cell :
    MethodSignature.read cellMethod cellClass.typeParams
        "<T:TU;S::Ljava/util/List<-TT;>;>([TS;)TT;^TT;" = .ok cellSignature ∧
    (cellTable.visibleVars { maxAncestors := 0, classpathAncestors := false } cellDecl).contains
        ⟨.ofClass "Cell", 1⟩ = true ∧
    ∀ v ∈ cellSignature.vars,
      (cellTable.visibleVars { maxAncestors := 0, classpathAncestors := false } cellDecl).contains
          v.toVarId = true ∧
        ((∃ param ∈ cellSignature.typeParams, param.var.name = v.name) →
          v.owner = .ofMethod cellMethod) := by
  have hread : MethodSignature.read cellMethod cellClass.typeParams
      "<T:TU;S::Ljava/util/List<-TT;>;>([TS;)TT;^TT;" = .ok cellSignature := by decide +kernel
  have hvars := contains_visibleVars_of_read cellTable cellMethod cellClass rfl _ cellSignature
    hread cellDecl rfl (fun param hparam => ⟨param, hparam, rfl⟩)
    { maxAncestors := 0, classpathAncestors := false }
  exact ⟨hread, (hvars ⟨⟨.ofClass "Cell", 1⟩, "U"⟩ (by decide)).1, hvars⟩

end ClassTable

end Unerase
