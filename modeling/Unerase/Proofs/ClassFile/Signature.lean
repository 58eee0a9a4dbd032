import Unerase.Proofs.ClassFile.Header

/-!
# Written signatures

The signatures of classes and methods as trees. A class signature is a header, a superclass and
interfaces; a method signature is a header, parameters, a result and exceptions. What is read of a
text is what its tree declares, and a text without a tree is rejected (`signatures_exact`).
-/

namespace Unerase

namespace Form

/-- A written class signature. -/
structure ClassForm where
  header : Header
  superClass : ClassRef
  interfaces : List ClassRef

namespace ClassForm

/-- The text of a class signature. -/
def text (form : ClassForm) : List Char :=
  form.header.text ++ form.superClass.ref.text ++ form.interfaces.flatMap fun c => c.ref.text

/-- All type variables that are named in a class signature. -/
def names (form : ClassForm) : List String :=
  form.header.refs.flatMap Ref.names ++
    (form.superClass :: form.interfaces).flatMap fun c => c.ref.names

/-- The bounds are nested no more than 300 levels. Supertypes may have one more, because no level
is counted for the supertype itself. -/
def Shallow (form : ClassForm) : Prop :=
  (∀ r ∈ form.header.refs, r.cost ≤ 300) ∧
    ∀ c ∈ form.superClass :: form.interfaces, c.ref.cost ≤ 301

/-- What a class with the signature declares. -/
def denote (owner : String) (env : String → JType) (form : ClassForm) : ClassSignature where
  typeParams := form.header.declare (.ofClass owner) env
  superClass := form.superClass.ref.denote env
  interfaces := form.interfaces.map fun c => c.ref.denote env

/-- The text is a class signature that declares this, with its own parameters in scope. -/
def Writes (owner : String) (s : List Char) (signature : ClassSignature) : Prop :=
  ∃ (form : ClassForm) (env : String → JType), form.text = s ∧ form.Shallow ∧
    Resolves (form.header.vars (.ofClass owner)) form.names env ∧
    form.denote owner env = signature

end ClassForm

/-- The written result of a method. -/
inductive Result where
  | void
  | value (type : Field)

/-- The text of a result. -/
def Result.text : Result → List Char
  | .void => ['V']
  | .value type => type.text

/-- The number of levels that a result is nested. -/
def Result.cost : Result → Nat
  | .void => 0
  | .value type => type.cost

/-- The names of type variables in a result. -/
def Result.names : Result → List String
  | .void => []
  | .value type => type.names

/-- The type that a result denotes. -/
def Result.denote (env : String → JType) : Result → JType
  | .void => .prim .void
  | .value type => type.denote env

/-- Nothing is asked of `void`, and of another result what is asked of a reference. -/
def Result.Of (ok : Ref → Prop) : Result → Prop
  | .void => True
  | .value type => type.Of ok

theorem Result.Of.imp {ok ok' : Ref → Prop} {result : Result} (h : result.Of ok)
    (himp : ∀ r, ok r → ok' r) : result.Of ok' := by
  cases result with
  | void => trivial
  | value type => exact Field.Of.imp h himp

theorem fits_result {known : String → Prop} {room : Nat} {result : Result} :
    Fits known room result.cost result.names ↔
      result.Of fun r => Fits known room r.cost r.names := by
  cases result with
  | void => simp [Result.Of, Fits, Result.cost, Result.names]
  | value type => exact fits_field

/-- A written method signature. -/
structure MethodForm where
  header : Header
  params : List Field
  result : Result
  throws : List Ref

namespace MethodForm

/-- The text of a method signature. -/
def text (form : MethodForm) : List Char :=
  form.header.text ++ '(' :: (form.params.flatMap Field.text ++ [')']) ++ form.result.text ++
    form.throws.flatMap fun r => '^' :: r.text

/-- All type variables that are named in a method signature. -/
def names (form : MethodForm) : List String :=
  form.header.refs.flatMap Ref.names ++ form.params.flatMap Field.names ++ form.result.names ++
    form.throws.flatMap Ref.names

/-- No more than 300 levels are nested. -/
def Shallow (form : MethodForm) : Prop :=
  (∀ r ∈ form.header.refs, r.cost ≤ 300) ∧ (∀ f ∈ form.params, f.cost ≤ 300) ∧
    form.result.cost ≤ 300 ∧ ∀ r ∈ form.throws, r.cost ≤ 300

/-- What a method with the signature declares. -/
def denote (id : MethodRef) (env : String → JType) (form : MethodForm) : MethodSignature where
  typeParams := form.header.declare (.ofMethod id) env
  params := form.params.map (Field.denote env)
  returnType := form.result.denote env
  throws := form.throws.map (Ref.denote env)

/-- The text is a method signature that declares this, with the parameters of the class and behind
them those of the method in scope. -/
def Writes (id : MethodRef) (classParams : List TypeParam) (s : List Char)
    (signature : MethodSignature) : Prop :=
  ∃ (form : MethodForm) (env : String → JType), form.text = s ∧ form.Shallow ∧
    Resolves (TypeParam.vars classParams ++ form.header.vars (.ofMethod id)) form.names env ∧
    form.denote id env = signature

end MethodForm

/-! ## What a form denotes depends on no names but its own -/

variable {env env' : String → JType}

theorem Header.declare_congr (owner : Owner) (h : Header)
    (heq : ∀ name ∈ h.refs.flatMap Ref.names, env name = env' name) :
    h.declare owner env = h.declare owner env' := by
  have hbounds : ∀ p ∈ h.params,
      p.bounds.refs.map (Ref.denote env) = p.bounds.refs.map (Ref.denote env') := fun p hp =>
    List.map_congr_left fun r hr => r.denote_congr fun name hname =>
      heq name (List.mem_flatMap.2 ⟨r, List.mem_flatMap.2 ⟨p, hp, hr⟩, hname⟩)
  refine List.ext_getElem (by simp [declare]) fun i hi hi' => ?_
  simp only [declare, List.getElem_mapIdx, TypeParam.mk.injEq, true_and]
  exact hbounds _ (List.getElem_mem _)

theorem ClassForm.denote_congr (owner : String) (form : ClassForm)
    (heq : ∀ name ∈ form.names, env name = env' name) :
    form.denote owner env = form.denote owner env' := by
  rw [names, List.forall_mem_append] at heq
  have hclass : ∀ c ∈ form.superClass :: form.interfaces,
      c.ref.denote env = c.ref.denote env' := fun c hc =>
    c.ref.denote_congr fun name hname => heq.2 name (List.mem_flatMap.2 ⟨c, hc, hname⟩)
  rw [List.forall_mem_cons] at hclass
  rw [denote, denote, form.header.declare_congr _ heq.1, hclass.1, List.map_congr_left hclass.2]

theorem MethodForm.denote_congr (id : MethodRef) (form : MethodForm)
    (heq : ∀ name ∈ form.names, env name = env' name) :
    form.denote id env = form.denote id env' := by
  simp only [names, List.forall_mem_append] at heq
  obtain ⟨⟨⟨hheader, hparams⟩, hresult⟩, hthrows⟩ := heq
  have hparam : ∀ f ∈ form.params, f.denote env = f.denote env' := fun f hf =>
    f.denote_congr fun name hname => hparams name (List.mem_flatMap.2 ⟨f, hf, hname⟩)
  have hthrow : ∀ r ∈ form.throws, r.denote env = r.denote env' := fun r hr =>
    r.denote_congr fun name hname => hthrows name (List.mem_flatMap.2 ⟨r, hr, hname⟩)
  have hvalue : form.result.denote env = form.result.denote env' := by
    cases hr : form.result with
    | void => rfl
    | value type => exact type.denote_congr fun name hname => hresult name (by rwa [hr])
  rw [denote, denote, form.header.declare_congr _ hheader, List.map_congr_left hparam, hvalue,
    List.map_congr_left hthrow]

end Form

/-! ## Reading -/

namespace Grammar

open Text Text.Reader Form

variable {resolve : String → Option JType} {room : Nat} {reference : Reader JType}

/-- A result is read as the letter of `void` or as a type, which never begins with it. -/
theorem reads_returnType_of {ok : Ref → Prop} {env : String → JType}
    (h : reference.Reads anything ok Ref.text (Ref.denote env)) :
    (returnType reference).Reads anything (Result.Of ok) Result.text (Result.denote env) := by
  have hfield := reads_fieldType_of h
  refine reads_byFirst (fun c t a r hread => ?_) fun result hresult => ?_
  · split at hread
    · obtain ⟨hs, rfl⟩ := read_mark_eq_some_iff.1 hread
      exact ⟨.void, trivial, hs, rfl⟩
    · obtain ⟨type, htype, hs, rfl⟩ := (hfield _ a r trivial).1 hread
      exact ⟨.value type, htype, hs, rfl⟩
  · cases result with
    | void => exact ⟨'V', [], rfl, fun r => read_mark_eq_some_iff.2 ⟨rfl, rfl⟩⟩
    | value type =>
      obtain ⟨c, w, htext, -, hc⟩ := type.text_eq_cons
      refine ⟨c, w, htext, fun r => ?_⟩
      have hread := hfield.read_text (r := r) hresult trivial
      rw [htext] at hread
      split
      · exact absurd rfl hc
      · exact hread

/-- The parameters and the result of a method are read one by one. -/
theorem reads_methodTypes_of {ok : Ref → Prop} {env : String → JType}
    (h : reference.Reads anything ok Ref.text (Ref.denote env)) :
    (methodTypes reference).Reads anything
      (fun z : List Field × Result => (∀ f ∈ z.1, f.Of ok) ∧ z.2.Of ok)
      (fun z => '(' :: (z.1.flatMap Field.text ++ [')']) ++ z.2.text)
      fun z => (z.1.map (Field.denote env), z.2.denote env) := by
  have hparams := (reads_fieldType_of h).manyTill ')' (fun _ _ _ => trivial) fun _ => trivial
  refine ((hparams.after '(').both (reads_returnType_of h) fun _ _ _ _ => trivial).of_iff
    fun z => ?_
  constructor
  · intro hz
    refine ⟨fun f hf => ⟨hz.1 f hf, ?_⟩, hz.2⟩
    obtain ⟨c, w, htext, hc, -⟩ := f.text_eq_cons
    simpa [htext] using hc
  · intro hz
    exact ⟨fun f hf => (hz.1 f hf).1, hz.2⟩

theorem reads_methodTypes (h : ReadsRefs resolve room reference) :
    (methodTypes reference).Reads anything
      (fun z : List Field × Result => (∀ f ∈ z.1, Fits (knownTo resolve) room f.cost f.names) ∧
        Fits (knownTo resolve) room z.2.cost z.2.names)
      (fun z => '(' :: (z.1.flatMap Field.text ++ [')']) ++ z.2.text)
      fun z => (z.1.map (Field.denote (meaningBy resolve)), z.2.denote (meaningBy resolve)) :=
  (reads_methodTypes_of h).of_iff fun _ =>
    and_congr (forall₂_congr fun _ _ => fits_field) fits_result

end Grammar

namespace Form

open Grammar

/-- A text writes what a form declares that fits where its parameters are in scope. -/
theorem ClassForm.writes_iff {owner : String} {s : List Char} {signature : ClassSignature} :
    Writes owner s signature ↔ ∃ form : ClassForm, form.text = s ∧
      let resolve := lookup (form.header.vars (.ofClass owner))
      (∀ q ∈ form.header.refs, Fits (knownTo resolve) 300 q.cost q.names) ∧
        (∀ c ∈ form.superClass :: form.interfaces,
          Fits (knownTo resolve) 301 c.ref.cost c.ref.names) ∧
        form.denote owner (meaningBy resolve) = signature := by
  refine exists_congr fun form => ?_
  let known := knownTo (lookup (form.header.vars (.ofClass owner)))
  have hsupers : (∀ c ∈ form.superClass :: form.interfaces,
      Fits known 301 c.ref.cost c.ref.names) ↔ _ := forall_fits_iff
  simp only [exists_and_left]
  rw [exists_resolves_iff fun _ _ => form.denote_congr owner, names, List.forall_mem_append,
    Shallow, hsupers, forall_fits_iff]
  grind only

/-- So does a text that writes the declaration of a method. -/
theorem MethodForm.writes_iff {id : MethodRef} {classParams : List TypeParam} {s : List Char}
    {signature : MethodSignature} :
    Writes id classParams s signature ↔ ∃ form : MethodForm, form.text = s ∧
      let resolve := lookup (TypeParam.vars classParams ++ form.header.vars (.ofMethod id))
      (∀ q ∈ form.header.refs, Fits (knownTo resolve) 300 q.cost q.names) ∧
        ((∀ f ∈ form.params, Fits (knownTo resolve) 300 f.cost f.names) ∧
          Fits (knownTo resolve) 300 form.result.cost form.result.names) ∧
        (∀ q ∈ form.throws, Fits (knownTo resolve) 300 q.cost q.names) ∧
        form.denote id (meaningBy resolve) = signature := by
  refine exists_congr fun form => ?_
  simp only [exists_and_left]
  rw [exists_resolves_iff fun _ _ => form.denote_congr id]
  simp only [names, List.forall_mem_append, Shallow, forall_fits_iff]
  rw [Fits]
  grind only

end Form

namespace ClassSignature

open Grammar Text.Reader Form

/-- Supertypes are read one by one, without counting a level for the supertype itself. -/
theorem supertypes_eq_some_iff {scope : List TypeVar} {s : List Char}
    {supers : JType × List JType} :
    supertypes (top (.inScope scope)).arguments s = some supers ↔
      ∃ (superClass : ClassRef) (interfaces : List ClassRef),
        (∀ c ∈ superClass :: interfaces,
          Fits (knownTo (lookup scope)) (maxNesting + 1) c.ref.cost c.ref.names) ∧
        s = superClass.ref.text ++ interfaces.flatMap (fun c => c.ref.text) ∧
        (superClass.ref.denote (meaningBy (lookup scope)),
          interfaces.map fun c => c.ref.denote (meaningBy (lookup scope))) = supers := by
  have hclass : (classType (top (.inScope scope)).arguments).Reads _ _ _ _ :=
    reads_classType (reads_level (lookup scope) maxNesting).2
  constructor
  · intro h
    unfold supertypes at h
    split at h
    · cases h
    · rename_i superType rest hread
      obtain ⟨types, hrest, rfl⟩ := Option.map_eq_some_iff.1 h
      obtain ⟨superClass, hfit, rfl, rfl⟩ := (hclass s superType rest trivial).1 hread
      obtain ⟨interfaces, hfits, rfl, rfl⟩ := hclass.listToEnd_eq_some_iff.1 hrest
      exact ⟨superClass, interfaces, List.forall_mem_cons.2 ⟨hfit, hfits⟩, rfl, rfl⟩
  · intro h
    obtain ⟨superClass, interfaces, hfits, rfl, rfl⟩ := h
    obtain ⟨hfit, hfits⟩ := List.forall_mem_cons.1 hfits
    unfold supertypes
    rw [hclass.read_text hfit trivial]
    exact Option.map_eq_some_iff.2
      ⟨_, hclass.listToEnd_eq_some_iff.2 ⟨interfaces, hfits, rfl, rfl⟩, rfl⟩

/-- A class signature is read exactly if it is one. -/
theorem read?_eq_some_iff {owner : String} {s : List Char} {signature : ClassSignature} :
    read? owner s = some signature ↔ ClassForm.Writes owner s signature := by
  rw [ClassForm.writes_iff]
  constructor
  · intro h
    unfold read? at h
    split at h
    · cases h
    rename_i params rest hparams
    obtain ⟨supers, hsupers, rfl⟩ := Option.map_eq_some_iff.1 h
    obtain ⟨header, -, rfl, hrefs, rfl⟩ := typeParams_eq_some_iff.1 hparams
    rw [List.nil_append] at hrefs
    rw [header.vars_declare] at hsupers
    obtain ⟨superClass, interfaces, hfits, rfl, rfl⟩ := supertypes_eq_some_iff.1 hsupers
    exact ⟨⟨header, superClass, interfaces⟩, by simp [ClassForm.text], hrefs, hfits, rfl⟩
  · intro h
    obtain ⟨form, rfl, hrefs, hfits, rfl⟩ := h
    -- a superclass cannot be taken for a header that is not there
    have hopen : (form.superClass.ref.text ++
        form.interfaces.flatMap fun c => c.ref.text).head? ≠ some '<' := by
      rw [ClassRef.ref, Ref.text]
      simp
    have hparams := typeParams_eq_some_iff.2
      ⟨form.header, fun _ => hopen, rfl, by rwa [List.nil_append], rfl⟩
    have hsupers := supertypes_eq_some_iff.2
      ⟨form.superClass, form.interfaces, hfits, rfl, rfl⟩
    unfold read?
    rw [ClassForm.text, List.append_assoc, hparams]
    dsimp only
    rw [form.header.vars_declare, hsupers]
    rfl

end ClassSignature

namespace MethodSignature

open Grammar Text.Reader Form

/-- A method signature is read exactly if it is one. -/
theorem read?_eq_some_iff {id : MethodRef} {classParams : List TypeParam} {s : List Char}
    {signature : MethodSignature} :
    read? id classParams s = some signature ↔ MethodForm.Writes id classParams s signature := by
  rw [MethodForm.writes_iff]
  have htypes : ∀ scope, (methodTypes (top (.inScope scope)).reference).Reads _ _ _ _ :=
    fun scope => reads_methodTypes (readsRefs_top scope)
  have hthrows : ∀ scope, ((top (.inScope scope)).reference.after '^').Reads _ _ _ _ :=
    fun scope => Reads.after (readsRefs_top scope) '^'
  constructor
  · intro h
    unfold read? at h
    dsimp only at h
    split at h
    · cases h
    rename_i params rest hparams
    split at h
    · cases h
    rename_i types result rest' hread
    obtain ⟨throws, hrest, rfl⟩ := Option.map_eq_some_iff.1 h
    obtain ⟨header, -, rfl, hrefs, rfl⟩ := typeParams_eq_some_iff.1 hparams
    rw [header.vars_declare] at hread hrest
    obtain ⟨⟨paramForms, resultForm⟩, hfits, rfl, hvalue⟩ := (htypes _ _ _ _ trivial).1 hread
    obtain ⟨throwForms, hthrown, rfl, rfl⟩ := (hthrows _).listToEnd_eq_some_iff.1 hrest
    cases hvalue
    exact ⟨⟨header, paramForms, resultForm, throwForms⟩, by simp [MethodForm.text], hrefs, hfits,
      hthrown, rfl⟩
  · intro h
    obtain ⟨form, rfl, hrefs, hfits, hthrown, rfl⟩ := h
    have htext : form.text = form.header.text ++
        ('(' :: (form.params.flatMap Field.text ++ [')']) ++ form.result.text ++
          form.throws.flatMap fun q => '^' :: q.text) := by simp [MethodForm.text]
    -- the parenthesis cannot be taken for a header that is not there
    have hparams := typeParams_eq_some_iff.2 ⟨form.header, fun _ => by simp, htext, hrefs, rfl⟩
    have hrest := (hthrows _).listToEnd_eq_some_iff.2 ⟨form.throws, hthrown, rfl, rfl⟩
    unfold read?
    dsimp only
    rw [hparams]
    dsimp only
    rw [form.header.vars_declare,
      (htypes _).read_text (x := (form.params, form.result)) hfits trivial]
    exact Option.map_eq_some_iff.2 ⟨_, hrest, rfl⟩

end MethodSignature

/-- Class and method signatures are read exactly as what they write, and a text that writes no
signature is rejected as a whole. The indices of the parameters that a header declares are their
positions, as numbers of 32 bits. -/
theorem Form.signatures_exact :
    (∀ owner text,
      (∀ signature, ClassSignature.read owner text = .ok signature ↔
        ClassForm.Writes owner text.toList signature) ∧
      (ClassSignature.read owner text = .error (.notSignature text) ↔
        ¬ ∃ signature, ClassForm.Writes owner text.toList signature)) ∧
    (∀ id classParams text,
      (∀ signature, MethodSignature.read id classParams text = .ok signature ↔
        MethodForm.Writes id classParams text.toList signature) ∧
      (MethodSignature.read id classParams text = .error (.notSignature text) ↔
        ¬ ∃ signature, MethodForm.Writes id classParams text.toList signature)) ∧
    ∀ (header : Header) owner env, (header.declare owner env).map (·.var.index.toNat) =
      (List.range header.params.length).map (· % UInt32.size) := by
  simp only [← ClassSignature.read?_eq_some_iff, ← MethodSignature.read?_eq_some_iff]
  refine ⟨fun owner text => ?_, fun id classParams text => ?_, fun header owner env => ?_⟩
  · rw [ClassSignature.read]
    cases ClassSignature.read? owner text.toList <;> simp
  · rw [MethodSignature.read]
    cases MethodSignature.read? id classParams text.toList <;> simp
  · exact header.map_index_declare owner env

example : (ClassSignature.read "C" "<A:TB;B::TA;:TB;>LD<TA;>;").toOption.map (·.typeParams) =
    some [⟨⟨⟨.ofClass "C", 0⟩, "A"⟩, [.var ⟨⟨.ofClass "C", 1⟩, "B"⟩]⟩,
      ⟨⟨⟨.ofClass "C", 1⟩, "B"⟩,
        [.var ⟨⟨.ofClass "C", 0⟩, "A"⟩, .var ⟨⟨.ofClass "C", 1⟩, "B"⟩]⟩] := by decide +kernel

end Unerase
