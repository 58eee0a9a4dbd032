import Unerase.JType.Erasure
import Unerase.JType.Vars
import Unerase.Proofs.ClassFile.Descriptor

/-!
# Descriptors as signatures

The classes and arrays that descriptors write are written in the same way by signatures. So a
descriptor of one of them is also a signature, a signature without arguments and type variables is
also a descriptor, and both are read as the same type (`descriptor_is_signature`). Nothing is nested
deeper in one than it may be in the other, and a method descriptor is a signature that declares no
more than it says itself.
-/

namespace Unerase

namespace Form

/-! ## Plain forms by their texts -/

/-- A class whose text has no `<` has no arguments. -/
theorem Segment.args_eq_nil_of_text {segment : Segment} (h : '<' ∉ segment.text) :
    segment.args = [] := by
  obtain ⟨name, args⟩ := segment
  cases args with
  | nil => rfl
  | cons arg args => exact absurd (by simp [text]) h

variable {env : String → JType}

/-! Arguments cannot be written without `<`, and outside of arguments the variables that are named
are those of the type. -/

mutual

theorem Ref.plain_of_text (r : Ref) (hopen : '<' ∉ r.text)
    (hname : ∀ name ∈ r.names, (env name).vars ≠ []) (hvars : (r.denote env).vars = []) :
    r.Plain := by
  cases r with
  | cls outermost inner =>
    simp only [Ref.text, List.mem_cons, List.mem_append, List.mem_flatMap, not_or, not_exists,
      not_and] at hopen
    obtain ⟨-, ⟨houtermost, hinner⟩, -⟩ := hopen
    rw [Ref.Plain]
    refine ⟨Segment.args_eq_nil_of_text houtermost, fun segment hs => ?_⟩
    exact Segment.args_eq_nil_of_text (hinner segment hs).2
  | array elem =>
    rw [Ref.text, List.mem_cons, not_or] at hopen
    rw [Ref.names] at hname
    rw [Ref.denote, JType.vars] at hvars
    rw [Ref.Plain]
    exact Field.plain_of_text elem hopen.2 hname hvars
  | var name =>
    rw [Ref.denote] at hvars
    exact absurd hvars (hname _ (by simp [Ref.names]))

theorem Field.plain_of_text (f : Field) (hopen : '<' ∉ f.text)
    (hname : ∀ name ∈ f.names, (env name).vars ≠ []) (hvars : (f.denote env).vars = []) :
    f.Plain := by
  cases f with
  | prim p hp => trivial
  | ref r =>
    rw [Field.text] at hopen
    rw [Field.names] at hname
    rw [Field.denote] at hvars
    rw [Field.Plain]
    exact Ref.plain_of_text r hopen hname hvars

end

/-- What stands for a name in a scope is a variable. -/
theorem Resolves.vars_ne_nil {scope : List TypeVar} {names : List String}
    (h : Resolves scope names env) : ∀ name ∈ names, (env name).vars ≠ [] := by
  intro name hname
  obtain ⟨before, v, after, -, -, -, ht⟩ := h name hname
  simp [ht, JType.vars]

/-! ## Erasure -/

/-! A plain form denotes a type that is erased already. -/

mutual

theorem Ref.erasure_denote (r : Ref) (h : r.Plain) :
    (r.denote env).erasure = r.denote env := by
  cases r with
  | cls outermost inner =>
    rw [Ref.Plain] at h
    rw [Ref.denote, JType.erasure, getLastD_of_plain env h]
  | array elem =>
    rw [Ref.Plain] at h
    rw [Ref.denote, JType.erasure, Field.erasure_denote elem h]
  | var name =>
    rw [Ref.Plain] at h
    exact h.elim

theorem Field.erasure_denote (f : Field) (h : f.Plain) :
    (f.denote env).erasure = f.denote env := by
  cases f with
  | prim p hp => rw [Field.denote, JType.erasure]
  | ref r =>
    rw [Field.Plain] at h
    rw [Field.denote, Ref.erasure_denote r h]

end

end Form

open Form Grammar

variable {text : String} {t : JType}

theorem JType.ofSignature_eq_ok_iff {scope : List TypeParam} :
    ofSignature scope text = .ok t ↔ Writes (TypeParam.vars scope) text.toList t := by
  rw [writes_iff, ofSignature]
  split <;> simp [*]

/-- A descriptor that does not begin with a letter of a primitive type is the text of a plain
reference. -/
theorem JType.exists_ref_of_ofDescriptor (env : String → JType)
    (hletter : ∀ c ∈ text.toList.head?, Primitive.ofLetter? c = none)
    (h : ofDescriptor text = .ok t) :
    ∃ r : Ref, r.PlainWithin maxNesting ∧ r.text = text.toList ∧ r.denote env = t := by
  obtain ⟨f, hf, htext, rfl⟩ := (ofDescriptor_eq_ok_iff env).1 h
  cases f with
  | prim p hp =>
    rw [← htext, Field.text] at hletter
    have hnone := hletter p.letter rfl
    rw [Primitive.ofLetter?_eq_some_iff.2 ⟨hp, rfl⟩] at hnone
    cases hnone
  | ref r => exact ⟨r, hf, by rwa [Field.text] at htext, by rw [Field.denote]⟩

/-- What is read as a descriptor is read as the same type as a signature, and there is nothing in
it to be erased. -/
theorem JType.ofSignature_of_ofDescriptor (scope : List TypeParam)
    (hletter : ∀ c ∈ text.toList.head?, Primitive.ofLetter? c = none)
    (h : ofDescriptor text = .ok t) : ofSignature scope text = .ok t ∧ t.erasure = t := by
  obtain ⟨r, hr, htext, rfl⟩ := exists_ref_of_ofDescriptor (fun _ => .object) hletter h
  refine ⟨ofSignature_eq_ok_iff.2 ⟨r, _, htext, hr.2, ?_, rfl⟩, r.erasure_denote hr.1⟩
  rw [r.names_of_plain hr.1]
  exact fun name hname => absurd hname List.not_mem_nil

/-- What is read as a signature is read as the same type as a descriptor if there are no arguments
in the text and no variables in the type. -/
theorem JType.ofDescriptor_of_ofSignature {scope : List TypeParam}
    (h : ofSignature scope text = .ok t) (hopen : '<' ∉ text.toList) (hvars : t.vars = []) :
    ofDescriptor text = .ok t := by
  obtain ⟨r, env, htext, hcost, hresolves, rfl⟩ := ofSignature_eq_ok_iff.1 h
  have hplain : r.Plain := r.plain_of_text (htext ▸ hopen) hresolves.vars_ne_nil hvars
  exact (ofDescriptor_eq_ok_iff env).2
    ⟨.ref r, ⟨hplain, hcost⟩, by rwa [Field.text], by rw [Field.denote]⟩

/-- What is read as the descriptor of a method is read as a signature that declares the same
parameters and result, and nothing else. -/
theorem MethodSignature.read_of_descriptor (id : MethodRef) (classParams : List TypeParam)
    {d : MethodDescriptor} (h : MethodDescriptor.read text = .ok d) :
    read id classParams text = .ok ⟨[], d.params, d.returnType, []⟩ := by
  let bare : Header := ⟨[], by simp⟩
  obtain ⟨params, result, hparams, hresult, htext, hp, hr⟩ :=
    (MethodDescriptor.read_eq_ok_iff (meaningBy (lookup (TypeParam.vars classParams ++
      bare.vars (.ofMethod id))))).1 h
  have hwrites : MethodForm.Writes id classParams text.toList
      ⟨[], d.params, d.returnType, []⟩ := by
    refine MethodForm.writes_iff.2 ⟨⟨bare, params, result, []⟩, ?_, ?_, ⟨?_, ?_⟩, ?_, ?_⟩
    · rw [← htext]
      simp [MethodForm.text, Header.text, bare]
    · simp [Header.refs, bare]
    · exact fun f hf => fits_field.2 ((hparams f hf).imp fun _ => Ref.PlainWithin.fits)
    · exact fits_result.2 (hresult.imp fun _ => Ref.PlainWithin.fits)
    · simp
    · rw [MethodForm.denote, hp, hr]
      rfl
  rw [read, read?_eq_some_iff.2 hwrites]

/-- A descriptor that does not begin with a letter of a primitive type is in every scope a signature
of the same type, which erasure does not change. A signature in whose text there is no `<` is a
descriptor of its type if there are no variables in it. A method descriptor is a signature that
declares its parameters and its result, and neither type parameters nor exceptions. -/
theorem JType.descriptor_is_signature :
    (∀ scope text t, (∀ c ∈ text.toList.head?, Primitive.ofLetter? c = none) →
      ofDescriptor text = .ok t → ofSignature scope text = .ok t ∧ t.erasure = t) ∧
    (∀ scope text t, ofSignature scope text = .ok t → '<' ∉ text.toList → t.vars = [] →
      ofDescriptor text = .ok t) ∧
    ∀ id classParams text d, MethodDescriptor.read text = .ok d →
      MethodSignature.read id classParams text = .ok ⟨[], d.params, d.returnType, []⟩ :=
  ⟨fun scope _ _ hletter h => ofSignature_of_ofDescriptor scope hletter h,
    fun _ _ _ h hopen hvars => ofDescriptor_of_ofSignature h hopen hvars,
    fun id classParams _ _ h => MethodSignature.read_of_descriptor id classParams h⟩

/-- A type variable in scope does not matter to a class of the same name. -/
theorem JType.descriptor_is_signature_entry :
    let scope := TypeParam.declare (.ofClass "C") ["p"]
    let entry : JType := .array (.array (.cls "p$Entry" []))
    ofDescriptor "[[Lp.Entry;" = .ok entry ∧ ofSignature scope "[[Lp.Entry;" = .ok entry ∧
    entry.erasure = entry ∧
    MethodSignature.read ⟨"C", "m", "([[Lp.Entry;J)V"⟩ scope "([[Lp.Entry;J)V" =
      .ok ⟨[], [entry, .prim .long], .prim .void, []⟩ := by
  obtain ⟨hforth, hback, hmethod⟩ := descriptor_is_signature
  intro scope entry
  have hread : ofSignature scope "[[Lp.Entry;" = .ok entry := by decide +kernel
  have hdescriptor := hback scope "[[Lp.Entry;" entry hread (by decide) rfl
  have hletter : ∀ c ∈ "[[Lp.Entry;".toList.head?, Primitive.ofLetter? c = none := by
    simp [Primitive.ofLetter?]
  obtain ⟨hsame, herased⟩ := hforth scope "[[Lp.Entry;" entry hletter hdescriptor
  exact ⟨hdescriptor, hsame, herased,
    hmethod _ scope "([[Lp.Entry;J)V" ⟨[entry, .prim .long], .prim .void⟩ (by decide +kernel)⟩

end Unerase
