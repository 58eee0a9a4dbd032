import Unerase.ClassFile.Descriptor
import Unerase.Proofs.ClassFile.MethodScope
import Unerase.Proofs.ClassFile.Scope
import Unerase.Proofs.JType.Substitution

/-!
# Nesting and substitution

The readers bound the nesting of references and argument lists, and substitution bounds its way
down from the root of a type. The two do not count alike. Each argument of a class costs the
readers two levels, one of them for the list that it is in, and substitution only one, or two below
a wildcard. The supertypes of a class cost the readers no level of their own, and the variables in
them may stand one deeper than in other types. Still no variable stands deeper than there are levels
to be nested, so a substitution with that limit misses none (`nesting_bounds_subst`).
-/

namespace Unerase

/-- No variable of the type stands below the given depth. -/
def JType.Shallow (limit : Nat) (t : JType) : Prop := ∀ o ∈ t.occurrences, o.depth ≤ limit

namespace JType.MentionsOnly

variable {scope : List TypeVar} {room : Nat} {t : JType}

theorem shallow (h : t.MentionsOnly scope (room + 1)) : t.Shallow room := fun o ho =>
  Nat.le_of_lt_succ (h o ho).1

theorem shallow_of_lt (h : t.MentionsOnly scope room) : t.Shallow room :=
  (h.mono (Nat.le_succ room)).shallow

end JType.MentionsOnly

/-! ## What the readers return -/

namespace MethodDescriptor

/-- All types in the descriptor of a method: its parameters and its result. -/
def types (d : MethodDescriptor) : List JType := d.params ++ [d.returnType]

end MethodDescriptor

namespace ClassSignature

/-- All types in the signature of a class: the bounds of its type parameters, its superclass and its
interfaces. -/
def types (s : ClassSignature) : List JType :=
  s.typeParams.flatMap (·.bounds) ++ s.superClass :: s.interfaces

theorem read?_eq_some_of_read {owner text : String} {signature : ClassSignature}
    (h : read owner text = .ok signature) : read? owner text.toList = some signature := by
  unfold read at h
  split at h
  · rename_i other hother
    cases h
    exact hother
  · cases h

end ClassSignature

/-- The type is returned by one of the readers of descriptors and signatures, alone or as a part of
what is returned. -/
inductive JType.Parsed : JType → Prop
  | fieldDescriptor {text t} : JType.ofDescriptor text = .ok t → Parsed t
  | methodDescriptor {text d t} : MethodDescriptor.read text = .ok d → t ∈ d.types → Parsed t
  | fieldSignature {scope text t} : JType.ofSignature scope text = .ok t → Parsed t
  | classSignature {owner text s t} :
    ClassSignature.read owner text = .ok s → t ∈ s.types → Parsed t
  | methodSignature {id classParams text s t} :
    MethodSignature.read id classParams text = .ok s → t ∈ s.types → Parsed t

namespace Grammar

open Text Text.Reader JType

variable {P : JType → Prop} {reference : Reader JType} {scope : List TypeVar} {room : Nat}

theorem yields_bounds (h : reference.Yields P) :
    (bounds reference).Yields fun ts => ∀ t ∈ ts, P t := by
  refine Yields.chain (yields_byFirst fun c => ?_) h ':'
  split
  · exact h.after ':'
  · exact h

theorem yields_header (h : reference.Yields P) :
    (header reference).Yields fun params => ∀ param ∈ params, ∀ t ∈ param.2, P t :=
  ((((yields_true.both (yields_bounds h)).imp fun _ => And.right).manyTill '>').nonempty).after '<'

theorem yields_returnType (h : reference.Yields (MentionsOnly scope room)) :
    (returnType reference).Yields (MentionsOnly scope room) := by
  refine yields_byFirst fun c => ?_
  split
  · exact yields_mark (.of_vars rfl)
  · exact yields_fieldType h

theorem yields_methodTypes (h : reference.Yields (MentionsOnly scope room)) :
    (methodTypes reference).Yields fun types =>
      (∀ t ∈ types.1, t.MentionsOnly scope room) ∧ types.2.MentionsOnly scope room :=
  (((yields_fieldType h).manyTill ')').after '(').both (yields_returnType h)

/-- In the bounds that a header declares the variables stand no deeper than the levels. -/
theorem shallow_of_typeParams {owner : Owner} {s rest : List Char} {params : List TypeParam}
    (h : typeParams owner scope s = some (params, rest)) :
    ∀ t ∈ params.flatMap (·.bounds), t.Shallow maxNesting := by
  unfold typeParams at h
  split at h
  · split at h
    · cases h
    · rename_i named _ _
      dsimp only at h
      split at h
      · cases h
      · rename_i bounded rest hread
        cases h
        have hbounded := yields_header (yields_top_inScope _).1 s bounded rest hread
        intro t ht
        obtain ⟨param, hparam, ht⟩ := List.mem_flatMap.1 ht
        rw [← List.map_uncurry_zip_eq_zipWith, List.mem_map] at hparam
        obtain ⟨⟨var, read⟩, hzip, rfl⟩ := hparam
        exact (hbounded read (List.of_mem_zip hzip).2 t ht).shallow_of_lt
  · cases h
    simp

end Grammar

/-! ## How deep they are -/

section Shallow

open Grammar JType

theorem JType.shallow_of_ofDescriptor {text : String} {t : JType}
    (h : JType.ofDescriptor text = .ok t) : t.Shallow maxNesting := by
  unfold ofDescriptor at h
  split at h
  · rename_i hread
    cases h
    exact ((yields_fieldType yields_top_descriptor).of_all hread).shallow_of_lt
  · cases h

theorem MethodDescriptor.shallow_of_read {text : String} {d : MethodDescriptor}
    (h : MethodDescriptor.read text = .ok d) : ∀ t ∈ d.types, t.Shallow maxNesting := by
  unfold MethodDescriptor.read at h
  split at h
  · rename_i hread
    cases h
    obtain ⟨hparams, hreturn⟩ := (yields_methodTypes yields_top_descriptor).of_all hread
    refine List.forall_mem_append.2 ⟨fun t ht => (hparams t ht).shallow_of_lt, ?_⟩
    exact List.forall_mem_singleton.2 hreturn.shallow_of_lt
  · cases h

theorem JType.shallow_of_ofSignature {scope : List TypeParam} {text : String} {t : JType}
    (h : JType.ofSignature scope text = .ok t) : t.Shallow maxNesting := by
  unfold ofSignature at h
  split at h
  · rename_i hread
    cases h
    exact ((yields_top_inScope _).1.of_all hread).shallow_of_lt
  · cases h

theorem ClassSignature.shallow_of_read? {owner : String} {s : List Char}
    {signature : ClassSignature} (h : ClassSignature.read? owner s = some signature) :
    ∀ t ∈ signature.types, t.Shallow maxNesting := by
  have hsupers := mentionsOnly_of_read? h
  refine List.forall_mem_append.2 ⟨?_, fun t ht => (hsupers t ht).shallow⟩
  unfold ClassSignature.read? at h
  split at h
  · cases h
  · rename_i hparams
    obtain ⟨supers, -, rfl⟩ := Option.map_eq_some_iff.1 h
    exact shallow_of_typeParams hparams

theorem MethodSignature.shallow_of_read? {id : MethodRef} {classParams : List TypeParam}
    {s : List Char} {signature : MethodSignature}
    (h : MethodSignature.read? id classParams s = some signature) :
    ∀ t ∈ signature.types, t.Shallow maxNesting := by
  unfold MethodSignature.read? at h
  dsimp only at h
  split at h
  · cases h
  · rename_i typeParams rest hheader
    have href := (yields_top_inScope (TypeParam.vars classParams ++ TypeParam.vars typeParams)).1
    split at h
    · cases h
    · rename_i hread
      obtain ⟨throws, hthrows, rfl⟩ := Option.map_eq_some_iff.1 h
      obtain ⟨hparams, hreturn⟩ := yields_methodTypes href _ _ _ hread
      have hthrown := (href.after '^').of_listToEnd hthrows
      refine List.forall_mem_append.2 ⟨shallow_of_typeParams hheader, List.forall_mem_append.2
        ⟨fun t ht => (hparams t ht).shallow_of_lt, List.forall_mem_cons.2
          ⟨hreturn.shallow_of_lt, fun t ht => (hthrown t ht).shallow_of_lt⟩⟩⟩

theorem JType.Parsed.shallow {t : JType} (h : t.Parsed) : t.Shallow maxNesting := by
  cases h with
  | fieldDescriptor hread => exact shallow_of_ofDescriptor hread
  | methodDescriptor hread ht => exact MethodDescriptor.shallow_of_read hread _ ht
  | fieldSignature hread => exact shallow_of_ofSignature hread
  | classSignature hread ht =>
    exact ClassSignature.shallow_of_read? (ClassSignature.read?_eq_some_of_read hread) _ ht
  | methodSignature hread ht =>
    exact MethodSignature.shallow_of_read? (MethodSignature.read?_eq_some_of_read hread) _ ht

end Shallow

namespace JType

/-- No variable of a type that was read stands deeper than references and arguments may be nested.
So a substitution that goes that deep, or deeper, does the same as one without a limit. -/
theorem nesting_bounds_subst (t : JType) (h : t.Parsed) :
    (∀ o ∈ t.occurrences, o.depth ≤ Grammar.maxNesting) ∧
      ∀ b limit, Grammar.maxNesting ≤ limit → t.subst b limit = t.substAll b :=
  ⟨h.shallow, fun _ _ hlimit =>
    subst_of_forall_le fun o ho => Nat.le_trans (h.shallow o ho) hlimit⟩

/-- The text of `class Deep<T> extends Cell<? extends T[]>`, in which the array has not one but 298
dimensions. -/
def deepText : List Char :=
  "<T:Ljava/lang/Object;>LCell<+".toList ++ List.replicate 298 '[' ++ "TT;>;".toList

/-- The type parameter of the class. -/
def deepVar : TypeVar := ⟨⟨.ofClass "Deep", 0⟩, "T"⟩

/-- An array type of the given number of dimensions. -/
def arrayOf (elem : JType) : Nat → JType
  | 0 => elem
  | dims + 1 => .array (arrayOf elem dims)

/-- The superclass of the class with a type in the place of its parameter. -/
def deepSuper (arg : JType) : JType := .cls "Cell" [.bounded .upper (arrayOf arg 298)]

/-- The parameter of the class stands as deep as it can. A substitution that goes one step less deep
misses it. -/
theorem nesting_bounds_subst_deepest :
    (deepSuper (.var deepVar)).Parsed ∧
    (deepSuper (.var deepVar)).occurrences = [⟨300, deepVar⟩] ∧
    (∀ o ∈ (deepSuper (.var deepVar)).occurrences, o.depth ≤ Grammar.maxNesting) ∧
    (∀ b limit, Grammar.maxNesting ≤ limit →
      (deepSuper (.var deepVar)).subst b limit = (deepSuper (.var deepVar)).substAll b) ∧
    (deepSuper (.var deepVar)).substAll (.ofList [(deepVar, .object)]) =
      .replaced (deepSuper .object) ∧
    (deepSuper (.var deepVar)).subst (.ofList [(deepVar, .object)]) 299 = .unchanged := by
  have hread? : ClassSignature.read? "Deep" deepText =
      some ⟨TypeParam.declare (.ofClass "Deep") ["T"], deepSuper (.var deepVar), []⟩ := by
    decide +kernel
  have hread : ClassSignature.read "Deep" (String.ofList deepText) =
      .ok ⟨TypeParam.declare (.ofClass "Deep") ["T"], deepSuper (.var deepVar), []⟩ := by
    rw [ClassSignature.read, String.toList_ofList, hread?]
  have hparsed : (deepSuper (.var deepVar)).Parsed :=
    .classSignature hread (List.mem_append_right _ List.mem_cons_self)
  have hbounds := nesting_bounds_subst (deepSuper (.var deepVar)) hparsed
  exact ⟨hparsed, by decide +kernel, hbounds.1, hbounds.2, by decide +kernel, by decide +kernel⟩

end JType

end Unerase
