import Unerase.ClassFile.Basic
import Unerase.Proofs.ClassTable.Closed
import Unerase.Proofs.Text.Reader

/-!
# Variables in signatures

What the types that a signature writes may mention. A variable is read only if it is in scope, and
in the scope of a class signature are the parameters that it declares. A reference or a list of
arguments takes up one level of nesting and adds at most one to the depth of what is in it, so the
bound on the levels bounds the depth of the variables. Whatever a class file holds, the class that
it declares is closed up to that depth (`closedTo_header`).
-/

namespace Unerase

/-! ## What a type mentions -/

/-- The type mentions variables of the scope only, and only above the given depth. -/
def JType.MentionsOnly (scope : List TypeVar) (room : Nat) (t : JType) : Prop :=
  ∀ o ∈ t.occurrences, o.depth < room ∧ o.var ∈ scope

namespace JType.MentionsOnly

variable {scope : List TypeVar} {room : Nat} {t : JType}

theorem mono {more : Nat} (h : t.MentionsOnly scope room) (hle : room ≤ more) :
    t.MentionsOnly scope more := fun o ho => ⟨Nat.lt_of_lt_of_le (h o ho).1 hle, (h o ho).2⟩

theorem var {v : TypeVar} (h : v ∈ scope) : (JType.var v).MentionsOnly scope (room + 1) := by
  intro o ho
  obtain rfl : o = ⟨0, v⟩ := by simpa [occurrences] using ho
  exact ⟨Nat.succ_pos room, h⟩

/-- A part of a type is one deeper than the type. -/
theorem part (h : t.MentionsOnly scope room) {o : Occurrence} (ho : o ∈ t.occurrencesAt 1) :
    o.depth < room + 1 ∧ o.var ∈ scope := by
  rw [occurrencesAt_add t 0 1, List.mem_map] at ho
  obtain ⟨o, ho, rfl⟩ := ho
  exact ⟨Nat.succ_lt_succ (h o ho).1, (h o ho).2⟩

theorem array (h : t.MentionsOnly scope room) : (JType.array t).MentionsOnly scope (room + 1) :=
  fun _ ho => h.part ho

theorem bounded (h : t.MentionsOnly scope room) (dir : Variance) :
    (JType.bounded dir t).MentionsOnly scope (room + 1) := fun _ ho => h.part ho

theorem cls {args : List JType} (h : ∀ a ∈ args, a.MentionsOnly scope room) (name : String) :
    (JType.cls name args).MentionsOnly scope (room + 1) := by
  intro o ho
  rw [occurrences, occurrencesAt_cls] at ho
  obtain ⟨a, ha, ho⟩ := List.mem_flatMap.1 ho
  exact (h a ha).part ho

/-- Where there are no variables, none is mentioned. -/
theorem of_vars (h : t.vars = []) : t.MentionsOnly scope room := by
  intro o ho
  rw [occurrences, occurrencesAt_eq_nil_iff.2 h] at ho
  cases ho

end JType.MentionsOnly

/-! ## What the grammar reads -/

namespace Grammar

open Text Text.Reader JType

variable {d : Dialect} {scope : List TypeVar} {room : Nat}

theorem yields_typeVariable :
    (typeVariable (.inScope scope)).Yields (MentionsOnly scope (room + 1)) := by
  refine yields_true.filterMap fun name t _ ht => ?_
  obtain ⟨v, hv, rfl⟩ := Option.map_eq_some_iff.1 ht
  exact .var (List.mem_reverse.1 (List.mem_of_find?_eq_some hv))

theorem yields_fieldType {reference : Reader JType}
    (h : reference.Yields (MentionsOnly scope room)) :
    (fieldType reference).Yields (MentionsOnly scope room) := by
  refine yields_byFirst fun c => ?_
  split
  · exact yields_mark (.of_vars rfl)
  · exact h

/-- An argument may be one deeper than a reference, by a wildcard around it. -/
theorem yields_argument {reference : Reader JType}
    (h : reference.Yields (MentionsOnly scope room)) :
    (argument reference).Yields (MentionsOnly scope (room + 1)) := by
  refine yields_byFirst fun c => ?_
  split
  · exact yields_mark (.of_vars rfl)
  · exact (h.after '+').map fun t ht => ht.bounded .upper
  · exact (h.after '-').map fun t ht => ht.bounded .lower
  · exact h.imp fun t ht => ht.mono (Nat.le_succ room)

/-- A class type keeps arguments that were read for its innermost class. -/
theorem yields_classType {arguments : Reader (List JType)}
    (h : arguments.Yields fun args => ∀ a ∈ args, a.MentionsOnly scope room) :
    (classType arguments).Yields (MentionsOnly scope (room + 1)) := by
  have hsegment := yields_andIf (p := Reader.run endsSegment) '<' h
  refine (((hsegment.chain hsegment '.').before ';').after 'L').map fun segments hall => ?_
  refine .cls (fun a ha => ?_) _
  -- the arguments of the outer classes are dropped
  cases hlast : segments.getLast? with
  | none => simp [hlast] at ha
  | some last =>
    cases hargs : last.2 with
    | none => simp [hlast, hargs] at ha
    | some args =>
      have ha : a ∈ args := by simpa [hlast, hargs] using ha
      exact hall last (List.mem_of_getLast? hlast) args hargs a ha

theorem yields_referenceOver {inner : Level}
    (hvar : (typeVariable d).Yields (MentionsOnly scope (room + 1)))
    (href : inner.reference.Yields (MentionsOnly scope room))
    (hargs : inner.arguments.Yields fun args => ∀ a ∈ args, a.MentionsOnly scope room) :
    (referenceOver d inner).Yields (MentionsOnly scope (room + 1)) := by
  refine yields_byFirst fun c => ?_
  split
  · exact yields_classType hargs
  · exact ((yields_fieldType href).after '[').map fun t ht => ht.array
  · exact hvar

theorem yields_argumentsOver (d : Dialect) {inner : Level}
    (href : inner.reference.Yields (MentionsOnly scope room)) :
    (argumentsOver d inner).Yields fun args => ∀ a ∈ args, a.MentionsOnly scope (room + 1) := by
  cases d with
  | descriptor => exact yields_fail
  | signature => exact (((yields_argument href).manyTill '>').nonempty).after '<'

/-- With some levels left, only variables in scope are read, and less deep than the levels. -/
theorem yields_level (hvar : ∀ room, (typeVariable d).Yields (MentionsOnly scope (room + 1)))
    (room : Nat) :
    (level d room).reference.Yields (MentionsOnly scope room) ∧
      (level d room).arguments.Yields fun args => ∀ a ∈ args, a.MentionsOnly scope room := by
  induction room with
  | zero => exact ⟨yields_fail, yields_fail⟩
  | succ room ih =>
    exact ⟨yields_referenceOver (hvar room) ih.1 ih.2, yields_argumentsOver d ih.1⟩

theorem yields_top_inScope (scope : List TypeVar) :
    (top (.inScope scope)).reference.Yields (MentionsOnly scope maxNesting) ∧
      (top (.inScope scope)).arguments.Yields
        fun args => ∀ a ∈ args, a.MentionsOnly scope maxNesting :=
  yields_level (fun _ => yields_typeVariable) maxNesting

/-- A descriptor has no variables. -/
theorem yields_top_descriptor :
    (top .descriptor).reference.Yields (MentionsOnly [] maxNesting) :=
  (yields_level (d := .descriptor) (fun _ => yields_fail) maxNesting).1

end Grammar

/-! ## What a class declares -/

namespace ClassSignature

theorem mentionsOnly_of_supertypes {scope : List TypeVar} {s : List Char}
    {supers : JType × List JType}
    (h : supertypes (Grammar.top (.inScope scope)).arguments s = some supers) :
    ∀ t ∈ supers.1 :: supers.2, t.MentionsOnly scope (Grammar.maxNesting + 1) := by
  have hclass := Grammar.yields_classType (Grammar.yields_top_inScope scope).2
  unfold supertypes at h
  split at h
  · cases h
  · rename_i superClass rest hread
    obtain ⟨interfaces, hrest, rfl⟩ := Option.map_eq_some_iff.1 h
    exact List.forall_mem_cons.2 ⟨hclass s superClass rest hread, hclass.of_listToEnd hrest⟩

/-- The supertypes in a class signature mention only the parameters that it declares. -/
theorem mentionsOnly_of_read? {owner : String} {s : List Char} {signature : ClassSignature}
    (h : read? owner s = some signature) :
    ∀ t ∈ signature.superClass :: signature.interfaces,
      t.MentionsOnly (TypeParam.vars signature.typeParams) (Grammar.maxNesting + 1) := by
  unfold read? at h
  split at h
  · cases h
  · obtain ⟨supers, hsupers, rfl⟩ := Option.map_eq_some_iff.1 h
    exact mentionsOnly_of_supertypes hsupers

end ClassSignature

namespace ClassFile

theorem eq_some_of_superOf {file : ClassFile} {given : Option JType} {t : JType}
    (h : file.superOf given = some t) : given = some t := by
  unfold superOf at h
  split at h
  · cases h
  · exact h

theorem mem_supertypes_genericHeader {file : ClassFile} {signature : ClassSignature} {t : JType}
    (h : t ∈ (file.genericHeader signature).supertypes) :
    t ∈ signature.superClass :: signature.interfaces := by
  rcases List.mem_append.1 h with h | h
  · have hsuper : file.superOf (some signature.superClass) = some t := by
      simpa [genericHeader] using h
    obtain rfl := Option.some.inj (eq_some_of_superOf hsuper)
    exact List.mem_cons_self
  · exact List.mem_cons_of_mem _ h

/-- The raw names of a class file write no variables. -/
theorem vars_eq_nil_of_rawHeader {file : ClassFile} {t : JType}
    (h : t ∈ file.rawHeader.supertypes) : t.vars = [] := by
  rcases List.mem_append.1 h with h | h
  · have hsuper : file.superOf (file.superName.map (.cls · [])) = some t := by
      simpa [rawHeader] using h
    obtain ⟨name, -, rfl⟩ := Option.map_eq_some_iff.1 (eq_some_of_superOf hsuper)
    rfl
  · obtain ⟨name, -, rfl⟩ := List.mem_map.1 h
    rfl

/-- The class of a class file is closed, whatever its signature is. -/
theorem closedTo_header (file : ClassFile) : file.header.ClosedTo Grammar.maxNesting := by
  intro s hs o ho
  unfold header at hs ⊢
  split at hs
  · rename_i signature hsignature
    obtain ⟨text, -, hread⟩ := Option.bind_eq_some_iff.1 hsignature
    have honly := ClassSignature.mentionsOnly_of_read? hread s (mem_supertypes_genericHeader hs)
    obtain ⟨hdepth, hvar⟩ := honly o ho
    obtain ⟨param, hparam, heq⟩ := List.mem_map.1 hvar
    exact ⟨Nat.le_of_lt_succ hdepth, param, hparam, heq ▸ rfl⟩
  · -- a missing signature and one that cannot be read leave the raw names
    rw [JType.occurrences, JType.occurrencesAt_eq_nil_iff.2 (vars_eq_nil_of_rawHeader hs)] at ho
    cases ho

end ClassFile

end Unerase
