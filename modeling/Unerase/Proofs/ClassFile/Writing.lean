import Mathlib.Data.List.Basic
import Unerase.Proofs.ClassFile.Descriptor

/-!
# Writing descriptors back

A type that was read from a descriptor can be written again. What comes out is the text that was
read, with one exception: behind a class name, descriptors are read with the `.` before a nested
class that only signatures have, and the nested class is written behind a `$`. Such a text is read
as the same type as another one. All texts without a `.` are written back as they were, and no two
of them are read as the same (`written_back_iff`).
-/

namespace Unerase

/-! ## Writing -/

/-- The descriptor of a type, for the types that have one. It writes a primitive type as its letter,
an array as `[` before its element and a class as `L`, its name with `/` in place of `.`, and
`;`. -/
def JType.descriptor? : JType → Option (List Char)
  | .prim p => if p = .void then none else some [p.letter]
  | .cls name args =>
    if args.isEmpty then
      some ('L' :: (name.toList.map (fun c => if c = '.' then '/' else c) ++ [';']))
    else none
  | .array elem => (descriptor? elem).map ('[' :: ·)
  | _ => none

/-- The descriptor of a result, which may also be `void`. -/
def JType.resultDescriptor? (t : JType) : Option (List Char) :=
  if t = .prim .void then some [Primitive.void.letter] else t.descriptor?

/-- The descriptor of a method: those of its parameters in parentheses, and that of its result. -/
def MethodDescriptor.text? (d : MethodDescriptor) : Option (List Char) :=
  (d.params.mapM JType.descriptor?).bind fun params =>
    d.returnType.resultDescriptor?.map fun result => '(' :: (params.flatten ++ ')' :: result)

namespace Form

/-- The text with `$` in place of the `.` before a nested class. -/
def undotted (s : List Char) : List Char := s.map fun c => if c = '.' then '$' else c

theorem undotted_of_not_mem {s : List Char} (h : '.' ∉ s) : undotted s = s :=
  (List.map_congr_left fun _ hc => if_neg (ne_of_mem_of_not_mem hc h)).trans (List.map_id' s)

/-- A text stays as it is exactly if there is no `.` in it. -/
theorem undotted_eq_self_iff {s : List Char} : undotted s = s ↔ '.' ∉ s := by
  refine ⟨fun h hdot => ?_, undotted_of_not_mem⟩
  -- no character is turned into a dot
  rw [← h, undotted, List.mem_map] at hdot
  obtain ⟨c, -, hc⟩ := hdot
  split at hc
  · cases hc
  · contradiction

@[simp] theorem undotted_nil : undotted [] = [] := rfl

@[simp] theorem undotted_cons (c : Char) (s : List Char) :
    undotted (c :: s) = (if c = '.' then '$' else c) :: undotted s := rfl

@[simp] theorem undotted_append (s r : List Char) :
    undotted (s ++ r) = undotted s ++ undotted r := List.map_append

theorem undotted_flatMap {τ : Type} (items : List τ) (text : τ → List Char) :
    undotted (items.flatMap text) = items.flatMap fun x => undotted (text x) := List.map_flatMap

/-! ## Classes -/

/-- There is no `.` in the name of one class. -/
theorem Segment.dot_not_mem_name (segment : Segment) : '.' ∉ segment.name := by
  obtain ⟨name, args⟩ := segment
  exact fun hdot => name.free '.' hdot (by simp)

theorem Segment.text_of_plain {segment : Segment} (h : segment.args = []) :
    segment.text = segment.name := by
  obtain ⟨name, args⟩ := segment
  obtain rfl : args = [] := h
  simp [text, Segment.name]

/-- Turning `/` into `.` is undone where there was no `.` before. -/
theorem map_slash_map_dot {name : List Char} (h : '.' ∉ name) :
    (name.map fun c => if c = '/' then '.' else c).map (fun c => if c = '.' then '/' else c) =
      name := by
  rw [List.map_map]
  refine (List.map_congr_left fun c hc => ?_).trans (List.map_id' name)
  have hdot : c ≠ '.' := ne_of_mem_of_not_mem hc h
  by_cases hslash : c = '/' <;> simp [hslash, hdot]

/-- The name of a class, written with `/` again, is the text of the class with each `.` turned into
`$`. -/
theorem map_dot_className {outermost : Segment} {inner : List Segment}
    (h : outermost.args = [] ∧ ∀ segment ∈ inner, segment.args = []) :
    (className outermost inner).toList.map (fun c => if c = '.' then '/' else c) =
      undotted (outermost.text ++ inner.flatMap fun segment => '.' :: segment.text) := by
  have hinner : ∀ segment ∈ inner,
      ('$' :: segment.name).map (fun c => if c = '.' then '/' else c) =
        undotted ('.' :: segment.text) := by
    intro segment hs
    have hname : segment.name.map (fun c => if c = '.' then '/' else c) = segment.name :=
      (List.map_congr_left fun c hc => if_neg (ne_of_mem_of_not_mem hc
        segment.dot_not_mem_name)).trans (List.map_id' segment.name)
    rw [List.map_cons, hname, undotted_cons, Segment.text_of_plain (h.2 segment hs),
      undotted_of_not_mem segment.dot_not_mem_name]
    rfl
  rw [className, String.toList_ofList, List.map_append, map_slash_map_dot
    outermost.dot_not_mem_name, List.map_flatMap, List.flatMap_congr hinner, undotted_append,
    undotted_flatMap, Segment.text_of_plain h.1, undotted_of_not_mem outermost.dot_not_mem_name]

/-! ## What is written of a form -/

mutual

theorem Ref.descriptor?_denote (env : String → JType) (r : Ref) (h : r.Plain) :
    (r.denote env).descriptor? = some (undotted r.text) := by
  cases r with
  | cls outermost inner =>
    rw [Ref.Plain] at h
    rw [Ref.denote, JType.descriptor?, getLastD_of_plain env h, map_dot_className h, Ref.text]
    simp
  | array elem =>
    rw [Ref.Plain] at h
    rw [Ref.denote, JType.descriptor?, Field.descriptor?_denote env elem h, Ref.text]
    rfl
  | var name =>
    rw [Ref.Plain] at h
    exact h.elim

theorem Field.descriptor?_denote (env : String → JType) (f : Field) (h : f.Plain) :
    (f.denote env).descriptor? = some (undotted f.text) := by
  cases f with
  | prim p hp =>
    have hletter : p.letter ≠ '.' := by cases p <;> decide
    rw [Field.denote, JType.descriptor?, if_neg hp, Field.text, undotted_cons, if_neg hletter]
    rfl
  | ref r =>
    rw [Field.Plain] at h
    rw [Field.denote, Field.text, Ref.descriptor?_denote env r h]

end

end Form

/-! ## What is written of what was read -/

section Written

open Form Grammar

theorem JType.descriptor?_of_ofDescriptor {text : String} {t : JType}
    (h : ofDescriptor text = .ok t) : t.descriptor? = some (undotted text.toList) := by
  obtain ⟨f, hf, htext, rfl⟩ := (ofDescriptor_eq_ok_iff fun _ => .object).1 h
  rw [f.descriptor?_denote _ (Field.of_plainWithin_iff.1 hf).1, htext]

theorem JType.mapM_descriptor? {params : List String} {types : List JType}
    (h : params.map ofDescriptor = types.map .ok) :
    types.mapM descriptor? = some (params.map fun p => undotted p.toList) := by
  induction params generalizing types with
  | nil =>
    obtain rfl : types = [] := by simpa using h.symm
    rfl
  | cons p params ih =>
    cases types with
    | nil => cases h
    | cons t types =>
      obtain ⟨hp, hrest⟩ := List.cons.inj h
      rw [List.mapM_cons, descriptor?_of_ofDescriptor hp, ih hrest]
      rfl

theorem JType.resultDescriptor?_of_field {t : JType} {s : List Char} (h : t.descriptor? = some s) :
    t.resultDescriptor? = some s := by
  rw [resultDescriptor?, if_neg, h]
  rintro rfl
  cases h

theorem MethodDescriptor.text?_of_read {text : String} {d : MethodDescriptor}
    (h : read text = .ok d) : d.text? = some (undotted text.toList) := by
  obtain ⟨params, result, rfl, hparams, hresult⟩ := read_eq_ok_iff_madeOf.1 h
  have htexts := JType.mapM_descriptor? hparams
  have hreturn : d.returnType.resultDescriptor? = some (undotted result.toList) := by
    rcases hresult with ⟨rfl, hvoid⟩ | hread
    · rw [hvoid]
      rfl
    · exact JType.resultDescriptor?_of_field (JType.descriptor?_of_ofDescriptor hread)
  rw [text?, htexts, hreturn, toList_madeOf]
  simp [undotted_flatMap, ← List.flatMap_def]

/-! ## Texts without a `.` -/

theorem JType.descriptor?_eq_iff {text : String} {t : JType} (h : ofDescriptor text = .ok t) :
    t.descriptor? = some text.toList ↔ '.' ∉ text.toList := by
  rw [descriptor?_of_ofDescriptor h, Option.some.injEq, undotted_eq_self_iff]

theorem MethodDescriptor.text?_eq_iff {text : String} {d : MethodDescriptor}
    (h : read text = .ok d) : d.text? = some text.toList ↔ '.' ∉ text.toList := by
  rw [text?_of_read h, Option.some.injEq, undotted_eq_self_iff]

/-- What is written of a type is the text that it was read from, so there is no other such text. -/
theorem JType.eq_of_ofDescriptor {text text' : String} {t : JType} (h : ofDescriptor text = .ok t)
    (h' : ofDescriptor text' = .ok t) (hdot : '.' ∉ text.toList) (hdot' : '.' ∉ text'.toList) :
    text = text' := by
  have hsame := ((descriptor?_eq_iff h).2 hdot).symm.trans ((descriptor?_eq_iff h').2 hdot')
  exact String.toList_inj.1 (Option.some.inj hsame)

theorem MethodDescriptor.eq_of_read {text text' : String} {d : MethodDescriptor}
    (h : read text = .ok d) (h' : read text' = .ok d) (hdot : '.' ∉ text.toList)
    (hdot' : '.' ∉ text'.toList) : text = text' := by
  have hsame := ((text?_eq_iff h).2 hdot).symm.trans ((text?_eq_iff h').2 hdot')
  exact String.toList_inj.1 (Option.some.inj hsame)

/-- The same types are read from the same list of descriptors. -/
theorem JType.eq_of_map_ofDescriptor {params params' : List String} {types : List JType}
    (h : params.map ofDescriptor = types.map .ok) (h' : params'.map ofDescriptor = types.map .ok)
    (hdot : ∀ p ∈ params, '.' ∉ p.toList) (hdot' : ∀ p ∈ params', '.' ∉ p.toList) :
    params = params' := by
  have hsame := Option.some.inj ((mapM_descriptor? h).symm.trans (mapM_descriptor? h'))
  have hplain : ∀ ps : List String, (∀ p ∈ ps, '.' ∉ p.toList) →
      (ps.map fun p => undotted p.toList) = ps.map String.toList := fun ps hps =>
    List.map_congr_left fun p hp => undotted_of_not_mem (hps p hp)
  rw [hplain params hdot, hplain params' hdot'] at hsame
  exact List.map_injective_iff.2 (fun _ _ => String.toList_inj.1) hsame

namespace MethodDescriptor

theorem MadeOf.dot_not_mem {text : String} {params : List String} {result : String}
    {d : MethodDescriptor} (h : MadeOf text params result d) (hdot : '.' ∉ text.toList) :
    ∀ p ∈ params, '.' ∉ p.toList := by
  obtain ⟨rfl, -, -⟩ := h
  intro p hp hmem
  refine hdot ?_
  rw [toList_madeOf]
  exact List.mem_cons_of_mem _ (List.mem_append_left _ (List.mem_flatMap.2 ⟨p, hp, hmem⟩))

/-- Methods with the same parameters have the same text up to the closing parenthesis. -/
theorem same_params {text text' : String} {d d' : MethodDescriptor} (h : read text = .ok d)
    (h' : read text' = .ok d') (hdot : '.' ∉ text.toList) (hdot' : '.' ∉ text'.toList)
    (heq : d.params = d'.params) :
    ∃ params result result', MadeOf text params result d ∧ MadeOf text' params result' d' := by
  obtain ⟨params, result, hmade⟩ := read_eq_ok_iff_madeOf.1 h
  obtain ⟨params', result', hmade'⟩ := read_eq_ok_iff_madeOf.1 h'
  have hsame : params = params' := JType.eq_of_map_ofDescriptor hmade.2.1 (heq ▸ hmade'.2.1)
    (hmade.dot_not_mem hdot) (hmade'.dot_not_mem hdot')
  exact ⟨params, result, result', hmade, hsame ▸ hmade'⟩

end MethodDescriptor

/-- What was read from a descriptor is written back as the same text exactly if there is no `.` in
it. So no two descriptors without a `.` are read as the same type, or as methods with the same
parameters unless they only differ in the result. -/
theorem JType.written_back_iff (text : String) :
    (∀ t, ofDescriptor text = .ok t →
      (t.descriptor? = some text.toList ↔ '.' ∉ text.toList)) ∧
    (∀ d, MethodDescriptor.read text = .ok d →
      (d.text? = some text.toList ↔ '.' ∉ text.toList)) ∧
    (∀ text' t, '.' ∉ text.toList → '.' ∉ text'.toList → ofDescriptor text = .ok t →
      ofDescriptor text' = .ok t → text = text') ∧
    (∀ text' d d', '.' ∉ text.toList → '.' ∉ text'.toList →
      MethodDescriptor.read text = .ok d → MethodDescriptor.read text' = .ok d' →
      d.params = d'.params →
      (∃ params result result', MethodDescriptor.MadeOf text params result d ∧
        MethodDescriptor.MadeOf text' params result' d') ∧ (d = d' → text = text')) := by
  refine ⟨fun t h => descriptor?_eq_iff h, fun d h => MethodDescriptor.text?_eq_iff h,
    fun text' t hdot hdot' h h' => eq_of_ofDescriptor h h' hdot hdot',
    fun text' d d' hdot hdot' h h' heq =>
      ⟨MethodDescriptor.same_params h h' hdot hdot' heq, fun hsame => ?_⟩⟩
  exact MethodDescriptor.eq_of_read h (hsame ▸ h') hdot hdot'

/-- With the `.` of a signature before the nested class, or with the `$` of its binary name, the
descriptor is read as the same type. Only the second is written back. -/
theorem JType.not_written_back :
    ofDescriptor "Ljava/util/Map.Entry;" = .ok (.cls "java.util.Map$Entry" []) ∧
    ofDescriptor "Ljava/util/Map$Entry;" = .ok (.cls "java.util.Map$Entry" []) ∧
    (JType.cls "java.util.Map$Entry" []).descriptor? = some "Ljava/util/Map$Entry;".toList ∧
    ¬ ∀ text t, ofDescriptor text = .ok t → t.descriptor? = some text.toList := by
  have hread : ofDescriptor "Ljava/util/Map.Entry;" = .ok (.cls "java.util.Map$Entry" []) := by
    decide +kernel
  refine ⟨hread, by decide +kernel, by decide +kernel, fun hall => ?_⟩
  exact absurd (hall _ _ hread) (by decide +kernel)

/-- A name may hold characters that mean something elsewhere in a descriptor. -/
theorem JType.written_back_iff_odd_name :
    ofDescriptor "[[Lp)/V$[I;" = .ok (.array (.array (.cls "p).V$[I" []))) ∧
    (JType.array (.array (.cls "p).V$[I" []))).descriptor? = some "[[Lp)/V$[I;".toList ∧
    (∀ text, '.' ∉ text.toList → ofDescriptor text = .ok (.array (.array (.cls "p).V$[I" []))) →
      text = "[[Lp)/V$[I;") ∧
    MethodDescriptor.read "(J[[Lp)/V$[I;)V" =
      .ok ⟨[.prim .long, .array (.array (.cls "p).V$[I" []))], .prim .void⟩ ∧
    MethodDescriptor.text? ⟨[.prim .long, .array (.array (.cls "p).V$[I" []))], .prim .void⟩ =
      some "(J[[Lp)/V$[I;)V".toList := by
  have hread : ofDescriptor "[[Lp)/V$[I;" = .ok (.array (.array (.cls "p).V$[I" []))) := by
    decide +kernel
  have hmethod : MethodDescriptor.read "(J[[Lp)/V$[I;)V" =
      .ok ⟨[.prim .long, .array (.array (.cls "p).V$[I" []))], .prim .void⟩ := by decide +kernel
  obtain ⟨hfield, -, hsame, -⟩ := written_back_iff "[[Lp)/V$[I;"
  refine ⟨hread, (hfield _ hread).2 (by decide), fun text hdot h => ?_, hmethod,
    ((written_back_iff "(J[[Lp)/V$[I;)V").2.1 _ hmethod).2 (by decide)⟩
  exact (hsame _ _ (by decide) hdot hread h).symm

end Written

end Unerase
