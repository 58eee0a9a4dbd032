import Unerase.ClassFile.Descriptor
import Unerase.Proofs.ClassFile.Signature

/-!
# Written descriptors

Descriptors are read by the productions of signatures, of which two are shut off: there are no
arguments and no type variables. So a descriptor is a form of a signature that is plain, and it is
read off the front of a text whatever follows. A method descriptor therefore comes apart into the
descriptors of its parameters and of its result, and in one way only (`parts_exact`).
-/

namespace Unerase

namespace Form

/-! ## Plain forms -/

/-- The arguments of one class of a nested class name. -/
def Segment.args : Segment → List Arg
  | .mk _ args => args

mutual

/-- A reference without arguments and type variables. -/
def Ref.Plain : Ref → Prop
  | .cls outermost inner => outermost.args = [] ∧ ∀ segment ∈ inner, segment.args = []
  | .array elem => elem.Plain
  | .var _ => False

/-- A primitive type or a reference without arguments and type variables. -/
def Field.Plain : Field → Prop
  | .prim _ _ => True
  | .ref r => r.Plain

end

/-- A plain reference in which no more than a number of levels are nested. -/
def Ref.PlainWithin (room : Nat) (r : Ref) : Prop := r.Plain ∧ r.cost ≤ room

theorem fits_zero_segment {known : String → Prop} {segment : Segment} :
    Fits known 0 segment.cost segment.names ↔ segment.args = [] := by
  obtain ⟨name, args⟩ := segment
  rw [fits_segment, or_iff_left (not_argsFit_zero args), Segment.args]

/-- A class is plain if it fits into a single level, which its arguments would not do. -/
theorem fits_one_cls {known : String → Prop} {c : ClassRef} :
    Fits known 1 c.ref.cost c.ref.names ↔ c.ref.Plain := by
  rw [ClassRef.ref, fits_cls, Ref.Plain]
  simp only [fits_zero_segment]

mutual

theorem Ref.names_of_plain (r : Ref) (h : r.Plain) : r.names = [] := by
  cases r with
  | cls outermost inner =>
    have hnone : Fits (fun _ => False) 1 (Ref.cls outermost inner).cost _ :=
      fits_one_cls (c := ⟨outermost, inner⟩).2 h
    exact List.eq_nil_iff_forall_not_mem.2 hnone.2
  | array elem =>
    rw [Ref.Plain] at h
    rw [Ref.names]
    exact Field.names_of_plain elem h
  | var name =>
    rw [Ref.Plain] at h
    exact h.elim

theorem Field.names_of_plain (f : Field) (h : f.Plain) : f.names = [] := by
  cases f with
  | prim p hp => rw [Field.names]
  | ref r =>
    rw [Field.Plain] at h
    rw [Field.names]
    exact Ref.names_of_plain r h

end

/-- A plain form fits wherever there are levels enough, because it names nothing. -/
theorem Ref.PlainWithin.fits {known : String → Prop} {room : Nat} {r : Ref}
    (h : r.PlainWithin room) : Fits known room r.cost r.names := by
  rw [Fits, r.names_of_plain h.1]
  exact ⟨h.2, by simp⟩

theorem Segment.denote_of_plain (env : String → JType) {segment : Segment}
    (h : segment.args = []) : segment.denote env = [] := by
  obtain ⟨name, args⟩ := segment
  obtain rfl : args = [] := h
  rw [denote, List.map_nil]

/-- A plain class has no arguments, wherever it is nested. -/
theorem getLastD_of_plain (env : String → JType) {outermost : Segment} {inner : List Segment}
    (h : outermost.args = [] ∧ ∀ segment ∈ inner, segment.args = []) :
    (inner.map (Segment.denote env)).getLastD (outermost.denote env) = [] := by
  cases hlast : inner.getLast? with
  | none =>
    obtain rfl : inner = [] := List.getLast?_eq_none_iff.1 hlast
    exact Segment.denote_of_plain env h.1
  | some segment =>
    rw [List.getLastD_eq_getLast?, List.getLast?_map, hlast]
    exact Segment.denote_of_plain env (h.2 segment (List.mem_of_getLast? hlast))

theorem Field.of_plainWithin_iff {room : Nat} {f : Field} :
    f.Of (Ref.PlainWithin room) ↔ f.Plain ∧ f.cost ≤ room := by
  cases f with
  | prim p hp => simp [Of, Plain, cost]
  | ref r => simp [Of, Plain, cost, Ref.PlainWithin]

/-- With one level more, a class can be plain, or an array of what was plain before. -/
theorem Ref.plainWithin_succ_iff {room : Nat} {r : Ref} :
    r.PlainWithin (room + 1) ↔
      r.Of (fun c => c.ref.Plain) (Field.Of (PlainWithin room)) fun _ => False := by
  cases r with
  | cls outermost inner =>
    refine and_iff_left_of_imp fun hplain => ?_
    have hfits : Fits (fun _ => True) 1 (Ref.cls outermost inner).cost _ :=
      fits_one_cls (c := ⟨outermost, inner⟩).2 hplain
    exact Nat.le_trans hfits.1 (Nat.le_add_left 1 room)
  | array elem =>
    rw [Of, Field.of_plainWithin_iff, PlainWithin, Plain, cost, Nat.add_comm 1,
      Nat.add_le_add_iff_right]
  | var name => simp [PlainWithin, Plain, Of]

theorem Ref.not_plainWithin_zero (r : Ref) : ¬ r.PlainWithin 0 := fun h =>
  not_fits_zero r (h.fits : Fits (fun _ => True) 0 r.cost r.names)

end Form

/-! ## Reading descriptors -/

namespace Grammar

open Text Text.Reader Form

theorem arguments_descriptor (room : Nat) : (level .descriptor room).arguments = .fail := by
  cases room <;> rfl

theorem reads_noVariable (env : String → JType) :
    (typeVariable .descriptor).Reads anything (fun _ : Word [';'] => False)
      (fun name => (Ref.var name).text) fun name => (Ref.var name).denote env := reads_fail

/-- With a number of levels left, the readers of descriptors read the plain forms that fit into
them. It does not matter what names stand for. -/
theorem reads_descriptorLevel (env : String → JType) (room : Nat) :
    (level .descriptor room).reference.Reads anything (Ref.PlainWithin room) Ref.text
      (Ref.denote env) := by
  induction room with
  | zero => exact reads_fail.of_iff fun r => iff_false_intro r.not_plainWithin_zero
  | succ room ih =>
    -- a level at which there are no arguments at all reads classes without any
    have hclass := reads_classType (reads_level (fun name => some (env name)) 0).2
    have hplain : (classType (level .descriptor room).arguments).Reads anything
        (fun c : ClassRef => c.ref.Plain) (fun c => c.ref.text) fun c => c.ref.denote env := by
      rw [arguments_descriptor]
      exact hclass.of_iff fun _ => fits_one_cls.symm
    exact (reads_referenceOver_of hplain (reads_fieldType_of ih)
      (reads_noVariable env)).of_iff fun _ => Ref.plainWithin_succ_iff

theorem reads_descriptor (env : String → JType) :
    (fieldType (top .descriptor).reference).Reads anything (Field.Of (Ref.PlainWithin maxNesting))
      Field.text (Field.denote env) := reads_fieldType_of (reads_descriptorLevel env maxNesting)

end Grammar

section Accepted

open Grammar Text.Reader Form

theorem JType.ofDescriptor_eq_ok_iff_all {text : String} {t : JType} :
    ofDescriptor text = .ok t ↔
      (fieldType (top .descriptor).reference).all text.toList = some t := by
  rw [ofDescriptor]
  split <;> simp [*]

/-- A field descriptor is the text of a plain form. -/
theorem JType.ofDescriptor_eq_ok_iff (env : String → JType) {text : String} {t : JType} :
    ofDescriptor text = .ok t ↔
      ∃ f : Field, f.Of (Ref.PlainWithin maxNesting) ∧ f.text = text.toList ∧ f.denote env = t := by
  rw [ofDescriptor_eq_ok_iff_all, (reads_descriptor env).all_iff]

/-- A method descriptor is the text of plain forms for the parameters and the result. -/
theorem MethodDescriptor.read_eq_ok_iff (env : String → JType) {text : String}
    {d : MethodDescriptor} :
    read text = .ok d ↔ ∃ (params : List Field) (result : Result),
      (∀ f ∈ params, f.Of (Ref.PlainWithin maxNesting)) ∧
        result.Of (Ref.PlainWithin maxNesting) ∧
        '(' :: (params.flatMap Field.text ++ ')' :: result.text) = text.toList ∧
        params.map (Field.denote env) = d.params ∧ result.denote env = d.returnType := by
  have hmethod := reads_methodTypes_of (reads_descriptorLevel env maxNesting)
  have hread : read text = .ok d ↔ (methodTypes (top .descriptor).reference).all text.toList =
      some (d.params, d.returnType) := by
    rw [read]
    cases d
    split <;> simp [*]
  rw [hread, top, hmethod.all_iff]
  simp [Prod.ext_iff, and_assoc]

/-! ## Parts of method descriptors -/

namespace MethodDescriptor

/-- The text is made of descriptors of the parameters, in parentheses, and of the result, where
`V` stands for `void`. -/
def MadeOf (text : String) (params : List String) (result : String) (d : MethodDescriptor) : Prop :=
  text = "(" ++ String.join params ++ ")" ++ result ∧
    params.map JType.ofDescriptor = d.params.map .ok ∧
    (result = "V" ∧ d.returnType = .prim .void ∨ JType.ofDescriptor result = .ok d.returnType)

theorem toList_madeOf (params : List String) (result : String) :
    ("(" ++ String.join params ++ ")" ++ result).toList =
      '(' :: (params.flatMap String.toList ++ ')' :: result.toList) := by
  simp

theorem exists_of_mem_params {params : List String} {types : List JType}
    (h : params.map JType.ofDescriptor = types.map .ok) :
    ∀ p ∈ params, ∃ t, JType.ofDescriptor p = .ok t := by
  intro p hp
  have hmem : JType.ofDescriptor p ∈ types.map .ok := h ▸ List.mem_map_of_mem hp
  obtain ⟨t, -, ht⟩ := List.mem_map.1 hmem
  exact ⟨t, ht.symm⟩

/-- Descriptors that stand one behind the other are the texts of plain forms. -/
theorem exists_forms (env : String → JType) {params : List String} {types : List JType}
    (h : params.map JType.ofDescriptor = types.map .ok) :
    ∃ fs : List Field, (∀ f ∈ fs, f.Of (Ref.PlainWithin maxNesting)) ∧
      fs.flatMap Field.text = params.flatMap String.toList ∧ fs.map (Field.denote env) = types := by
  induction params generalizing types with
  | nil =>
    obtain rfl : types = [] := by simpa using h.symm
    exact ⟨[], by simp, rfl, rfl⟩
  | cons p params ih =>
    cases types with
    | nil => cases h
    | cons t types =>
      obtain ⟨hp, hrest⟩ := List.cons.inj h
      obtain ⟨f, hf, htext, rfl⟩ := (JType.ofDescriptor_eq_ok_iff env).1 hp
      obtain ⟨fs, hfs, htexts, rfl⟩ := ih hrest
      refine ⟨f :: fs, List.forall_mem_cons.2 ⟨hf, hfs⟩, ?_, rfl⟩
      rw [List.flatMap_cons, List.flatMap_cons, htext, htexts]

/-- The text of a result is a descriptor, or `V` for `void`. -/
theorem exists_result_iff (env : String → JType) {text : String} {t : JType} :
    (∃ result : Result, result.Of (Ref.PlainWithin maxNesting) ∧ result.text = text.toList ∧
      result.denote env = t) ↔
      text = "V" ∧ t = .prim .void ∨ JType.ofDescriptor text = .ok t := by
  rw [JType.ofDescriptor_eq_ok_iff env]
  constructor
  · intro h
    obtain ⟨result, hresult, htext, rfl⟩ := h
    cases result with
    | void => exact .inl ⟨String.toList_inj.1 htext.symm, rfl⟩
    | value type => exact .inr ⟨type, hresult, htext, rfl⟩
  · intro h
    rcases h with ⟨rfl, rfl⟩ | ⟨type, htype, htext, rfl⟩
    · exact ⟨.void, trivial, rfl, rfl⟩
    · exact ⟨.value type, htype, htext, rfl⟩

/-- What is read as a method descriptor is what is made of descriptors. -/
theorem read_eq_ok_iff_madeOf {text : String} {d : MethodDescriptor} :
    read text = .ok d ↔ ∃ params result, MadeOf text params result d := by
  let env : String → JType := fun _ => .object
  rw [read_eq_ok_iff env]
  constructor
  · intro h
    obtain ⟨fs, result, hfs, hresult, htext, hparams, hreturn⟩ := h
    refine ⟨fs.map fun f => String.ofList f.text, String.ofList result.text, ?_, ?_, ?_⟩
    · rw [← String.toList_inj, toList_madeOf, ← htext]
      simp [List.flatMap_map]
    · rw [← hparams, List.map_map, List.map_map]
      refine List.map_congr_left fun f hf => ?_
      exact (JType.ofDescriptor_eq_ok_iff env).2 ⟨f, hfs f hf, String.toList_ofList.symm, rfl⟩
    · exact (exists_result_iff env).1 ⟨result, hresult, String.toList_ofList.symm, hreturn⟩
  · intro h
    obtain ⟨params, result, rfl, hparams, hreturn⟩ := h
    obtain ⟨fs, hfs, htexts, htypes⟩ := exists_forms env hparams
    obtain ⟨form, hform, hresult, htype⟩ := (exists_result_iff env).2 hreturn
    refine ⟨fs, form, hfs, hform, ?_, htypes, htype⟩
    rw [toList_madeOf, htexts, hresult]

/-- A descriptor does not begin with the parenthesis behind the parameters. -/
theorem head?_ne_close {text : String} {t : JType} (h : JType.ofDescriptor text = .ok t)
    (more : List Char) : (text.toList ++ more).head? ≠ some ')' := by
  obtain ⟨f, -, htext, -⟩ := (JType.ofDescriptor_eq_ok_iff fun _ => .object).1 h
  obtain ⟨c, w, hcons, hc, -⟩ := f.text_eq_cons
  rw [← htext, hcons]
  simpa using hc

/-- Up to the closing parenthesis a text comes apart into descriptors in one way only, because none
of them is the beginning of another. -/
theorem params_unique {params params' : List String} {more more' : List Char}
    (h : ∀ p ∈ params, ∃ t, JType.ofDescriptor p = .ok t)
    (h' : ∀ p ∈ params', ∃ t, JType.ofDescriptor p = .ok t)
    (heq : params.flatMap String.toList ++ ')' :: more =
      params'.flatMap String.toList ++ ')' :: more') : params = params' ∧ more = more' := by
  induction params generalizing params' with
  | nil =>
    cases params' with
    | nil => exact ⟨rfl, (List.cons.inj heq).2⟩
    | cons p params' =>
      obtain ⟨t, ht⟩ := h' p List.mem_cons_self
      rw [List.flatMap_cons, List.append_assoc] at heq
      exact absurd (congrArg List.head? heq).symm (head?_ne_close ht _)
  | cons p params ih =>
    obtain ⟨⟨t, ht⟩, hrest⟩ := List.forall_mem_cons.1 h
    rw [List.flatMap_cons, List.append_assoc] at heq
    cases params' with
    | nil => exact absurd (congrArg List.head? heq) (head?_ne_close ht _)
    | cons p' params' =>
      obtain ⟨⟨t', ht'⟩, hrest'⟩ := List.forall_mem_cons.1 h'
      rw [List.flatMap_cons, List.append_assoc] at heq
      have hinj := (reads_descriptor fun _ => .object).append_inj
        (JType.ofDescriptor_eq_ok_iff_all.1 ht) (JType.ofDescriptor_eq_ok_iff_all.1 ht') heq
      obtain ⟨rfl, rfl⟩ := ih hrest hrest' hinj.2
      exact ⟨congrArg (· :: params) (String.toList_inj.1 hinj.1), rfl⟩

theorem MadeOf.unique {text : String} {params params' : List String} {result result' : String}
    {d d' : MethodDescriptor} (h : MadeOf text params result d)
    (h' : MadeOf text params' result' d') : params = params' ∧ result = result' := by
  obtain ⟨htext, hparams, -⟩ := h
  obtain ⟨htext', hparams', -⟩ := h'
  have heq := congrArg String.toList (htext.symm.trans htext')
  rw [toList_madeOf, toList_madeOf] at heq
  obtain ⟨hsame, hmore⟩ := params_unique (exists_of_mem_params hparams)
    (exists_of_mem_params hparams') (List.cons.inj heq).2
  exact ⟨hsame, String.toList_inj.1 hmore⟩

end MethodDescriptor

/-- A descriptor is not the beginning of a longer one. -/
theorem JType.ofDescriptor_append {text more : String} {t : JType} (h : ofDescriptor text = .ok t)
    (hmore : more ≠ "") :
    ofDescriptor (text ++ more) = .error (.notDescriptor (text ++ more)) := by
  have hne : more.toList ≠ [] := fun hnil => hmore (String.toList_inj.1 hnil)
  have hnone := (reads_descriptor fun _ => .object).all_append (ofDescriptor_eq_ok_iff_all.1 h) hne
  rw [ofDescriptor, String.toList_append, hnone]

/-- A method descriptor is read exactly if it is made of descriptors of its parameters and its
result. It is made in one way only, because no longer text is read than a descriptor. -/
theorem MethodDescriptor.parts_exact :
    (∀ text d, read text = .ok d ↔ ∃ params result, MadeOf text params result d) ∧
    (∀ text params result d params' result' d', MadeOf text params result d →
      MadeOf text params' result' d' → params = params' ∧ result = result') ∧
    ∀ text t more, JType.ofDescriptor text = .ok t → more ≠ "" →
      JType.ofDescriptor (text ++ more) = .error (.notDescriptor (text ++ more)) := by
  refine ⟨fun text d => read_eq_ok_iff_madeOf, fun text params result d params' result' d' h h' =>
    h.unique h', fun text t more h hmore => ?_⟩
  exact JType.ofDescriptor_append h hmore

/-- The parenthesis in the name of a class does not end the parameters. -/
theorem MethodDescriptor.parts_exact_parenthesis :
    MadeOf "(I[Lp)q;)V" ["I", "[Lp)q;"] "V"
      ⟨[.prim .int, .array (.cls "p)q" [])], .prim .void⟩ ∧
    read "(I[Lp)q;)V" = .ok ⟨[.prim .int, .array (.cls "p)q" [])], .prim .void⟩ ∧
    (∀ params result d, MadeOf "(I[Lp)q;)V" params result d →
      params = ["I", "[Lp)q;"] ∧ result = "V") ∧
    JType.ofDescriptor "[Lp)q;)V" = .error (.notDescriptor "[Lp)q;)V") := by
  have hmade : MadeOf "(I[Lp)q;)V" ["I", "[Lp)q;"] "V"
      ⟨[.prim .int, .array (.cls "p)q" [])], .prim .void⟩ :=
    ⟨by decide, by decide +kernel, .inl ⟨rfl, rfl⟩⟩
  obtain ⟨hread, hunique, hextend⟩ := parts_exact
  exact ⟨hmade, (hread _ _).2 ⟨_, _, hmade⟩, fun params result d h => hunique _ _ _ _ _ _ _ h hmade,
    hextend "[Lp)q;" (.array (.cls "p)q" [])) ")V" (by decide +kernel) (by decide)⟩

end Accepted

end Unerase
