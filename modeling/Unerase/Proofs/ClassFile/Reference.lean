import Unerase.ClassFile.Signature
import Unerase.Proofs.ClassFile.Form
import Unerase.Proofs.Text.Reads

/-!
# Reading references

The readers of references, arguments and classes call each other, one level at a time. With a
number of levels left they read the forms that fit into it (`reads_level`, by induction on the
levels), where a production over one level reads what fits into one level more. At the top this
says which texts are field signatures and which types they are (`JType.ofSignature_exact`).
-/

namespace Unerase

/-- A letter is read as the primitive type that it writes. -/
theorem Primitive.ofLetter?_eq_some_iff {c : Char} {p : Primitive} :
    ofLetter? c = some p ↔ p ≠ .void ∧ p.letter = c := by
  constructor
  · intro h
    unfold ofLetter? at h
    split at h <;> cases h <;> decide
  · intro h
    obtain ⟨hp, rfl⟩ := h
    cases p with
    | void => exact absurd rfl hp
    | _ => rfl

namespace Form

/-! ## First characters -/

/-- The characters that begin a reference. -/
def beginsRef (c : Char) : Prop := c = 'L' ∨ c = '[' ∨ c = 'T'

theorem Ref.text_eq_cons (r : Ref) : ∃ c w, r.text = c :: w ∧ beginsRef c := by
  cases r with
  | cls outermost inner => exact ⟨'L', _, by rw [text], .inl rfl⟩
  | array elem => exact ⟨'[', _, by rw [text], .inr (.inl rfl)⟩
  | var name => exact ⟨'T', _, by rw [text], .inr (.inr rfl)⟩

/-- No argument begins with the sign that closes a list of them. -/
theorem Arg.head?_text (arg : Arg) : arg.text.head? ≠ some '>' := by
  cases arg with
  | any => simp [text]
  | bounded dir bound => cases dir <;> simp [text, Variance.sign]
  | exact type =>
    obtain ⟨c, w, htext, hc⟩ := type.text_eq_cons
    rw [text, htext]
    rcases hc with rfl | rfl | rfl <;> simp

/-- No type that a parameter or a result may have begins with the sign that closes the parameters or
with the letter of `void`. -/
theorem Field.text_eq_cons (f : Field) : ∃ c w, f.text = c :: w ∧ c ≠ ')' ∧ c ≠ 'V' := by
  cases f with
  | prim p hp =>
    refine ⟨p.letter, [], by rw [text], ?_⟩
    cases p with
    | void => exact absurd rfl hp
    | _ => decide
  | ref r =>
    obtain ⟨c, w, htext, hc⟩ := r.text_eq_cons
    refine ⟨c, w, by rw [text, htext], ?_⟩
    rcases hc with rfl | rfl | rfl <;> decide

theorem ofLetter?_of_beginsRef {c : Char} (h : beginsRef c) : Primitive.ofLetter? c = none := by
  rcases h with rfl | rfl | rfl <;> rfl

/-! ## Forms with room -/

/-- What is nested so many levels and names these variables fits into a number of levels where
certain names are known. -/
def Fits (known : String → Prop) (room cost : Nat) (names : List String) : Prop :=
  cost ≤ room ∧ ∀ name ∈ names, known name

theorem foldr_max_le_iff {least room : Nat} {costs : List Nat} :
    costs.foldr max least ≤ room ↔ least ≤ room ∧ ∀ cost ∈ costs, cost ≤ room := by
  induction costs with
  | nil => simp
  | cons cost costs ih =>
    rw [List.foldr_cons, Nat.max_le, ih, List.forall_mem_cons]
    exact and_left_comm

variable {known : String → Prop} {room : Nat}

theorem forall_fits_iff {τ : Type} {items : List τ} {cost : τ → Nat} {names : τ → List String} :
    (∀ x ∈ items, Fits known room (cost x) (names x)) ↔
      (∀ x ∈ items, cost x ≤ room) ∧ ∀ name ∈ items.flatMap names, known name := by
  constructor
  · intro h
    refine ⟨fun x hx => (h x hx).1, fun name hname => ?_⟩
    obtain ⟨x, hx, hname⟩ := List.mem_flatMap.1 hname
    exact (h x hx).2 name hname
  · intro h x hx
    exact ⟨h.1 x hx, fun name hname => h.2 name (List.mem_flatMap.2 ⟨x, hx, hname⟩)⟩

theorem fits_cls {outermost : Segment} {inner : List Segment} :
    Fits known (room + 1) (Ref.cls outermost inner).cost (Ref.cls outermost inner).names ↔
      Fits known room outermost.cost outermost.names ∧
        ∀ segment ∈ inner, Fits known room segment.cost segment.names := by
  rw [forall_fits_iff]
  simp only [Fits, Ref.cost, Ref.names, List.forall_mem_append, Nat.add_comm 1,
    Nat.add_le_add_iff_right, foldr_max_le_iff, List.forall_mem_map]
  exact and_and_and_comm

theorem fits_array {elem : Field} :
    Fits known (room + 1) (Ref.array elem).cost (Ref.array elem).names ↔
      Fits known room elem.cost elem.names := by
  simp only [Fits, Ref.cost, Ref.names, Nat.add_comm 1, Nat.add_le_add_iff_right]

theorem fits_var {name : Word [';']} :
    Fits known (room + 1) (Ref.var name).cost (Ref.var name).names ↔
      known (String.ofList name.chars) := by
  simp [Fits, Ref.cost, Ref.names]

/-- Nothing is asked of a primitive type, and of a reference what is asked of it alone. -/
def Field.Of (ok : Ref → Prop) : Field → Prop
  | .prim _ _ => True
  | .ref r => ok r

theorem Field.Of.imp {ok ok' : Ref → Prop} {f : Field} (h : f.Of ok) (himp : ∀ r, ok r → ok' r) :
    f.Of ok' := by
  cases f with
  | prim p hp => trivial
  | ref r => exact himp r h

/-- What is asked of a reference, by what it is a reference to. -/
def Ref.Of (okClass : ClassRef → Prop) (okElem : Field → Prop) (okName : Word [';'] → Prop) :
    Ref → Prop
  | .cls outermost inner => okClass ⟨outermost, inner⟩
  | .array elem => okElem elem
  | .var name => okName name

theorem fits_field {f : Field} :
    Fits known room f.cost f.names ↔ f.Of fun r => Fits known room r.cost r.names := by
  cases f <;> simp [Field.Of, Fits, Field.cost, Field.names]

theorem fits_succ_iff {r : Ref} :
    Fits known (room + 1) r.cost r.names ↔
      r.Of (fun c => Fits known (room + 1) c.ref.cost c.ref.names)
        (fun elem => Fits known room elem.cost elem.names)
        fun name => known (String.ofList name.chars) := by
  cases r with
  | cls outermost inner => exact Iff.rfl
  | array elem => exact fits_array
  | var name => exact fits_var

theorem not_fits_zero (r : Ref) : ¬ Fits known 0 r.cost r.names := by
  intro h
  have hcost := h.1
  cases r <;> simp [Ref.cost] at hcost

/-- A list of arguments with its signs fits into a number of levels, one of which it takes up
itself. -/
def ArgsFit (known : String → Prop) (room : Nat) (args : List Arg) : Prop :=
  args ≠ [] ∧ Fits known room (1 + (args.map Arg.cost).foldr max 0) (args.flatMap Arg.names)

theorem argsFit_succ_iff {args : List Arg} :
    ArgsFit known (room + 1) args ↔
      args ≠ [] ∧ ∀ arg ∈ args, Fits known room arg.cost arg.names := by
  rw [forall_fits_iff]
  simp only [ArgsFit, Fits, Nat.add_comm 1, Nat.add_le_add_iff_right, foldr_max_le_iff,
    List.forall_mem_map, Nat.zero_le, true_and]

theorem not_argsFit_zero (args : List Arg) : ¬ ArgsFit known 0 args := by
  intro h
  have hcost := h.2.1
  omega

theorem fits_segment {name : Word ['<', '.', ';']} {args : List Arg} :
    Fits known room (Segment.mk name args).cost (Segment.mk name args).names ↔
      args = [] ∨ ArgsFit known room args := by
  cases args with
  | nil => simp [Fits, Segment.cost, Segment.names]
  | cons arg args => simp [ArgsFit, Segment.cost, Segment.names]

end Form

/-! ## Productions -/

namespace Grammar

open Text Text.Reader Form

section Productions

variable {resolve : String → Option JType} {room : Nat}

/-- The names that have a meaning. -/
def knownTo (resolve : String → Option JType) (name : String) : Prop := (resolve name).isSome

/-- What names stand for; it does not matter what those without a meaning do. -/
def meaningBy (resolve : String → Option JType) (name : String) : JType :=
  (resolve name).getD .object

/-- The reader reads the references that fit into a number of levels. -/
def ReadsRefs (resolve : String → Option JType) (room : Nat) (p : Reader JType) : Prop :=
  p.Reads anything (fun r : Ref => Fits (knownTo resolve) room r.cost r.names) Ref.text
    (Ref.denote (meaningBy resolve))

/-- The reader reads the lists of arguments that fit into a number of levels. -/
def ReadsArgs (resolve : String → Option JType) (room : Nat) (p : Reader (List JType)) : Prop :=
  p.Reads anything (ArgsFit (knownTo resolve) room)
    (fun args => '<' :: (args.flatMap Arg.text ++ ['>']))
    (List.map (Arg.denote (meaningBy resolve)))

/-- A run of characters is a word if one of the characters that end it comes next. -/
theorem reads_run {stops : List Char} {ends : Char → Bool}
    (hends : ∀ c, ends c = true ↔ c ∈ stops) :
    (run ends).Reads (fun r => ∃ c t, r = c :: t ∧ c ∈ stops) (fun _ : Word stops => True)
      Word.chars Word.chars := by
  have hfree : ∀ c, ends c = false ↔ c ∉ stops := fun c => by
    rw [← hends, Bool.not_eq_true]
  intro s a r hr
  simp only [read_run_eq_some_iff, hends, hfree]
  constructor
  · intro hread
    obtain ⟨hs, hne, hclear, -⟩ := hread
    exact ⟨⟨a, hne, hclear⟩, trivial, hs, rfl⟩
  · intro hform
    obtain ⟨word, -, hs, rfl⟩ := hform
    exact ⟨hs, word.ne_nil, word.free, hr⟩

theorem resolve_eq_some_iff {name : String} {t : JType} :
    resolve name = some t ↔ knownTo resolve name ∧ meaningBy resolve name = t := by
  rw [knownTo, meaningBy]
  cases resolve name <;> simp

theorem reads_typeVariable :
    (typeVariable (.signature resolve)).Reads anything
      (fun name : Word [';'] => knownTo resolve (String.ofList name.chars))
      (fun name => (Ref.var name).text) fun name => (Ref.var name).denote (meaningBy resolve) := by
  have hrun : (run (· == ';')).Reads _ (fun _ : Word [';'] => True) _ _ := reads_run (by simp)
  have hname := hrun.before ';' fun r => ⟨';', r, rfl, by simp⟩
  have hmeaning : ∀ (name : Word [';']) t, resolve (String.ofList name.chars) = some t ↔ _ :=
    fun _ _ => resolve_eq_some_iff
  refine ((hname.after 'T').filterMap hmeaning).image id (by simp) (fun name => ?_) fun name => ?_
  · rw [id, Ref.text]
  · rw [id, Ref.denote]

/-- A type is read as the letter that it is or as a reference. -/
theorem reads_fieldType_of {ok : Ref → Prop} {env : String → JType} {reference : Reader JType}
    (h : reference.Reads anything ok Ref.text (Ref.denote env)) :
    (fieldType reference).Reads anything (Field.Of ok) Field.text (Field.denote env) := by
  refine reads_byFirst (fun c t a r hread => ?_) fun f hf => ?_
  · cases hletter : Primitive.ofLetter? c with
    | some p =>
      obtain ⟨hp, hc⟩ := Primitive.ofLetter?_eq_some_iff.1 hletter
      rw [hletter, read_mark_eq_some_iff] at hread
      obtain ⟨hs, rfl⟩ := hread
      refine ⟨.prim p hp, trivial, ?_, ?_⟩
      · rw [Field.text, hc, hs, List.singleton_append]
      · rw [Field.denote]
    | none =>
      rw [hletter, h _ a r trivial] at hread
      obtain ⟨q, hq, hs, rfl⟩ := hread
      refine ⟨.ref q, hq, ?_, ?_⟩
      · rwa [Field.text]
      · rw [Field.denote]
  · cases f with
    | prim p hp =>
      refine ⟨p.letter, [], by rw [Field.text], fun r => ?_⟩
      rw [Primitive.ofLetter?_eq_some_iff.2 ⟨hp, rfl⟩, Field.denote]
      exact read_mark_eq_some_iff.2 ⟨rfl, rfl⟩
    | ref q =>
      obtain ⟨c, w, htext, hc⟩ := q.text_eq_cons
      refine ⟨c, w, by rw [Field.text, htext], fun r => ?_⟩
      rw [ofLetter?_of_beginsRef hc, Field.denote, ← htext]
      exact h.read_text hf trivial

theorem reads_fieldType {reference : Reader JType} (h : ReadsRefs resolve room reference) :
    (fieldType reference).Reads anything
      (fun f : Field => Fits (knownTo resolve) room f.cost f.names) Field.text
      (Field.denote (meaningBy resolve)) :=
  (reads_fieldType_of h).of_iff fun _ => fits_field

theorem reads_argument {reference : Reader JType} (h : ReadsRefs resolve room reference) :
    (argument reference).Reads anything
      (fun arg : Arg => Fits (knownTo resolve) room arg.cost arg.names) Arg.text
      (Arg.denote (meaningBy resolve)) := by
  have hbounded : ∀ dir : Variance,
      ((reference.after dir.sign).map (JType.bounded dir)).Reads _ _ _ _ := fun dir =>
    (h.after dir.sign).map (JType.bounded dir)
  refine reads_byFirst (fun c t a r hread => ?_) fun arg harg => ?_
  · -- the same form is read by either sign, which tells its direction
    have hform : ∀ dir : Variance,
        ((reference.after dir.sign).map (JType.bounded dir)).read (c :: t) = some (a, r) →
        ∃ arg : Arg, Fits (knownTo resolve) room arg.cost arg.names ∧
          c :: t = arg.text ++ r ∧ arg.denote (meaningBy resolve) = a := by
      intro dir hread
      obtain ⟨q, hq, hs, rfl⟩ := (hbounded dir _ a r trivial).1 hread
      refine ⟨.bounded dir q, ?_, ?_, ?_⟩
      · rwa [Arg.cost, Arg.names]
      · rwa [Arg.text]
      · rw [Arg.denote]
    split at hread
    · obtain ⟨hs, rfl⟩ := read_mark_eq_some_iff.1 hread
      refine ⟨.any, ?_, ?_, ?_⟩
      · simp [Fits, Arg.cost, Arg.names]
      · rw [Arg.text, hs, List.singleton_append]
      · rw [Arg.denote]
    · exact hform .upper hread
    · exact hform .lower hread
    · obtain ⟨q, hq, hs, rfl⟩ := (h _ a r trivial).1 hread
      refine ⟨.exact q, ?_, ?_, ?_⟩
      · rwa [Arg.cost, Arg.names]
      · rwa [Arg.text]
      · rw [Arg.denote]
  · cases arg with
    | any =>
      refine ⟨'*', [], by rw [Arg.text], fun r => ?_⟩
      rw [Arg.denote]
      exact read_mark_eq_some_iff.2 ⟨rfl, rfl⟩
    | bounded dir q =>
      rw [Arg.cost, Arg.names] at harg
      refine ⟨dir.sign, q.text, by rw [Arg.text], fun r => ?_⟩
      have hread := (hbounded dir).read_text (r := r) harg trivial
      rw [Arg.denote]
      cases dir <;> exact hread
    | exact q =>
      rw [Arg.cost, Arg.names] at harg
      obtain ⟨c, w, htext, hc⟩ := q.text_eq_cons
      refine ⟨c, w, by rw [Arg.text, htext], fun r => ?_⟩
      have hread := Reads.read_text h (r := r) harg trivial
      rw [Arg.denote]
      rw [htext] at hread
      rcases hc with rfl | rfl | rfl <;> exact hread

/-- What is read of one class of a nested class name. -/
def segmentValue (env : String → JType) : Form.Segment → Segment
  | .mk name args =>
    (name.chars, if args.isEmpty then none else some (args.map (Arg.denote env)))

@[simp] theorem fst_segmentValue (env : String → JType) (segment : Form.Segment) :
    (segmentValue env segment).1 = segment.name := by
  cases segment
  rfl

@[simp] theorem getD_segmentValue (env : String → JType) (segment : Form.Segment) :
    (segmentValue env segment).2.getD [] = segment.denote env := by
  obtain ⟨name, args⟩ := segment
  rw [segmentValue, Segment.denote]
  cases args <;> rfl

/-- One class of a nested class name is read up to the `.` or `;` behind it. -/
theorem reads_segment {arguments : Reader (List JType)} (h : ReadsArgs resolve room arguments) :
    (segment arguments).Reads (fun r => ∃ c t, r = c :: t ∧ (c = '.' ∨ c = ';'))
      (fun segment : Form.Segment => Fits (knownTo resolve) room segment.cost segment.names)
      Segment.text (segmentValue (meaningBy resolve)) := by
  have hrun : (run endsSegment).Reads _ (fun _ : Word ['<', '.', ';'] => True) _ _ :=
    reads_run (by simp [endsSegment, or_assoc])
  intro s a r hr
  obtain ⟨c, t, rfl, hc⟩ := hr
  have hstop : ∃ c' t', c :: t = c' :: t' ∧ c' ∈ ['<', '.', ';'] :=
    ⟨c, t, rfl, by rcases hc with rfl | rfl <;> simp⟩
  have hplain : (c :: t).head? ≠ some '<' := by rcases hc with rfl | rfl <;> simp
  have hargs : ∀ u : List Char, ∃ c' t', '<' :: u = c' :: t' ∧ c' ∈ ['<', '.', ';'] := fun u =>
    ⟨'<', u, rfl, by simp⟩
  rw [segment, read_andIf_eq_some_iff]
  constructor
  · intro hread
    rcases hread with ⟨u, d, hname, hread, ha⟩ | ⟨hname, -, ha⟩
    · obtain ⟨word, -, rfl, hword⟩ := (hrun _ _ _ (hargs u)).1 hname
      obtain ⟨args, hfit, hu, rfl⟩ := (h _ _ _ trivial).1 hread
      refine ⟨.mk word args, fits_segment.2 (.inr hfit), ?_, ?_⟩
      · rw [hu, Segment.text, if_neg (by simpa using hfit.1), List.append_assoc]
      · rw [segmentValue, if_neg (by simpa using hfit.1), hword, ← ha]
    · obtain ⟨word, -, rfl, hword⟩ := (hrun _ _ _ hstop).1 hname
      refine ⟨.mk word [], fits_segment.2 (.inl rfl), ?_, ?_⟩
      · simp [Segment.text]
      · rw [segmentValue, hword]
        exact Prod.ext rfl ha.symm
  · intro hform
    obtain ⟨⟨word, args⟩, hfit, rfl, rfl⟩ := hform
    rcases fits_segment.1 hfit with rfl | hfit
    · refine .inr ⟨?_, hplain, rfl⟩
      exact (hrun _ _ _ hstop).2 ⟨word, trivial, by simp [Segment.text], rfl⟩
    · refine .inl ⟨args.flatMap Arg.text ++ ['>'] ++ c :: t,
        args.map (Arg.denote (meaningBy resolve)), ?_, ?_, ?_⟩
      · refine (hrun _ _ _ (hargs _)).2 ⟨word, trivial, ?_, rfl⟩
        rw [Segment.text, if_neg (by simpa using hfit.1)]
        simp
      · exact h.read_text hfit trivial
      · rw [segmentValue, if_neg (by simpa using hfit.1)]

/-- The type that is made of the classes of a nested class name. -/
theorem classOfSegments_map (env : String → JType) (c : ClassRef) :
    classOfSegments (segmentValue env c.outermost :: c.inner.map (segmentValue env)) =
      c.ref.denote env := by
  have hargs : ∀ (outer : Form.Segment) (inner : List Form.Segment),
      ((segmentValue env outer :: inner.map (segmentValue env)).getLast?.bind (·.2)).getD [] =
        (inner.map (Segment.denote env)).getLastD (outer.denote env) := by
    intro outer inner
    induction inner generalizing outer with
    | nil => exact getD_segmentValue env outer
    | cons next inner ih =>
      rw [List.map_cons, List.getLast?_cons_cons, ih, List.map_cons, List.getLastD_cons]
  rw [classOfSegments, hargs, ClassRef.ref, Ref.denote, className, List.map_cons, List.map_map,
    binaryName, fst_segmentValue, List.flatMap_map]
  simp only [Function.comp_apply, fst_segmentValue]

theorem reads_classType {arguments : Reader (List JType)} (h : ReadsArgs resolve room arguments) :
    (classType arguments).Reads anything
      (fun c : ClassRef => Fits (knownTo resolve) (room + 1) c.ref.cost c.ref.names)
      (fun c => c.ref.text) fun c => c.ref.denote (meaningBy resolve) := by
  have hsegment := reads_segment h
  have hchain := hsegment.chain hsegment '.' fun r => ⟨'.', r, rfl, .inl rfl⟩
  have hclosed := hchain.before ';' fun r => ⟨⟨';', r, rfl, .inr rfl⟩, by simp⟩
  refine ((hclosed.after 'L').map classOfSegments).image (fun z => ⟨z.1, z.2⟩) (fun c => ?_)
    (fun z => ?_) fun z => ?_
  · rw [ClassRef.ref, fits_cls]
    constructor
    · intro hc
      exact ⟨(c.outermost, c.inner), hc, rfl⟩
    · intro hz
      obtain ⟨z, hz, rfl⟩ := hz
      exact hz
  · rw [ClassRef.ref, Ref.text]
  · exact (classOfSegments_map _ ⟨z.1, z.2⟩).symm

/-- A reference is read as a class, an array or a variable. -/
theorem reads_referenceOver_of {d : Dialect} {inner : Level} {env : String → JType}
    {okClass : ClassRef → Prop} {okElem : Field → Prop} {okName : Word [';'] → Prop}
    (hclass : (classType inner.arguments).Reads anything okClass (fun c => c.ref.text)
      fun c => c.ref.denote env)
    (helem : (fieldType inner.reference).Reads anything okElem Field.text (Field.denote env))
    (hvar : (typeVariable d).Reads anything okName (fun name => (Ref.var name).text)
      fun name => (Ref.var name).denote env) :
    (referenceOver d inner).Reads anything (Ref.Of okClass okElem okName) Ref.text
      (Ref.denote env) := by
  have harray := (helem.after '[').map JType.array
  refine reads_byFirst (fun c t a r hread => ?_) fun q hq => ?_
  · split at hread
    · obtain ⟨form, hform, hs, rfl⟩ := (hclass _ a r trivial).1 hread
      exact ⟨form.ref, hform, hs, rfl⟩
    · obtain ⟨elem, helem, hs, rfl⟩ := (harray _ a r trivial).1 hread
      exact ⟨.array elem, helem, by rwa [Ref.text], by rw [Ref.denote]⟩
    · obtain ⟨name, hname, hs, rfl⟩ := (hvar _ a r trivial).1 hread
      exact ⟨.var name, hname, hs, rfl⟩
  · cases q with
    | cls outermost inner =>
      refine ⟨'L', _, by rw [Ref.text], fun r => ?_⟩
      refine (hclass _ _ r trivial).2 ⟨⟨outermost, inner⟩, hq, ?_, rfl⟩
      show _ = (Ref.cls outermost inner).text ++ r
      rw [Ref.text]
    | array elem =>
      refine ⟨'[', elem.text, by rw [Ref.text], fun r => ?_⟩
      rw [Ref.denote]
      exact harray.read_text hq trivial
    | var name =>
      refine ⟨'T', name.chars ++ [';'], by rw [Ref.text], fun r => ?_⟩
      have hread := hvar.read_text (x := name) (r := r) hq trivial
      rwa [Ref.text] at hread

theorem reads_referenceOver {inner : Level} (href : ReadsRefs resolve room inner.reference)
    (hargs : ReadsArgs resolve room inner.arguments) :
    ReadsRefs resolve (room + 1) (referenceOver (.signature resolve) inner) :=
  (reads_referenceOver_of (reads_classType hargs) (reads_fieldType href)
    reads_typeVariable).of_iff fun _ => fits_succ_iff

theorem reads_argumentsOver {inner : Level} (href : ReadsRefs resolve room inner.reference) :
    ReadsArgs resolve (room + 1) (argumentsOver (.signature resolve) inner) := by
  have hlist := (reads_argument href).manyTill '>' (fun _ _ _ => trivial) fun _ => trivial
  refine (hlist.nonempty.after '<').of_iff fun args => ?_
  simp only [argsFit_succ_iff, ne_eq, List.map_eq_nil_iff]
  constructor
  · intro hfit
    exact ⟨fun arg harg => ⟨hfit.2 arg harg, arg.head?_text⟩, hfit.1⟩
  · intro hfit
    exact ⟨hfit.2, fun arg harg => (hfit.1 arg harg).1⟩

/-- With a number of levels left, the readers read what fits into them. -/
theorem reads_level (resolve : String → Option JType) (room : Nat) :
    ReadsRefs resolve room (level (.signature resolve) room).reference ∧
      ReadsArgs resolve room (level (.signature resolve) room).arguments := by
  induction room with
  | zero =>
    constructor
    · exact reads_fail.of_iff fun q => iff_false_intro (not_fits_zero q)
    · exact reads_fail.of_iff fun args => iff_false_intro (not_argsFit_zero args)
  | succ room ih => exact ⟨reads_referenceOver ih.1 ih.2, reads_argumentsOver ih.1⟩

end Productions

/-! ## Scopes -/

section Scope

variable {scope : List TypeVar} {name : String} {t : JType}

/-- The meaning of a name in a scope. -/
def lookup (scope : List TypeVar) (name : String) : Option JType :=
  (scope.reverse.find? (·.name == name)).map .var

/-- Looking a name up from the end of the scope finds the last variable of that name. -/
theorem lookup_eq_some_iff : lookup scope name = some t ↔ StandsFor scope name t := by
  rw [lookup, Option.map_eq_some_iff]
  constructor
  · intro h
    obtain ⟨v, hfind, rfl⟩ := h
    obtain ⟨hv, after, before, hscope, hafter⟩ := List.find?_eq_some_iff_append.1 hfind
    refine ⟨before.reverse, v, after.reverse, ?_, by simpa using hv, ?_, rfl⟩
    · rw [← List.reverse_reverse scope, hscope]
      simp
    · intro w hw
      simpa using hafter w (List.mem_reverse.1 hw)
  · intro h
    obtain ⟨before, v, after, rfl, rfl, hafter, rfl⟩ := h
    refine ⟨v, List.find?_eq_some_iff_append.2 ⟨by simp, ?_⟩, rfl⟩
    exact ⟨after.reverse, before.reverse, by simp, by simpa using hafter⟩

/-- There are meanings for names exactly if all of them are known, and what depends on no other
names is then given by the meanings in the scope. -/
theorem exists_resolves_iff {α : Type} {names : List String} {value : (String → JType) → α} {a : α}
    (hvalue : ∀ env env', (∀ name ∈ names, env name = env' name) → value env = value env') :
    (∃ env, Resolves scope names env ∧ value env = a) ↔
      (∀ name ∈ names, knownTo (lookup scope) name) ∧ value (meaningBy (lookup scope)) = a := by
  have hresolve : ∀ name t, StandsFor scope name t ↔ _ := fun _ _ =>
    lookup_eq_some_iff.symm.trans resolve_eq_some_iff
  constructor
  · intro h
    obtain ⟨env, henv, rfl⟩ := h
    have hmeaning := fun name hname => (hresolve name _).1 (henv name hname)
    exact ⟨fun name hname => (hmeaning name hname).1,
      hvalue _ _ fun name hname => (hmeaning name hname).2⟩
  · intro h
    exact ⟨_, fun name hname => (hresolve name _).2 ⟨h.1 name hname, rfl⟩, h.2⟩

theorem readsRefs_top (scope : List TypeVar) :
    ReadsRefs (lookup scope) maxNesting (top (.inScope scope)).reference :=
  (reads_level (lookup scope) maxNesting).1

end Scope

end Grammar

/-! ## Field signatures -/

namespace Form

/-- A text writes a type exactly if it is read as a whole. -/
theorem writes_iff {scope : List TypeVar} {s : List Char} {t : JType} :
    Writes scope s t ↔ (Grammar.top (.inScope scope)).reference.all s = some t := by
  rw [Text.Reader.all_eq_some_iff, Grammar.readsRefs_top scope s t [] trivial]
  have hform : ∀ ref : Ref, (∃ env, Resolves scope ref.names env ∧ ref.denote env = t) ↔ _ :=
    fun ref => Grammar.exists_resolves_iff fun _ _ => ref.denote_congr
  constructor
  · intro h
    obtain ⟨ref, env, rfl, hcost, henv⟩ := h
    obtain ⟨hknown, ht⟩ := (hform ref).1 ⟨env, henv⟩
    exact ⟨ref, ⟨hcost, hknown⟩, (List.append_nil _).symm, ht⟩
  · intro h
    obtain ⟨ref, ⟨hcost, hknown⟩, hs, ht⟩ := h
    obtain ⟨env, henv⟩ := (hform ref).2 ⟨hknown, ht⟩
    exact ⟨ref, env, by rw [hs, List.append_nil], hcost, henv⟩

end Form

/-- A field signature is read as a type exactly if it writes this type, and is rejected as a whole
if it writes none. -/
theorem JType.ofSignature_exact (scope : List TypeParam) (text : String) :
    (∀ t, JType.ofSignature scope text = .ok t ↔
      Form.Writes (TypeParam.vars scope) text.toList t) ∧
    (JType.ofSignature scope text = .error (.notSignature text) ↔
      ¬ ∃ t, Form.Writes (TypeParam.vars scope) text.toList t) := by
  simp only [Form.writes_iff, JType.ofSignature]
  cases (Grammar.top (.inScope (TypeParam.vars scope))).reference.all text.toList with
  | none => simp
  | some t => simp

example : JType.ofSignature [] "Ljava/util/Map<*>.Entry<[I>;" =
    .ok (.cls "java.util.Map$Entry" [.array (.prim .int)]) := by decide +kernel

end Unerase
