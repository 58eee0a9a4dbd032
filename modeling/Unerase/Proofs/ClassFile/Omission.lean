import Unerase.Proofs.ClassFile.Extension
import Unerase.Proofs.ClassFile.Unambiguous
import Unerase.Proofs.ClassFile.Writing

/-!
# Bounds that are left out

The bounds of a type parameter are never left out altogether: the bound by a class may be empty if
there is one by an interface, but some reference has to stand behind the name. So a parameter that
is bounded by `java.lang.Object` alone has to say so. Without this bound, the reader takes what
comes next for it. That is the end of the header or the name of the next parameter, and unless the
name begins like a reference the whole signature is rejected. In no case does it declare what it
did before (`empty_bound_differs`).
-/

namespace Unerase

namespace Form

/-! ## The written form of `java.lang.Object` -/

/-- The class `java.lang.Object`. -/
def objectClass : ClassRef := ⟨.mk ⟨"java/lang/Object".toList, by simp, by simp⟩ [], []⟩

/-- The class `java.lang.Object` as a reference. -/
def objectRef : Ref := objectClass.ref

@[simp] theorem denote_objectRef (env : String → JType) : objectRef.denote env = .object := by
  have hname : className objectClass.outermost objectClass.inner = JType.objectName := by
    decide +kernel
  rw [objectRef, ClassRef.ref, Ref.denote, hname]
  simp [objectClass, Segment.denote, JType.object]

/-- There is only one way to write it, as long as names stand for variables. -/
theorem Ref.text_of_denote_object {env : String → JType} {r : Ref}
    (hvars : ∀ name ∈ r.names, (env name).vars ≠ []) (h : r.denote env = .object) :
    r.text = "Ljava/lang/Object;".toList := by
  cases r with
  | cls outermost inner =>
    obtain ⟨⟨chars, hne, hfree⟩, args⟩ := outermost
    rw [Ref.denote, JType.object, JType.cls.injEq] at h
    obtain ⟨hname, hargs⟩ := h
    have hchars := congrArg String.toList hname
    rw [className, String.toList_ofList, Segment.name] at hchars
    cases inner with
    | nil =>
      have hslash := @map_slash_map_dot chars fun hdot => hfree '.' hdot (by simp)
      rw [List.flatMap_nil, List.append_nil] at hchars
      rw [hchars] at hslash
      obtain rfl : args = [] := by simpa [Segment.denote] using hargs
      simp [Ref.text, Segment.text, ← hslash, JType.objectName]
    | cons segment inner =>
      -- there is no nested class in the name
      have hnested : '$' ∈ JType.objectName.toList := by simp [← hchars]
      exact absurd hnested (by decide)
  | array elem =>
    rw [Ref.denote] at h
    cases h
  | var name =>
    rw [Ref.denote] at h
    exact absurd (by rw [h]; rfl) (hvars _ (by simp [Ref.names]))

/-- The class `java.lang.Object` as the only bound. -/
def onlyObject : Bounds := .byClass objectRef []

/-! ## Parameters one behind the other -/

/-- A header without one of its parameters' bounds: for the parameter, nothing is written but its
name and the `:` behind it. -/
def emptied (before : List Param) (name : Word [':']) (after : List Param) : List Char :=
  '<' :: (before.flatMap Param.text ++
    (name.chars ++ ':' :: (after.flatMap Param.text ++ ['>'])))

variable {s r : List Char}

/-- What stands before a parameter and has no `:` in it counts as part of its name. -/
theorem Param.text_append_ne {p q : Param} {w : List Char} (hsame : p.name.chars = q.name.chars)
    (hne : w ≠ []) (hw : ':' ∉ w) : p.text ++ s ≠ w ++ (q.text ++ r) := by
  intro h
  let longer : Word [':'] := ⟨w ++ q.name.chars, by simp [hne], fun c hc hcolon => by
    obtain rfl : c = ':' := by simpa using hcolon
    exact (List.mem_append.1 hc).elim hw fun hq => q.name.free _ hq hcolon⟩
  have hword : p.name.chars ++ ':' :: (p.bounds.text ++ s) =
      longer.chars ++ ':' :: (q.bounds.text ++ r) := by
    simpa [Param.text, longer] using h
  have hlength := congrArg (·.chars.length) (Word.append_colon_inj hword).1
  simp only [longer, hsame, List.length_append] at hlength
  exact hne (List.length_eq_zero_iff.1 (by omega))

/-- No bound follows behind a parameter. -/
theorem head?_flatMap_text (params : List Param) (hs : s.head? ≠ some ':') :
    (params.flatMap Param.text ++ s).head? ≠ some ':' := by
  cases params with
  | nil => exact hs
  | cons p params =>
    rw [List.flatMap_cons, List.append_assoc, p.head?_text]
    exact p.head?_ne_colon

/-- A list of parameters that begins with the texts of others has as many of its own for them. -/
theorem exists_append_of_text {before params : List Param} {c : Char} {w : List Char}
    (hbefore : ∀ p ∈ before, p.name.chars.head? ≠ some '>') (hc : c ≠ ':')
    (h : before.flatMap Param.text ++ c :: w = params.flatMap Param.text ++ '>' :: r) :
    ∃ front rest, params = front ++ rest ∧ front.length = before.length ∧
      c :: w = rest.flatMap Param.text ++ '>' :: r := by
  induction before generalizing params with
  | nil => exact ⟨[], params, rfl, rfl, h⟩
  | cons p before ih =>
    obtain ⟨hp, hbefore⟩ := List.forall_mem_cons.1 hbefore
    rw [List.flatMap_cons, List.append_assoc] at h
    cases params with
    | nil =>
      have hhead := congrArg List.head? h
      rw [p.head?_text] at hhead
      exact absurd hhead hp
    | cons q params =>
      rw [List.flatMap_cons, List.append_assoc] at h
      obtain ⟨-, hrest⟩ := p.told q _ _
        (head?_flatMap_text before (by simpa using hc)) (head?_flatMap_text params (by simp)) h
      obtain ⟨front, rest, rfl, hlength, heq⟩ := ih hbefore hrest
      exact ⟨q :: front, rest, rfl, by simp [hlength], heq⟩

/-- Up to where a parameter stands in a header, no name begins with the mark that closes it. -/
theorem Header.apart_of_params_eq {header : Header} {before after : List Param} {p : Param}
    (h : header.params = before ++ p :: after) :
    (∀ q ∈ before, q.name.chars.head? ≠ some '>') ∧ p.name.chars.head? ≠ some '>' := by
  have hapart := header.apart
  rw [h, List.forall_mem_append, List.forall_mem_cons] at hapart
  exact ⟨hapart.1, hapart.2.1⟩

/-- Where a header is written like one without the bounds of some parameter, its own parameter in
that place has the same name, and its bounds are written in what follows there. -/
theorem Header.exists_of_text_eq_emptied {header : Header} {before after : List Param}
    {name : Word [':']} (hbefore : ∀ p ∈ before, p.name.chars.head? ≠ some '>')
    (hname : name.chars.head? ≠ some '>')
    (h : header.text ++ r = emptied before name after ++ s) (hr : r.head? ≠ some '<') :
    ∃ front q rest, header.params = front ++ q :: rest ∧ front.length = before.length ∧
      q.name.chars = name.chars ∧
      after.flatMap Param.text ++ '>' :: s =
        q.bounds.text ++ (rest.flatMap Param.text ++ '>' :: r) := by
  obtain ⟨chars, hne, hfree⟩ := name
  obtain ⟨c, w, rfl⟩ := List.exists_cons_of_ne_nil hne
  have hc : c ≠ ':' := fun hcolon => hfree c List.mem_cons_self (by simp [hcolon])
  by_cases hnil : header.params = []
  · rw [Header.text, if_pos (by simpa using hnil), emptied] at h
    exact absurd (congrArg List.head? h) hr
  rw [Header.text, if_neg (by simpa using hnil), emptied] at h
  have hparams : before.flatMap Param.text ++
      c :: (w ++ ':' :: (after.flatMap Param.text ++ '>' :: s)) =
        header.params.flatMap Param.text ++ '>' :: r := by
    simpa using (List.cons.inj h).2.symm
  obtain ⟨front, rest, hsplit, hlength, heq⟩ := exists_append_of_text hbefore hc hparams
  cases rest with
  | nil => exact absurd (congrArg List.head? heq) hname
  | cons q rest =>
    have hword : (⟨c :: w, hne, hfree⟩ : Word [':']).chars ++
        ':' :: (after.flatMap Param.text ++ '>' :: s) =
          q.name.chars ++ ':' :: (q.bounds.text ++ (rest.flatMap Param.text ++ '>' :: r)) := by
      simpa [Param.text] using heq
    obtain ⟨hsame, hbounds⟩ := Word.append_colon_inj hword
    exact ⟨front, q, rest, hsplit, hlength, congrArg Word.chars hsame.symm, hbounds⟩

/-! ## What is read instead of the bound -/

theorem Bounds.text_eq_cons (b : Bounds) : ∃ c w, b.text = c :: w ∧ (c = ':' ∨ beginsRef c) := by
  cases b with
  | byClass bound interfaces =>
    obtain ⟨c, w, htext, hc⟩ := bound.text_eq_cons
    exact ⟨c, w ++ _, by rw [Bounds.text, htext, List.cons_append], .inr hc⟩
  | byInterfaces first more => exact ⟨':', _, rfl, .inl rfl⟩

section Emptied

variable {header : Header} {before after : List Param} {name : Word [':']}

/-- No header is written like one without the bounds of a parameter if the name behind it does not
begin like a reference. -/
theorem Header.text_ne_emptied (hbefore : ∀ p ∈ before, p.name.chars.head? ≠ some '>')
    (hname : name.chars.head? ≠ some '>') (hr : r.head? ≠ some '<')
    (hafter : ∀ p ∈ after.head?, ∀ c ∈ p.name.chars.head?, ¬ beginsRef c) :
    header.text ++ r ≠ emptied before name after ++ s := by
  intro h
  obtain ⟨_, q, _, -, -, -, hbounds⟩ := exists_of_text_eq_emptied hbefore hname h hr
  obtain ⟨c, w, htext, hc⟩ := q.bounds.text_eq_cons
  have hhead := congrArg List.head? hbounds
  rw [htext, List.cons_append, List.head?_cons] at hhead
  cases after with
  | nil =>
    obtain rfl : '>' = c := Option.some.inj hhead
    rcases hc with hc | hc | hc | hc <;> cases hc
  | cons p after =>
    rw [List.flatMap_cons, List.append_assoc, p.head?_text] at hhead
    rcases hc with rfl | hc
    · exact p.head?_ne_colon hhead
    · exact hafter p rfl c hhead hc

/-- Headers that declare the same have the same names and bounds. -/
theorem Header.map_eq_of_declare_eq {header' : Header} {owner : Owner} {env env' : String → JType}
    (h : header.declare owner env = header'.declare owner env') :
    header.params.map (fun p => (p.name.chars, p.bounds.refs.map (Ref.denote env))) =
      header'.params.map fun p => (p.name.chars, p.bounds.refs.map (Ref.denote env')) := by
  have hlength := congrArg List.length h
  simp only [declare, List.length_mapIdx] at hlength
  refine List.ext_getElem (by simpa using hlength) fun i hi hi' => ?_
  have hparam := List.getElem_of_eq h (i := i) (by simpa [declare] using hi)
  simp only [declare, List.getElem_mapIdx, TypeParam.mk.injEq, TypeVar.mk.injEq,
    String.ofList_inj] at hparam
  simp only [List.getElem_map, Prod.mk.injEq]
  exact ⟨hparam.1.2, hparam.2⟩

/-- No header that is written like one without the bound declares the same as with the bound. -/
theorem Header.declare_ne_of_text_eq_emptied {header' : Header} {owner : Owner}
    {env env' : String → JType}
    (hparams : header'.params = before ++ ⟨name, onlyObject⟩ :: after)
    (hvars : ∀ n ∈ header.refs.flatMap Ref.names, (env n).vars ≠ [])
    (h : header.text ++ r = emptied before name after ++ s) (hr : r.head? ≠ some '<') :
    header.declare owner env ≠ header'.declare owner env' := by
  intro hsame
  obtain ⟨hbefore, hname⟩ := apart_of_params_eq hparams
  obtain ⟨front, q, rest, hsplit, hlength, -, hbounds⟩ :=
    exists_of_text_eq_emptied hbefore hname h hr
  have hmap := map_eq_of_declare_eq hsame
  rw [hsplit, hparams, List.map_append, List.map_append] at hmap
  have hrest := (List.append_inj hmap (by simpa using hlength)).2
  simp only [List.map_cons, List.cons.injEq, Prod.mk.injEq] at hrest
  obtain ⟨⟨-, hobject⟩, hafter⟩ := hrest
  obtain ⟨ref, hrefs, hdenote⟩ := List.map_eq_singleton_iff.1 hobject
  have href : ref ∈ header.refs :=
    List.mem_flatMap.2 ⟨q, by simp [hsplit], by simp [hrefs]⟩
  have hknown : ∀ n ∈ ref.names, (env n).vars ≠ [] := fun n hn =>
    hvars n (List.mem_flatMap.2 ⟨ref, href, hn⟩)
  have htext := Ref.text_of_denote_object hknown (hdenote.trans (denote_objectRef env'))
  obtain ⟨qname, qbounds⟩ := q
  cases qbounds with
  | byInterfaces first more =>
    have hcolon := head?_flatMap_text (s := '>' :: s) after (by simp)
    exact hcolon (by rw [hbounds]; rfl)
  | byClass bound interfaces =>
    obtain ⟨rfl, rfl⟩ : bound = ref ∧ interfaces = [] := by simpa [Bounds.refs] using hrefs
    simp only [Bounds.text, htext, List.flatMap_nil, List.append_nil] at hbounds
    cases after with
    | nil => simp at hbounds
    | cons p after =>
      -- the next name would have to begin with the bound and then with itself
      obtain ⟨p', rest, rfl, hp, -⟩ := List.map_eq_cons_iff.1 hafter
      have hsamename : p.name.chars = p'.name.chars := (congrArg Prod.fst hp).symm
      have hbegin : p.text ++ (after.flatMap Param.text ++ '>' :: s) =
          "Ljava/lang/Object;".toList ++ (p'.text ++ (rest.flatMap Param.text ++ '>' :: r)) := by
        simpa using hbounds
      exact Param.text_append_ne hsamename (by decide) (by decide) hbegin

end Emptied

/-! ## Signatures without the bound -/

/-- The text of a class signature behind its header. -/
def ClassForm.body (form : ClassForm) : List Char :=
  form.superClass.ref.text ++ form.interfaces.flatMap fun c => c.ref.text

theorem ClassForm.text_eq (form : ClassForm) : form.text = form.header.text ++ form.body := by
  rw [text, body, List.append_assoc]

theorem ClassForm.head?_body (form : ClassForm) : form.body.head? ≠ some '<' := by
  rw [body, ClassRef.ref, Ref.text]
  simp

/-- The text of a method signature behind its header. -/
def MethodForm.body (form : MethodForm) : List Char :=
  '(' :: (form.params.flatMap Field.text ++ [')']) ++ form.result.text ++
    form.throws.flatMap fun r => '^' :: r.text

theorem MethodForm.text_eq (form : MethodForm) : form.text = form.header.text ++ form.body := by
  simp [text, body]

theorem MethodForm.head?_body (form : MethodForm) : form.body.head? ≠ some '<' := by
  simp [body]

section Read

variable {env : String → JType} {before after : List Param} {name : Word [':']}

/-- Without the bound, no class signature is read that declares the same. -/
theorem ClassForm.read?_emptied_ne {owner : String} {form : ClassForm}
    (hparams : form.header.params = before ++ ⟨name, onlyObject⟩ :: after) :
    ClassSignature.read? owner (emptied before name after ++ form.body) ≠
      some (form.denote owner env) := by
  intro h
  obtain ⟨form', env', htext, -, hresolves, hsame⟩ := ClassSignature.read?_eq_some_iff.1 h
  rw [form'.text_eq] at htext
  have hvars := (List.forall_mem_append.1 hresolves.vars_ne_nil).1
  exact Header.declare_ne_of_text_eq_emptied hparams hvars htext form'.head?_body
    (congrArg ClassSignature.typeParams hsame)

theorem MethodForm.read?_emptied_ne {id : MethodRef} {classParams : List TypeParam}
    {form : MethodForm}
    (hparams : form.header.params = before ++ ⟨name, onlyObject⟩ :: after) :
    MethodSignature.read? id classParams (emptied before name after ++ form.body) ≠
      some (form.denote id env) := by
  intro h
  obtain ⟨form', env', htext, -, hresolves, hsame⟩ := MethodSignature.read?_eq_some_iff.1 h
  rw [form'.text_eq] at htext
  have hvars := hresolves.vars_ne_nil
  simp only [MethodForm.names, List.forall_mem_append] at hvars
  exact Header.declare_ne_of_text_eq_emptied hparams hvars.1.1.1 htext form'.head?_body
    (congrArg MethodSignature.typeParams hsame)

/-- If the next name does not begin like a reference, nothing is read at all. -/
theorem ClassForm.read?_emptied_eq_none {owner : String} {form : ClassForm}
    (hparams : form.header.params = before ++ ⟨name, onlyObject⟩ :: after)
    (hafter : ∀ p ∈ after.head?, ∀ c ∈ p.name.chars.head?, ¬ beginsRef c) :
    ClassSignature.read? owner (emptied before name after ++ form.body) = none := by
  refine Option.eq_none_iff_forall_ne_some.2 fun signature h => ?_
  obtain ⟨form', env', htext, -⟩ := ClassSignature.read?_eq_some_iff.1 h
  rw [form'.text_eq] at htext
  obtain ⟨hbefore, hname⟩ := Header.apart_of_params_eq hparams
  exact Header.text_ne_emptied hbefore hname form'.head?_body hafter htext

theorem MethodForm.read?_emptied_eq_none {id : MethodRef} {classParams : List TypeParam}
    {form : MethodForm}
    (hparams : form.header.params = before ++ ⟨name, onlyObject⟩ :: after)
    (hafter : ∀ p ∈ after.head?, ∀ c ∈ p.name.chars.head?, ¬ beginsRef c) :
    MethodSignature.read? id classParams (emptied before name after ++ form.body) = none := by
  refine Option.eq_none_iff_forall_ne_some.2 fun signature h => ?_
  obtain ⟨form', env', htext, -⟩ := MethodSignature.read?_eq_some_iff.1 h
  rw [form'.text_eq] at htext
  obtain ⟨hbefore, hname⟩ := Header.apart_of_params_eq hparams
  exact Header.text_ne_emptied hbefore hname form'.head?_body hafter htext

end Read

end Form

/-! ## Answers -/

theorem ClassSignature.read_eq_ok_iff {owner text : String} {signature : ClassSignature} :
    read owner text = .ok signature ↔ read? owner text.toList = some signature := by
  rw [read]
  split <;> simp [*]

theorem ClassSignature.read_of_eq_none {owner text : String} (h : read? owner text.toList = none) :
    read owner text = .error (.notSignature text) := by
  rw [read, h]

theorem MethodSignature.read_eq_ok_iff {id : MethodRef} {classParams : List TypeParam}
    {text : String} {signature : MethodSignature} :
    read id classParams text = .ok signature ↔
      read? id classParams text.toList = some signature := by
  rw [read]
  split <;> simp [*]

theorem MethodSignature.read_of_eq_none {id : MethodRef} {classParams : List TypeParam}
    {text : String} (h : read? id classParams text.toList = none) :
    read id classParams text = .error (.notSignature text) := by
  rw [read, h]

namespace Form

/-- The text of a class signature without the bounds of one of its parameters. -/
def ClassForm.without (form : ClassForm) (before : List Param) (p : Param) (after : List Param) :
    String :=
  String.ofList (emptied before p.name after ++ form.body)

/-- The text of a method signature without the bounds of one of its parameters. -/
def MethodForm.without (form : MethodForm) (before : List Param) (p : Param) (after : List Param) :
    String :=
  String.ofList (emptied before p.name after ++ form.body)

section Without

variable {env : String → JType} {before after : List Param} {p : Param}

theorem ClassForm.read_text {owner : String} {form : ClassForm} (hshallow : form.Shallow)
    (hresolves : Resolves (form.header.vars (.ofClass owner)) form.names env) :
    ClassSignature.read owner (String.ofList form.text) = .ok (form.denote owner env) :=
  ClassSignature.read_eq_ok_iff.2 (ClassSignature.read?_eq_some_iff.2
    ⟨form, env, String.toList_ofList.symm, hshallow, hresolves, rfl⟩)

theorem ClassForm.read_without {owner : String} {form : ClassForm}
    (hparams : form.header.params = before ++ p :: after) (hp : p.bounds = onlyObject) :
    ClassSignature.read owner (form.without before p after) ≠ .ok (form.denote owner env) ∧
    ((∀ q ∈ after.head?, ∀ c ∈ q.name.chars.head?, ¬ beginsRef c) →
      ClassSignature.read owner (form.without before p after) =
        .error (.notSignature (form.without before p after))) := by
  obtain ⟨name, _⟩ := p
  obtain rfl := hp
  constructor
  · rw [ne_eq, ClassSignature.read_eq_ok_iff, without, String.toList_ofList]
    exact read?_emptied_ne hparams
  · intro hafter
    refine ClassSignature.read_of_eq_none ?_
    rw [without, String.toList_ofList]
    exact read?_emptied_eq_none hparams hafter

theorem MethodForm.read_text {id : MethodRef} {classParams : List TypeParam} {form : MethodForm}
    (hshallow : form.Shallow) (hresolves : Resolves
      (TypeParam.vars classParams ++ form.header.vars (.ofMethod id)) form.names env) :
    MethodSignature.read id classParams (String.ofList form.text) = .ok (form.denote id env) :=
  MethodSignature.read_eq_ok_iff.2 (MethodSignature.read?_eq_some_iff.2
    ⟨form, env, String.toList_ofList.symm, hshallow, hresolves, rfl⟩)

theorem MethodForm.read_without {id : MethodRef} {classParams : List TypeParam} {form : MethodForm}
    (hparams : form.header.params = before ++ p :: after) (hp : p.bounds = onlyObject) :
    MethodSignature.read id classParams (form.without before p after) ≠
      .ok (form.denote id env) ∧
    ((∀ q ∈ after.head?, ∀ c ∈ q.name.chars.head?, ¬ beginsRef c) →
      MethodSignature.read id classParams (form.without before p after) =
        .error (.notSignature (form.without before p after))) := by
  obtain ⟨name, _⟩ := p
  obtain rfl := hp
  constructor
  · rw [ne_eq, MethodSignature.read_eq_ok_iff, without, String.toList_ofList]
    exact read?_emptied_ne hparams
  · intro hafter
    refine MethodSignature.read_of_eq_none ?_
    rw [without, String.toList_ofList]
    exact read?_emptied_eq_none hparams hafter

/-- What fails for each member of a list with a property holds for all of them only if there are
none. -/
theorem forall_split_iff {params : List Param} {same : List Param → Param → List Param → Prop}
    (h : ∀ before p after, params = before ++ p :: after → p.bounds = onlyObject →
      ¬ same before p after) :
    (∀ before p after, params = before ++ p :: after → p.bounds = onlyObject →
      same before p after) ↔ ∀ p ∈ params, p.bounds ≠ onlyObject := by
  constructor
  · intro hall p hp hobject
    obtain ⟨before, after, hsplit⟩ := List.append_of_mem hp
    exact h before p after hsplit hobject (hall before p after hsplit hobject)
  · intro hnone before p after hsplit hobject
    exact absurd hobject (hnone p (by simp [hsplit]))

end Without

/-- A signature is read as what it declares. To leave out the bounds of those type parameters that
are bounded by `java.lang.Object` alone makes no difference exactly if there are no such parameters:
without the bound of one of them, the text is never read as the same declaration. If there is no
parameter behind this one, or one with a name that does not begin like a reference, then the text is
rejected as a whole. -/
theorem empty_bound_differs (owner : String) (id : MethodRef) (classParams : List TypeParam)
    (env : String → JType) :
    (∀ form : ClassForm, form.Shallow →
      Resolves (form.header.vars (.ofClass owner)) form.names env →
      ClassSignature.read owner (String.ofList form.text) = .ok (form.denote owner env) ∧
      ((∀ before p after, form.header.params = before ++ p :: after → p.bounds = onlyObject →
        ClassSignature.read owner (form.without before p after) = .ok (form.denote owner env)) ↔
        ∀ p ∈ form.header.params, p.bounds ≠ onlyObject) ∧
      ∀ before p after, form.header.params = before ++ p :: after → p.bounds = onlyObject →
        ClassSignature.read owner (form.without before p after) ≠ .ok (form.denote owner env) ∧
        ((∀ q ∈ after.head?, ∀ c ∈ q.name.chars.head?, ¬ beginsRef c) →
          ClassSignature.read owner (form.without before p after) =
            .error (.notSignature (form.without before p after)))) ∧
    ∀ form : MethodForm, form.Shallow →
      Resolves (TypeParam.vars classParams ++ form.header.vars (.ofMethod id)) form.names env →
      MethodSignature.read id classParams (String.ofList form.text) = .ok (form.denote id env) ∧
      ((∀ before p after, form.header.params = before ++ p :: after → p.bounds = onlyObject →
        MethodSignature.read id classParams (form.without before p after) =
          .ok (form.denote id env)) ↔
        ∀ p ∈ form.header.params, p.bounds ≠ onlyObject) ∧
      ∀ before p after, form.header.params = before ++ p :: after → p.bounds = onlyObject →
        MethodSignature.read id classParams (form.without before p after) ≠
          .ok (form.denote id env) ∧
        ((∀ q ∈ after.head?, ∀ c ∈ q.name.chars.head?, ¬ beginsRef c) →
          MethodSignature.read id classParams (form.without before p after) =
            .error (.notSignature (form.without before p after))) := by
  constructor
  · intro form hshallow hresolves
    refine ⟨form.read_text hshallow hresolves, forall_split_iff fun _ _ _ hparams hp => ?_,
      fun _ _ _ hparams hp => form.read_without hparams hp⟩
    exact (form.read_without hparams hp).1
  · intro form hshallow hresolves
    refine ⟨form.read_text hshallow hresolves, forall_split_iff fun _ _ _ hparams hp => ?_,
      fun _ _ _ hparams hp => form.read_without hparams hp⟩
    exact (form.read_without hparams hp).1

/-- The bound of the first parameter is left out. Before `U` the signature is rejected, and before
`LB` the name is taken for a class. -/
theorem empty_bound_differs_first :
    let shortened := "<T:U:Ljava/lang/Object;>Ljava/lang/Object;"
    let id : MethodRef := ⟨"C", "m", "()V"⟩
    ClassSignature.read "C" shortened = .error (.notSignature shortened) ∧
    MethodSignature.read id [] "<A:LB:Ljava/lang/Object;>()V" ≠
      MethodSignature.read id [] "<A:Ljava/lang/Object;LB:Ljava/lang/Object;>()V" ∧
    MethodSignature.read id [] "<A:LB:Ljava/lang/Object;>()V" =
      .ok ⟨[⟨⟨⟨.ofMethod id, 0⟩, "A"⟩, [.cls "B:Ljava.lang.Object" []]⟩], [], .prim .void, []⟩ := by
  intro shortened id
  let T : Param := ⟨⟨['T'], by simp, by simp⟩, onlyObject⟩
  let U : Param := ⟨⟨['U'], by simp, by simp⟩, onlyObject⟩
  let A : Param := ⟨⟨['A'], by simp, by simp⟩, onlyObject⟩
  let LB : Param := ⟨⟨['L', 'B'], by simp, by simp⟩, onlyObject⟩
  let classForm : ClassForm := ⟨⟨[T, U], by decide⟩, objectClass, []⟩
  let methodForm : MethodForm := ⟨⟨[A, LB], by decide⟩, [], .void, []⟩
  have hclass : classForm.names = [] := by decide +kernel
  have hmethod : methodForm.names = [] := by decide +kernel
  obtain ⟨hforClass, hforMethod⟩ := empty_bound_differs "C" id [] fun _ => .object
  obtain ⟨-, -, hrejected⟩ := hforClass classForm (by unfold ClassForm.Shallow; decide +kernel)
    (by simp [Resolves, hclass])
  have hwithout : classForm.without [] T [U] = shortened := by decide +kernel
  obtain ⟨hread, -, hdiffers⟩ := hforMethod methodForm
    (by unfold MethodForm.Shallow; decide +kernel) (by simp [Resolves, hmethod])
  have htext : String.ofList methodForm.text =
      "<A:Ljava/lang/Object;LB:Ljava/lang/Object;>()V" := by decide +kernel
  have hempty : methodForm.without [] A [LB] = "<A:LB:Ljava/lang/Object;>()V" := by decide +kernel
  replace hrejected := (hrejected [] T [U] rfl rfl).2 (by simp [beginsRef, U])
  replace hdiffers := (hdiffers [] A [LB] rfl rfl).1
  rw [hwithout] at hrejected
  rw [htext] at hread
  rw [hempty, ← hread] at hdiffers
  exact ⟨hrejected, hdiffers, by decide +kernel⟩

/-- Nothing comes before or behind the parameter. -/
theorem empty_bound_rejected :
    let signature : ClassSignature := ⟨[⟨⟨⟨.ofClass "C", 0⟩, "T"⟩, [.object]⟩], .object, []⟩
    ClassSignature.read "C" "<T:Ljava/lang/Object;>Ljava/lang/Object;" = .ok signature ∧
    ClassSignature.read "C" "<T:>Ljava/lang/Object;" =
      .error (.notSignature "<T:>Ljava/lang/Object;") ∧
    ¬ ∀ owner (form : ClassForm) before p after, form.header.params = before ++ p :: after →
      p.bounds = onlyObject → ∀ signature,
      ClassSignature.read owner (String.ofList form.text) = .ok signature →
      ClassSignature.read owner (form.without before p after) = .ok signature := by
  intro signature
  have hread : ClassSignature.read "C" "<T:Ljava/lang/Object;>Ljava/lang/Object;" =
      .ok signature := by decide +kernel
  have hrejected : ClassSignature.read "C" "<T:>Ljava/lang/Object;" =
      .error (.notSignature "<T:>Ljava/lang/Object;") := by decide +kernel
  refine ⟨hread, hrejected, fun hall => ?_⟩
  let T : Param := ⟨⟨['T'], by simp, by simp⟩, onlyObject⟩
  let form : ClassForm := ⟨⟨[T], by decide⟩, objectClass, []⟩
  have htext : String.ofList form.text = "<T:Ljava/lang/Object;>Ljava/lang/Object;" := by
    decide +kernel
  have hempty : form.without [] T [] = "<T:>Ljava/lang/Object;" := by decide +kernel
  have hsame := hall "C" form [] T [] rfl rfl signature (htext ▸ hread)
  rw [hempty, hrejected] at hsame
  cases hsame

end Form

end Unerase
