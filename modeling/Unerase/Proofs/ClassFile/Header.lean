import Unerase.Proofs.ClassFile.Reference

/-!
# Written headers

A header is read twice, and the second reading takes the names in it for what the first one has
made of them. Both read the same text by the same grammar, so it does not matter that the first
does not yet know the names: `typeParams_eq_some_iff` says what a header declares as if it had been
read once, with all of its own parameters in scope.
-/

namespace Unerase

namespace Form

/-- The written bounds of a type parameter, without the `:` behind its name. The bound by a class
may be left out if there are bounds by interfaces. -/
inductive Bounds where
  | byClass (bound : Ref) (interfaces : List Ref)
  | byInterfaces (first : Ref) (more : List Ref)

/-- The text of bounds. -/
def Bounds.text : Bounds → List Char
  | .byClass bound interfaces => bound.text ++ interfaces.flatMap fun r => ':' :: r.text
  | .byInterfaces first more => ':' :: first.text ++ more.flatMap fun r => ':' :: r.text

/-- The bounds in the order in which they are written. -/
def Bounds.refs : Bounds → List Ref
  | .byClass bound interfaces => bound :: interfaces
  | .byInterfaces first more => first :: more

/-- A written type parameter. -/
structure Param where
  name : Word [':']
  bounds : Bounds

/-- The text of a type parameter. -/
def Param.text (p : Param) : List Char := p.name.chars ++ [':'] ++ p.bounds.text

/-- A written list of type parameters, for which nothing is written if there are none. The sign
that closes the list cannot begin a parameter. -/
structure Header where
  params : List Param
  apart : ∀ p ∈ params, p.name.chars.head? ≠ some '>'

namespace Header

/-- The text of a header. -/
def text (h : Header) : List Char :=
  if h.params.isEmpty then [] else '<' :: (h.params.flatMap Param.text ++ ['>'])

/-- All bounds in a header. -/
def refs (h : Header) : List Ref := h.params.flatMap fun p => p.bounds.refs

/-- The variables that a header declares, each at its position modulo `2 ^ 32`. -/
def vars (owner : Owner) (h : Header) : List TypeVar :=
  h.params.mapIdx fun index p => ⟨⟨owner, UInt32.ofNat index⟩, String.ofList p.name.chars⟩

/-- The parameters that a header declares, each with its bounds as they are written. -/
def declare (owner : Owner) (env : String → JType) (h : Header) : List TypeParam :=
  h.params.mapIdx fun index p =>
    ⟨⟨⟨owner, UInt32.ofNat index⟩, String.ofList p.name.chars⟩,
      p.bounds.refs.map (Ref.denote env)⟩

theorem vars_declare (owner : Owner) (env : String → JType) (h : Header) :
    TypeParam.vars (h.declare owner env) = h.vars owner := by
  refine List.ext_getElem (by simp [TypeParam.vars, declare, vars]) fun i hi hi' => ?_
  simp [TypeParam.vars, declare, vars]

/-- The index of a parameter is its position, as a number of 32 bits. -/
theorem map_index_declare (owner : Owner) (env : String → JType) (h : Header) :
    (h.declare owner env).map (·.var.index.toNat) =
      (List.range h.params.length).map (· % UInt32.size) := by
  refine List.ext_getElem (by simp [declare]) fun i hi hi' => ?_
  simp [declare]

end Header

theorem Param.head?_text (p : Param) (r : List Char) :
    (p.text ++ r).head? = p.name.chars.head? := by
  obtain ⟨⟨chars, hne, hfree⟩, bounds⟩ := p
  cases chars with
  | nil => exact absurd rfl hne
  | cons c w => rfl

theorem Param.head?_ne_colon (p : Param) : p.name.chars.head? ≠ some ':' := by
  intro h
  exact p.name.free ':' (List.mem_of_head? h) (by simp)

end Form

namespace Grammar

open Text Text.Reader Form

variable {resolve : String → Option JType} {room : Nat} {reference : Reader JType}

/-- The first of the written bounds, with the sign that the bound by a class is left out. -/
theorem reads_firstBound (h : ReadsRefs resolve room reference) :
    (byFirst fun
      | ':' => reference.after ':'
      | _ => reference).Reads anything
      (fun z : Bool × Ref => Fits (knownTo resolve) room z.2.cost z.2.names)
      (fun z => if z.1 then ':' :: z.2.text else z.2.text)
      fun z => z.2.denote (meaningBy resolve) := by
  have hafter := h.after ':'
  refine reads_byFirst (fun c t a r hread => ?_) fun z hz => ?_
  · split at hread
    · obtain ⟨q, hq, hs, rfl⟩ := (hafter _ a r trivial).1 hread
      exact ⟨(true, q), hq, hs, rfl⟩
    · obtain ⟨q, hq, hs, rfl⟩ := (h _ a r trivial).1 hread
      exact ⟨(false, q), hq, hs, rfl⟩
  · obtain ⟨_ | _, q⟩ := z
    · obtain ⟨c, w, htext, hc⟩ := q.text_eq_cons
      refine ⟨c, w, htext, fun r => ?_⟩
      have hread := Reads.read_text h (r := r) hz trivial
      rw [htext] at hread
      rcases hc with rfl | rfl | rfl <;> exact hread
    · exact ⟨':', q.text, rfl, fun r => hafter.read_text hz trivial⟩

/-- Bounds are read up to a text that does not go on with another bound. -/
theorem reads_bounds (h : ReadsRefs resolve room reference) :
    (bounds reference).Reads (fun r => r.head? ≠ some ':')
      (fun b : Bounds => ∀ q ∈ b.refs, Fits (knownTo resolve) room q.cost q.names) Bounds.text
      fun b => b.refs.map (Ref.denote (meaningBy resolve)) := by
  have hchain := (reads_firstBound h).chain h ':' fun _ => trivial
  have hread : (bounds reference).Reads (fun r => r.head? ≠ some ':') _ _ _ :=
    hchain.mono fun _ hr => ⟨trivial, hr⟩
  refine hread.image (fun z => if z.1.1 then .byInterfaces z.1.2 z.2 else .byClass z.1.2 z.2)
    (fun b => ?_) (fun z => ?_) fun z => ?_
  · constructor
    · intro hb
      cases b with
      | byClass bound interfaces =>
        exact ⟨((false, bound), interfaces), List.forall_mem_cons.1 hb, rfl⟩
      | byInterfaces first more => exact ⟨((true, first), more), List.forall_mem_cons.1 hb, rfl⟩
    · intro hz
      obtain ⟨⟨⟨_ | _, q⟩, qs⟩, hz, rfl⟩ := hz <;> exact List.forall_mem_cons.2 hz
  · obtain ⟨⟨_ | _, q⟩, qs⟩ := z <;> rfl
  · obtain ⟨⟨_ | _, q⟩, qs⟩ := z <;> rfl

theorem reads_typeParam (h : ReadsRefs resolve room reference) :
    (typeParam reference).Reads (fun r => r.head? ≠ some ':')
      (fun p : Param => ∀ q ∈ p.bounds.refs, Fits (knownTo resolve) room q.cost q.names) Param.text
      fun p => (p.name.chars, p.bounds.refs.map (Ref.denote (meaningBy resolve))) := by
  have hrun : (run (· == ':')).Reads _ (fun _ : Word [':'] => True) _ _ := reads_run (by simp)
  have hname := hrun.before ':' fun r => ⟨':', r, rfl, by simp⟩
  refine (hname.both (reads_bounds h) fun _ _ _ _ => trivial).image (fun z => ⟨z.1, z.2⟩)
    (fun p => ?_) (fun _ => rfl) fun _ => rfl
  constructor
  · intro hp
    exact ⟨(p.name, p.bounds), ⟨trivial, hp⟩, rfl⟩
  · intro hz
    obtain ⟨z, hz, rfl⟩ := hz
    exact hz.2

/-- A header is read parameter by parameter. -/
theorem reads_header (h : ReadsRefs resolve room reference) :
    (header reference).Reads anything
      (fun form : Header => form.params ≠ [] ∧
        ∀ q ∈ form.refs, Fits (knownTo resolve) room q.cost q.names) Header.text
      fun form => form.params.map fun p =>
        (p.name.chars, p.bounds.refs.map (Ref.denote (meaningBy resolve))) := by
  have hparam := reads_typeParam h
  have hlist := hparam.manyTill '>'
    (fun p r _ => by
      rw [p.head?_text]
      exact p.head?_ne_colon)
    fun r => by simp
  intro s a r _
  rw [header, (hlist.nonempty.after '<') s a r trivial]
  constructor
  · intro hform
    obtain ⟨params, ⟨hparams, hne⟩, hs, ha⟩ := hform
    have hne : params ≠ [] := by simpa using hne
    refine ⟨⟨params, fun p hp => ?_⟩, ⟨hne, fun q hq => ?_⟩, ?_, ha⟩
    · have hhead := (hparams p hp).2
      rwa [← List.append_nil p.text, p.head?_text] at hhead
    · obtain ⟨p, hp, hq⟩ := List.mem_flatMap.1 hq
      exact (hparams p hp).1 q hq
    · rw [hs, Header.text, if_neg (by simpa using hne)]
  · intro hform
    obtain ⟨form, ⟨hne, hfit⟩, hs, ha⟩ := hform
    refine ⟨form.params, ⟨fun p hp => ⟨fun q hq => ?_, ?_⟩, by simpa using hne⟩, ?_, ha⟩
    · exact hfit q (List.mem_flatMap.2 ⟨p, hp, hq⟩)
    · rw [← List.append_nil p.text, p.head?_text]
      exact form.apart p hp
    · rw [hs, Header.text, if_neg (by simpa using hne)]

/-- The first reading takes every name for a known one, so it knows those of every header. -/
theorem readsRefs_anyVariable :
    ReadsRefs (fun _ => some .object) maxNesting (top .anyVariable).reference :=
  (reads_level _ maxNesting).1

theorem fits_anyVariable {known : String → Prop} {cost : Nat} {names : List String}
    (h : Fits known room cost names) : Fits (knownTo fun _ => some .object) room cost names :=
  ⟨h.1, fun _ _ => rfl⟩

/-- The variables that are declared after the first reading are those of the header. -/
theorem declared_names (owner : Owner) (bounds : Param → List JType) (form : Header) :
    declared owner ((form.params.map fun p => (p.name.chars, bounds p)).map (·.1)) =
      form.vars owner := by
  refine List.ext_getElem (by simp [declared, Header.vars]) fun i hi hi' => ?_
  simp [declared, Header.vars]

/-- They are given the bounds of the second reading. -/
theorem zipWith_vars (owner : Owner) (env : String → JType) (form : Header) :
    (form.vars owner).zipWith (fun var param => (⟨var, param.2⟩ : TypeParam))
      (form.params.map fun p => (p.name.chars, p.bounds.refs.map (Ref.denote env))) =
      form.declare owner env := by
  refine List.ext_getElem (by simp [Header.declare, Header.vars]) fun i hi hi' => ?_
  simp [Header.declare, Header.vars]

theorem head?_text_of_ne_nil {form : Header} (h : form.params ≠ []) (r : List Char) :
    (form.text ++ r).head? = some '<' := by
  rw [Header.text, if_neg (by simpa using h)]
  rfl

/-- A header declares its parameters with their bounds, and all of the parameters are in scope in
all of the bounds. -/
theorem typeParams_eq_some_iff {owner : Owner} {scope : List TypeVar} {s r : List Char}
    {params : List TypeParam} : typeParams owner scope s = some (params, r) ↔
      ∃ form : Header, (form.params = [] → r.head? ≠ some '<') ∧ s = form.text ++ r ∧
        (∀ q ∈ form.refs,
          Fits (knownTo (lookup (scope ++ form.vars owner))) maxNesting q.cost q.names) ∧
        form.declare owner (meaningBy (lookup (scope ++ form.vars owner))) = params := by
  have hfirst := reads_header readsRefs_anyVariable
  have hsecond := fun vars => reads_header (readsRefs_top (scope ++ vars))
  constructor
  · intro hread
    unfold typeParams at hread
    split at hread
    · split at hread
      · cases hread
      rename_i named rest hnames
      dsimp only at hread
      split at hread
      · cases hread
      rename_i bounded rest' hbounds
      cases hread
      obtain ⟨form, ⟨hne, hfit⟩, hs, hvalue⟩ := (hsecond _ s bounded r trivial).1 hbounds
      -- the first reading has come upon the same header
      have hsame := (hfirst s _ r trivial).2
        ⟨form, ⟨hne, fun q hq => fits_anyVariable (hfit q hq)⟩, hs, rfl⟩
      rw [hnames] at hsame
      cases hsame
      rw [declared_names] at hfit hvalue ⊢
      refine ⟨form, fun hnil => absurd hnil hne, hs, hfit, ?_⟩
      rw [← hvalue, zipWith_vars]
    · rename_i hopen
      cases hread
      exact ⟨⟨[], by simp⟩, fun _ => hopen, rfl, by simp [Header.refs], rfl⟩
  · intro hform
    obtain ⟨form, hopen, rfl, hfit, rfl⟩ := hform
    unfold typeParams
    by_cases hne : form.params = []
    · have htext : form.text = [] := by simp [Header.text, hne]
      have hdeclare : ∀ env, form.declare owner env = [] := by simp [Header.declare, hne]
      rw [htext, List.nil_append, if_neg (hopen hne), hdeclare]
    · rw [if_pos (head?_text_of_ne_nil hne r)]
      have hnames := (hfirst _ _ r trivial).2
        ⟨form, ⟨hne, fun q hq => fits_anyVariable (hfit q hq)⟩, rfl, rfl⟩
      have hbounds := (hsecond (form.vars owner) _ _ r trivial).2 ⟨form, ⟨hne, hfit⟩, rfl, rfl⟩
      simp only [hnames, declared_names, hbounds, zipWith_vars]

end Grammar

end Unerase
