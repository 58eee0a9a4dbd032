import Unerase.Proofs.ClassFile.Unambiguous
import Unerase.Proofs.JType.Occurrence

/-!
# The two readings of a header

The second reading of a header is by the same grammar as the first, but a variable has to be in
scope now and is no longer taken for `java.lang.Object`. A header has only one written form, so the
readings cannot come upon different ones. If all the variables in its bounds are in scope, then they
find the same parameters and stop at the same place, and their bounds differ in the variables alone.
Otherwise the second reading fails (`readings_agree`).
-/

namespace Unerase

namespace Form

/-! ## Variables in what forms denote -/

section Fill

variable (f : TypeVar → JType) (env : String → JType)

/-! To fill what a form denotes is to fill what its names stand for. -/

mutual

theorem Ref.fill_denote (r : Ref) :
    (r.denote env).fill f = r.denote fun name => (env name).fill f := by
  cases r with
  | cls outermost inner =>
    have hinner : inner.map (List.map (JType.fill f) ∘ Segment.denote env) =
        inner.map (Segment.denote fun name => (env name).fill f) :=
      List.map_congr_left fun segment _ => Segment.fill_denote segment
    rw [Ref.denote, Ref.denote, JType.fill_cls, ← List.getLastD_map (f := List.map (JType.fill f)),
      List.map_map, hinner, Segment.fill_denote outermost]
  | array elem => rw [Ref.denote, Ref.denote, JType.fill_array, Field.fill_denote elem]
  | var name => rw [Ref.denote, Ref.denote]

theorem Field.fill_denote (field : Field) :
    (field.denote env).fill f = field.denote fun name => (env name).fill f := by
  cases field with
  | prim p hp =>
    rw [Field.denote, Field.denote]
    rfl
  | ref r => rw [Field.denote, Field.denote, Ref.fill_denote r]

theorem Segment.fill_denote (segment : Segment) :
    (segment.denote env).map (JType.fill f) = segment.denote fun name => (env name).fill f := by
  cases segment with
  | mk name args =>
    rw [Segment.denote, Segment.denote, List.map_map]
    exact List.map_congr_left fun arg _ => Arg.fill_denote arg

theorem Arg.fill_denote (arg : Arg) :
    (arg.denote env).fill f = arg.denote fun name => (env name).fill f := by
  cases arg with
  | any =>
    rw [Arg.denote, Arg.denote]
    rfl
  | bounded dir bound => rw [Arg.denote, Arg.denote, JType.fill_bounded, Ref.fill_denote bound]
  | exact type => rw [Arg.denote, Arg.denote, Ref.fill_denote type]

end

end Fill

/-- The names of type variables in the bounds of a header. -/
def Header.names (h : Header) : List String := h.refs.flatMap Ref.names

theorem Header.map_bounds_declare (owner : Owner) (env : String → JType) (h : Header) :
    (h.declare owner env).map (·.bounds) =
      h.params.map fun p => p.bounds.refs.map (Ref.denote env) := by
  refine List.ext_getElem (by simp [declare]) fun i hi hi' => ?_
  simp [declare]

theorem Bounds.refs_ne_nil (b : Bounds) : b.refs ≠ [] := by
  cases b <;> exact List.cons_ne_nil _ _

end Form

namespace Grammar

open Text Text.Reader Form

/-! ## Scopes -/

section Scope

variable {scope : List TypeVar} {name : String}

theorem knownTo_lookup_iff : knownTo (lookup scope) name ↔ name ∈ scope.map (·.name) := by
  simp [knownTo, lookup]

/-- Without the variables that names stand for, all of them stand for the same. -/
theorem fill_meaningBy_lookup :
    (meaningBy (lookup scope) name).fill (fun _ => .object) = .object := by
  rw [meaningBy]
  cases h : lookup scope name with
  | none => rfl
  | some t =>
    obtain ⟨v, -, rfl⟩ := Option.map_eq_some_iff.1 h
    rfl

end Scope

/-! ## Readings -/

section Readings

variable {resolve : String → Option JType} {reference : Reader JType} {form : Header}
  {s rest rest' : List Char} {found : List (List Char × List JType)}

/-- What a reading finds in a header. -/
def findings (resolve : String → Option JType) (form : Header) : List (List Char × List JType) :=
  form.params.map fun p => (p.name.chars, p.bounds.refs.map (Ref.denote (meaningBy resolve)))

/-- Whether a header is read depends on the names in it, and on nothing else if it is not nested too
deep. What comes behind it is left. -/
theorem read_header_iff (h : ReadsRefs resolve maxNesting reference) (hne : form.params ≠ [])
    (hcost : ∀ q ∈ form.refs, q.cost ≤ maxNesting) :
    (header reference).read (form.text ++ rest) = some (found, rest') ↔
      (∀ name ∈ form.names, knownTo resolve name) ∧ findings resolve form = found ∧
        rest' = rest := by
  have hfits : (∀ q ∈ form.refs, Fits (knownTo resolve) maxNesting q.cost q.names) ↔
      ∀ name ∈ form.names, knownTo resolve name := by
    rw [forall_fits_iff]
    exact and_iff_right hcost
  rw [reads_header h _ found rest' trivial]
  constructor
  · intro hread
    obtain ⟨form', ⟨hne', hfit⟩, htext, hfound⟩ := hread
    obtain ⟨rfl, rfl⟩ := Header.told hne hne' htext
    exact ⟨hfits.1 hfit, hfound, rfl⟩
  · intro hknown
    obtain ⟨hknown, hfound, rfl⟩ := hknown
    exact ⟨form, ⟨hne, hfits.2 hknown⟩, rfl, hfound⟩

/-- A header that is not nested too deep is not read exactly if it has an unknown name. -/
theorem read_header_eq_none_iff (h : ReadsRefs resolve maxNesting reference)
    (hne : form.params ≠ []) (hcost : ∀ q ∈ form.refs, q.cost ≤ maxNesting) :
    (header reference).read (form.text ++ rest) = none ↔
      ∃ name ∈ form.names, ¬ knownTo resolve name := by
  constructor
  · intro hnone
    by_contra hall
    push Not at hall
    have hsome : (header reference).read (form.text ++ rest) = some (_, rest) :=
      (read_header_iff h hne hcost).2 ⟨hall, rfl, rfl⟩
    rw [hnone] at hsome
    cases hsome
  · intro hunknown
    obtain ⟨name, hname, hnot⟩ := hunknown
    refine Option.eq_none_iff_forall_ne_some.2 fun x hsome => ?_
    exact hnot (((read_header_iff h hne hcost).1 hsome).1 name hname)

/-- The first reading comes upon a written header, of which it takes the names. -/
theorem exists_of_first_reading
    (h : (header (top .anyVariable).reference).read s = some (found, rest)) :
    ∃ form : Header, form.params ≠ [] ∧ (∀ q ∈ form.refs, q.cost ≤ maxNesting) ∧
      s = form.text ++ rest ∧ findings (fun _ => some .object) form = found := by
  obtain ⟨form, ⟨hne, hfits⟩, hs, hfound⟩ :=
    (reads_header readsRefs_anyVariable s found rest trivial).1 h
  exact ⟨form, hne, fun q hq => (hfits q hq).1, hs, hfound⟩

theorem map_fst_findings : (findings resolve form).map (·.1) = form.params.map (·.name.chars) := by
  simp [findings]

/-- Taking variables for `java.lang.Object` afterwards is the same as never knowing them. -/
theorem map_fill_findings (scope : List TypeVar) (form : Header) :
    (findings (lookup scope) form).map (fun p => p.2.map (JType.fill fun _ => .object)) =
      (findings (fun _ => some .object) form).map (·.2) := by
  have hobject : (fun name => (meaningBy (lookup scope) name).fill fun _ => .object) =
      meaningBy fun _ => some .object := funext fun _ => fill_meaningBy_lookup
  simp only [findings, List.map_map, Function.comp_def, Ref.fill_denote, hobject]

/-- What a header declares, in terms of its readings. -/
theorem typeParams_of_first_reading {owner : Owner} {scope : List TypeVar}
    (h : (header (top .anyVariable).reference).read s = some (found, rest)) :
    let vars := declared owner (found.map (·.1))
    typeParams owner scope s =
      ((header (top (.inScope (scope ++ vars))).reference).read s).map fun x =>
        (vars.zipWith (fun var param => ⟨var, param.2⟩) x.1, x.2) := by
  obtain ⟨form, hne, -, rfl, -⟩ := exists_of_first_reading h
  simp only [typeParams, if_pos (head?_text_of_ne_nil hne rest), h]
  split <;> simp [*]

end Readings

/-- If the first reading of a header succeeds, then there is exactly one written header in front of
the text. The second reading fails if a variable is named in its bounds that neither the header
declares nor the scope around it, and for no other reason. If it succeeds, it finds the same names,
and at least one bound for each of them, and stops behind the same `>`. Its bounds are those of the
first reading once every variable is replaced by `java.lang.Object`, and they are the bounds of the
parameters that the header declares. -/
theorem readings_agree (owner : Owner) (scope : List TypeVar) {s rest : List Char}
    {named : List (List Char × List JType)}
    (h : (header (top .anyVariable).reference).read s = some (named, rest)) :
    let vars := declared owner (named.map (·.1))
    let second := (header (top (.inScope (scope ++ vars))).reference).read s
    ∃ form : Header,
      (s = '<' :: (form.params.flatMap Param.text ++ '>' :: rest) ∧
        form.params.map (·.name.chars) = named.map (·.1) ∧
        ∀ form' rest', form'.params ≠ [] → s = form'.text ++ rest' →
          form' = form ∧ rest' = rest) ∧
      (second = none ↔ ∃ name ∈ form.names,
        name ∉ vars.map (·.name) ∧ name ∉ scope.map (·.name)) ∧
      (second = none → typeParams owner scope s = none) ∧
      ∀ bounded rest', second = some (bounded, rest') →
        rest' = rest ∧ bounded.map (·.1) = named.map (·.1) ∧
        bounded.map (fun p => p.2.map (JType.fill fun _ => .object)) = named.map (·.2) ∧
        ∃ params, typeParams owner scope s = some (params, rest) ∧
          TypeParam.vars params = vars ∧ params.map (·.bounds) = bounded.map (·.2) ∧
          ∀ p ∈ params, p.bounds ≠ [] := by
  intro vars second
  obtain ⟨form, hne, hcost, rfl, rfl⟩ := exists_of_first_reading h
  have hrefs := readsRefs_top (scope ++ vars)
  have hknown : ∀ name, ¬ knownTo (lookup (scope ++ vars)) name ↔
      name ∉ vars.map (·.name) ∧ name ∉ scope.map (·.name) := by
    intro name
    rw [knownTo_lookup_iff, List.map_append, List.mem_append, not_or, and_comm]
  have hparams : typeParams owner scope (form.text ++ rest) = second.map _ :=
    typeParams_of_first_reading h
  refine ⟨form, ⟨?_, map_fst_findings.symm, fun form' rest' hne' htext => ?_⟩, ?_, fun hnone => ?_,
    fun bounded rest' hsome => ?_⟩
  · rw [Header.text, if_neg (by simpa using hne)]
    simp
  · obtain ⟨rfl, rfl⟩ := Header.told hne hne' htext
    exact ⟨rfl, rfl⟩
  · simp only [← hknown]
    exact read_header_eq_none_iff hrefs hne hcost
  · rw [hparams, hnone]
    rfl
  · obtain ⟨-, rfl, rfl⟩ := (read_header_iff hrefs hne hcost).1 hsome
    have hvars : vars = form.vars owner := declared_names owner _ form
    refine ⟨rfl, by rw [map_fst_findings, map_fst_findings], map_fill_findings _ form,
      form.declare owner (meaningBy (lookup (scope ++ vars))), ?_, ?_, ?_, fun p hp => ?_⟩
    · rw [hparams, hsome, ← zipWith_vars, ← hvars]
      rfl
    · rw [Header.vars_declare, hvars]
    · rw [Header.map_bounds_declare]
      simp [findings]
    · have hbounds := List.mem_map_of_mem (f := TypeParam.bounds) hp
      rw [Header.map_bounds_declare] at hbounds
      obtain ⟨q, -, hq⟩ := List.mem_map.1 hbounds
      rw [← hq]
      simpa using q.bounds.refs_ne_nil

/-- The variable `V` is named only in arguments that are dropped, and has to be in scope all the
same. -/
theorem readings_agree_dropped :
    let owner : Owner := .ofClass "C"
    let V : TypeVar := ⟨⟨.ofClass "Outer", 0⟩, "V"⟩
    let text := "<T:Lp/A<TV;>.B<-TU;>;U::[TT;>Lp/C;".toList
    let nested (arg : JType) : JType := .cls "p.A$B" [.bounded .lower arg]
    let named := [(['T'], [nested .object]), (['U'], [.array .object])]
    let bounded : List (List Char × List JType) :=
      [(['T'], [nested (.var ⟨⟨owner, 1⟩, "U"⟩)]), (['U'], [.array (.var ⟨⟨owner, 0⟩, "T"⟩)])]
    (header (top .anyVariable).reference).read text = some (named, "Lp/C;".toList) ∧
    typeParams owner [] text = none ∧
    bounded.map (fun p => p.2.map (JType.fill fun _ => .object)) = named.map (·.2) ∧
    ∃ params, typeParams owner [V] text = some (params, "Lp/C;".toList) ∧
      params.map (·.bounds) = bounded.map (·.2) ∧ ∀ p ∈ params, p.bounds ≠ [] := by
  intro owner V text nested named bounded
  have hfirst : (header (top .anyVariable).reference).read text =
      some (named, "Lp/C;".toList) := by decide +kernel
  obtain ⟨-, -, -, hnone, -⟩ := readings_agree owner [] hfirst
  obtain ⟨-, -, -, -, hsome⟩ := readings_agree owner [V] hfirst
  obtain ⟨-, -, hfill, params, hparams, -, hbounds, hne⟩ :=
    hsome bounded "Lp/C;".toList (by decide +kernel)
  exact ⟨hfirst, hnone (by decide +kernel), hfill, params, hparams, hbounds, hne⟩

end Grammar

end Unerase
