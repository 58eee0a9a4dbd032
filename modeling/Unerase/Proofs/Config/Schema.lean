import Unerase.Proofs.Config.Reading

/-!
# Configurations and their schema

What is read as a configuration, against what the published schema admits. The schema has a minimum
of one for both limits, and a limit of zero is read all the same. Apart from zero, whatever is read
conforms (`read_against_schema`).

What a text stands for is left to the decoder. The statements hold of every decoder.
-/

namespace Unerase.Config

/-- The minimums that are published are ones. -/
theorem Property.minimum_eq {p : Property} (hp : p ∈ properties) :
    p.minimum = none ∨ p.minimum = some 1 := by
  have hall : ∀ p ∈ properties, p.minimum = none ∨ p.minimum = some 1 := by simp [properties]
  exact hall p hp

/-- Of the values that a property takes it admits all but zero. -/
theorem Property.admits_iff {p : Property} (hp : p ∈ properties) {item : Item}
    (htakes : p.Takes item) {v : Value} (hv : item.value? = some v) :
    p.admits v = true ↔ item ≠ .integer 0 := by
  cases item with
  | integer z =>
    obtain ⟨n, hn, rfl⟩ := Item.value?_integer_eq_some_iff.1 hv
    have hone : p.minimum = some 1 := (minimum_eq hp).resolve_left htakes.1
    have hzero : z = 0 ↔ n = 0 := by
      rw [← Int64.toInt_inj, hn, Int64.toInt_zero]
      exact Int.natCast_eq_zero
    rw [admits, hone, Option.any_some, decide_eq_true_eq, ne_eq, Item.integer.injEq, hzero]
    omega
  | boolean b =>
    cases hv
    rw [admits, show p.minimum = none from htakes]
    simp
  | other => cases hv

/-- Every default is admitted. -/
theorem admits_default : ∀ p ∈ properties, p.admits (({} : Config).get p.key) = true := by
  decide

theorem takes_of_fits {p : Property} (hp : p ∈ properties) {item : Item}
    (h : Fits (p.key.name, item)) : p.Takes item := by
  obtain ⟨c', hset⟩ := (fits_iff (Key.ofName?_eq_some_iff.2 rfl) {}).1 h
  obtain ⟨v, hv, hset⟩ := Option.bind_eq_some_iff.1 hset
  exact (p.takes_iff hp {}).2 ⟨v, c', hv, hset⟩

/-- A configuration that has the values of a document conforms exactly if none of them is zero. -/
theorem conforms_iff {c : Config} {document : Document} (hfit : Fit document)
    (hgiven : c.Given document) :
    c.conforms = true ↔ ∀ entry ∈ document, entry.2 ≠ .integer 0 := by
  rw [conforms, List.all_eq_true]
  constructor
  · intro hadmits entry hentry
    obtain ⟨p, hp, hname, htakes⟩ := hfit.2 entry hentry
    have hvalue : entry.2.value? = some (c.get p.key) := by
      refine hgiven.value ?_
      rwa [hname]
    exact (Property.admits_iff hp htakes hvalue).1 (hadmits p hp)
  · intro hzero p hp
    by_cases hmem : p.key.name ∈ document.map Prod.fst
    · obtain ⟨⟨name, item⟩, hentry, rfl⟩ := List.mem_map.1 hmem
      have htakes := takes_of_fits hp (hfit.2 _ hentry)
      exact (Property.admits_iff hp htakes (hgiven.value hentry)).2 (hzero _ hentry)
    · rw [hgiven.default hmem]
      exact admits_default p hp

/-- To conform to the schema is to have no limit of zero. -/
theorem conforms_iff_limits {c : Config} :
    c.conforms = true ↔ 1 ≤ c.maxAncestors ∧ 1 ≤ c.maxSubstitutionDepth := by
  simp [conforms, properties, Property.admits, get]

section Read

variable {decoder : Decoder} {text cause : String} {document : Document}

theorem read_of_not_decoded (h : decoder.decode text = .error cause) :
    read decoder text = .error (.notConfig cause) := by
  rw [read, h]

theorem read_of_decoded (h : decoder.decode text = .ok document) :
    read decoder text =
      (ofDocument document).mapError fun misfit => .notConfig (decoder.report text misfit) := by
  rw [read, h]
  cases hread : ofDocument document <;> simp [hread, Except.mapError]

end Read

/-- A text that is not decoded is no configuration. One whose document has only entries of the
settings, none of them twice and each with a value of its type, gives a configuration with these
values and the defaults for what is not given; any other document is reported with the entry that
does not fit. The configuration conforms to the schema exactly if no entry is zero. -/
theorem read_against_schema (decoder : Decoder) (text : String) :
    (∀ cause, decoder.decode text = .error cause →
      read decoder text = .error (.notConfig cause)) ∧
    ∀ document, decoder.decode text = .ok document →
      (Fit document → ∃ c, read decoder text = .ok c ∧ c.Given document ∧
        (c.conforms = true ↔ 1 ≤ c.maxAncestors ∧ 1 ≤ c.maxSubstitutionDepth) ∧
        (c.conforms = true ↔ ∀ entry ∈ document, entry.2 ≠ .integer 0)) ∧
      (¬ Fit document → ∃ misfit, misfit.Describes document ∧
        read decoder text = .error (.notConfig (decoder.report text misfit))) := by
  refine ⟨fun cause hdecode => read_of_not_decoded hdecode, fun document hdecode => ?_⟩
  rw [read_of_decoded hdecode]
  rcases ofDocument_cases document with ⟨hfit, c, hread, hgiven⟩ | ⟨hnot, misfit, hread, hmisfit⟩
  · rw [hread]
    exact ⟨fun _ => ⟨c, rfl, hgiven, conforms_iff_limits, conforms_iff hfit hgiven⟩,
      fun hnot => absurd hfit hnot⟩
  · rw [hread]
    exact ⟨fun hfit => absurd hfit hnot, fun _ => ⟨misfit, hmisfit, rfl⟩⟩

/-- The decoder that knows one text. -/
def Decoder.knowing (known : String) (document : Document) : Decoder where
  decode text := if text = known then .ok document else .error "not known"
  report _ _ := "does not fit"

theorem Decoder.decode_knowing (known : String) (document : Document) :
    (knowing known document).decode known = .ok document := by
  simp [knowing]

/-- One limit and the toggle are given. -/
theorem read_against_schema_partial :
    let text := "classpath_ancestors = false\nmax_ancestors = 8\n"
    let document : Document :=
      [("classpath_ancestors", .boolean false), ("max_ancestors", .integer 8)]
    let decoder := Decoder.knowing text document
    decoder.decode text = .ok document ∧ Fit document ∧
      ∃ c, read decoder text = .ok c ∧ c.conforms = true ∧
        c = { maxAncestors := 8, maxSubstitutionDepth := 256, classpathAncestors := false } := by
  intro text document decoder
  have hdecode : decoder.decode text = .ok document := Decoder.decode_knowing text document
  have hfit : Fit document := by
    refine ⟨by decide, ?_⟩
    simp [document, Fits, properties, Property.Takes, Key.name]
  obtain ⟨c, hread, -, -, hzero⟩ :=
    ((read_against_schema decoder text).2 document hdecode).1 hfit
  refine ⟨hdecode, hfit, c, hread, hzero.2 (by decide), ?_⟩
  rw [read_of_decoded hdecode] at hread
  exact (Except.ok.inj hread).symm

/-- A limit of zero is read as it stands, and the configuration does not conform to the schema. -/
theorem read_zero_limit :
    (∀ decoder : Decoder, decoder.decode "max_ancestors = 0" = .ok [("max_ancestors", .integer 0)] →
      read decoder "max_ancestors = 0" = .ok { maxAncestors := 0 }) ∧
    ({ maxAncestors := 0 } : Config).conforms = false ∧
    ¬ ∀ (decoder : Decoder) text c, read decoder text = .ok c → c.conforms = true := by
  have hread : ∀ decoder : Decoder,
      decoder.decode "max_ancestors = 0" = .ok [("max_ancestors", .integer 0)] →
      read decoder "max_ancestors = 0" = .ok { maxAncestors := 0 } := by
    intro decoder hdecode
    rw [read_of_decoded hdecode]
    rfl
  refine ⟨hread, by decide, fun hall => ?_⟩
  have hzero := hread (.knowing _ _) (Decoder.decode_knowing _ _)
  exact absurd (hall _ _ _ hzero) (by decide)

end Unerase.Config
