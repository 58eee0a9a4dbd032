import Mathlib.Data.List.Nodup
import Unerase.Config.Document
import Unerase.Config.Schema

/-!
# What a document sets

The entries of a document are entered one after the other. What holds of the entries so far
(`Entered`) is carried from entry to entry, so that a configuration that is read has the values of
its document and else its defaults (`Given`). Where a document is no configuration, the cause that
is given lies in one of its entries (`Misfit.Describes`).
-/

namespace Unerase.Config

/-! ## Settings -/

theorem Key.ofName?_eq_some_iff {name : String} {key : Key} :
    Key.ofName? name = some key ↔ key.name = name := by
  constructor
  · intro h
    simpa using List.find?_some h
  · rintro rfl
    cases key <;> rfl

theorem Key.name_injective : Function.Injective Key.name := by
  intro key key' h
  have hkey := Key.ofName?_eq_some_iff.2 h
  rw [Key.ofName?_eq_some_iff.2 rfl] at hkey
  exact (Option.some.inj hkey).symm

theorem get_of_set? {c c' : Config} {key : Key} {v : Value} (h : c.set? key v = some c') :
    c'.get key = v ∧ ∀ other ≠ key, c'.get other = c.get other := by
  cases key <;> cases v <;> cases h <;> refine ⟨rfl, fun other hother => ?_⟩ <;> cases other <;>
    first | rfl | exact absurd rfl hother

/-- The values that the published type of a setting has. Counts are not negative. -/
def Property.Takes (p : Property) : Item → Prop
  | .integer z => p.minimum ≠ none ∧ 0 ≤ z
  | .boolean _ => p.minimum = none
  | .other => False

/-- Every key is published. -/
theorem exists_property (key : Key) : ∃ p ∈ properties, p.key = key := by
  cases key <;> simp [properties]

/-- The kinds of values that the settings have are the published types. -/
theorem Property.exists_set?_iff {p : Property} (hp : p ∈ properties) (c : Config) {v : Value} :
    (∃ c', c.set? p.key v = some c') ↔
      match v with
      | .count _ => p.minimum ≠ none
      | .toggle _ => p.minimum = none := by
  simp only [properties, List.mem_cons, List.not_mem_nil, or_false] at hp
  rcases hp with rfl | rfl | rfl <;> cases v <;> simp [set?]

theorem Item.value?_integer_eq_some_iff {z : Int64} {v : Value} :
    (Item.integer z).value? = some v ↔ ∃ n : Nat, z.toInt = n ∧ v = .count n := by
  rw [value?, Option.map_eq_some_iff]
  exact exists_congr fun n => and_congr Int.mem_toNat? eq_comm

/-- What a property takes are the values that its setting can be given, whatever the configuration
is. -/
theorem Property.takes_iff {p : Property} (hp : p ∈ properties) (c : Config) {item : Item} :
    p.Takes item ↔ ∃ v c', item.value? = some v ∧ c.set? p.key v = some c' := by
  simp only [exists_and_left, p.exists_set?_iff hp c]
  cases item with
  | integer z =>
    simp only [Takes, Item.value?_integer_eq_some_iff, Int64.le_iff_toInt_le, Int64.toInt_zero]
    constructor
    · rintro ⟨htype, hz⟩
      obtain ⟨n, hn⟩ := Int.eq_ofNat_of_zero_le hz
      exact ⟨.count n, ⟨n, hn, rfl⟩, htype⟩
    · rintro ⟨v, ⟨n, hn, rfl⟩, htype⟩
      exact ⟨htype, hn ▸ Int.natCast_nonneg n⟩
  | boolean b => simp [Takes, Item.value?]
  | other => simp [Takes, Item.value?]

/-! ## Entries -/

/-- An entry that is of a setting and has a value which the setting takes. -/
def Fits (entry : String × Item) : Prop :=
  ∃ p ∈ properties, p.key.name = entry.1 ∧ p.Takes entry.2

theorem fits_iff {entry : String × Item} {key : Key} (hkey : Key.ofName? entry.1 = some key)
    (c : Config) : Fits entry ↔ ∃ c', entry.2.value?.bind (c.set? key) = some c' := by
  have hname := Key.ofName?_eq_some_iff.1 hkey
  constructor
  · rintro ⟨p, hp, hp', htakes⟩
    obtain rfl := Key.name_injective (hp'.trans hname.symm)
    obtain ⟨v, c', hv, hset⟩ := (p.takes_iff hp c).1 htakes
    exact ⟨c', Option.bind_eq_some_iff.2 ⟨v, hv, hset⟩⟩
  · rintro ⟨c', h⟩
    obtain ⟨v, hv, hset⟩ := Option.bind_eq_some_iff.1 h
    obtain ⟨p, hp, rfl⟩ := exists_property key
    exact ⟨p, hp, hname, (p.takes_iff hp c).2 ⟨v, c', hv, hset⟩⟩

/-- A document that is a configuration. -/
def Fit (document : Document) : Prop :=
  (document.map Prod.fst).Nodup ∧ ∀ entry ∈ document, Fits entry

/-- What is wrong with a document, and in which of its entries. -/
def Misfit.Describes (document : Document) : Misfit → Prop
  | .unknown name => name ∈ document.map Prod.fst ∧ ∀ key : Key, key.name ≠ name
  | .repeated key => [key.name, key.name].Sublist (document.map Prod.fst)
  | .unfit key item => (key.name, item) ∈ document ∧ ¬ Fits (key.name, item)

theorem Misfit.Describes.append {misfit : Misfit} {document : Document}
    (h : misfit.Describes document) (more : Document) : misfit.Describes (document ++ more) := by
  cases misfit with
  | unknown name => exact ⟨by simp [h.1], h.2⟩
  | repeated key =>
    rw [Describes, List.map_append]
    exact List.Sublist.trans h (List.sublist_append_left _ _)
  | unfit key item => exact ⟨List.mem_append_left _ h.1, h.2⟩

theorem Misfit.Describes.not_fit {misfit : Misfit} {document : Document}
    (h : misfit.Describes document) : ¬ Fit document := by
  intro hfit
  cases misfit with
  | unknown name =>
    obtain ⟨entry, hentry, rfl⟩ := List.mem_map.1 h.1
    obtain ⟨p, -, hname, -⟩ := hfit.2 entry hentry
    exact h.2 p.key hname
  | repeated key => exact List.nodup_iff_sublist.1 hfit.1 key.name h
  | unfit key item => exact h.2 (hfit.2 _ h.1)

/-! ## Entering -/

/-- A configuration has the values of a document, and else its defaults. -/
structure Given (c : Config) (document : Document) : Prop where
  value {key : Key} {item : Item} : (key.name, item) ∈ document → item.value? = some (c.get key)
  default {key : Key} : key.name ∉ document.map Prod.fst → c.get key = ({} : Config).get key

/-- What holds when the entries of a document have been entered. -/
structure Entered (document : Document) (state : Config × List Key) : Prop where
  fit : Fit document
  given : state.1.Given document
  /-- The keys that are kept are those of the document. -/
  keys {key : Key} : key ∈ state.2 ↔ key.name ∈ document.map Prod.fst

theorem entered_nil : Entered [] ({}, []) where
  fit := ⟨List.nodup_nil, by simp⟩
  given := ⟨by simp, fun _ => rfl⟩
  keys := by simp

variable {document : Document} {state state' : Config × List Key} {entry : String × Item}
  {misfit : Misfit}

/-- An entry is entered if it is of a new key and its value can be set. -/
theorem exists_of_enter (h : enter state entry = .ok state') :
    ∃ key c, key.name = entry.1 ∧ key ∉ state.2 ∧
      entry.2.value?.bind (state.1.set? key) = some c ∧ state' = (c, key :: state.2) := by
  unfold enter at h
  split at h
  next => cases h
  next key hkey =>
    split at h
    next => cases h
    next hnew =>
      split at h
      next => cases h
      next c hset =>
        cases h
        exact ⟨key, c, Key.ofName?_eq_some_iff.1 hkey, hnew, hset, rfl⟩

theorem Entered.enter_ok (h : Entered document state) (henter : enter state entry = .ok state') :
    Entered (document ++ [entry]) state' := by
  obtain ⟨key, c, hname, hnew, hset, rfl⟩ := exists_of_enter henter
  have hkey := Key.ofName?_eq_some_iff.2 hname
  obtain ⟨v, hv, hset'⟩ := Option.bind_eq_some_iff.1 hset
  obtain ⟨hget, hother⟩ := get_of_set? hset'
  have hnames : (document ++ [entry]).map Prod.fst = document.map Prod.fst ++ [key.name] := by
    simp [hname]
  refine ⟨⟨?_, ?_⟩, ⟨fun {other item} hmem => ?_, fun {other} hnot => ?_⟩, fun {other} => ?_⟩
  · rw [hnames, ← List.concat_eq_append]
    exact h.fit.1.concat fun hmem => hnew (h.keys.2 hmem)
  · refine List.forall_mem_append.2 ⟨h.fit.2, List.forall_mem_singleton.2 ?_⟩
    exact (fits_iff hkey state.1).2 ⟨c, hset⟩
  · rcases List.mem_append.1 hmem with hmem | hmem
    · have hold : other ∈ state.2 := h.keys.2 (List.mem_map_of_mem hmem)
      rw [hother other fun heq => hnew (heq ▸ hold)]
      exact h.given.value hmem
    · obtain rfl := List.mem_singleton.1 hmem
      obtain rfl := Key.name_injective hname
      rw [hget]
      exact hv
  · rw [hnames, List.mem_append, List.mem_singleton, not_or] at hnot
    rw [hother other fun heq => hnot.2 (congrArg Key.name heq)]
    exact h.given.default hnot.1
  · rw [hnames, List.mem_append, List.mem_singleton, List.mem_cons, h.keys,
      Key.name_injective.eq_iff, or_comm]

/-- The cause for which an entry is not entered lies in it. -/
theorem Entered.enter_error (h : Entered document state)
    (henter : enter state entry = .error misfit) : misfit.Describes (document ++ [entry]) := by
  unfold enter at henter
  split at henter
  next hnone =>
    cases henter
    refine ⟨by simp, fun key hname => ?_⟩
    rw [Key.ofName?_eq_some_iff.2 hname] at hnone
    cases hnone
  next key hkey =>
    have hname := Key.ofName?_eq_some_iff.1 hkey
    split at henter
    next hold =>
      cases henter
      rw [Misfit.Describes, List.map_append, List.map_singleton, ← hname]
      exact (List.singleton_sublist.2 (h.keys.1 hold)).append (List.Sublist.refl [key.name])
    next =>
      split at henter
      next hset =>
        cases henter
        rw [Misfit.Describes, hname]
        refine ⟨by simp, fun hfits => ?_⟩
        obtain ⟨c, hc⟩ := (fits_iff hkey state.1).1 hfits
        rw [hset] at hc
        cases hc
      next => cases henter

/-- What entering a document comes to. Either what holds of its entries is kept, or one of them is
described. -/
def Outcome (document : Document) : Except Misfit (Config × List Key) → Prop
  | .ok state => Entered document state
  | .error misfit => misfit.Describes document

theorem Entered.run (h : Entered document state) (rest : Document) :
    Outcome (document ++ rest) (rest.foldlM enter state) := by
  induction rest generalizing document state with
  | nil =>
    rw [List.append_nil]
    exact h
  | cons entry rest ih =>
    rw [List.foldlM_cons, ← List.singleton_append, ← List.append_assoc]
    cases henter : enter state entry with
    | error misfit => exact (h.enter_error henter).append rest
    | ok next => exact ih (h.enter_ok henter)

/-- A document that is a configuration gives its values, and any other is described by the cause
for which it is none. -/
theorem ofDocument_cases (document : Document) :
    (Fit document ∧ ∃ c, ofDocument document = .ok c ∧ c.Given document) ∨
      ¬ Fit document ∧
        ∃ misfit, ofDocument document = .error misfit ∧ misfit.Describes document := by
  have houtcome : Outcome document (document.foldlM enter ({}, [])) := entered_nil.run document
  rw [ofDocument]
  cases hrun : document.foldlM enter ({}, []) with
  | ok state =>
    rw [hrun] at houtcome
    exact .inl ⟨houtcome.fit, state.1, rfl, houtcome.given⟩
  | error misfit =>
    rw [hrun] at houtcome
    exact .inr ⟨houtcome.not_fit, misfit, rfl, houtcome⟩

end Unerase.Config
