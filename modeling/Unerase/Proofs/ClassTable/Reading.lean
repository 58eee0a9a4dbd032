import Unerase.Proofs.ClassTable.Instantiation
import Unerase.Proofs.Table

/-!
# What an instance says of a type

Reading a type for an instance of a class can come to three things, and none of them is ever taken
for another: nothing is known of the instance, nothing in the type is bound, or what is bound has
been replaced. Something is known of an instance exactly if it has as many arguments as its class
has parameters, and then it says which type each of them stands for. So the class itself, read for
one of its instances, is that instance (`bindings_readFor_exact`).
-/

namespace Unerase

/-- A map binds as many variables as it has keys. -/
theorem Bindings.size_eq_card {b : Bindings} {vars : Finset VarId}
    (h : ∀ v, (b.get? v).isSome ↔ v ∈ vars) : b.size = vars.card := by
  refine Table.size_eq_card fun v => ?_
  rw [← h v, get?, Option.isSome_map]
  rfl

namespace ClassTable

variable {classes : ClassTable} {name : String} {args : List JType} {c : KnownClass}

theorem paramsOf_of_known (hc : classes name = some c) : classes.paramsOf name = c.typeParams := by
  simp [paramsOf, hc]

/-! ## What is bound -/

/-- An instance binds something if it has arguments, and as many as its class has parameters. -/
theorem isEmpty_bindings_iff {t : JType} :
    (classes.bindings t).isEmpty = false ↔
      ∃ name args c, t = .cls name args ∧ args ≠ [] ∧ classes name = some c ∧
        c.typeParams.length = args.length := by
  cases t with
  | cls name args =>
    rw [bindings, ← Bool.not_eq_true, isEmpty_bindAll_iff, not_or, not_not]
    constructor
    · intro h
      obtain ⟨hne, hlen⟩ := h
      cases hc : classes name with
      | none =>
        rw [paramsOf, hc] at hne
        exact absurd rfl hne
      | some c =>
        rw [paramsOf_of_known hc] at hne hlen
        refine ⟨name, args, c, rfl, fun hnil => hne ?_, hc, hlen⟩
        exact List.length_eq_zero_iff.1 (hlen.trans (congrArg List.length hnil))
    · intro h
      obtain ⟨_, _, c, heq, hne, hc, hlen⟩ := h
      cases heq
      rw [paramsOf_of_known hc]
      refine ⟨fun hnil => hne ?_, hlen⟩
      exact List.length_eq_zero_iff.1 (hlen.symm.trans (congrArg List.length hnil))
  | _ => simp [bindings, Bindings.isEmpty, Bindings.empty, Table.isEmpty, Table.empty]

section Fitting

variable (hc : classes name = some c) (hlen : c.typeParams.length = args.length)

include hc hlen

/-- The bound variables are those of the parameters. -/
theorem isSome_get?_bindings_iff {v : VarId} :
    ((classes.bindings (.cls name args)).get? v).isSome ↔
      ∃ param ∈ c.typeParams, param.var.toVarId = v := by
  rw [bindings, paramsOf_of_known hc]
  constructor
  · intro h
    obtain ⟨u, hu⟩ := Option.isSome_iff_exists.1 h
    rw [get?_bindAll hlen] at hu
    obtain ⟨pair, hfind, -⟩ := Option.map_eq_some_iff.1 hu
    have hmem : pair ∈ c.typeParams.zip args :=
      List.mem_reverse.1 (List.mem_of_find?_eq_some hfind)
    exact ⟨pair.1, (List.of_mem_zip hmem).1, by simpa using List.find?_some hfind⟩
  · intro h
    obtain ⟨param, hparam, rfl⟩ := h
    exact isSome_get?_bindAll hlen hparam

variable (hnodup : (c.typeParams.map (·.var.toVarId)).Nodup)

include hnodup

/-- Distinct parameters are bound to the arguments at their positions. -/
theorem get?_bindings_getElem? {i : Nat} {param : TypeParam} {arg : JType}
    (hparam : c.typeParams[i]? = some param) (harg : args[i]? = some arg) :
    (classes.bindings (.cls name args)).get? param.var.toVarId = some arg := by
  obtain ⟨hi, rfl⟩ := List.getElem?_eq_some_iff.1 hparam
  rw [bindings, paramsOf_of_known hc, get?_bindAll_getElem hlen hnodup hi, harg]

/-- As many variables are bound as there are arguments. -/
theorem size_bindings : (classes.bindings (.cls name args)).size = args.length := by
  have hvars : ∀ v, ((classes.bindings (.cls name args)).get? v).isSome ↔
      v ∈ (c.typeParams.map (·.var.toVarId)).toFinset := by
    intro v
    rw [isSome_get?_bindings_iff hc hlen, List.mem_toFinset, List.mem_map]
  rw [Bindings.size_eq_card hvars, List.toFinset_card_of_nodup hnodup, List.length_map, hlen]

end Fitting

/-! ## What comes of it -/

section Outcomes

variable {inst t : JType} {limit : Nat}

theorem readFor_of_isEmpty (h : (classes.bindings inst).isEmpty = true) :
    classes.readFor inst t limit = .noBindings := by
  simp [readFor, h]

theorem readFor_of_bound (h : (classes.bindings inst).isEmpty = false) :
    classes.readFor inst t limit = t.subst (classes.bindings inst) limit := by
  simp [readFor, h]

/-- Which of the three outcomes there is. -/
theorem outcome_readFor (classes : ClassTable) (inst t : JType) (limit : Nat) :
    let b := classes.bindings inst
    (classes.readFor inst t limit = .noBindings ↔ b.isEmpty = true) ∧
      ((classes.readFor inst t limit).isReplaced = true ↔
        b.isEmpty = false ∧ ∃ o ∈ t.occurrences, b.Reaches limit o) ∧
      (classes.readFor inst t limit = .unchanged ↔
        b.isEmpty = false ∧ ¬ ∃ o ∈ t.occurrences, b.Reaches limit o) := by
  intro b
  cases hempty : b.isEmpty with
  | true =>
    rw [readFor_of_isEmpty hempty]
    simp [Outcome.isReplaced]
  | false =>
    rw [readFor_of_bound hempty]
    by_cases h : ∃ o ∈ t.occurrences, b.Reaches limit o
    · rw [JType.subst_of_reaches h]
      simp [Outcome.isReplaced, h]
    · rw [JType.subst_of_not_reaches h]
      simp [Outcome.isReplaced, h]

end Outcomes

/-- The parameters of a class are its arguments in its own type, and so stand at depth 1. -/
theorem depth_of_mem_selfType {c : ClassHeader} {o : Occurrence} (h : o ∈ c.selfType.occurrences) :
    o.depth = 1 := by
  rw [ClassHeader.selfType, JType.occurrences, JType.occurrencesAt_cls] at h
  obtain ⟨t, ht, ho⟩ := List.mem_flatMap.1 h
  obtain ⟨param, -, rfl⟩ := List.mem_map.1 ht
  obtain rfl : o = ⟨1, param.var⟩ := by simpa [TypeParam.asType] using ho
  rfl

/-- A class, read for one of its instances, is the instance. -/
theorem readFor_selfType (hc : classes c.name = some c) (hne : c.typeParams ≠ [])
    (hnodup : (c.typeParams.map (·.var.toVarId)).Nodup)
    (hlen : c.typeParams.length = args.length) {limit : Nat} (hlimit : 1 ≤ limit) :
    classes.readFor (.cls c.name args) c.selfType limit = .replaced (.cls c.name args) := by
  have hargs : args ≠ [] := fun hnil =>
    hne (List.length_eq_zero_iff.1 (hlen.trans (congrArg List.length hnil)))
  have hbound : (classes.bindings (.cls c.name args)).isEmpty = false :=
    isEmpty_bindings_iff.2 ⟨c.name, args, c, rfl, hargs, hc, hlen⟩
  have hdepth : ∀ o ∈ c.selfType.occurrences, o.depth ≤ limit := fun o ho =>
    depth_of_mem_selfType ho ▸ hlimit
  -- the first of the parameters is a variable that is bound
  obtain ⟨param, hparam⟩ := List.exists_mem_of_ne_nil c.typeParams hne
  have hmem : param.var ∈ c.selfType.vars := by
    rw [ClassHeader.selfType, JType.vars, JType.varsArgs_eq_flatMap, List.mem_flatMap]
    exact ⟨param.asType, List.mem_map_of_mem hparam, List.mem_singleton.2 rfl⟩
  have hsome := (isSome_get?_bindings_iff hc hlen).2 ⟨param, hparam, rfl⟩
  rw [readFor_of_bound hbound, JType.subst_of_forall_le hdepth, JType.substAll,
    if_pos ⟨param.var, hmem, hsome⟩, selfType_fill hc hnodup hlen.symm]

/-- Binding is all or nothing. Arguments that fit are bound one by one to the parameters at their
positions, and all others to none. Reading a type for an instance tells apart that nothing is bound,
that nothing in the type is, and that something was replaced; and the type of a class with its own
parameters, read for an instance of the class, is the instance. -/
theorem bindings_readFor_exact (classes : ClassTable) :
    (∀ t, (classes.bindings t).isEmpty = false ↔
      ∃ name args c, t = .cls name args ∧ args ≠ [] ∧ classes name = some c ∧
        c.typeParams.length = args.length) ∧
    (∀ name args (c : KnownClass), classes name = some c → c.typeParams.length = args.length →
      (c.typeParams.map (·.var.toVarId)).Nodup →
      (∀ v, ((classes.bindings (.cls name args)).get? v).isSome ↔
        ∃ param ∈ c.typeParams, param.var.toVarId = v) ∧
      (∀ (i : Nat) (param : TypeParam) arg, c.typeParams[i]? = some param → args[i]? = some arg →
        (classes.bindings (.cls name args)).get? param.var.toVarId = some arg) ∧
      (classes.bindings (.cls name args)).size = args.length) ∧
    (∀ inst t limit,
      let b := classes.bindings inst
      (classes.readFor inst t limit = .noBindings ↔ b.isEmpty = true) ∧
        ((classes.readFor inst t limit).isReplaced = true ↔
          b.isEmpty = false ∧ ∃ o ∈ t.occurrences, b.Reaches limit o) ∧
        (classes.readFor inst t limit = .unchanged ↔
          b.isEmpty = false ∧ ¬ ∃ o ∈ t.occurrences, b.Reaches limit o)) ∧
    (∀ (c : KnownClass) (args : List JType) (limit : Nat), classes c.name = some c →
      c.typeParams ≠ [] → (c.typeParams.map (·.var.toVarId)).Nodup →
      c.typeParams.length = args.length → 1 ≤ limit →
      classes.readFor (.cls c.name args) c.selfType limit = .replaced (.cls c.name args)) := by
  refine ⟨fun t => isEmpty_bindings_iff, fun name args c hc hlen hnodup => ?_,
    outcome_readFor classes, fun c args limit hc hne hnodup hlen hlimit =>
      readFor_selfType hc hne hnodup hlen hlimit⟩
  refine ⟨fun v => isSome_get?_bindings_iff hc hlen, fun i param arg hparam harg => ?_,
    size_bindings hc hlen hnodup⟩
  exact get?_bindings_getElem? hc hlen hnodup hparam harg

/-- A class of two parameters. -/
def link : KnownClass where
  name := "Link"
  isInterface := false
  typeParams := TypeParam.declare (.ofClass "Link") ["A", "B"]
  superClass := some .object
  interfaces := []
  origin := .program

/-- The table that knows this class and no other. -/
def links : ClassTable := fun name => if name = "Link" then some link else none

/-- Arguments for the two parameters, in which both are mentioned themselves. -/
def linkArgs : List JType := [.array (.var ⟨⟨.ofClass "Link", 1⟩, "B"⟩), link.selfType]

/-- All of the arguments are put in at once, and a raw use of the class or a limit that is too small
is each reported as what it is. -/
theorem bindings_readFor_exact_link :
    (links.bindings (.cls "Link" linkArgs)).isEmpty = false ∧
    (links.bindings (.cls "Link" linkArgs)).get? ⟨.ofClass "Link", 1⟩ = some link.selfType ∧
    (links.bindings (.cls "Link" linkArgs)).size = 2 ∧
    links.readFor (.cls "Link" linkArgs) link.selfType 1 = .replaced (.cls "Link" linkArgs) ∧
    links.readFor (.cls "Link" linkArgs) link.selfType 0 = .unchanged ∧
    links.readFor (.cls "Link" []) link.selfType 1 = .noBindings := by
  obtain ⟨hempty, hbound, houtcome, hself⟩ := bindings_readFor_exact links
  have hnodup : (link.typeParams.map (·.var.toVarId)).Nodup := by decide
  obtain ⟨-, hget, hsize⟩ := hbound "Link" linkArgs link rfl rfl hnodup
  have hsome : (links.bindings (.cls "Link" linkArgs)).isEmpty = false :=
    (hempty _).2 ⟨"Link", linkArgs, link, rfl, by decide, rfl, rfl⟩
  exact ⟨hsome, hget 1 _ _ rfl rfl, hsize,
    hself link linkArgs 1 rfl (by decide) hnodup rfl (Nat.le_refl 1),
    (houtcome _ _ 0).2.2.2 ⟨hsome, by decide⟩, (houtcome _ _ 1).1.2 (by decide)⟩

end ClassTable

end Unerase
