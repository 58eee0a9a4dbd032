import Unerase.JType.VarSet
import Unerase.Proofs.JType.Composition

/-!
# Variables of a substituted type

Which variables a type has once its bound variables are replaced: those that are not bound are left,
and those of the types that are put in come along. So if no type that is put in mentions a bound
variable, none is left, and a second substitution finds nothing to replace (`varSet_subst`).
-/

namespace Unerase.JType

variable {t : JType} {b : Bindings} {w : VarId}

theorem contains_varSet_iff : t.varSet.contains w = true ↔ ∃ v ∈ t.vars, v.toVarId = w :=
  VarSet.contains_ofList ..

/-- The variables of a filled type are those of the types that were put in for its variables. -/
theorem contains_varSet_fill {f : TypeVar → JType} :
    (t.fill f).varSet.contains w = true ↔ ∃ v ∈ t.vars, (f v).varSet.contains w = true := by
  simp only [contains_varSet_iff, fill, mem_vars_fillAt]
  constructor
  · intro h
    obtain ⟨x, ⟨o, ho, hx⟩, hw⟩ := h
    exact ⟨o.var, mem_vars_iff.2 ⟨o, ho, rfl⟩, x, hx, hw⟩
  · intro h
    obtain ⟨v, hv, x, hx, hw⟩ := h
    obtain ⟨o, ho, rfl⟩ := mem_vars_iff.1 hv
    exact ⟨x, ⟨o, ho, hx⟩, hw⟩

/-- A variable that is not bound stands for itself, and any other for the type it is bound to. -/
theorem contains_varSet_typeOf {v : TypeVar} :
    (b.typeOf v).varSet.contains w = true ↔
      (v.toVarId = w ∧ b.get? w = none) ∨
        ∃ u, b.get? v.toVarId = some u ∧ u.varSet.contains w = true := by
  rw [Bindings.typeOf]
  cases hv : b.get? v.toVarId with
  | none =>
    have hself : (JType.var v).varSet.contains w = true ↔ v.toVarId = w := by
      simp [contains_varSet_iff, vars]
    rw [Option.getD_none, hself]
    constructor
    · intro h
      exact .inl ⟨h, h ▸ hv⟩
    · rintro (⟨h, -⟩ | ⟨u, hu, -⟩)
      · exact h
      · cases hu
  | some u =>
    rw [Option.getD_some]
    constructor
    · intro h
      exact .inr ⟨u, rfl, h⟩
    · rintro (⟨rfl, hnone⟩ | ⟨u', hu', h⟩)
      · rw [hv] at hnone
        cases hnone
      · cases hu'
        exact h

/-- A type whose bound variables are all replaced keeps the others, and gets those of the types that
are put in. -/
theorem contains_varSet_fill_typeOf :
    (t.fill b.typeOf).varSet.contains w = true ↔
      (t.varSet.contains w = true ∧ b.get? w = none) ∨
        ∃ v u, t.varSet.contains v = true ∧ b.get? v = some u ∧ u.varSet.contains w = true := by
  simp only [contains_varSet_fill, contains_varSet_typeOf]
  constructor
  · rintro ⟨v, hv, ⟨hw, hnone⟩ | ⟨u, hu, hw⟩⟩
    · exact .inl ⟨contains_varSet_iff.2 ⟨v, hv, hw⟩, hnone⟩
    · exact .inr ⟨v.toVarId, u, contains_varSet_iff.2 ⟨v, hv, rfl⟩, hu, hw⟩
  · rintro (⟨hw, hnone⟩ | ⟨v, u, hv, hu, hw⟩)
    · obtain ⟨x, hx, rfl⟩ := contains_varSet_iff.1 hw
      exact ⟨x, hx, .inl ⟨rfl, hnone⟩⟩
    · obtain ⟨x, hx, rfl⟩ := contains_varSet_iff.1 hv
      exact ⟨x, hx, .inr ⟨u, hu, hw⟩⟩

/-- In a type without bound variables there is nothing to replace, at any depth. -/
theorem subst_of_forall_unbound (h : ∀ w, t.varSet.contains w = true → b.get? w = none)
    (limit : Nat) : t.subst b limit = .unchanged := by
  refine subst_of_not_reaches fun hit => ?_
  obtain ⟨o, ho, -, hbound⟩ := hit
  have hmem : t.varSet.contains o.var.toVarId = true :=
    contains_varSet_iff.2 ⟨o.var, mem_vars_iff.2 ⟨o, ho, rfl⟩, rfl⟩
  rw [h _ hmem] at hbound
  cases hbound

/-- The variables of a type after a substitution that reaches all of it are those that are not bound
and those of the types that were put in. If these mention no bound variable, none is left, and the
same bindings find nothing to replace any more, whatever the limit. -/
theorem varSet_subst (t : JType) (b : Bindings) {limit : Nat} (h : t.depth ≤ limit) :
    (∀ w, ((t.subst b limit).getD t).varSet.contains w = true ↔
      (t.varSet.contains w = true ∧ b.get? w = none) ∨
        ∃ v u, t.varSet.contains v = true ∧ b.get? v = some u ∧ u.varSet.contains w = true) ∧
    ((∀ v u, b.get? v = some u → ∀ w, u.varSet.contains w = true → b.get? w = none) →
      (∀ w, ((t.subst b limit).getD t).varSet.contains w = true → b.get? w = none) ∧
      ∀ limit', ((t.subst b limit).getD t).subst b limit' = .unchanged) := by
  rw [getD_subst_of_depth_le h]
  refine ⟨fun w => contains_varSet_fill_typeOf, fun hfree => ?_⟩
  have hunbound : ∀ w, (t.fill b.typeOf).varSet.contains w = true → b.get? w = none := by
    intro w hw
    rcases contains_varSet_fill_typeOf.1 hw with ⟨-, hnone⟩ | ⟨v, u, -, hu, hw⟩
    · exact hnone
    · exact hfree v u hu w hw
  exact ⟨hunbound, subst_of_forall_unbound hunbound⟩

/-- In `Map<K[], ? extends V>` only `K` is bound, and to a type that mentions `V`: so `V` is what is
left, from both places. -/
theorem varSet_subst_entry :
    mapOfEntry.depth ≤ 2 ∧
    mapOfEntry.varSet.names.keys = [(entryVar 0 "K").toVarId, (entryVar 1 "V").toVarId] ∧
    ((mapOfEntry.subst keyIsList 2).getD mapOfEntry).varSet.names.keys =
      [(entryVar 1 "V").toVarId] ∧
    (∀ w, ((mapOfEntry.subst keyIsList 2).getD mapOfEntry).varSet.contains w = true ↔
      (mapOfEntry.varSet.contains w = true ∧ keyIsList.get? w = none) ∨
        ∃ v u, mapOfEntry.varSet.contains v = true ∧ keyIsList.get? v = some u ∧
          u.varSet.contains w = true) ∧
    ((mapOfEntry.subst keyIsList 2).getD mapOfEntry).subst keyIsList 5 = .unchanged := by
  have hdepth : mapOfEntry.depth ≤ 2 := by decide
  have hfree : ∀ v u, keyIsList.get? v = some u → ∀ w, u.varSet.contains w = true →
      keyIsList.get? w = none := by
    intro v u hu w hw
    simp only [keyIsList, Bindings.ofList, List.foldl_cons, List.foldl_nil, Bindings.get?_insert,
      Bindings.get?_empty] at hu ⊢
    split at hu
    · cases hu
      obtain rfl : (entryVar 1 "V").toVarId = w := by
        simpa [contains_varSet_iff, vars, varsArgs] using hw
      decide
    · cases hu
  have hvars := varSet_subst mapOfEntry keyIsList hdepth
  exact ⟨hdepth, by decide, by decide, hvars.1, (hvars.2 hfree).2 5⟩

end Unerase.JType
