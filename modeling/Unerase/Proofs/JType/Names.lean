import Unerase.Proofs.JType.Same
import Unerase.Proofs.JType.Substitution

/-!
# Substitution and display names

Bindings are looked up by the identity of a variable. So a substitution with bindings that are the
same, in types that are the same, replaces at the same places, and gives types that are the same
(`subst_same`).
-/

namespace Unerase

/-- An outcome with the display names of its type wiped. -/
def Outcome.unnamed : Outcome → Outcome
  | .noBindings => .noBindings
  | .unchanged => .unchanged
  | .replaced type => .replaced type.unnamed

/-- Bindings are the same when they bind the same variables, to types that are the same. -/
def Bindings.Same (b b' : Bindings) : Prop :=
  ∀ v, (b.get? v).map JType.unnamed = (b'.get? v).map JType.unnamed

namespace Bindings.Same

variable {b b' : Bindings} {limit : Nat}

theorem refl (b : Bindings) : b.Same b := fun _ => rfl

theorem isSome_get?_eq (h : b.Same b') (v : VarId) : (b.get? v).isSome = (b'.get? v).isSome := by
  rw [← Option.isSome_map (f := JType.unnamed), h v, Option.isSome_map]

theorem isEmpty_eq (h : b.Same b') : b.isEmpty = b'.isEmpty := by
  rw [Bool.eq_iff_iff, isEmpty_iff, isEmpty_iff]
  refine forall_congr' fun v => ?_
  rw [← Option.not_isSome_iff_eq_none, h.isSome_get?_eq, Option.not_isSome_iff_eq_none]

/-- What a variable stands for does not depend on the name it is displayed under. -/
theorem unnamed_typeOf (h : b.Same b') {v w : TypeVar} (hv : v.toVarId = w.toVarId) :
    (b.typeOf v).unnamed = (b'.typeOf w).unnamed := by
  have hget : (b.get? v.toVarId).map JType.unnamed = (b'.get? w.toVarId).map JType.unnamed := by
    rw [hv, h]
  rw [typeOf, typeOf]
  cases ht : b.get? v.toVarId with
  | none =>
    rw [ht, Option.map_none, eq_comm, Option.map_eq_none_iff] at hget
    rw [hget, Option.getD_none, Option.getD_none, JType.unnamed, JType.unnamed, hv]
  | some t =>
    rw [ht, Option.map_some, eq_comm, Option.map_eq_some_iff] at hget
    obtain ⟨u, hu, heq⟩ := hget
    rw [hu, Option.getD_some, Option.getD_some, heq]

theorem unnamed_upTo (h : b.Same b') {v w : TypeVar} (hv : v.toVarId = w.toVarId) (depth : Nat) :
    (b.upTo limit depth v).unnamed = (b'.upTo limit depth w).unnamed := by
  unfold upTo
  split
  · exact h.unnamed_typeOf hv
  · rw [JType.unnamed, JType.unnamed, hv]

/-- A filled type without display names is made of the type and of the bindings without theirs. -/
theorem unnamed_fillAt (h : b.Same b') (t : JType) :
    (t.fillAt (b.upTo limit) 0).unnamed = (t.unnamed.fillAt (b'.upTo limit) 0).unnamed := by
  rw [JType.unnamed_fillAt, JType.unnamed_fillAt, JType.fillAt_unnamed]
  exact JType.fillAt_congr fun o _ => h.unnamed_upTo (v := o.var) (w := o.var.unnamed) rfl o.depth

theorem reaches_iff (h : b.Same b') {t : JType} :
    (∃ o ∈ t.occurrences, b.Reaches limit o) ↔ ∃ o ∈ t.unnamed.occurrences, b'.Reaches limit o := by
  simp only [JType.occurrences, JType.occurrencesAt_unnamed, List.mem_map, Reaches,
    h.isSome_get?_eq]
  constructor
  · intro hit
    obtain ⟨o, ho, hreach⟩ := hit
    exact ⟨_, ⟨o, ho, rfl⟩, hreach⟩
  · intro hit
    obtain ⟨_, ⟨o, ho, rfl⟩, hreach⟩ := hit
    exact ⟨o, ho, hreach⟩

theorem unnamed_subst (h : b.Same b') (t : JType) :
    (t.subst b limit).unnamed = (t.unnamed.subst b' limit).unnamed := by
  by_cases hit : ∃ o ∈ t.occurrences, b.Reaches limit o
  · rw [JType.subst_of_reaches hit, JType.subst_of_reaches (h.reaches_iff.1 hit), Outcome.unnamed,
      Outcome.unnamed, h.unnamed_fillAt]
  · rw [JType.subst_of_not_reaches hit, JType.subst_of_not_reaches (mt h.reaches_iff.2 hit)]

end Bindings.Same

namespace JType

variable {b b' : Bindings} {t u : JType}

/-- Filling a type depends on the type and on the bindings up to display names. -/
theorem fillAt_same (hb : b.Same b') (h : t.unnamed = u.unnamed) (limit : Nat) :
    (t.fillAt (b.upTo limit) 0).unnamed = (u.fillAt (b'.upTo limit) 0).unnamed := by
  rw [hb.unnamed_fillAt, h, ← (Bindings.Same.refl b').unnamed_fillAt]

/-- So does substitution, its outcome included. -/
theorem subst_same (hb : b.Same b') (h : t.unnamed = u.unnamed) (limit : Nat) :
    (t.subst b limit).unnamed = (u.subst b' limit).unnamed := by
  rw [hb.unnamed_subst, h, ← (Bindings.Same.refl b').unnamed_subst]

end JType

end Unerase
