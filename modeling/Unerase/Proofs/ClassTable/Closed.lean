import Unerase.Proofs.ClassTable.Supertypes

/-!
# Closed classes

A class is closed when its declared supertypes mention no variables but its own. A use of the
class then leaves none of them in what is above it: a raw use erases them all, and any other binds
them all, so that each is replaced by an argument. This holds as long as the substitution goes
deep enough to reach them.
-/

namespace Unerase

namespace ClassHeader

/-- A class declares the variables of its own parameters. -/
def Declares (c : ClassHeader) (v : VarId) : Prop := ∃ param ∈ c.typeParams, param.var.toVarId = v

/-- The supertypes of a class mention no variables but its own, and none below the given depth. -/
def ClosedTo (c : ClassHeader) (limit : Nat) : Prop :=
  ∀ s ∈ c.supertypes, ∀ o ∈ s.occurrences, o.depth ≤ limit ∧ c.Declares o.var.toVarId

instance (c : ClassHeader) (v : VarId) : Decidable (c.Declares v) :=
  inferInstanceAs (Decidable (∃ param ∈ c.typeParams, _))

/-- Supertypes that are nested no deeper than the limit have no variables below it. -/
theorem closedTo_of_depth_le {c : ClassHeader} {limit : Nat}
    (h : ∀ s ∈ c.supertypes, (∀ v ∈ s.vars, c.Declares v.toVarId) ∧ s.depth ≤ limit) :
    c.ClosedTo limit := by
  intro s hs o ho
  obtain ⟨hvars, hdepth⟩ := h s hs
  exact ⟨Nat.le_trans (JType.depth_le_of_mem_occurrences ho) hdepth,
    hvars o.var (JType.mem_vars_iff.2 ⟨o, ho, rfl⟩)⟩

theorem ClosedTo.mono {c : ClassHeader} {limit more : Nat} (h : c.ClosedTo limit)
    (hle : limit ≤ more) : c.ClosedTo more := by
  intro s hs o ho
  obtain ⟨hdepth, hdecl⟩ := h s hs o ho
  exact ⟨Nat.le_trans hdepth hle, hdecl⟩

end ClassHeader

theorem JType.vars_erasure (t : JType) : t.erasure.vars = [] := by
  induction t using inductOn with
  | prim p => rfl
  | cls name args ih => rfl
  | array elem ih => exact ih
  | var v => rfl
  | unbounded => rfl
  | bounded dir bound ih =>
    cases dir with
    | upper => exact ih
    | lower => rfl

namespace ClassTable

variable {classes : ClassTable} {config : Config}

/-- Every class of the table is closed. -/
def ClosedTo (classes : ClassTable) (limit : Nat) : Prop :=
  ∀ name c, classes name = some c → c.ClosedTo limit

/-! ## What a use of a class binds -/

/-- A use of a class that is not raw binds every parameter. -/
theorem isSome_get?_bindings {name : String} {args : List JType} {c : KnownClass} {v : VarId}
    (hc : classes name = some c) (hraw : classes.isRawUse c (.cls name args) = false)
    (hv : c.Declares v) : ((classes.bindings (.cls name args)).get? v).isSome := by
  obtain ⟨param, hparam, rfl⟩ := hv
  have hparams : classes.paramsOf name = c.typeParams := by simp [paramsOf, hc]
  have hfit : ¬ (c.typeParams = [] ∨ c.typeParams.length ≠ args.length) := by
    rw [← isEmpty_bindAll_iff, ← hparams]
    intro hempty
    have hne : c.typeParams ≠ [] := List.ne_nil_of_mem hparam
    have hraw' : classes.isRawUse c (.cls name args) = true := isRawUse_iff.2 ⟨hne, hempty⟩
    rw [hraw] at hraw'
    cases hraw'
  rw [bindings, hparams]
  exact isSome_get?_bindAll (Decidable.not_not.1 (not_or.1 hfit).2) hparam

/-- What a type binds is part of the type. -/
theorem mem_vars_of_get?_bindings {t u : JType} {v : VarId}
    (h : (classes.bindings t).get? v = some u) {w : TypeVar} (hw : w ∈ u.vars) : w ∈ t.vars := by
  cases t with
  | cls name args =>
    rw [JType.vars, JType.varsArgs_eq_flatMap]
    exact List.mem_flatMap.2 ⟨u, mem_args_of_get?_bindAll h, hw⟩
  | _ => cases h

/-! ## What is above closed classes -/

/-- One step upwards brings in no variable. -/
theorem Above.mem_vars (hclosed : classes.ClosedTo config.maxSubstitutionDepth) {t u : JType}
    (h : Above classes config t u) {v : TypeVar} (hv : v ∈ u.vars) : v ∈ t.vars := by
  cases h with
  | erased =>
    rw [JType.vars_erasure] at hv
    cases hv
  | @filled name args c s hc hs hraw =>
    rw [JType.getD_subst, JType.mem_vars_fillAt] at hv
    obtain ⟨o, ho, hv⟩ := hv
    obtain ⟨hdepth, hdecl⟩ := hclosed name c hc s hs o ho
    have hbound := isSome_get?_bindings hc (Bool.eq_false_iff.2 (mt isRawUse_iff.1 hraw)) hdecl
    obtain ⟨arg, harg⟩ := Option.isSome_iff_exists.1 hbound
    rw [Bindings.upTo_of_le hdepth, Bindings.typeOf, harg] at hv
    exact mem_vars_of_get?_bindings harg hv

/-- So no number of steps does. -/
theorem AboveIn.mem_vars (hclosed : classes.ClosedTo config.maxSubstitutionDepth) {n : Nat}
    {t u : JType} (h : AboveIn classes config n t u) {v : TypeVar} (hv : v ∈ u.vars) :
    v ∈ t.vars := by
  induction h with
  | refl => exact hv
  | step _ habove ih => exact ih (habove.mem_vars hclosed hv)

end ClassTable

end Unerase
