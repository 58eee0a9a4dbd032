import Unerase.ClassTable.Visible
import Unerase.Proofs.ClassTable.Ancestors
import Unerase.Proofs.ClassTable.Closed

/-!
# Which variables are visible

A variable is visible in a method if the method, its class or an ancestor of its class declares it.
So what is visible is decided by who declares what and by the names of the supertypes: tables that
agree in this are alike, and the same variables are visible over both (`visibleVars_same`).
-/

namespace Unerase

/-- A method declares the variables of its own type parameters. -/
def MethodDecl.Declares (m : MethodDecl) (v : VarId) : Prop :=
  ∃ param ∈ m.typeParams, param.var.toVarId = v

instance (m : MethodDecl) (v : VarId) : Decidable (m.Declares v) :=
  inferInstanceAs (Decidable (∃ param ∈ m.typeParams, _))

/-- Known classes are alike when they come from the same origin, declare the same variables and
have supertypes of the same names. The order of the supertypes, their arguments and the bounds of
the parameters are of no account. -/
structure KnownClass.Alike (c d : KnownClass) : Prop where
  origin : c.origin = d.origin
  declares : ∀ v, c.Declares v ↔ d.Declares v
  supertypeNames : ∀ name, name ∈ c.supertypeNames ↔ name ∈ d.supertypeNames

namespace ClassTable

variable {classes classes' : ClassTable} {config : Config} {m m' : MethodDecl} {v : VarId}

/-- Tables are alike when they know classes under the same names and these are alike. -/
def Alike (classes classes' : ClassTable) : Prop :=
  ∀ name, Option.Rel KnownClass.Alike (classes name) (classes' name)

/-! ## Members of the set -/

theorem exists_mem_vars_iff {params : List TypeParam} :
    (∃ w ∈ TypeParam.vars params, w.toVarId = v) ↔ ∃ param ∈ params, param.var.toVarId = v := by
  simp [TypeParam.vars]

theorem exists_mem_paramsOf_iff {name : String} :
    (∃ param ∈ classes.paramsOf name, param.var.toVarId = v) ↔
      ∃ c, classes name = some c ∧ c.Declares v := by
  rw [paramsOf]
  cases classes name with
  | none => simp
  | some c => simp [ClassHeader.Declares]

/-- What is visible is declared by the class of the method, by one of its ancestors or by the
method itself. -/
theorem contains_visibleVars_iff :
    (classes.visibleVars config m).contains v = true ↔
      m.Declares v ∨ (∃ c, classes m.id.className = some c ∧ c.Declares v) ∨
        ∃ c ∈ classes.ancestors config m.id.className, c.Declares v := by
  have hancestors : (∃ w ∈ (classes.ancestors config m.id.className).flatMap fun c =>
      TypeParam.vars c.typeParams, w.toVarId = v) ↔
        ∃ c ∈ classes.ancestors config m.id.className, c.Declares v := by
    constructor
    · intro h
      obtain ⟨w, hw, hv⟩ := h
      obtain ⟨c, hc, hw⟩ := List.mem_flatMap.1 hw
      exact ⟨c, hc, exists_mem_vars_iff.1 ⟨w, hw, hv⟩⟩
    · intro h
      obtain ⟨c, hc, hv⟩ := h
      obtain ⟨w, hw, hv⟩ := exists_mem_vars_iff.2 hv
      exact ⟨w, List.mem_flatMap.2 ⟨c, hc, hw⟩, hv⟩
  rw [visibleVars, VarSet.contains_insertAll, VarSet.contains_insertAll, VarSet.contains_ofList,
    exists_mem_vars_iff, exists_mem_vars_iff, exists_mem_paramsOf_iff, hancestors]
  exact or_comm

/-- Methods of one class that declare the same variables see the same. -/
theorem visibleVars_congr (hclass : m.id.className = m'.id.className)
    (hdeclares : ∀ v, m.Declares v ↔ m'.Declares v) :
    (classes.visibleVars config m).same (classes.visibleVars config m') = true := by
  rw [VarSet.same_iff]
  intro v
  rw [Bool.eq_iff_iff, contains_visibleVars_iff, contains_visibleVars_iff, hclass, hdeclares]

/-! ## Tables that are alike -/

/-- A name is either unknown to both tables or known to both. -/
theorem Alike.known (h : Alike classes classes') (name : String) :
    (classes name = none ∧ classes' name = none) ∨
      ∃ c d, classes name = some c ∧ classes' name = some d ∧ c.Alike d := by
  have hrel := h name
  revert hrel
  cases classes name <;> cases classes' name <;> simp

theorem Alike.admitted_iff (h : Alike classes classes') {name : String} :
    Admitted classes config name ↔ Admitted classes' config name := by
  rw [Admitted, Admitted]
  rcases h.known name with ⟨hc, hd⟩ | ⟨c, d, hc, hd, halike⟩
  · simp [hc, hd]
  · simp [hc, hd, halike.origin]

theorem Alike.mem_stepsUp_iff (h : Alike classes classes') {start name above : String} :
    above ∈ classes.stepsUp config start name ↔ above ∈ classes'.stepsUp config start name := by
  simp only [stepsUp, h.admitted_iff]
  split
  · rcases h.known name with ⟨hc, hd⟩ | ⟨c, d, hc, hd, halike⟩
    · rw [hc, hd]
    · rw [hc, hd]
      exact halike.supertypeNames above
  · rfl

/-- The ancestors are the same, though they may be met in another order. -/
theorem Alike.ancestorSet_eq (h : Alike classes classes') (config : Config) (start : String) :
    classes.ancestorSet config start = classes'.ancestorSet config start := by
  ext name
  simp only [ancestorSet, Set.mem_ofPred_eq, h.admitted_iff,
    mem_atDistance_congr fun x y => h.mem_stepsUp_iff]

theorem Alike.exists_declares_iff (h : Alike classes classes') {name : String} :
    (∃ c, classes name = some c ∧ c.Declares v) ↔ ∃ c, classes' name = some c ∧ c.Declares v := by
  rcases h.known name with ⟨hc, hd⟩ | ⟨c, d, hc, hd, halike⟩
  · simp [hc, hd]
  · simpa [hc, hd] using halike.declares v

section Room

variable (hnamed : ∀ name c, classes name = some c → c.name = name)
  (hcount : (classes.ancestorSet config m.id.className).encard ≤ config.maxAncestors)

include hnamed hcount

/-- If there is room for all ancestors, what they declare is what the classes declare that are
reached and count. -/
theorem exists_ancestor_declares_iff :
    (∃ c ∈ classes.ancestors config m.id.className, c.Declares v) ↔
      ∃ name ∈ classes.ancestorSet config m.id.className,
        ∃ c, classes name = some c ∧ c.Declares v := by
  cases hc : classes m.id.className with
  | none =>
    -- nothing is reached from a class that is not known
    constructor
    · intro h
      simp [ancestors, hc] at h
    · intro h
      obtain ⟨name, ⟨hne, -, n, hn⟩, -⟩ := h
      cases n with
      | zero => exact absurd (by simpa using hn) hne
      | succ n => simp [atDistance_succ, stepsUp, hc] at hn
  | some start =>
    constructor
    · intro h
      obtain ⟨c, hmem, hv⟩ := h
      obtain ⟨hset, hknown⟩ := (mem_ancestors_iff hnamed hc hcount).1 hmem
      exact ⟨c.name, hset, c, hknown, hv⟩
    · intro h
      obtain ⟨name, hset, c, hknown, hv⟩ := h
      obtain rfl := hnamed name c hknown
      exact ⟨c, (mem_ancestors_iff hnamed hc hcount).2 ⟨hset, hknown⟩, hv⟩

theorem contains_visibleVars_iff_of_room :
    (classes.visibleVars config m).contains v = true ↔
      m.Declares v ∨ (∃ c, classes m.id.className = some c ∧ c.Declares v) ∨
        ∃ name ∈ classes.ancestorSet config m.id.className,
          ∃ c, classes name = some c ∧ c.Declares v := by
  rw [contains_visibleVars_iff, exists_ancestor_declares_iff hnamed hcount]

/-- Over tables that are alike the same variables are visible. -/
theorem Alike.visibleVars_same (h : Alike classes classes')
    (hnamed' : ∀ name c, classes' name = some c → c.name = name)
    (hclass : m.id.className = m'.id.className) (hdeclares : ∀ v, m.Declares v ↔ m'.Declares v) :
    (classes.visibleVars config m).same (classes'.visibleVars config m') = true := by
  have hset := h.ancestorSet_eq config m.id.className
  have hcount' : (classes'.ancestorSet config m'.id.className).encard ≤ config.maxAncestors := by
    rwa [← hclass, ← hset]
  rw [VarSet.same_iff]
  intro v
  rw [Bool.eq_iff_iff, contains_visibleVars_iff_of_room hnamed hcount,
    contains_visibleVars_iff_of_room hnamed' hcount', ← hclass, ← hset, hdeclares]
  simp only [h.exists_declares_iff]

end Room

end ClassTable

end Unerase
