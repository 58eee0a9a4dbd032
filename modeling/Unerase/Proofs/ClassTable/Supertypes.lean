import Mathlib.Data.Set.Card
import Unerase.ClassTable.View
import Unerase.Proofs.ClassTable.Binding
import Unerase.Proofs.Search

/-!
# Supertypes of class types

What the direct supertypes of a class type are, which types lie how many steps above it, and how
many there are. Types are counted as they are told apart, which is without their display names.
-/

namespace Unerase

namespace ClassTable

variable {classes : ClassTable} {config : Config}

/-! ## Steps upwards -/

/-- A direct supertype of a class type as it reads for that use of the class. A use of a class
with parameters that binds none of them sees the declared supertypes erased; any other has its
arguments put in, and sees a supertype as declared where there is nothing to put in. -/
inductive Above (classes : ClassTable) (config : Config) : JType → JType → Prop
  | erased {name args c s} : classes name = some c → s ∈ c.supertypes → c.typeParams ≠ [] →
      (classes.bindings (.cls name args)).isEmpty = true →
      Above classes config (.cls name args) s.erasure
  | filled {name args c s} : classes name = some c → s ∈ c.supertypes →
      ¬ (c.typeParams ≠ [] ∧ (classes.bindings (.cls name args)).isEmpty = true) →
      Above classes config (.cls name args)
        ((s.subst (classes.bindings (.cls name args)) config.maxSubstitutionDepth).getD s)

/-- A type that is reached from another by the given number of steps upwards. -/
inductive AboveIn (classes : ClassTable) (config : Config) : Nat → JType → JType → Prop
  | refl (t) : AboveIn classes config 0 t t
  | step {n t u w} : AboveIn classes config n t u → Above classes config u w →
      AboveIn classes config (n + 1) t w

/-- The class types that are reached from a type, the type itself among them. -/
def reachable (classes : ClassTable) (config : Config) (t : JType) : Set JType :=
  {u | u.className?.isSome ∧ ∃ n, AboveIn classes config n t u}

/-- The number of different class types that are reached from a type, where types that differ
only in display names count once. -/
noncomputable def reachCount (classes : ClassTable) (config : Config) (t : JType) : ℕ∞ :=
  (JType.unnamed '' reachable classes config t).encard

/-! ## The steps that the search takes -/

/-- A use of a class with parameters is raw if it binds none of them. -/
def isRawUse (classes : ClassTable) (c : KnownClass) (t : JType) : Bool :=
  !c.typeParams.isEmpty && (classes.bindings t).isEmpty

theorem isRawUse_iff {c : KnownClass} {t : JType} :
    classes.isRawUse c t = true ↔ c.typeParams ≠ [] ∧ (classes.bindings t).isEmpty = true := by
  simp [isRawUse]

theorem supertypeFor_eq (raw : Bool) (b : Bindings) (s : JType) :
    supertypeFor config raw b s =
      if raw then s.erasure else s.fillAt (b.upTo config.maxSubstitutionDepth) 0 := by
  rw [supertypeFor, JType.getD_subst]

theorem typesAbove_of_known {t : JType} {c : KnownClass} (h : t.className?.bind classes = some c) :
    classes.typesAbove config t =
      (c.supertypes.map (supertypeFor config (classes.isRawUse c t) (classes.bindings t))).filter
        fun u => u.className?.isSome := by
  simp only [typesAbove, h]
  rfl

theorem typesAbove_of_unknown {t : JType} (h : t.className?.bind classes = none) :
    classes.typesAbove config t = [] := by
  simp only [typesAbove, h]

/-- What is above a type is a declared supertype of its class, read for the type. -/
theorem above_iff {t u : JType} :
    Above classes config t u ↔ ∃ c, t.className?.bind classes = some c ∧ ∃ s ∈ c.supertypes,
      supertypeFor config (classes.isRawUse c t) (classes.bindings t) s = u := by
  constructor
  · intro h
    cases h with
    | @erased name args c s hc hs hparams hempty =>
      refine ⟨c, hc, s, hs, ?_⟩
      rw [supertypeFor, if_pos (isRawUse_iff.2 ⟨hparams, hempty⟩)]
    | @filled name args c s hc hs hraw =>
      refine ⟨c, hc, s, hs, ?_⟩
      rw [supertypeFor, if_neg (mt isRawUse_iff.1 hraw)]
  · intro h
    obtain ⟨c, hc, s, hs, rfl⟩ := h
    obtain ⟨name, hname, hc⟩ := Option.bind_eq_some_iff.1 hc
    obtain ⟨args, rfl⟩ : ∃ args, t = .cls name args := by
      cases t <;> simp_all [JType.className?]
    unfold supertypeFor
    split
    · rename_i hraw
      exact .erased hc hs (isRawUse_iff.1 hraw).1 (isRawUse_iff.1 hraw).2
    · rename_i hraw
      exact .filled hc hs (mt isRawUse_iff.2 hraw)

/-- The search steps to the direct supertypes that are class types. -/
theorem mem_typesAbove_iff {t u : JType} :
    u ∈ classes.typesAbove config t ↔ Above classes config t u ∧ u.className?.isSome := by
  rw [above_iff]
  cases hc : t.className?.bind classes with
  | none => simp [typesAbove_of_unknown hc]
  | some c => simp [typesAbove_of_known hc]

/-- Only class types have something above them. -/
theorem Above.isSome_className? {t u : JType} (h : Above classes config t u) :
    t.className?.isSome := by
  cases h <;> rfl

/-- The search meets the class types that are reached, each at its distance. -/
theorem mem_atDistance_typesAbove {n : Nat} {t u : JType} (ht : t.className?.isSome) :
    u ∈ atDistance (classes.typesAbove config) n [t] ↔
      AboveIn classes config n t u ∧ u.className?.isSome := by
  induction n generalizing u with
  | zero =>
    rw [atDistance_zero, List.mem_singleton]
    constructor
    · intro h
      subst h
      exact ⟨.refl u, ht⟩
    · intro h
      cases h.1
      rfl
  | succ n ih =>
    rw [atDistance_succ', List.mem_flatMap]
    constructor
    · intro h
      obtain ⟨w, hw, hu⟩ := h
      rw [mem_typesAbove_iff] at hu
      exact ⟨.step (ih.1 hw).1 hu.1, hu.2⟩
    · intro h
      obtain ⟨h, hu⟩ := h
      cases h with
      | step hw habove =>
        exact ⟨_, ih.2 ⟨hw, habove.isSome_className?⟩, mem_typesAbove_iff.2 ⟨habove, hu⟩⟩

theorem mem_reachable_iff {t u : JType} (ht : t.className?.isSome) :
    u ∈ classes.reachable config t ↔ ∃ n, u ∈ atDistance (classes.typesAbove config) n [t] := by
  constructor
  · intro h
    obtain ⟨hu, n, hn⟩ := h
    exact ⟨n, (mem_atDistance_typesAbove ht).2 ⟨hn, hu⟩⟩
  · intro h
    obtain ⟨n, hn⟩ := h
    obtain ⟨hn, hu⟩ := (mem_atDistance_typesAbove ht).1 hn
    exact ⟨hu, n, hn⟩

/-- A list of types that no step leads out of holds all types that are reached from it. -/
theorem mem_of_mem_reachable {t u : JType} (ts : List JType) (ht : t.className?.isSome)
    (hmem : t ∈ ts) (hstep : ∀ u ∈ ts, ∀ w ∈ classes.typesAbove config u, w ∈ ts)
    (hu : u ∈ classes.reachable config t) : u ∈ ts := by
  obtain ⟨n, hn⟩ := (mem_reachable_iff ht).1 hu
  exact of_mem_atDistance hstep (by simpa using hmem) u hn

/-- So its length bounds their number. -/
theorem reachCount_le_length {t : JType} (ts : List JType) (ht : t.className?.isSome)
    (hmem : t ∈ ts) (hstep : ∀ u ∈ ts, ∀ w ∈ classes.typesAbove config u, w ∈ ts) :
    classes.reachCount config t ≤ ts.length :=
  (Set.encard_image_le _ _).trans
    (encard_le_length fun _ hu => mem_of_mem_reachable ts ht hmem hstep hu)

end ClassTable

end Unerase
