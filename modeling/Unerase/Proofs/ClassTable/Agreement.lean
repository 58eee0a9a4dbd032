import Unerase.Proofs.ClassTable.Ancestors
import Unerase.Proofs.ClassTable.Instantiation

/-!
# The two walks up the hierarchy

Ancestors are found by names, views by types. Where all supertypes are class types and the classpath
counts, the class names of the types at some distance from a type are the names at that distance
from its class, one by one: substitution and erasure never change of which class a supertype is a
use. So the type arguments have no say in which views there are (`isSome_viewAs_iff`).
-/

namespace Unerase

/-- The class that a class type is a use of. -/
def JType.className (t : JType) : String := t.className?.getD ""

theorem JType.className?_eq_some {t : JType} (h : t.className?.isSome) :
    t.className? = some t.className := by
  obtain ⟨name, hname⟩ := Option.isSome_iff_exists.1 h
  rw [className, hname, Option.getD_some]

namespace ClassTable

variable {classes : ClassTable} {config : Config} {start name : String} {t : JType}

theorem admitted_iff_isSome (hconfig : config.classpathAncestors = true) :
    Admitted classes config name ↔ (classes name).isSome := by
  simp [Admitted, hconfig, Option.isSome_iff_exists]

section Agreement

variable (hconfig : config.classpathAncestors = true)
  (hclass : ∀ name c, classes name = some c → ∀ s ∈ c.supertypes, s.className?.isSome)

include hconfig hclass

/-- One step over types is one step over their class names. -/
theorem stepsUp_className (ht : t.className?.isSome) :
    classes.stepsUp config start t.className = (classes.typesAbove config t).map JType.className := by
  cases t with
  | cls name args =>
    show classes.stepsUp config start name = _
    cases hc : classes name with
    | none =>
      have hunknown : (JType.cls name args).className?.bind classes = none := hc
      rw [typesAbove_of_unknown hunknown]
      simp [stepsUp, hc]
    | some c =>
      have hadmitted : Admitted classes config name := (admitted_iff_isSome hconfig).2 (by simp [hc])
      rw [stepsUp, if_pos (.inr hadmitted), hc, Option.map_some, Option.getD_some,
        typesAbove_eq_map hclass hc, List.map_map, ClassHeader.supertypeNames,
        ← List.filterMap_eq_map]
      refine List.filterMap_congr fun s hs => ?_
      have hs := hclass name c hc s hs
      rw [Function.comp_apply, Function.comp_apply, JType.className, className?_supertypeFor hs]
      exact JType.className?_eq_some hs
  | _ => cases ht

/-- The names at some distance are the classes of the types at this distance. -/
theorem atDistance_stepsUp (ht : t.className? = some start) (n : Nat) :
    atDistance (classes.stepsUp config start) n [start] =
      (atDistance (classes.typesAbove config) n [t]).map JType.className := by
  have hstart : [start] = [t].map JType.className := by
    rw [List.map_singleton, JType.className, ht, Option.getD_some]
  rw [hstart]
  exact atDistance_map (P := fun u : JType => u.className?.isSome)
    (fun _ _ _ hw => (mem_typesAbove_iff.1 hw).2) (fun u hu => stepsUp_className hconfig hclass hu)
    (by simp [ht]) n

/-- There are no more ancestors than types that are reached. -/
theorem encard_ancestorSet_le_reachCount (ht : t.className? = some start) :
    (classes.ancestorSet config start).encard ≤ classes.reachCount config t := by
  refine le_trans (Set.encard_le_encard fun name hname => ?_)
    (Set.encard_image_le JType.className _)
  obtain ⟨-, -, n, hn⟩ := hname
  rw [atDistance_stepsUp hconfig hclass ht] at hn
  obtain ⟨u, hu, rfl⟩ := List.mem_map.1 hn
  refine ⟨u.unnamed, ⟨u, (mem_reachable_iff (by simp [ht])).2 ⟨n, hu⟩, rfl⟩, ?_⟩
  rw [JType.className, JType.className?_unnamed, JType.className]

/-- A class type with room for all types above it has a view as each class that is met above its
own, and as no other. -/
theorem isSome_viewAs_iff (ht : t.className? = some start)
    (hcount : classes.reachCount config t ≤ config.maxAncestors) :
    (classes.viewAs config t name).isSome ↔
      ∃ n, name ∈ atDistance (classes.stepsUp config start) n [start] := by
  have hsome : t.className?.isSome := by simp [ht]
  simp only [atDistance_stepsUp hconfig hclass ht, List.mem_map]
  constructor
  · intro h
    obtain ⟨u, hu⟩ := Option.isSome_iff_exists.1 h
    have hfirst := firstStop_of_viewAs hu
    have hname := JType.isUseOf_iff.1 hfirst.stops
    obtain ⟨n, -, hn⟩ := hfirst
    exact ⟨n, u, List.mem_of_find?_eq_some hn, by rw [JType.className, hname, Option.getD_some]⟩
  · intro h
    obtain ⟨n, u, hu, rfl⟩ := h
    have huse : u.isUseOf u.className = true := JType.isUseOf_iff.2
      (JType.className?_eq_some ((mem_atDistance_typesAbove hsome).1 hu).2)
    by_contra hnone
    rcases noStop_of_viewAs hsome (Option.not_isSome_iff_eq_none.1 hnone) with hno | hlt
    · rw [hno n u hu] at huse
      cases huse
    · exact absurd hcount (not_le_of_gt hlt)

end Agreement

end ClassTable

end Unerase
