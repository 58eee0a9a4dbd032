import Unerase.Proofs.ClassTable.View

/-!
# Views of views

What is reached from a type that is reached is reached itself. So a view of a view is among the
types that may be found from the first type, and if that is the only use of its class above the
first type, viewing in two steps is viewing in one (`viewAs_trans`). The intermediate type may be
raw, and it may lie on a cycle: only what is reached is of account, and not by which ways.
-/

namespace Unerase.ClassTable

variable {classes : ClassTable} {config : Config} {t u w : JType}

/-- Steps upwards after steps upwards. -/
theorem AboveIn.trans {n m : Nat} (h : AboveIn classes config n t u)
    (h' : AboveIn classes config m u w) : AboveIn classes config (n + m) t w := by
  induction h' with
  | refl => exact h
  | step _ habove ih => exact .step (ih h) habove

theorem reachable_trans (hu : u ∈ classes.reachable config t)
    (hw : w ∈ classes.reachable config u) : w ∈ classes.reachable config t := by
  obtain ⟨-, n, hn⟩ := hu
  obtain ⟨hclass, m, hm⟩ := hw
  exact ⟨hclass, n + m, hn.trans hm⟩

section View

variable {target : String}

theorem className?_of_viewAs (h : classes.viewAs config t target = some u) :
    u.className? = some target :=
  JType.isUseOf_iff.1 (firstStop_of_viewAs h).stops

/-- A view is one of the types that are reached. -/
theorem mem_reachable_of_viewAs (h : classes.viewAs config t target = some u) :
    u ∈ classes.reachable config t :=
  ⟨by rw [className?_of_viewAs h]; rfl, aboveIn_of_viewAs h⟩

/-- With room for all types above a class type, it has a view as each class of which a use is
reached. -/
theorem exists_viewAs_of_mem_reachable (ht : t.className?.isSome)
    (hcount : classes.reachCount config t ≤ config.maxAncestors)
    (hu : u ∈ classes.reachable config t) (htarget : u.className? = some target) :
    ∃ v, classes.viewAs config t target = some v := by
  cases hview : classes.viewAs config t target with
  | some v => exact ⟨v, rfl⟩
  | none =>
    rcases noStop_of_viewAs ht hview with hno | hlt
    · obtain ⟨n, hn⟩ := (mem_reachable_iff ht).1 hu
      have hquiet := hno n u hn
      rw [JType.isUseOf_iff.2 htarget] at hquiet
      cases hquiet
    · exact absurd hcount (not_le_of_gt hlt)

end View

/-- Viewing in two steps is viewing in one. If there is room for all types above a class type, and
all uses of the target among them are the same, then a view of a view of the type is the same as
its view. -/
theorem viewAs_trans (classes : ClassTable) (config : Config) (t : JType) (middle target : String)
    (hcount : classes.reachCount config t ≤ config.maxAncestors)
    (honly : ∀ u ∈ classes.reachable config t, ∀ w ∈ classes.reachable config t,
      u.className? = some target → w.className? = some target → u.same w = true)
    (a b : JType) (ha : classes.viewAs config t middle = some a)
    (hb : classes.viewAs config a target = some b) :
    ∃ v, classes.viewAs config t target = some v ∧ v.same b = true := by
  have ht := isSome_className?_of_viewAs ha
  have hreach : b ∈ classes.reachable config t :=
    reachable_trans (mem_reachable_of_viewAs ha) (mem_reachable_of_viewAs hb)
  have htarget := className?_of_viewAs hb
  obtain ⟨v, hv⟩ := exists_viewAs_of_mem_reachable ht hcount hreach htarget
  exact ⟨v, hv, honly v (mem_reachable_of_viewAs hv) b hreach (className?_of_viewAs hv) htarget⟩

/-- A class with one parameter. -/
def unaryClass (name : String) (superClass : JType) (interfaces : List JType) : KnownClass where
  name := name
  isInterface := false
  typeParams := TypeParam.declare (.ofClass name) ["E"]
  superClass := some superClass
  interfaces := interfaces
  origin := .program

/-- `Ring<E>` extends `Chain<E>` and implements `Links` without arguments, `Chain<E>` extends
`Ring<E>` again and implements `Links` too, and above `Links<E>` there is `Items<E>`. -/
def rings : ClassTable := fun name =>
  if name = "Ring" then
    some (unaryClass "Ring" (.cls "Chain" [.var ⟨⟨.ofClass "Ring", 0⟩, "E"⟩]) [.cls "Links" []])
  else if name = "Chain" then
    some (unaryClass "Chain" (.cls "Ring" [.var ⟨⟨.ofClass "Chain", 0⟩, "E"⟩]) [.cls "Links" []])
  else if name = "Links" then
    some (unaryClass "Links" (.cls "Items" [.var ⟨⟨.ofClass "Links", 0⟩, "E"⟩]) [])
  else none

/-- What is above `Ring<String>`: a cycle, a raw use, and a class that is not known. -/
def aboveRing : List JType :=
  [.cls "Ring" [.cls "String" []], .cls "Chain" [.cls "String" []], .cls "Links" [],
    .cls "Items" []]

theorem viewAs_trans_ring :
    rings.viewAs { maxAncestors := 4 } (.cls "Ring" [.cls "String" []]) "Links" =
      some (.cls "Links" []) ∧
    rings.viewAs { maxAncestors := 4 } (.cls "Links" []) "Items" = some (.cls "Items" []) ∧
    ∃ v, rings.viewAs { maxAncestors := 4 } (.cls "Ring" [.cls "String" []]) "Items" = some v ∧
      v.same (.cls "Items" []) = true := by
  have hstep : ∀ u ∈ aboveRing, ∀ w ∈ rings.typesAbove { maxAncestors := 4 } u, w ∈ aboveRing := by
    decide
  have hcount : rings.reachCount { maxAncestors := 4 } (.cls "Ring" [.cls "String" []]) ≤ (4 : ℕ) :=
    (reachCount_le_length aboveRing rfl (by decide) hstep).trans (Nat.cast_le.2 (by decide))
  have honly : ∀ u ∈ aboveRing, ∀ w ∈ aboveRing, u.className? = some "Items" →
      w.className? = some "Items" → u.same w = true := by decide
  have ha : rings.viewAs { maxAncestors := 4 } (.cls "Ring" [.cls "String" []]) "Links" =
      some (.cls "Links" []) := by decide
  have hb : rings.viewAs { maxAncestors := 4 } (.cls "Links" []) "Items" =
      some (.cls "Items" []) := by decide
  exact ⟨ha, hb, viewAs_trans rings _ _ "Links" "Items" hcount
    (fun u hu w hw => honly u (mem_of_mem_reachable aboveRing rfl (by decide) hstep hu) w
      (mem_of_mem_reachable aboveRing rfl (by decide) hstep hw)) _ _ ha hb⟩

end Unerase.ClassTable
