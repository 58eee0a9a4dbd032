import Unerase.Proofs.ClassTable.Names

/-!
# What a view finds

The search for a view remembers types up to their display names and gives up after a number of
different types. What it finds is nevertheless the first use of the target in level order, and it
finds one whenever the types above the given type are few enough (`viewAs_eq_some_iff`). So a view
is sound, takes the fewest steps, and is missed only for want of room (`viewAs_shortest`).
-/

namespace Unerase

instance : EquivBEq SizedType where
  rfl := by
    intro a
    rw [SizedType.beq_eq_same]
    exact JType.same_refl a.type
  symm := by
    intro a b h
    rw [SizedType.beq_eq_same] at h ⊢
    exact JType.same_symm h
  trans := by
    intro a b c h₁ h₂
    rw [SizedType.beq_eq_same] at h₁ h₂ ⊢
    exact JType.same_trans h₁ h₂

namespace SizedType

theorem beq_iff {a b : SizedType} : (a == b) = true ↔ a.type.unnamed = b.type.unnamed := by
  rw [beq_eq_same, JType.same_iff]

end SizedType

theorem JType.isUseOf_iff {target : String} {t : JType} :
    t.isUseOf target = true ↔ t.className? = some target := by
  simp [isUseOf]

namespace ClassTable

variable {classes : ClassTable} {config : Config} {target : String}

/-- The search treats types that are the same alike. -/
theorem respects_typesAbove : Respects (fun t : SizedType =>
      (classes.typesAbove config t.type).map .of) (fun t => t.type.isUseOf target) where
  next {a b} hab x hx := by
    obtain ⟨t, ht, rfl⟩ := List.mem_map.1 hx
    have hmem : t.unnamed ∈ (classes.typesAbove config b.type).map JType.unnamed := by
      rw [← JType.forall₂_unnamed_iff.1 ((Same.refl classes).typesAbove (SizedType.beq_iff.1 hab))]
      exact List.mem_map_of_mem ht
    obtain ⟨u, hu, hut⟩ := List.mem_map.1 hmem
    exact ⟨.of u, List.mem_map_of_mem hu, SizedType.beq_iff.2 hut.symm⟩
  stop {a b} hab := by
    rw [JType.isUseOf, JType.className?_eq_of_same (SizedType.beq_iff.1 hab), JType.isUseOf]

/-- Forgetting the sizes leads from the search to the types above a type. -/
theorem map_type_typesAbove (t : SizedType) :
    classes.typesAbove config t.type =
      ((classes.typesAbove config t.type).map SizedType.of).map (·.type) := by
  rw [List.map_map]
  exact (List.map_id _).symm

theorem map_type_atDistance (n : Nat) (t : JType) :
    atDistance (classes.typesAbove config) n [t] =
      (atDistance (fun u : SizedType => (classes.typesAbove config u.type).map .of) n
        [.of t]).map (·.type) := by
  have hstart : [t] = [SizedType.of t].map (·.type) := rfl
  rw [hstart]
  exact atDistance_map (P := fun _ => True) (fun _ _ _ _ => trivial)
    (fun u _ => map_type_typesAbove u) (fun _ _ => trivial) n

theorem viewAs_of_isSome {t : JType} (ht : t.className?.isSome) :
    classes.viewAs config t target =
      ((classes.typesUpTo config target t).find? fun u => u.type.isUseOf target).map (·.type) :=
  if_pos ht

/-- A view is the first use of the target in level order. -/
theorem firstStop_of_viewAs {t u : JType} (h : classes.viewAs config t target = some u) :
    FirstStop (classes.typesAbove config) (JType.isUseOf target) [t] u := by
  unfold viewAs at h
  split at h
  · obtain ⟨found, hfound, rfl⟩ := Option.map_eq_some_iff.1 h
    have hfirst := firstStop_explore respects_typesAbove (settled_nil _) hfound
    exact hfirst.map (P := fun _ => True) (fun _ _ _ _ => trivial)
      (fun x _ => map_type_typesAbove x) (fun _ _ => rfl) (fun _ _ => trivial)
  · cases h

theorem isSome_className?_of_viewAs {t u : JType} (h : classes.viewAs config t target = some u) :
    t.className?.isSome := by
  by_contra hnone
  simp [viewAs, hnone] at h

/-- A view is reached. -/
theorem aboveIn_of_viewAs {t u : JType} (h : classes.viewAs config t target = some u) :
    ∃ n, AboveIn classes config n t u := by
  obtain ⟨n, -, hn⟩ := firstStop_of_viewAs h
  have hmem := List.mem_of_find?_eq_some hn
  exact ⟨n, ((mem_atDistance_typesAbove (isSome_className?_of_viewAs h)).1 hmem).1⟩

/-- Types that are reached and differ in more than display names are counted. -/
theorem length_le_reachCount {t : JType} {us : List JType}
    (hus : ∀ u ∈ us, u ∈ classes.reachable config t) (hnodup : (us.map JType.unnamed).Nodup) :
    us.length ≤ classes.reachCount config t := by
  rw [← List.length_map (f := JType.unnamed)]
  refine length_le_encard hnodup fun v hv => ?_
  obtain ⟨u, hu, rfl⟩ := List.mem_map.1 hv
  exact ⟨u, hus u hu, rfl⟩

/-- The search lists class types that are reached, each once. -/
theorem length_typesUpTo_le_reachCount {t : JType} (ht : t.className?.isSome) :
    (classes.typesUpTo config target t).length ≤ classes.reachCount config t := by
  have hpair : (classes.typesUpTo config target t).Pairwise fun a b => (b == a) = false :=
    (pairwise_explore _ _ _).1
  rw [← List.length_map (f := fun u : SizedType => u.type)]
  refine length_le_reachCount (fun u hu => ?_) ?_
  · obtain ⟨v, hv, rfl⟩ := List.mem_map.1 hu
    obtain ⟨n, hn⟩ := mem_explore hv
    have hmem : v.type ∈ atDistance (classes.typesAbove config) n [t] := by
      rw [map_type_atDistance]
      exact List.mem_map_of_mem hn
    rw [mem_atDistance_typesAbove ht] at hmem
    exact ⟨hmem.2, n, hmem.1⟩
  · -- types that are told apart by the search differ in more than display names
    rw [List.map_map, List.nodup_iff_pairwise_ne, List.pairwise_map]
    refine hpair.imp fun {a b} hab heq => ?_
    rw [SizedType.beq_iff.2 heq.symm] at hab
    cases hab

/-- Without a view there is no use of the target, unless there are more types than the search has
room for. -/
theorem noStop_of_viewAs {t : JType} (ht : t.className?.isSome)
    (h : classes.viewAs config t target = none) :
    NoStop (classes.typesAbove config) (JType.isUseOf target) [t] ∨
      config.maxAncestors < classes.reachCount config t := by
  rw [viewAs_of_isSome ht, Option.map_eq_none_iff] at h
  refine (noStop_explore respects_typesAbove (settled_nil _) h).imp (fun hno => ?_)
    fun hlen => ?_
  · exact hno.map (P := fun _ => True) (fun _ _ _ _ => trivial)
      (fun x _ => map_type_typesAbove x) (fun _ _ => rfl) (fun _ _ => trivial)
  · -- the search has room for one type more than the limit, and has used it up
    have hle : (classes.typesUpTo config target t).length ≤ classes.reachCount config t :=
      length_typesUpTo_le_reachCount ht
    rw [typesUpTo, hlen] at hle
    exact lt_of_lt_of_le (by exact_mod_cast Nat.lt_succ_self _) hle

/-- With room for all types above a class type, its view is the first use of the target in level
order, if there is any. -/
theorem viewAs_eq_some_iff {t u : JType} (ht : t.className?.isSome)
    (hcount : classes.reachCount config t ≤ config.maxAncestors) :
    classes.viewAs config t target = some u ↔
      FirstStop (classes.typesAbove config) (JType.isUseOf target) [t] u := by
  constructor
  · exact firstStop_of_viewAs
  · intro hfirst
    cases hview : classes.viewAs config t target with
    | none =>
      rcases noStop_of_viewAs ht hview with hno | hlt
      · exact absurd hno hfirst.not_noStop
      · exact absurd hcount (not_le_of_gt hlt)
    | some w => rw [(firstStop_of_viewAs hview).unique hfirst]

/-- A view is a use of the target that is reached, and no use of the target is reached in fewer
steps. A class type without a view has no use of the target above it, or more types than the
search visits. Nothing but a class type has a view. -/
theorem viewAs_shortest (classes : ClassTable) (config : Config) (t : JType) (target : String) :
    match classes.viewAs config t target with
    | some u =>
      t.className?.isSome ∧ u.className? = some target ∧
        ∃ n, AboveIn classes config n t u ∧
          ∀ m < n, ∀ w, AboveIn classes config m t w → w.className? ≠ some target
    | none =>
      t.className? = none ∨ (∀ w ∈ classes.reachable config t, w.className? ≠ some target) ∨
        config.maxAncestors < classes.reachCount config t := by
  split
  · rename_i u h
    have ht := isSome_className?_of_viewAs h
    have hfirst := firstStop_of_viewAs h
    have hu := JType.isUseOf_iff.1 hfirst.stops
    obtain ⟨n, hlt, hn⟩ := hfirst
    have hreach := (mem_atDistance_typesAbove ht).1 (List.mem_of_find?_eq_some hn)
    refine ⟨ht, hu, n, hreach.1, fun m hm w hw htarget => ?_⟩
    have hmem := (mem_atDistance_typesAbove ht).2 ⟨hw, by rw [htarget]; rfl⟩
    have := hlt m hm w hmem
    rw [JType.isUseOf_iff.2 htarget] at this
    cases this
  · rename_i h
    cases ht : t.className? with
    | none => exact .inl rfl
    | some name =>
      have ht : t.className?.isSome := by rw [ht]; rfl
      refine .inr ((noStop_of_viewAs ht h).imp (fun hno w hw htarget => ?_) id)
      obtain ⟨hclass, n, hn⟩ := hw
      have := hno n w ((mem_atDistance_typesAbove ht).2 ⟨hn, hclass⟩)
      rw [JType.isUseOf_iff.2 htarget] at this
      cases this

end ClassTable

end Unerase
