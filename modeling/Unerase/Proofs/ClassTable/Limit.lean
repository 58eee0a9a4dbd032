import Unerase.Proofs.ClassTable.Transitivity
import Unerase.Proofs.ClassTable.Visible

/-!
# More room for ancestors

The two walks up the hierarchy take the same nodes in the same order whatever the limit is, and a
limit only ends them. So with a smaller limit the ancestors of a class are the first of those that a
larger one gives, no variable is visible that would not be, and a view that is found is the one that
is found with more room (`limit_only_truncates`).
-/

namespace Unerase.ClassTable

variable {classes : ClassTable} {config : Config} {limit more : Nat}

/-! ## Ancestors -/

/-- The walk lists names of known classes. -/
theorem isSome_of_mem_ancestorNames {c : KnownClass} {name : String}
    (h : name ∈ classes.ancestorNames config c) : (classes name).isSome := by
  have hadmitted : ∀ n, ∀ x ∈ atDistance
      (fun name => ((classes name).map (classes.namesAbove config)).getD []) n
        (classes.namesAbove config c), (classes.admitted? config x).isSome := by
    intro n
    refine of_mem_atDistance (fun x _ y hy => ?_) fun x hx => (List.mem_filter.1 hx).2
    cases hx : classes x with
    | none => simp [hx] at hy
    | some d =>
      rw [hx] at hy
      exact (List.mem_filter.1 hy).2
  obtain ⟨n, hn⟩ := mem_explore h
  obtain ⟨d, hd, -⟩ := isSome_admitted?_iff.1 (hadmitted n name hn)
  rw [hd]
  rfl

/-- Where every name has a class, looking up the first names gives the first classes. -/
theorem filterMap_take {names : List String} (h : ∀ name ∈ names, (classes name).isSome)
    (n : Nat) : (names.take n).filterMap classes = (names.filterMap classes).take n := by
  induction names generalizing n with
  | nil => simp
  | cons name rest ih =>
    obtain ⟨c, hc⟩ := Option.isSome_iff_exists.1 (h name List.mem_cons_self)
    cases n with
    | zero => rfl
    | succ n =>
      rw [List.take_succ_cons, List.filterMap_cons_some hc, List.filterMap_cons_some hc,
        List.take_succ_cons, ih (fun x hx => h x (List.mem_cons_of_mem name hx))]

theorem ancestors_eq_take (h : limit ≤ more) (name : String) :
    classes.ancestors { config with maxAncestors := limit } name =
      (classes.ancestors { config with maxAncestors := more } name).take limit := by
  unfold ancestors
  cases hstart : classes name with
  | none => exact List.take_nil.symm
  | some c =>
    have hnames : classes.ancestorNames { config with maxAncestors := limit } c =
        (classes.ancestorNames { config with maxAncestors := more } c).take limit :=
      explore_eq_take h _ _
    dsimp only
    rw [hnames, filterMap_take fun _ => isSome_of_mem_ancestorNames]

theorem contains_visibleVars_of_le (h : limit ≤ more) {m : MethodDecl} {v : VarId}
    (hv : (classes.visibleVars { config with maxAncestors := limit } m).contains v = true) :
    (classes.visibleVars { config with maxAncestors := more } m).contains v = true := by
  rw [contains_visibleVars_iff, ancestors_eq_take h] at hv
  rw [contains_visibleVars_iff]
  rcases hv with hown | hclass | ⟨c, hc, hv⟩
  · exact .inl hown
  · exact .inr (.inl hclass)
  · exact .inr (.inr ⟨c, List.mem_of_mem_take hc, hv⟩)

/-! ## Views -/

/-- The search for a view has room for one type more than the limit, which is only looked at. -/
theorem typesUpTo_eq_take (h : limit ≤ more) (t : JType) (target : String) :
    classes.typesUpTo { config with maxAncestors := limit } target t =
      (classes.typesUpTo { config with maxAncestors := more } target t).take (limit + 1) :=
  explore_eq_take (Nat.succ_le_succ h) _ _

theorem viewAs_of_le (h : limit ≤ more) {t u : JType} {target : String}
    (hview : classes.viewAs { config with maxAncestors := limit } t target = some u) :
    classes.viewAs { config with maxAncestors := more } t target = some u := by
  have ht := isSome_className?_of_viewAs hview
  rw [viewAs_of_isSome ht, typesUpTo_eq_take h] at hview
  obtain ⟨found, hfound, rfl⟩ := Option.map_eq_some_iff.1 hview
  rw [viewAs_of_isSome ht, (List.take_prefix _ _).find?_eq_some hfound]
  rfl

/-- A smaller limit only truncates: it gives the first of the ancestors that a larger one gives, no
variables that the larger one does not give, and no other views than the larger one. -/
theorem limit_only_truncates (classes : ClassTable) (config : Config) {limit more : Nat}
    (h : limit ≤ more) :
    (∀ name, classes.ancestors { config with maxAncestors := limit } name =
      (classes.ancestors { config with maxAncestors := more } name).take
        (min limit (classes.ancestors { config with maxAncestors := more } name).length)) ∧
    (∀ m v, (classes.visibleVars { config with maxAncestors := limit } m).contains v = true →
      (classes.visibleVars { config with maxAncestors := more } m).contains v = true) ∧
    ∀ t target u, classes.viewAs { config with maxAncestors := limit } t target = some u →
      classes.viewAs { config with maxAncestors := more } t target = some u := by
  refine ⟨fun name => ?_, fun m v => contains_visibleVars_of_le h, fun t target u => viewAs_of_le h⟩
  rw [ancestors_eq_take h, ← List.take_eq_take_min]

/-- Above a ring there are two known classes. With room for one of them the chain is found, and the
class that the two implement is not. -/
theorem limit_only_truncates_ring :
    (rings.ancestors { maxAncestors := 1 } "Ring").map (·.name) = ["Chain"] ∧
    (rings.ancestors { maxAncestors := 2 } "Ring").map (·.name) = ["Chain", "Links"] ∧
    rings.ancestors { maxAncestors := 1 } "Ring" =
      (rings.ancestors { maxAncestors := 2 } "Ring").take (min 1 2) ∧
    rings.viewAs { maxAncestors := 2 } (.cls "Ring" [.cls "String" []]) "Chain" =
      some (.cls "Chain" [.cls "String" []]) ∧
    rings.viewAs { maxAncestors := 1 } (.cls "Ring" [.cls "String" []]) "Links" = none := by
  have htruncates := limit_only_truncates rings {} (Nat.le_succ 1)
  have hlength : (rings.ancestors { maxAncestors := 2 } "Ring").length = 2 := by decide +kernel
  have hfirst := htruncates.1 "Ring"
  rw [hlength] at hfirst
  exact ⟨by decide +kernel, by decide +kernel, hfirst,
    htruncates.2.2 (.cls "Ring" [.cls "String" []]) "Chain" _ (by decide +kernel),
    by decide +kernel⟩

end Unerase.ClassTable
