import Unerase.Proofs.ClassTable.Ancestors
import Unerase.Proofs.ClassTable.View
import Unerase.Proofs.Search.Walk

/-!
# The work of the two walks

The two walks up a class hierarchy, round by round. Their queues also hold what does not count:
names that are unknown or left out by the configuration, and types that are no class types. Both
walks end over every table of classes, also where there are infinitely many types above a single
one, and come to the ancestors and the view that `ancestors` and `viewAs` give. What they put into
their queues is what is above the start and what is above other names or types, no more of these
than the limit (`walks_end`).
-/

namespace Unerase

namespace ClassTable

variable {classes : ClassTable} {config : Config} {target : String}

/-! ## By names -/

section Names

variable {w w' : Walk String} {name : String}

/-- The names of the direct supertypes of a class that are class types, none if it is unknown. -/
def supertypeNamesOf (classes : ClassTable) (name : String) : List String :=
  ((classes name).map fun c => c.supertypeNames).getD []

/-- A visit of the walk that looks for ancestors. A name that is new is remembered in any case. If
it counts, there has to be room for it among the ancestors. -/
def visitName (classes : ClassTable) (config : Config) (w : Walk String) (name : String) :
    Visit String :=
  if w.seen.contains name then .skip
  else
    match classes name with
    | none => .note
    | some c =>
      if c.origin = .classpath ∧ config.classpathAncestors = false then .note
      else if config.maxAncestors ≤ w.expanded.length then .full
      else .expand c.supertypeNames

/-- The walk that looks for the ancestors of a class, which remembers the class from the beginning.
There is nothing to be visited if the class is unknown. -/
def walkFrom (classes : ClassTable) (name : String) : Walk String :=
  .start ((classes name).map fun c => c.name).toList (classes.supertypeNamesOf name)

/-- What a visit of a name comes to. -/
theorem visitName_spec {visit : Visit String} : classes.visitName config w name = visit →
    match visit with
    | .skip => w.seen.contains name = true
    | .note => w.seen.contains name = false ∧ (classes.admitted? config name).isSome = false
    | .expand nodes => w.seen.contains name = false ∧
        (classes.admitted? config name).isSome = true ∧
        w.expanded.length < config.maxAncestors ∧ nodes = classes.supertypeNamesOf name
    | .found => False
    | .full => config.maxAncestors ≤ w.expanded.length := by
  rintro rfl
  unfold visitName admitted? supertypeNamesOf
  cases w.seen.contains name with
  | true => simp
  | false =>
    cases classes name with
    | none => simp
    | some c =>
      by_cases hleft : c.origin = .classpath ∧ config.classpathAncestors = false
      · simp [hleft, Option.filter]
      · have hcounts : (config.classpathAncestors || decide (c.origin = .program)) = true := by
          cases horigin : c.origin <;> simp_all
        by_cases hroom : config.maxAncestors ≤ w.expanded.length
        · simp [hleft, hroom]
        · simp [hleft, hroom, Option.filter, hcounts, Nat.lt_of_not_le hroom]

theorem within_visitName (classes : ClassTable) (config : Config) :
    Walk.Within (classes.visitName config) config.maxAncestors classes.supertypeNamesOf where
  note h := (visitName_spec h).1
  expand h := by
    obtain ⟨hnew, -, hroom, habove⟩ := visitName_spec h
    exact ⟨hnew, hroom, habove⟩

/-- The names that the walk has expanded, and those that a search from here on would list. -/
def listing (classes : ClassTable) (config : Config) (w : Walk String) : List String :=
  w.expanded.reverse ++
    explore (fun name => ((classes name).map (classes.namesAbove config)).getD []) (fun _ => false)
      (config.maxAncestors - w.expanded.length) w.seen
      (w.queue.filter fun name => (classes.admitted? config name).isSome)

theorem filter_supertypeNamesOf (classes : ClassTable) (config : Config) (name : String) :
    (classes.supertypeNamesOf name).filter (fun name => (classes.admitted? config name).isSome) =
      ((classes name).map (classes.namesAbove config)).getD [] := by
  rw [supertypeNamesOf]
  cases classes name <;> rfl

/-- A round only moves names from what is still to be listed to what is expanded. -/
theorem listing_round (hround : w.round (classes.visitName config) = .ok w') :
    classes.listing config w' = classes.listing config w := by
  obtain ⟨name, rest, hqueue, hcases⟩ := Walk.round_eq_ok hround
  rw [listing, listing, hqueue]
  rcases hcases with ⟨hvisit, rfl⟩ | ⟨hvisit, rfl⟩ | ⟨nodes, hvisit, rfl⟩
  · have hseen : w.seen.contains name = true := visitName_spec hvisit
    rw [List.filter_cons]
    split
    · rw [explore_skip hseen]
      rfl
    · rfl
  · obtain ⟨-, hleft⟩ := visitName_spec hvisit
    rw [List.filter_cons_of_neg (by simp [hleft])]
    -- the search does not come to names that do not count, so it may remember them
    refine congrArg _ (explore_congr
      (P := fun x => (classes.admitted? config x).isSome = true) (fun x _ y hy => ?_)
      (fun _ _ => rfl) _ (fun x hx => (List.mem_filter.1 hx).2) fun x hx => ?_)
    · rw [← filter_supertypeNamesOf] at hy
      exact (List.mem_filter.1 hy).2
    · have hne : (x == name) = false := by
        refine beq_eq_false_iff_ne.2 fun heq => ?_
        rw [heq, hleft] at hx
        cases hx
      rw [Walk.note, List.contains_cons, hne, Bool.false_or]
  · obtain ⟨hnew, hcounts, hroom, rfl⟩ := visitName_spec hvisit
    have hlength : config.maxAncestors - w.expanded.length =
        config.maxAncestors - (name :: w.expanded).length + 1 := by
      rw [List.length_cons]
      omega
    rw [List.filter_cons, if_pos hcounts, hlength, explore_take hnew, if_neg (by simp)]
    simp only [Walk.expand, List.reverse_cons, List.append_assoc, List.singleton_append,
      List.filter_append, filter_supertypeNamesOf]

/-- When the walk ends, nothing is left to be listed. -/
theorem listing_end {ending : Ending String}
    (hround : w.round (classes.visitName config) = .error ending) :
    classes.listing config w = w.expanded.reverse := by
  rw [listing]
  rcases Walk.round_eq_error hround with ⟨hqueue, -⟩ | ⟨name, rest, -, ⟨hvisit, -⟩ | ⟨hvisit, -⟩⟩
  · rw [hqueue, List.filter_nil, explore_nil, List.append_nil]
  · exact (visitName_spec hvisit).elim
  · have hroom : config.maxAncestors ≤ w.expanded.length := visitName_spec hvisit
    rw [Nat.sub_eq_zero_of_le hroom, explore, List.append_nil]

/-- From the beginning the ancestors are to be listed. -/
theorem filterMap_listing_walkFrom (classes : ClassTable) (config : Config) (name : String) :
    (classes.listing config (classes.walkFrom name)).filterMap classes =
      classes.ancestors config name := by
  rw [listing, walkFrom, ancestors]
  simp only [Walk.start, List.reverse_nil, List.nil_append, filter_supertypeNamesOf]
  cases hc : classes name with
  | none => simp
  | some c => rfl

end Names

/-! ## By types -/

section Types

variable {w w' : Walk SizedType} {t : SizedType}

/-- The declared supertypes of the class of a type as they read for the type, also those that are no
class types; none if the class is unknown. -/
def supertypesOf (classes : ClassTable) (config : Config) (t : SizedType) : List SizedType :=
  ((t.type.className?.bind classes).map fun c =>
    (c.supertypes.map (supertypeFor config (classes.isRawUse c t.type)
      (classes.bindings t.type))).map .of).getD []

/-- A visit of the walk that looks for a use of the target. There has to be room for every type that
is remembered, also for one whose class is unknown. -/
def visitType (classes : ClassTable) (config : Config) (target : String) (w : Walk SizedType)
    (t : SizedType) : Visit SizedType :=
  match t.type.className? with
  | none => .skip
  | some name =>
    if name = target then .found
    else if w.seen.contains t then .skip
    else if config.maxAncestors < w.seen.length + 1 then .full
    else
      match classes name with
      | none => .note
      | some _ => .expand (classes.supertypesOf config t)

/-- A class type that is neither a use of the target nor remembered. -/
structure IsNew (target : String) (w : Walk SizedType) (t : SizedType) : Prop where
  isClass : t.type.className?.isSome = true
  other : t.type.isUseOf target = false
  unseen : w.seen.contains t = false

/-- What a visit of a type comes to. -/
theorem visitType_spec {visit : Visit SizedType} : classes.visitType config target w t = visit →
    match visit with
    | .skip => t.type.className?.isSome = false ∨ w.seen.contains t = true
    | .note => IsNew target w t ∧ w.seen.length < config.maxAncestors ∧
        classes.supertypesOf config t = []
    | .expand nodes => IsNew target w t ∧ w.seen.length < config.maxAncestors ∧
        nodes = classes.supertypesOf config t
    | .found => t.type.className?.isSome = true ∧ t.type.isUseOf target = true
    | .full => IsNew target w t ∧ config.maxAncestors ≤ w.seen.length := by
  rintro rfl
  unfold visitType
  cases hname : t.type.className? with
  | none => simp
  | some name =>
    have huse : t.type.isUseOf target = decide (name = target) := by
      rw [JType.isUseOf, hname]
      rfl
    by_cases htarget : name = target
    · simp [htarget, huse]
    · cases hseen : w.seen.contains t with
      | true => simp [htarget]
      | false =>
        have hnew : IsNew target w t :=
          ⟨by rw [hname]; rfl, by simp [huse, htarget], hseen⟩
        by_cases hroom : config.maxAncestors < w.seen.length + 1
        · simp [htarget, hroom, hnew, Nat.le_of_lt_succ hroom]
        · have hlt : w.seen.length < config.maxAncestors := by omega
          cases hc : classes name with
          | none => simp [htarget, hroom, hnew, hlt, supertypesOf, hname, hc]
          | some c => simp [htarget, hroom, hnew, hlt, hc]

theorem within_visitType (classes : ClassTable) (config : Config) (target : String) :
    Walk.Within (classes.visitType config target) config.maxAncestors
      (classes.supertypesOf config) where
  note h := (visitType_spec h).1.unseen
  expand {w _ _} h := by
    obtain ⟨hnew, hroom, habove⟩ := visitType_spec h
    exact ⟨hnew.unseen, Nat.lt_of_le_of_lt w.expanded_sublist.length_le hroom, habove⟩

/-- What a search from here on would find. -/
def finding (classes : ClassTable) (config : Config) (target : String) (w : Walk SizedType) :
    Option SizedType :=
  (explore (fun t => (classes.typesAbove config t.type).map .of) (fun t => t.type.isUseOf target)
    (config.maxAncestors + 1 - w.seen.length) w.seen
    (w.queue.filter fun t => t.type.className?.isSome)).find? fun t => t.type.isUseOf target

/-- Until the walk ends, it remembers no more types than the limit, and no use of the target. -/
structure NoneFound (config : Config) (target : String) (w : Walk SizedType) : Prop where
  length_le : w.seen.length ≤ config.maxAncestors
  other : ∀ s ∈ w.seen, s.type.isUseOf target = false

theorem filter_supertypesOf (classes : ClassTable) (config : Config) (t : SizedType) :
    (classes.supertypesOf config t).filter (fun u => u.type.className?.isSome) =
      (classes.typesAbove config t.type).map .of := by
  rw [supertypesOf]
  cases hc : t.type.className?.bind classes with
  | none =>
    rw [typesAbove_of_unknown hc]
    rfl
  | some c =>
    rw [typesAbove_of_known hc, Option.map_some, Option.getD_some, List.filter_map]
    rfl

/-- A search comes to a new type at the head of the queue, and goes on with what is above it. -/
theorem finding_expand {rest : List SizedType} (hqueue : w.queue = t :: rest)
    (hnew : IsNew target w t) (hroom : w.seen.length ≤ config.maxAncestors) :
    classes.finding config target w =
      classes.finding config target (w.expand t rest (classes.supertypesOf config t)) := by
  have hlength : config.maxAncestors + 1 - w.seen.length =
      config.maxAncestors + 1 - (t :: w.seen).length + 1 := by
    rw [List.length_cons]
    omega
  rw [finding, finding, hqueue, List.filter_cons, if_pos hnew.isClass, hlength,
    explore_take hnew.unseen, hnew.other, if_neg (by simp), List.find?_cons, hnew.other]
  simp only [Walk.expand, List.filter_append, filter_supertypesOf]

/-- A round that does not end the walk changes nothing about what there is to be found. -/
theorem finding_round (hround : w.round (classes.visitType config target) = .ok w')
    (hw : NoneFound config target w) :
    NoneFound config target w' ∧
      classes.finding config target w' = classes.finding config target w := by
  obtain ⟨t, rest, hqueue, hcases⟩ := Walk.round_eq_ok hround
  rcases hcases with ⟨hvisit, rfl⟩ | ⟨hvisit, rfl⟩ | ⟨nodes, hvisit, rfl⟩
  · refine ⟨⟨hw.length_le, hw.other⟩, ?_⟩
    rw [finding, finding, hqueue, List.filter_cons]
    split
    · rename_i hclass
      rw [explore_skip ((visitType_spec hvisit).resolve_left (by simp [hclass]))]
      rfl
    · rfl
  · obtain ⟨hnew, hroom, habove⟩ := visitType_spec hvisit
    refine ⟨⟨hroom, List.forall_mem_cons.2 ⟨hnew.other, hw.other⟩⟩, ?_⟩
    rw [finding_expand hqueue hnew hw.length_le, habove, finding, finding]
    simp only [Walk.note, Walk.expand, List.append_nil]
  · obtain ⟨hnew, hroom, rfl⟩ := visitType_spec hvisit
    exact ⟨⟨hroom, List.forall_mem_cons.2 ⟨hnew.other, hw.other⟩⟩,
      (finding_expand hqueue hnew hw.length_le).symm⟩

/-- The walk ends with what there is to be found. -/
theorem finding_end {ending : Ending SizedType}
    (hround : w.round (classes.visitType config target) = .error ending)
    (hw : NoneFound config target w) :
    classes.finding config target w = ending.found? := by
  rcases Walk.round_eq_error hround with
    ⟨hqueue, rfl⟩ | ⟨t, rest, hqueue, ⟨hvisit, rfl⟩ | ⟨hvisit, rfl⟩⟩
  · rw [finding, hqueue, List.filter_nil, explore_nil]
    rfl
  · obtain ⟨hclass, huse⟩ := visitType_spec hvisit
    -- a use of the target is never remembered
    have hunseen : w.seen.contains t = false := by
      by_contra hseen
      obtain ⟨s, hs, heq⟩ := List.contains_iff_exists_mem_beq.1 (by simpa using hseen)
      rw [JType.isUseOf, JType.className?_eq_of_same (SizedType.beq_iff.1 heq)] at huse
      exact absurd huse (by simpa [JType.isUseOf] using hw.other s hs)
    rw [finding, hqueue, List.filter_cons, if_pos hclass, Nat.succ_sub hw.length_le,
      explore_take hunseen, if_pos huse, List.find?_singleton, if_pos huse]
    rfl
  · obtain ⟨hnew, hroom⟩ := visitType_spec hvisit
    rw [finding_expand hqueue hnew hw.length_le, finding, Walk.expand, List.length_cons,
      Nat.sub_eq_zero_of_le (Nat.succ_le_succ hroom), explore]
    rfl

/-- From the beginning the view is to be found. -/
theorem map_finding_start (classes : ClassTable) (config : Config) (t : JType) (target : String) :
    (classes.finding config target (.start [] [.of t])).map (·.type) =
      classes.viewAs config t target := by
  rw [finding, viewAs]
  cases ht : t.className?.isSome with
  | false => simp [Walk.start, SizedType.of, ht]
  | true =>
    simp only [Walk.start, List.filter_cons, SizedType.of, ht]
    rfl

end Types

/-! ## Both walks -/

/-- Both walks end over every table of classes, and within the limit. The one by names has then
listed the ancestors, and the one by types has found the view, if there is one to be found. -/
theorem walks_end (classes : ClassTable) (config : Config) :
    (∀ name, ∃ rounds last ending,
      Walk.Ends (classes.visitName config) rounds (classes.walkFrom name) last ending ∧
      Walk.Cost config.maxAncestors classes.supertypeNamesOf (classes.walkFrom name) last rounds ∧
      last.expanded.reverse.filterMap classes = classes.ancestors config name) ∧
    ∀ t target, ∃ rounds last ending,
      Walk.Ends (classes.visitType config target) rounds (.start [] [.of t]) last ending ∧
      Walk.Cost config.maxAncestors (classes.supertypesOf config) (.start [] [.of t]) last rounds ∧
      ending.found?.map (·.type) = classes.viewAs config t target := by
  constructor
  · intro name
    have hseen : ((classes name).map fun c => c.name).toList.Pairwise
        fun a b => (a == b) = false := by
      cases classes name <;> simp
    obtain ⟨rounds, last, ending, hends, hcost⟩ :=
      (within_visitName classes config).exists_ends hseen (classes.supertypeNamesOf name)
    have hlisting : classes.listing config last = classes.listing config (classes.walkFrom name) :=
      hends.run.keeps (P := fun w => classes.listing config w = _)
        (fun _ _ hround h => (listing_round hround).trans h) rfl
    refine ⟨rounds, last, ending, hends, hcost, ?_⟩
    rw [← listing_end hends.stop, hlisting, filterMap_listing_walkFrom]
  · intro t target
    obtain ⟨rounds, last, ending, hends, hcost⟩ :=
      (within_visitType classes config target).exists_ends .nil [.of t]
    have hfinding := hends.run.keeps
      (P := fun w => NoneFound config target w ∧ classes.finding config target w =
        classes.finding config target (.start [] [.of t]))
      (fun _ _ hround h => (finding_round hround h.1).imp_right (·.trans h.2))
      ⟨⟨Nat.zero_le _, by simp [Walk.start]⟩, rfl⟩
    refine ⟨rounds, last, ending, hends, hcost, ?_⟩
    rw [← finding_end hends.stop hfinding.1, hfinding.2, map_finding_start]

end ClassTable

end Unerase
