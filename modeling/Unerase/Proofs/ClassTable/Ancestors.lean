import Unerase.ClassTable.Ancestors
import Unerase.Proofs.Search.Order

/-!
# Which classes are ancestors

The graph of the ancestors of a class has a step from the class, and from every class that counts
as an ancestor, to the names of all their supertypes. The walk goes over less: it never takes a
name that does not count, and never comes back to the start. What it lists is nevertheless what
is reached over the whole graph, in the order in which it is met there.
-/

namespace Unerase.ClassTable

variable {classes : ClassTable} {config : Config} {start name : String} {c : KnownClass}

/-- A class counts as an ancestor if it is known and, unless the classpath counts too, is part of
the program. -/
def Admitted (classes : ClassTable) (config : Config) (name : String) : Prop :=
  ∃ c, classes name = some c ∧ (config.classpathAncestors = false → c.origin = .program)

theorem isSome_admitted?_iff :
    (classes.admitted? config name).isSome = true ↔ Admitted classes config name := by
  rw [admitted?, Admitted]
  cases classes name with
  | none => simp
  | some c => cases config.classpathAncestors <;> simp [Option.filter]

instance : DecidablePred (Admitted classes config) := fun _ =>
  decidable_of_iff _ isSome_admitted?_iff

/-- The steps from the start and from classes that count, to the names of the direct supertypes
that are class types. No step leads away from any other class. -/
def stepsUp (classes : ClassTable) (config : Config) (start name : String) : List String :=
  if name = start ∨ Admitted classes config name then
    ((classes name).map fun c => c.supertypeNames).getD []
  else []

/-- The classes that count as ancestors and are reached from the start, without the start. -/
def ancestorSet (classes : ClassTable) (config : Config) (start : String) : Set String :=
  {name | name ≠ start ∧ Admitted classes config name ∧
    ∃ n, name ∈ atDistance (classes.stepsUp config start) n [start]}

/-- The classes that count in a list of names that no step leads out of are no fewer than the
ancestors. -/
theorem encard_ancestorSet_le (names : List String) (hmem : start ∈ names)
    (hstep : ∀ x ∈ names, ∀ y ∈ classes.stepsUp config start x, y ∈ names) :
    (classes.ancestorSet config start).encard ≤
      (names.filter fun x => x ≠ start ∧ Admitted classes config x).length := by
  refine encard_le_length fun x hx => ?_
  obtain ⟨hne, hadmitted, n, hn⟩ := hx
  have hlist : x ∈ names := of_mem_atDistance hstep (by simpa using hmem) x hn
  simp [hlist, hne, hadmitted]

/-! ## From the graph to the walk -/

/-- The start and the classes that count, which are all that has a step away from it. -/
def onWay (classes : ClassTable) (config : Config) (start name : String) : Bool :=
  decide (name = start ∨ Admitted classes config name)

/-- The steps to what is on the way. -/
def stepsOnWay (classes : ClassTable) (config : Config) (start name : String) : List String :=
  (classes.stepsUp config start name).filter (classes.onWay config start)

theorem onWay_start (classes : ClassTable) (config : Config) (start : String) :
    classes.onWay config start start = true := by simp [onWay]

theorem stepsUp_of_not_onWay (h : classes.onWay config start name = false) :
    classes.stepsUp config start name = [] :=
  if_neg (by simpa [onWay] using h)

/-- The walk leaves out the start, where the graph goes on from it. -/
theorem namesAbove_eq_filter (h : classes.onWay config start name = true) :
    ((classes name).map (classes.namesAbove config)).getD [] =
      (classes.stepsOnWay config start name).filter fun x => (classes.admitted? config x).isSome := by
  have hcond : name = start ∨ Admitted classes config name := by simpa [onWay] using h
  rw [stepsOnWay, stepsUp, if_pos hcond, List.filter_filter]
  cases classes name with
  | none => rfl
  | some c =>
    refine List.filter_congr fun x _ => ?_
    by_cases hx : (classes.admitted? config x).isSome = true
    · simp [onWay, isSome_admitted?_iff.1 hx, hx]
    · simp [hx]

/-- With the start in front, the walk is a search over the graph without the names that have no
step away from them. -/
theorem cons_ancestorNames (hc : classes start = some c) (hname : c.name = start) :
    start :: classes.ancestorNames config c =
      explore (classes.stepsOnWay config start) (fun _ => false) (config.maxAncestors + 1) []
        [start] := by
  have habove := namesAbove_eq_filter (onWay_start classes config start)
  rw [hc, Option.map_some, Option.getD_some] at habove
  rw [explore_take rfl, if_neg (by simp), List.nil_append, ancestorNames, hname, habove]
  refine congrArg _ (explore_filter (P := fun x => classes.onWay config start x = true)
    (fun x _ y hy => (List.mem_filter.1 hy).2) (fun x hx _ => namesAbove_eq_filter hx) _
    (fun x hx => (List.mem_filter.1 hx).2) fun x hx hadmitted => ?_).symm
  -- what is on the way and does not count can only be the start, and that has been seen
  rw [onWay, decide_eq_true_iff, ← isSome_admitted?_iff, hadmitted] at hx
  simpa using hx

/-- What is on the way is met at the same distances over the whole graph. -/
theorem atDistance_onWay (n : Nat) :
    atDistance (classes.stepsOnWay config start) n [start] =
      (atDistance (classes.stepsUp config start) n [start]).filter (classes.onWay config start) := by
  rw [← atDistance_filter (fun _ => stepsUp_of_not_onWay),
    List.filter_cons_of_pos (onWay_start ..), List.filter_nil]
  rfl

/-! ## What the walk lists -/

section Walk

variable (hc : classes start = some c) (hname : c.name = start)

include hc hname

theorem nodup_cons_ancestorNames : (start :: classes.ancestorNames config c).Nodup := by
  rw [cons_ancestorNames hc hname]
  exact nodup_explore _ _ _

/-- What is listed is reached, counts and is not the start. -/
theorem mem_ancestorSet_of_mem (h : name ∈ classes.ancestorNames config c) :
    name ∈ classes.ancestorSet config start := by
  have hmem : name ∈ start :: classes.ancestorNames config c := List.mem_cons_of_mem _ h
  rw [cons_ancestorNames hc hname] at hmem
  obtain ⟨n, hn⟩ := mem_explore hmem
  rw [atDistance_onWay, List.mem_filter, onWay, decide_eq_true_iff] at hn
  have hne : name ≠ start := fun heq =>
    (List.nodup_cons.1 (nodup_cons_ancestorNames hc hname)).1 (heq ▸ h)
  exact ⟨hne, hn.2.resolve_left hne, n, hn.1⟩

/-- What is reached and counts is listed, if there is room for all of it. -/
theorem mem_ancestorNames_iff
    (hcount : (classes.ancestorSet config start).encard ≤ config.maxAncestors) :
    name ∈ classes.ancestorNames config c ↔ name ∈ classes.ancestorSet config start := by
  constructor
  · exact mem_ancestorSet_of_mem hc hname
  · intro h
    by_contra hmem
    -- together with the missing one, what is listed is not more than what is reached
    have hnodup : (name :: classes.ancestorNames config c).Nodup :=
      List.nodup_cons.2 ⟨hmem, (List.nodup_cons.1 (nodup_cons_ancestorNames hc hname)).2⟩
    have hlen : ((classes.ancestorNames config c).length + 1 : ℕ) ≤ config.maxAncestors := by
      have hle := (length_le_encard hnodup (List.forall_mem_cons.2
        ⟨h, fun x => mem_ancestorSet_of_mem hc hname⟩)).trans hcount
      exact_mod_cast hle
    have hroom : (start :: classes.ancestorNames config c).length < config.maxAncestors + 1 := by
      rw [List.length_cons]
      omega
    obtain ⟨hne, hadmitted, n, hn⟩ := h
    have hn : name ∈ atDistance (classes.stepsOnWay config start) n [start] := by
      rw [atDistance_onWay]
      exact List.mem_filter.2 ⟨hn, decide_eq_true (.inr hadmitted)⟩
    rw [cons_ancestorNames hc hname] at hroom
    have hlist := mem_explore_of_length_lt hroom hn
    rw [← cons_ancestorNames hc hname] at hlist
    exact hmem ((List.mem_cons.1 hlist).resolve_left hne)

/-- The ancestors are listed in the order in which they are met. -/
theorem pairwise_metBefore_ancestorNames :
    (classes.ancestorNames config c).Pairwise
      (MetBefore (classes.stepsUp config start) [start]) := by
  have hpair : (start :: classes.ancestorNames config c).Pairwise
      (MetBefore (classes.stepsOnWay config start) [start]) := by
    rw [cons_ancestorNames hc hname]
    exact pairwise_metBefore_explore _ _
  rw [List.pairwise_cons] at hpair
  refine hpair.2.imp_of_mem fun {a b} _ hb hmet => ?_
  have hkeep : classes.onWay config start b = true :=
    decide_eq_true (.inr (mem_ancestorSet_of_mem hc hname hb).2.1)
  refine MetBefore.of_filter (fun _ => stepsUp_of_not_onWay) hkeep ?_
  rwa [List.filter_cons_of_pos (onWay_start ..), List.filter_nil]

end Walk

section Named

variable (hnamed : ∀ name d, classes name = some d → d.name = name) (hc : classes start = some c)

include hnamed hc

/-- The listed names are those of the ancestors, each of which is known under its own name. -/
theorem map_name_ancestors :
    (classes.ancestors config start).map (·.name) = classes.ancestorNames config c := by
  simp only [ancestors, hc]
  rw [List.map_filterMap]
  refine (List.filterMap_congr fun name hname => ?_).trans List.filterMap_some
  obtain ⟨-, ⟨d, hd, -⟩, -⟩ := mem_ancestorSet_of_mem hc (hnamed start c hc) hname
  rw [hd, Option.map_some, hnamed name d hd]

/-- The ancestors are the classes that are reached and count, if there is room for all of them. -/
theorem mem_ancestors_iff
    (hcount : (classes.ancestorSet config start).encard ≤ config.maxAncestors) {d : KnownClass} :
    d ∈ classes.ancestors config start ↔
      d.name ∈ classes.ancestorSet config start ∧ classes d.name = some d := by
  simp only [ancestors, hc, List.mem_filterMap, mem_ancestorNames_iff hc (hnamed start c hc) hcount]
  constructor
  · intro h
    obtain ⟨name, hname, hd⟩ := h
    rw [hnamed name d hd]
    exact ⟨hname, hd⟩
  · intro h
    exact ⟨d.name, h⟩

end Named

end Unerase.ClassTable
