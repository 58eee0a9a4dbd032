import Unerase.Proofs.ClassTable.Instantiation
import Unerase.Proofs.ClassTable.Visible
import Unerase.Proofs.Workspace.History

/-!
# What answers depend on

An answer about a class depends on the class and on what is reached from it over the names of
supertypes, and on nothing else: not on the classes that only occur in type arguments or bounds. The
walks over two tables that agree on those names take the same steps. So changes to other classes, and
to the record of a class that the program hides, make no difference (`answers_local`).
-/

namespace Unerase

namespace ClassTable

/-- The names that answers about a class depend on: its own and, with every known class among them,
those of the supertypes of the class that are class types. -/
inductive Needed (classes : ClassTable) (start : String) : String → Prop
  | start : Needed classes start start
  | above {name other c} : Needed classes start name → classes name = some c →
      other ∈ c.supertypeNames → Needed classes start other

/-- Two tables agree about a class when they know the same under every name that is needed. -/
def Agree (classes classes' : ClassTable) (start : String) : Prop :=
  ∀ name, Needed classes start name → classes name = classes' name

/-- What two tables say about a class is the same: its ancestors, the variables that are visible in
its methods and, if all supertypes that can be met are class types, the views of its uses. -/
structure SameAnswers (classes classes' : ClassTable) (start : String) : Prop where
  ancestors : ∀ config, classes.ancestors config start = classes'.ancestors config start
  visibleVars : ∀ config (m : MethodDecl), m.id.className = start →
    classes.visibleVars config m = classes'.visibleVars config m
  viewAs : (∀ name c, Needed classes start name → classes name = some c →
      ∀ s ∈ c.supertypes, s.className?.isSome) →
    ∀ config (t : JType) target, t.className? = some start →
      classes.viewAs config t target = classes'.viewAs config t target

variable {classes classes' : ClassTable} {config : Config} {start name : String} {c : KnownClass}

/-- A list of names that the supertypes do not lead out of holds all names that are needed. -/
theorem Needed.mem {names : List String} (h : Needed classes start name) (hstart : start ∈ names)
    (hstep : ∀ x ∈ names, ∀ c, classes x = some c → ∀ y ∈ c.supertypeNames, y ∈ names) :
    name ∈ names := by
  induction h with
  | start => exact hstart
  | above _ hc hother ih => exact hstep _ ih _ hc _ hother

/-! ## Ancestors and visible variables -/

theorem needed_of_mem_namesAbove (h : Needed classes start name) :
    ∀ other ∈ ((classes name).map (classes.namesAbove config)).getD [],
      Needed classes start other := by
  intro other hother
  cases hc : classes name with
  | none => simp [hc] at hother
  | some c =>
    rw [hc, Option.map_some, Option.getD_some] at hother
    exact .above h hc (List.mem_filter.1 hother).1

theorem Agree.namesAbove_eq (hagree : Agree classes classes' start) (h : Needed classes start name) :
    ((classes name).map (classes.namesAbove config)).getD [] =
      ((classes' name).map (classes'.namesAbove config)).getD [] := by
  rw [← hagree name h]
  cases hc : classes name with
  | none => rfl
  | some c =>
    refine List.filter_congr fun other hother => ?_
    rw [admitted?, admitted?, hagree other (.above h hc hother)]

theorem Agree.ancestors_eq (hagree : Agree classes classes' start) (config : Config) :
    classes.ancestors config start = classes'.ancestors config start := by
  have hstart := hagree start .start
  have habove : ((classes start).map (classes.namesAbove config)).getD [] =
      ((classes' start).map (classes'.namesAbove config)).getD [] := hagree.namesAbove_eq .start
  rw [ancestors, ancestors, ← hstart]
  cases hc : classes start with
  | none => rfl
  | some c =>
    rw [← hstart, hc, Option.map_some, Option.getD_some, Option.map_some, Option.getD_some] at habove
    have hqueue : ∀ name ∈ classes.namesAbove config c, Needed classes start name :=
      fun name hname => .above .start hc (List.mem_filter.1 hname).1
    have hnames : classes.ancestorNames config c = classes'.ancestorNames config c := by
      rw [ancestorNames, ancestorNames, ← habove]
      exact explore_congr (fun _ hx => needed_of_mem_namesAbove hx)
        (fun _ hx => hagree.namesAbove_eq hx) _ hqueue fun _ _ => rfl
    dsimp only
    rw [← hnames]
    refine List.filterMap_congr fun name hname => hagree name ?_
    obtain ⟨n, hn⟩ := mem_explore hname
    exact of_mem_atDistance (fun _ hx => needed_of_mem_namesAbove hx) hqueue name hn

theorem Agree.visibleVars_eq (hagree : Agree classes classes' start) (config : Config)
    {m : MethodDecl} (hm : m.id.className = start) :
    classes.visibleVars config m = classes'.visibleVars config m := by
  rw [visibleVars, visibleVars, hm, hagree.ancestors_eq config, paramsOf, paramsOf,
    hagree start .start]

/-! ## Views -/

/-- A class type of which an answer about a class may depend. -/
def NeededType (classes : ClassTable) (start : String) (t : JType) : Prop :=
  ∃ name, t.className? = some name ∧ Needed classes start name

theorem Agree.typesAbove_eq (hagree : Agree classes classes' start) {t : JType}
    (ht : NeededType classes start t) :
    classes.typesAbove config t = classes'.typesAbove config t := by
  obtain ⟨name, hname, hneeded⟩ := ht
  have hbindings : classes.bindings t = classes'.bindings t := by
    cases t with
    | cls name' args =>
      obtain rfl : name' = name := Option.some.inj hname
      rw [bindings, bindings, paramsOf, paramsOf, hagree name' hneeded]
    | _ => rfl
  simp only [typesAbove, hname, Option.bind_some, hagree name hneeded, hbindings]

/-- Where all supertypes are class types, a step of the search leads to the class of one of them. -/
theorem needed_of_mem_typesAbove
    (hclass : ∀ name c, Needed classes start name → classes name = some c →
      ∀ s ∈ c.supertypes, s.className?.isSome)
    {t : JType} (ht : NeededType classes start t) :
    ∀ u ∈ classes.typesAbove config t, NeededType classes start u := by
  intro u hu
  obtain ⟨name, hname, hneeded⟩ := ht
  obtain ⟨c, hc, s, hs, rfl⟩ := above_iff.1 (mem_typesAbove_iff.1 hu).1
  rw [hname, Option.bind_some] at hc
  have hsome := hclass name c hneeded hc s hs
  obtain ⟨other, hother⟩ := Option.isSome_iff_exists.1 hsome
  refine ⟨other, ?_, .above hneeded hc (List.mem_filterMap.2 ⟨s, hs, hother⟩)⟩
  rw [className?_supertypeFor hsome, hother]

theorem Agree.viewAs_eq (hagree : Agree classes classes' start)
    (hclass : ∀ name c, Needed classes start name → classes name = some c →
      ∀ s ∈ c.supertypes, s.className?.isSome)
    (config : Config) {t : JType} (ht : t.className? = some start) (target : String) :
    classes.viewAs config t target = classes'.viewAs config t target := by
  have htypes : classes.typesUpTo config target t = classes'.typesUpTo config target t := by
    refine explore_congr (P := fun u : SizedType => NeededType classes start u.type)
      (fun u hu w hw => ?_) (fun u hu => ?_) _ (fun u hu => ?_) fun _ _ => rfl
    · obtain ⟨above, habove, rfl⟩ := List.mem_map.1 hw
      exact needed_of_mem_typesAbove hclass hu above habove
    · rw [hagree.typesAbove_eq hu]
    · obtain rfl := List.mem_singleton.1 hu
      exact ⟨start, ht, .start⟩
  rw [viewAs, viewAs, htypes]

/-- Tables that agree about a class say the same about it. -/
theorem Agree.sameAnswers (hagree : Agree classes classes' start) :
    SameAnswers classes classes' start where
  ancestors := hagree.ancestors_eq
  visibleVars config _ := hagree.visibleVars_eq config
  viewAs hclass config _ target ht := hagree.viewAs_eq hclass config ht target

end ClassTable

/-! ## Changes elsewhere -/

/-- The class that a change is about. -/
def Change.className : Change → String
  | .add decl | .replace decl => decl.name
  | .insert header => header.name
  | .insertFile file => file.name

namespace Workspace

open ClassTable

variable {w : Workspace} {change : Change} {name : String}

theorem classes_change_of_ne (w : Workspace) (h : name ≠ change.className) :
    (w.change change).classes name = w.classes name := by
  cases change with
  | add decl =>
    have hne : name ≠ decl.name := h
    simp only [classes, Workspace.change, Program.get?_add, if_neg hne]
  | replace decl =>
    have hne : name ≠ decl.name := h
    simp only [classes, Workspace.change, Program.get?_replace, if_neg hne]
  | insert header =>
    have hne : name ≠ header.name := h
    simp only [classes, Workspace.change, Classpath.get?_insert, if_neg hne]
  | insertFile file =>
    have hne : name ≠ file.header.name := by rwa [file.name_header]
    simp only [classes, Workspace.change, Classpath.insertFile, Classpath.get?_insert, if_neg hne]

/-- A class of the program hides what is recorded of it on the classpath. -/
theorem classes_change_of_hidden (hclasspath : change.header?.isSome)
    (h : (w.program.get? name).isSome) : (w.change change).classes name = w.classes name := by
  obtain ⟨decl, hdecl⟩ := Option.isSome_iff_exists.1 h
  cases change with
  | add decl => cases hclasspath
  | replace decl => cases hclasspath
  | insert header => simp only [classes, Workspace.change, hdecl]
  | insertFile file => simp only [classes, Workspace.change, hdecl]

/-- No change takes a class out of the program. -/
theorem isSome_get?_change (change : Change) (h : (w.program.get? name).isSome) :
    ((w.change change).program.get? name).isSome := by
  cases change with
  | add decl =>
    rw [Workspace.change, Program.get?_add]
    split
    · rfl
    · exact h
  | replace decl =>
    rw [Workspace.change, Program.get?_replace]
    split
    · rfl
    · exact h
  | insert header => exact h
  | insertFile file => exact h

/-- What is known of a class stays what it is, if all changes are about other classes or about the
classpath below a class of the program. -/
theorem classes_after_eq {history : List Change}
    (h : ∀ change ∈ history, name ≠ change.className ∨
      change.header?.isSome ∧ (w.program.get? name).isSome) :
    (w.after history).classes name = w.classes name := by
  induction history generalizing w with
  | nil => rfl
  | cons change rest ih =>
    have hstep : (w.change change).classes name = w.classes name := by
      rcases h change List.mem_cons_self with hne | ⟨hclasspath, hhidden⟩
      · exact classes_change_of_ne w hne
      · exact classes_change_of_hidden hclasspath hhidden
    have hrest : ((w.change change).after rest).classes name = (w.change change).classes name :=
      ih fun other hother => (h other (List.mem_cons_of_mem change hother)).imp_right
        fun hhidden => ⟨hhidden.1, isSome_get?_change change hhidden.2⟩
    exact hrest.trans hstep

/-- Answers about a class are the same over all tables that agree on the class and on what is reached
from it over the names of supertypes. So they outlast any changes to other classes, and to the
classpath below classes of the program. -/
theorem answers_local :
    (∀ (classes classes' : ClassTable) (start : String), Agree classes classes' start →
      SameAnswers classes classes' start) ∧
    ∀ (w : Workspace) (history : List Change) (start : String),
      (∀ change ∈ history, ¬ Needed w.classes start change.className ∨
        change.header?.isSome ∧ (w.program.get? change.className).isSome) →
      SameAnswers w.classes (w.after history).classes start := by
  refine ⟨fun classes classes' start hagree => hagree.sameAnswers, fun w history start hspared => ?_⟩
  have hagree : Agree w.classes (w.after history).classes start := by
    intro name hneeded
    refine (classes_after_eq fun change hchange => ?_).symm
    by_cases hname : name = change.className
    · rw [hname] at hneeded ⊢
      exact .inr ((hspared change hchange).resolve_left (not_not_intro hneeded))
    · exact .inl hname
  exact hagree.sameAnswers

/-- A class `A` comes into the program, where there was none, and is replaced there. `Pile` and
`Tree` come onto the classpath. -/
def stackHistory : List Change :=
  [.insert (plainDecl "Pile" "A" []).toClassHeader, .add (plainDecl "A" "Stack" []),
    .insertFile (treeFile 0x0021 "LPlant;"), .replace (plainDecl "A" "Pile" ["Heap"])]

/-- Of the classes that are changed only `Pile` is needed for `Stack`, and the program has it. The
class `A` is an argument in what is answered. -/
theorem answers_local_stack :
    stackWorkspace.classes "A" = none ∧
    ((stackWorkspace.after stackHistory).classes "A").isSome ∧
    stackWorkspace.ancestors "Stack" = (stackWorkspace.after stackHistory).ancestors "Stack" ∧
    stackWorkspace.viewAs (.cls "Stack" [.cls "A" []]) "Heap" =
      (stackWorkspace.after stackHistory).viewAs (.cls "Stack" [.cls "A" []]) "Heap" ∧
    stackWorkspace.viewAs (.cls "Stack" [.cls "A" []]) "Heap" =
      some (.cls "Heap" [.cls "Pile" [.cls "A" []]]) ∧
    stackWorkspace.ancestors "Stack" =
      ClassTable.ancestors (fun name => if name = "A" then none else stackWorkspace.classes name)
        stackWorkspace.config "Stack" := by
  have hneeded : ∀ name, Needed stackWorkspace.classes "Stack" name →
      name ∈ ["Stack", "Pile", "Heap"] := by
    intro name h
    refine h.mem (by decide) fun x hx c hc => ?_
    have hstep : ∀ x ∈ ["Stack", "Pile", "Heap"],
        ∀ y ∈ ((stackWorkspace.classes x).map fun c => c.supertypeNames).getD [],
          y ∈ ["Stack", "Pile", "Heap"] := by decide +kernel
    simpa only [hc, Option.map_some, Option.getD_some] using hstep x hx
  have hclass : ∀ name c, Needed stackWorkspace.classes "Stack" name →
      stackWorkspace.classes name = some c → ∀ s ∈ c.supertypes, s.className?.isSome := by
    intro name c h hc
    have hstep : ∀ x ∈ ["Stack", "Pile", "Heap"],
        ∀ s ∈ ((stackWorkspace.classes x).map fun c => c.supertypes).getD [],
          s.className?.isSome := by decide +kernel
    simpa only [hc, Option.map_some, Option.getD_some] using hstep name (hneeded name h)
  have hspared : ∀ change ∈ stackHistory,
      ¬ Needed stackWorkspace.classes "Stack" change.className ∨
        change.header?.isSome ∧ (stackWorkspace.program.get? change.className).isSome := by
    intro change hchange
    by_cases hname : change.className ∈ ["Stack", "Pile", "Heap"]
    · refine .inr ?_
      have hhidden : ∀ change ∈ stackHistory, change.className ∈ ["Stack", "Pile", "Heap"] →
          change.header?.isSome ∧ (stackWorkspace.program.get? change.className).isSome := by
        decide +kernel
      exact hhidden change hchange hname
    · exact .inl fun h => hname (hneeded _ h)
  have hwithout : Agree stackWorkspace.classes
      (fun name => if name = "A" then none else stackWorkspace.classes name) "Stack" := by
    intro name h
    have hne : name ≠ "A" := fun heq => absurd (heq ▸ hneeded name h) (by decide)
    exact (if_neg hne).symm
  have hsame := answers_local.2 stackWorkspace stackHistory "Stack" hspared
  exact ⟨by decide +kernel, by decide +kernel, hsame.ancestors stackWorkspace.config,
    hsame.viewAs hclass stackWorkspace.config _ "Heap" rfl, by decide +kernel,
    (answers_local.1 _ _ "Stack" hwithout).ancestors stackWorkspace.config⟩

end Workspace

end Unerase
