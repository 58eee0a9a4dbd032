import Unerase.Proofs.ClassTable.Agreement
import Unerase.Proofs.Workspace.View

/-!
# Ancestors in a workspace

The ancestors of a class are what is reached from it over classes that count, in level order, no
matter in which cycles the classes of a workspace extend each other (`ancestors_exact`). The other
walk up the hierarchy, which carries type arguments along, finds the same classes
(`isSome_viewAs_iff_ancestor`).
-/

namespace Unerase.Workspace

/-- The classes of a workspace are known under their own names. -/
theorem name_eq {w : Workspace} {name : String} {c : KnownClass} (h : w.classes name = some c) :
    c.name = name := by
  rcases classes_eq_some h with ⟨decl, hdecl, heq⟩ | hheader
  · rw [← w.program.named hdecl, heq]
  · exact w.classpath.named hheader

/-- Unless there are more than the configured number of them, all classes that count and are
reached from a known class over its supertypes and those of classes that count are listed, each
once and without the class itself, in the order in which they are met. An unknown class has no
ancestors. -/
theorem ancestors_exact (w : Workspace) (start : String) :
    (w.classes start = none → w.ancestors start = []) ∧
    ((w.classes start).isSome →
      (w.classes.ancestorSet w.config start).encard ≤ w.config.maxAncestors →
      (∀ c, c ∈ w.ancestors start ↔
        c.name ∈ w.classes.ancestorSet w.config start ∧ w.classes c.name = some c) ∧
      ((w.ancestors start).map (·.name)).Nodup ∧
      (w.ancestors start).Pairwise fun a b =>
        MetBefore (w.classes.stepsUp w.config start) [start] a.name b.name ∧
          ∀ n, b.name ∈ atDistance (w.classes.stepsUp w.config start) n [start] →
            ∃ m ≤ n, a.name ∈ atDistance (w.classes.stepsUp w.config start) m [start]) := by
  constructor
  · intro hnone
    simp only [ancestors, ClassTable.ancestors, hnone]
  · intro hknown hcount
    obtain ⟨d, hd⟩ := Option.isSome_iff_exists.1 hknown
    have hnames : (w.ancestors start).map (·.name) = w.classes.ancestorNames w.config d :=
      ClassTable.map_name_ancestors (fun _ _ => name_eq) hd
    refine ⟨fun c => ClassTable.mem_ancestors_iff (fun _ _ => name_eq) hd hcount, ?_, ?_⟩
    · rw [hnames]
      exact (List.nodup_cons.1 (ClassTable.nodup_cons_ancestorNames hd (name_eq hd))).2
    · have hpair : (w.classes.ancestorNames w.config d).Pairwise _ :=
        ClassTable.pairwise_metBefore_ancestorNames hd (name_eq hd)
      rw [← hnames, List.pairwise_map] at hpair
      exact hpair.imp fun h => ⟨h, fun _ => h.closer⟩

/-- A class of a program without type parameters. -/
def plainDecl (name superName : String) (interfaceNames : List String) : ClassDecl where
  name := name
  isInterface := false
  typeParams := []
  superClass := some (.cls superName [])
  interfaces := interfaceNames.map fun interfaceName => .cls interfaceName []
  methods := []

/-- Above `Node` there are a cycle through `Node` itself, a class that is its own supertype, and
one that is not known. Only classes of the program count, which `Node` and `Plain` are not, and
there is room for no more than there are. -/
def cyclicWorkspace : Workspace where
  program := ((Program.empty.add (plainDecl "Base" "Node" ["Shape"])).add
    (plainDecl "Linked" "Missing" ["Shape", "Linked"])).add (plainDecl "Shape" "Plain" [])
  classpath := (Classpath.empty.insert
    (plainDecl "Node" "Base" ["Linked", "Plain"]).toClassHeader).insert
      (plainDecl "Plain" "Shape" []).toClassHeader
  config := { maxAncestors := 3, classpathAncestors := false }

theorem ancestors_exact_cyclic :
    (cyclicWorkspace.classes "Node").isSome ∧
    (cyclicWorkspace.classes.ancestorSet cyclicWorkspace.config "Node").encard ≤ (3 : ℕ) ∧
    (cyclicWorkspace.ancestors "Node").map (·.name) = ["Base", "Linked", "Shape"] ∧
    (∀ c, c ∈ cyclicWorkspace.ancestors "Node" ↔
      c.name ∈ cyclicWorkspace.classes.ancestorSet cyclicWorkspace.config "Node" ∧
        cyclicWorkspace.classes c.name = some c) ∧
    ((cyclicWorkspace.ancestors "Node").map (·.name)).Nodup := by
  have hknown : (cyclicWorkspace.classes "Node").isSome := by decide +kernel
  have hcount : (cyclicWorkspace.classes.ancestorSet cyclicWorkspace.config "Node").encard ≤
      (3 : ℕ) :=
    (ClassTable.encard_ancestorSet_le ["Node", "Base", "Linked", "Plain", "Shape", "Missing"]
      (by decide) (by decide +kernel)).trans (Nat.cast_le.2 (by decide +kernel))
  have hexact := (ancestors_exact cyclicWorkspace "Node").2 hknown hcount
  exact ⟨hknown, hcount, by decide +kernel, hexact.1, hexact.2.1⟩

/-- Where the classpath counts and all supertypes are class types, the ancestors of a class are the
other known classes that its uses have views as, if the types above a use of it are not too many.
So whether a class is found does not depend on the arguments of the use. -/
theorem isSome_viewAs_iff_ancestor (w : Workspace) (hconfig : w.config.classpathAncestors = true)
    (hclass : ∀ name c, w.classes name = some c → ∀ s ∈ c.supertypes, s.className?.isSome)
    (start : String) (hstart : (w.classes start).isSome) (t : JType)
    (ht : t.className? = some start)
    (hcount : w.classes.reachCount w.config t ≤ w.config.maxAncestors) :
    (∀ name, name ≠ start →
      (name ∈ (w.ancestors start).map (·.name) ↔
        (w.classes name).isSome ∧ (w.viewAs t name).isSome)) ∧
    ∀ u : JType, u.className? = some start →
      w.classes.reachCount w.config u ≤ w.config.maxAncestors →
      ∀ name, (w.viewAs u name).isSome = (w.viewAs t name).isSome := by
  have hview : ∀ {u : JType}, u.className? = some start →
      w.classes.reachCount w.config u ≤ w.config.maxAncestors → ∀ name,
      (w.viewAs u name).isSome ↔
        ∃ n, name ∈ atDistance (w.classes.stepsUp w.config start) n [start] :=
    fun hu hle name => ClassTable.isSome_viewAs_iff hconfig hclass hu hle
  constructor
  · intro name hne
    obtain ⟨d, hd⟩ := Option.isSome_iff_exists.1 hstart
    have hle := (ClassTable.encard_ancestorSet_le_reachCount hconfig hclass ht).trans hcount
    have hnames : (w.ancestors start).map (·.name) = w.classes.ancestorNames w.config d :=
      ClassTable.map_name_ancestors (fun _ _ => name_eq) hd
    rw [hnames, ClassTable.mem_ancestorNames_iff hd (name_eq hd) hle, hview ht hcount,
      ← ClassTable.admitted_iff_isSome hconfig]
    exact and_iff_right hne
  · intro u hu hle name
    rw [Bool.eq_iff_iff, hview hu hle, hview ht hcount]

/-- A class of a program with one type parameter. -/
def genericDecl (name : String) (superClass : JType) (interfaces : List JType) : ClassDecl where
  name := name
  isInterface := false
  typeParams := TypeParam.declare (.ofClass name) ["T"]
  superClass := some superClass
  interfaces := interfaces
  methods := []

/-- `Stack<T>` extends `Pile<Pile<T>>`, and `Pile<T>` extends `Stack` without arguments again. The
interface `Heap<T>` of the latter is not known. There is room for the types above `Stack<A>` and
for no more. -/
def stackWorkspace : Workspace where
  program := (Program.empty.add
    (genericDecl "Stack" (.cls "Pile" [.cls "Pile" [.var ⟨⟨.ofClass "Stack", 0⟩, "T"⟩]]) [])).add
    (genericDecl "Pile" (.cls "Stack" []) [.cls "Heap" [.var ⟨⟨.ofClass "Pile", 0⟩, "T"⟩]])
  config := { maxAncestors := 6 }

theorem isSome_viewAs_iff_ancestor_stack :
    ("Pile" ∈ (stackWorkspace.ancestors "Stack").map (·.name) ↔
      (stackWorkspace.classes "Pile").isSome ∧
        (stackWorkspace.viewAs (.cls "Stack" [.cls "A" []]) "Pile").isSome) ∧
    (stackWorkspace.viewAs (.cls "Stack" []) "Pile").isSome =
      (stackWorkspace.viewAs (.cls "Stack" [.cls "A" []]) "Pile").isSome ∧
    (stackWorkspace.ancestors "Stack").map (·.name) = ["Pile"] := by
  have hclass : ∀ name c, stackWorkspace.classes name = some c →
      ∀ s ∈ c.supertypes, s.className?.isSome := by
    intro name c hc
    rcases classes_eq_some hc with ⟨decl, hdecl, heq⟩ | hheader
    · rw [← heq]
      simp only [stackWorkspace, Program.get?_add] at hdecl
      split at hdecl
      · cases hdecl
        decide +kernel
      · split at hdecl
        · cases hdecl
          decide +kernel
        · cases hdecl
    · cases hheader
  have hcount : stackWorkspace.classes.reachCount stackWorkspace.config
      (.cls "Stack" [.cls "A" []]) ≤ (6 : ℕ) :=
    (ClassTable.reachCount_le_length [.cls "Stack" [.cls "A" []],
      .cls "Pile" [.cls "Pile" [.cls "A" []]], .cls "Stack" [],
      .cls "Heap" [.cls "Pile" [.cls "A" []]], .cls "Pile" [], .cls "Heap" []] rfl (by decide)
      (by decide +kernel)).trans (Nat.cast_le.2 (by decide))
  have hraw : stackWorkspace.classes.reachCount stackWorkspace.config (.cls "Stack" []) ≤
      (6 : ℕ) :=
    (ClassTable.reachCount_le_length [.cls "Stack" [], .cls "Pile" [], .cls "Heap" []] rfl
      (by decide) (by decide +kernel)).trans (Nat.cast_le.2 (by decide))
  have hagree := isSome_viewAs_iff_ancestor stackWorkspace rfl hclass "Stack" (by decide +kernel)
    (.cls "Stack" [.cls "A" []]) rfl hcount
  exact ⟨hagree.1 "Pile" (by decide), hagree.2 (.cls "Stack" []) rfl hraw "Pile",
    by decide +kernel⟩

end Unerase.Workspace
