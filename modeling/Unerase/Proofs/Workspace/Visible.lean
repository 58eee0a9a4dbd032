import Unerase.Proofs.ClassTable.Visible
import Unerase.Proofs.Workspace.Ancestors

/-!
# Visible variables in a workspace

The variables that are visible in a method are those that its class, the classes that are reached
from there and count, and the method itself declare; the class of the method need not count
(`visibleVars_exact`).
-/

namespace Unerase.Workspace

/-- If there is room for all classes that count and are reached from the class of a method, exactly
the variables of these classes, of the class itself and of the method are visible. It is of no
account in which order the supertypes stand, what arguments they have, how parameters are bounded
and what else the method is. -/
theorem visibleVars_exact (w : Workspace) (config : Config) (m : MethodDecl)
    (hcount : (w.classes.ancestorSet config m.id.className).encard ≤ config.maxAncestors) :
    (∀ v, (w.classes.visibleVars config m).contains v = true ↔
      m.Declares v ∨ (∃ c, w.classes m.id.className = some c ∧ c.Declares v) ∨
        ∃ name ∈ w.classes.ancestorSet config m.id.className,
          ∃ c, w.classes name = some c ∧ c.Declares v) ∧
    ∀ (w' : Workspace) (m' : MethodDecl), w.classes.Alike w'.classes →
      m.id.className = m'.id.className → (∀ v, m.Declares v ↔ m'.Declares v) →
      (w.classes.visibleVars config m).same (w'.classes.visibleVars config m') = true := by
  constructor
  · exact fun v => ClassTable.contains_visibleVars_iff_of_room (fun _ _ => name_eq) hcount
  · exact fun w' m' halike =>
      halike.visibleVars_same (fun _ _ => name_eq) hcount (fun _ _ => name_eq)

/-- The class `Node<T>` extends `Base<T[]>` and implements `Linked<T>` and `Plain`. -/
def nodeHeader : ClassHeader :=
  (genericDecl "Node" (.cls "Base" [.array (.var ⟨⟨.ofClass "Node", 0⟩, "T"⟩)])
    [.cls "Linked" [.var ⟨⟨.ofClass "Node", 0⟩, "T"⟩], .cls "Plain" []]).toClassHeader

/-- `Node` is known from the classpath alone, as is `Plain` below `Hidden`. Of the classes of the
program `Base` extends `Node` again, and `Linked` extends itself. -/
def nodeWorkspace : Workspace where
  program := ((Program.empty.add (genericDecl "Base" (.cls "Node" []) [.cls "Missing" []])).add
    (genericDecl "Linked" (.cls "Linked" []) [])).add (genericDecl "Hidden" .object [])
  classpath := (Classpath.empty.insert nodeHeader).insert
    (genericDecl "Plain" (.cls "Hidden" []) []).toClassHeader

/-- The same class with another name and bound for its parameter, and with the supertypes in
another order and without arguments. -/
def nodeHeader' : ClassHeader where
  name := "Node"
  isInterface := false
  typeParams := [⟨⟨⟨.ofClass "Node", 0⟩, "E"⟩, [.cls "Comparable" []]⟩]
  superClass := some (.cls "Plain" [])
  interfaces := [.cls "Linked" [], .cls "Base" []]

/-- The workspace in which that class stands in the place of the first one. -/
def nodeWorkspace' : Workspace :=
  { nodeWorkspace with classpath := nodeWorkspace.classpath.insert nodeHeader' }

/-- A method `<R> void map()` of `Node`. -/
def nodeMethod (isStatic : Bool) : MethodDecl where
  id := ⟨"Node", "map", "()V"⟩
  typeParams := TypeParam.declare (.ofMethod ⟨"Node", "map", "()V"⟩) ["R"]
  params := []
  returnType := .prim .void
  isStatic := isStatic

theorem alike_nodeWorkspace : nodeWorkspace.classes.Alike nodeWorkspace'.classes := by
  intro name
  by_cases h : name = "Node"
  · subst h
    have hdeclares : ∀ v, nodeHeader.Declares v ↔ nodeHeader'.Declares v := fun v => by
      simp [ClassHeader.Declares, nodeHeader, nodeHeader', genericDecl, TypeParam.declare]
    have hnames : nodeHeader.supertypeNames.Perm nodeHeader'.supertypeNames := by decide
    exact .some ⟨rfl, hdeclares, fun name => hnames.mem_iff⟩
  · have hsame : nodeWorkspace'.classes name = nodeWorkspace.classes name := by
      simp [classes, nodeWorkspace', nodeHeader', h]
    rw [hsame]
    cases nodeWorkspace.classes name with
    | none => exact .none
    | some c => exact .some ⟨rfl, fun _ => Iff.rfl, fun _ => Iff.rfl⟩

/-- Only classes of the program count, so nothing of `Plain` and `Hidden` is visible. -/
def programOnly : Config := { maxAncestors := 2, classpathAncestors := false }

theorem visibleVars_exact_node :
    (nodeWorkspace.classes.ancestorSet programOnly "Node").encard ≤ (2 : ℕ) ∧
    (∀ v, (nodeWorkspace.classes.visibleVars programOnly (nodeMethod false)).contains v = true ↔
      (nodeMethod false).Declares v ∨
        (∃ c, nodeWorkspace.classes "Node" = some c ∧ c.Declares v) ∨
        ∃ name ∈ nodeWorkspace.classes.ancestorSet programOnly "Node",
          ∃ c, nodeWorkspace.classes name = some c ∧ c.Declares v) ∧
    (nodeWorkspace.classes.visibleVars programOnly (nodeMethod false)).same
      (nodeWorkspace'.classes.visibleVars programOnly (nodeMethod true)) = true ∧
    (nodeWorkspace.classes.visibleVars programOnly (nodeMethod false)).names.keys =
      [⟨.ofClass "Node", 0⟩, ⟨.ofClass "Base", 0⟩, ⟨.ofClass "Linked", 0⟩,
        ⟨.ofMethod ⟨"Node", "map", "()V"⟩, 0⟩] ∧
    (nodeWorkspace'.classes.visibleVars programOnly (nodeMethod true)).names.keys =
      [⟨.ofClass "Node", 0⟩, ⟨.ofClass "Linked", 0⟩, ⟨.ofClass "Base", 0⟩,
        ⟨.ofMethod ⟨"Node", "map", "()V"⟩, 0⟩] := by
  have hcount : (nodeWorkspace.classes.ancestorSet programOnly "Node").encard ≤ (2 : ℕ) :=
    (ClassTable.encard_ancestorSet_le ["Node", "Base", "Linked", "Plain", "Missing"]
      (by decide) (by decide +kernel)).trans (Nat.cast_le.2 (by decide +kernel))
  have hexact := visibleVars_exact nodeWorkspace programOnly (nodeMethod false) hcount
  have hsame := hexact.2 nodeWorkspace' (nodeMethod true) alike_nodeWorkspace rfl
    fun _ => Iff.rfl
  exact ⟨hcount, hexact.1, hsame, by decide +kernel, by decide +kernel⟩

end Unerase.Workspace
