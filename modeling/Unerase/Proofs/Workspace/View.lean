import Mathlib.Data.List.Induction
import Unerase.Proofs.ClassFile.Scope
import Unerase.Proofs.ClassTable.View
import Unerase.Workspace.Basic

/-!
# Views in a workspace

What is on a classpath was read from a class file and is therefore closed. So if the classes of
the program are closed too, a view brings in no variable from the declarations on the way: all its
variables are those of the type that is viewed (`mem_vars_of_viewAs`).
-/

namespace Unerase

namespace Classpath

/-- What is on a classpath comes from one of its class files. -/
theorem exists_of_get?_ofFiles {files : List ClassFile} {name : String} {header : ClassHeader}
    (h : (ofFiles files).get? name = some header) : ∃ file ∈ files, file.header = header := by
  induction files using List.reverseRecOn with
  | nil => cases h
  | append_singleton files file ih =>
    have hstep : ofFiles (files ++ [file]) = (ofFiles files).insert file.header := by
      simp [ofFiles, List.foldl_append, insertFile]
    rw [hstep, get?_insert] at h
    split at h
    · exact ⟨file, by simp, Option.some.inj h⟩
    · obtain ⟨other, hmem, hother⟩ := ih h
      exact ⟨other, List.mem_append_left _ hmem, hother⟩

end Classpath

namespace Workspace

/-- A class of a workspace comes from the program or from the classpath. -/
theorem classes_eq_some {w : Workspace} {name : String} {c : KnownClass}
    (h : w.classes name = some c) :
    (∃ decl, w.program.get? name = some decl ∧ decl.toClassHeader = c.toClassHeader) ∨
      w.classpath.get? name = some c.toClassHeader := by
  unfold classes at h
  split at h
  · rename_i decl hdecl
    cases h
    exact .inl ⟨decl, hdecl, rfl⟩
  · obtain ⟨header, hheader, rfl⟩ := Option.map_eq_some_iff.1 h
    exact .inr hheader

/-- Over class files and a closed program all classes are closed. -/
theorem closedTo_classes {program : Program} {files : List ClassFile} {config : Config}
    (hfiles : Grammar.maxNesting ≤ config.maxSubstitutionDepth)
    (hprogram : ∀ name decl, program.get? name = some decl →
      decl.ClosedTo config.maxSubstitutionDepth) :
    (Workspace.mk program (.ofFiles files) config).classes.ClosedTo
      config.maxSubstitutionDepth := by
  intro name c hc
  rcases classes_eq_some hc with ⟨decl, hdecl, heq⟩ | hheader
  · exact heq ▸ hprogram name decl hdecl
  · obtain ⟨file, -, hfile⟩ := Classpath.exists_of_get?_ofFiles hheader
    exact hfile ▸ file.closedTo_header.mono hfiles

/-- Every variable of a view is a variable of the type that is viewed. -/
theorem mem_vars_of_viewAs (program : Program) (files : List ClassFile) (config : Config)
    (hfiles : 300 ≤ config.maxSubstitutionDepth)
    (hprogram : ∀ name decl, program.get? name = some decl → ∀ s ∈ decl.supertypes,
      (∀ v ∈ s.vars, decl.Declares v.toVarId) ∧ s.depth ≤ config.maxSubstitutionDepth)
    (t : JType) (target : String) (u : JType)
    (h : (Workspace.mk program (.ofFiles files) config).viewAs t target = some u) :
    ∀ v ∈ u.vars, v ∈ t.vars := by
  have hclosed : (Workspace.mk program (.ofFiles files) config).classes.ClosedTo
      config.maxSubstitutionDepth :=
    closedTo_classes hfiles fun name decl hdecl =>
      ClassHeader.closedTo_of_depth_le (hprogram name decl hdecl)
  obtain ⟨n, hn⟩ := ClassTable.aboveIn_of_viewAs h
  exact fun v hv => hn.mem_vars hclosed hv

/-- The class file of a class with a generic superclass. -/
def namesFile : ClassFile where
  name := "Names"
  accessFlags := 0x0021
  superName := some "Box"
  interfaceNames := []
  signature := some "<T:Ljava/lang/Object;>LBox<Ljava/util/List<TT;>;>;"

/-- A class of a program that extends it. -/
def wordsDecl : ClassDecl where
  name := "Words"
  isInterface := false
  typeParams := TypeParam.declare (.ofClass "Words") ["T"]
  superClass := some (.cls "Names" [.array (.var ⟨⟨.ofClass "Words", 0⟩, "T"⟩)])
  interfaces := []
  methods := []

/-- What an instance of that class is viewed as. -/
def boxOfArrays : JType :=
  .cls "Box" [.cls "java.util.List" [.array (.var ⟨⟨.ofClass "Main", 0⟩, "E"⟩)]]

theorem mem_vars_of_viewAs_words :
    (Workspace.mk (Program.empty.add wordsDecl) (.ofFiles [namesFile])
      { maxSubstitutionDepth := 300 }).viewAs
        (.cls "Words" [.var ⟨⟨.ofClass "Main", 0⟩, "E"⟩]) "Box" = some boxOfArrays ∧
      ∀ v ∈ boxOfArrays.vars, v ∈ (JType.cls "Words" [.var ⟨⟨.ofClass "Main", 0⟩, "E"⟩]).vars := by
  have hprogram : ∀ name decl, (Program.empty.add wordsDecl).get? name = some decl →
      ∀ s ∈ decl.supertypes, (∀ v ∈ s.vars, decl.Declares v.toVarId) ∧ s.depth ≤ 300 := by
    intro name decl hdecl
    rw [Program.get?_add] at hdecl
    split at hdecl
    · cases hdecl
      decide
    · cases hdecl
  have hview : (Workspace.mk (Program.empty.add wordsDecl) (.ofFiles [namesFile])
      { maxSubstitutionDepth := 300 }).viewAs
        (.cls "Words" [.var ⟨⟨.ofClass "Main", 0⟩, "E"⟩]) "Box" = some boxOfArrays := by
    decide +kernel
  exact ⟨hview, mem_vars_of_viewAs _ _ _ (Nat.le_refl 300) hprogram _ "Box" _ hview⟩

end Workspace

end Unerase
