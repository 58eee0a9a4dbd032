import Mathlib.Data.List.Induction
import Unerase.Proofs.Table
import Unerase.Proofs.Workspace.Ancestors

/-!
# Histories of a workspace

What is known of a class after any sequence of changes to the program and the classpath. The program
keeps what was added first until it is replaced, and then the latest replacement; the classpath keeps
the latest record; and whatever was recorded there is hidden once the program has a class of the name
(`classes_after_exact`).
-/

namespace Unerase

/-- A change to the known classes. -/
inductive Change where
  /-- Adds a class to the program unless there is one of its name. -/
  | add (decl : ClassDecl)
  /-- Adds a class to the program, in the place of one of its name if there is one. -/
  | replace (decl : ClassDecl)
  /-- Records a class on the classpath, in the place of one of its name if there is one. -/
  | insert (header : ClassHeader)
  /-- Records the class of a class file on the classpath. -/
  | insertFile (file : ClassFile)

namespace Change

/-- The class that a change adds. -/
def added? : Change → Option ClassDecl
  | .add decl => some decl
  | _ => none

/-- The class that a change puts in the place of another one. -/
def replacement? : Change → Option ClassDecl
  | .replace decl => some decl
  | _ => none

/-- The class of the program that a change is about. -/
def decl? : Change → Option ClassDecl
  | .add decl | .replace decl => some decl
  | _ => none

/-- What a change records on the classpath. -/
def header? : Change → Option ClassHeader
  | .insert header => some header
  | .insertFile file => some file.header
  | _ => none

end Change

/-! ## What a history leaves -/

/-- The class of the program after a history: the latest replacement, and the first that was added
where there was no replacement. -/
def declOf (history : List Change) (name : String) : Option ClassDecl :=
  ((history.filterMap Change.replacement?).reverse.find? (·.name == name)).or
    ((history.filterMap Change.added?).find? (·.name == name))

/-- The class of the classpath after a history: the latest that was recorded. -/
def headerOf (history : List Change) (name : String) : Option ClassHeader :=
  (history.filterMap Change.header?).reverse.find? (·.name == name)

section Concat

variable (history : List Change) (name : String)

/-- Looked through from its end, a list begins with what was added last. -/
theorem find?_reverse_concat {α : Type} (p : α → Bool) (xs : List α) (x : α) :
    (xs ++ [x]).reverse.find? p = if p x then some x else xs.reverse.find? p := by
  rw [List.reverse_append, List.reverse_singleton, List.singleton_append, List.find?_cons]
  cases p x <;> rfl

theorem declOf_concat_add (decl : ClassDecl) :
    declOf (history ++ [.add decl]) name =
      if name = decl.name then some ((declOf history decl.name).getD decl)
      else declOf history name := by
  rw [declOf, List.filterMap_append, List.filterMap_append]
  simp only [List.filterMap_cons, List.filterMap_nil, Change.replacement?, Change.added?,
    List.append_nil, List.find?_append, List.find?_singleton, ← Option.or_assoc]
  rw [← declOf]
  by_cases h : name = decl.name
  · subst h
    cases declOf history decl.name <;> simp
  · simp [h, Ne.symm h]

theorem declOf_concat_replace (decl : ClassDecl) :
    declOf (history ++ [.replace decl]) name =
      if name = decl.name then some decl else declOf history name := by
  rw [declOf, List.filterMap_append, List.filterMap_append]
  simp only [List.filterMap_cons, List.filterMap_nil, Change.replacement?, Change.added?,
    List.append_nil, find?_reverse_concat]
  by_cases h : name = decl.name
  · subst h
    simp
  · simp [h, Ne.symm h, declOf]

/-- A change to the classpath is none to the program. -/
theorem declOf_concat_of_header {change : Change} {header : ClassHeader}
    (h : change.header? = some header) : declOf (history ++ [change]) name = declOf history name := by
  have hprogram : change.replacement? = none ∧ change.added? = none := by
    cases change with
    | add decl => cases h
    | replace decl => cases h
    | insert header => exact ⟨rfl, rfl⟩
    | insertFile file => exact ⟨rfl, rfl⟩
  rw [declOf, List.filterMap_append, List.filterMap_append, List.filterMap_cons_none hprogram.1,
    List.filterMap_cons_none hprogram.2, List.filterMap_nil, List.filterMap_nil, List.append_nil,
    List.append_nil, declOf]

theorem headerOf_concat_of_none {change : Change} (h : change.header? = none) :
    headerOf (history ++ [change]) name = headerOf history name := by
  rw [headerOf, List.filterMap_append, List.filterMap_cons_none h, List.filterMap_nil,
    List.append_nil, headerOf]

theorem headerOf_concat {change : Change} {header : ClassHeader} (h : change.header? = some header) :
    headerOf (history ++ [change]) name =
      if name = header.name then some header else headerOf history name := by
  rw [headerOf, List.filterMap_append, List.filterMap_cons_some h, List.filterMap_nil,
    find?_reverse_concat]
  by_cases hname : name = header.name
  · subst hname
    simp
  · simp [hname, Ne.symm hname, headerOf]

end Concat

theorem Change.decl?_eq_some_iff {change : Change} {decl : ClassDecl} :
    change.decl? = some decl ↔ change.replacement? = some decl ∨ change.added? = some decl := by
  cases change <;> simp [decl?, replacement?, added?]

/-- A class is in the program once a change of the history was about it. -/
theorem isSome_declOf_iff {history : List Change} {name : String} :
    (declOf history name).isSome ↔ ∃ decl ∈ history.filterMap Change.decl?, decl.name = name := by
  rw [declOf, Option.isSome_or, Bool.or_eq_true, List.find?_isSome, List.find?_isSome]
  simp only [List.mem_reverse, List.mem_filterMap, beq_iff_eq, Change.decl?_eq_some_iff, and_or_left,
    exists_or, or_and_right]

theorem isSome_headerOf_iff {history : List Change} {name : String} :
    (headerOf history name).isSome ↔
      ∃ header ∈ history.filterMap Change.header?, header.name = name := by
  simp [headerOf, List.find?_isSome]

/-! ## Class files -/

namespace ClassFile

variable {file : ClassFile} {text : String}

theorem signature?_eq (h : file.signature = some text) :
    file.signature? = (ClassSignature.read file.name text).toOption := by
  rw [signature?, h, Option.bind_some, ClassSignature.read]
  cases ClassSignature.read? file.name text.toList <;> rfl

/-- A signature that can be read is taken as a whole. -/
theorem header_of_read {signature : ClassSignature} (h : file.signature = some text)
    (hread : ClassSignature.read file.name text = .ok signature) :
    file.header = file.genericHeader signature := by
  rw [header, signature?_eq h, hread]
  rfl

/-- A signature that cannot be read counts as none. -/
theorem header_of_not_read {failure : Failure} (h : file.signature = some text)
    (hread : ClassSignature.read file.name text = .error failure) :
    file.header = { file with signature := none }.header := by
  rw [header, signature?_eq h, hread]
  rfl

theorem superClass_header (h : file.isInterface = true) : file.header.superClass = none := by
  rw [header]
  split
  · exact if_pos h
  · exact if_pos h

end ClassFile

/-! ## Running a history -/

/-- Adding a class changes nothing where there is one of its name. -/
theorem Program.add_eq_self (p : Program) {decl : ClassDecl} (h : p.lacks decl.name = false) :
    p.add decl = p := by
  obtain ⟨table, hnamed⟩ := p
  have hpresent : (table.get? decl.name).isSome = true := by simpa [lacks, Table.contains] using h
  obtain ⟨old, hold⟩ := Option.isSome_iff_exists.1 hpresent
  simp only [add, Table.putNew_eq_self hold]

namespace Workspace

/-- The workspace after a change. -/
def change (w : Workspace) : Change → Workspace
  | .add decl => { w with program := w.program.add decl }
  | .replace decl => { w with program := w.program.replace decl }
  | .insert header => { w with classpath := w.classpath.insert header }
  | .insertFile file => { w with classpath := w.classpath.insertFile file }

/-- The workspace after several changes one after another. -/
def after (w : Workspace) (history : List Change) : Workspace := history.foldl change w

variable {w : Workspace} {history : List Change} {config : Config}

theorem after_concat (w : Workspace) (history : List Change) (change : Change) :
    w.after (history ++ [change]) = (w.after history).change change := by
  rw [after, List.foldl_append, ← after]
  rfl

/-- A workspace has recorded a history when its program and its classpath are what the history
leaves. -/
structure Records (w : Workspace) (history : List Change) : Prop where
  program : ∀ name, w.program.get? name = declOf history name
  classpath : ∀ name, w.classpath.get? name = headerOf history name

/-- One more change is recorded. -/
theorem Records.change (h : w.Records history) (change : Change) :
    (w.change change).Records (history ++ [change]) := by
  cases change with
  | add decl =>
    refine ⟨fun name => ?_, fun name => ?_⟩
    · rw [declOf_concat_add, ← h.program, ← h.program]
      exact Program.get?_add ..
    · rw [headerOf_concat_of_none history name rfl]
      exact h.classpath name
  | replace decl =>
    refine ⟨fun name => ?_, fun name => ?_⟩
    · rw [declOf_concat_replace, ← h.program]
      exact Program.get?_replace ..
    · rw [headerOf_concat_of_none history name rfl]
      exact h.classpath name
  | insert header =>
    refine ⟨fun name => ?_, fun name => ?_⟩
    · rw [declOf_concat_of_header history name rfl]
      exact h.program name
    · rw [headerOf_concat history name rfl, ← h.classpath]
      exact Classpath.get?_insert ..
  | insertFile file =>
    refine ⟨fun name => ?_, fun name => ?_⟩
    · rw [declOf_concat_of_header history name rfl]
      exact h.program name
    · rw [headerOf_concat history name rfl, ← h.classpath]
      exact Classpath.get?_insert ..

/-- From nothing on, every history is recorded. -/
theorem records_after (config : Config) (history : List Change) :
    (Workspace.after { config := config } history).Records history := by
  induction history using List.reverseRecOn with
  | nil => exact ⟨fun _ => rfl, fun _ => rfl⟩
  | append_singleton history change ih =>
    rw [after_concat]
    exact ih.change change

theorem Records.classes_eq (h : w.Records history) (name : String) :
    w.classes name = ((declOf history name).map fun decl => ⟨decl.toClassHeader, .program⟩).or
      ((headerOf history name).map fun header => ⟨header, .classpath⟩) := by
  rw [classes, h.program, h.classpath]
  cases declOf history name <;> rfl

/-- The program has as many classes as there are names that changes were about. -/
theorem Records.size_program (h : w.Records history) :
    w.program.size = ((history.filterMap Change.decl?).map (·.name)).toFinset.card := by
  refine Table.size_eq_card fun name => ?_
  have hknown : w.program.table.contains name = (w.program.get? name).isSome := rfl
  rw [hknown, h.program, isSome_declOf_iff, List.mem_toFinset, List.mem_map]

theorem Records.size_classpath (h : w.Records history) :
    w.classpath.size = ((history.filterMap Change.header?).map (·.name)).toFinset.card := by
  refine Table.size_eq_card fun name => ?_
  have hknown : w.classpath.table.contains name = (w.classpath.get? name).isSome := rfl
  rw [hknown, h.classpath, isSome_headerOf_iff, List.mem_toFinset, List.mem_map]

/-- After any history from nothing on, what is known of a class is the latest replacement in the
program, or else the first class that was added to the program, or else the latest record on the
classpath; it is known under its own name, and there are as many classes in the program and on the
classpath as there are names. Adding a class of which there is one already changes nothing. The
record of a class file is always stored. It is taken wholly from the signature of the class if that
can be read, and is otherwise that of the same file without the signature, and an interface has no
superclass in it. -/
theorem classes_after_exact :
    (∀ (config : Config) (history : List Change),
      (∀ name, (Workspace.after { config := config } history).classes name =
        ((declOf history name).map fun decl => ⟨decl.toClassHeader, .program⟩).or
          ((headerOf history name).map fun header => ⟨header, .classpath⟩)) ∧
      (∀ name c, (Workspace.after { config := config } history).classes name = some c →
        c.name = name) ∧
      (Workspace.after { config := config } history).program.size =
        ((history.filterMap Change.decl?).map (·.name)).toFinset.card ∧
      (Workspace.after { config := config } history).classpath.size =
        ((history.filterMap Change.header?).map (·.name)).toFinset.card) ∧
    (∀ (p : Program) (decl : ClassDecl), p.lacks decl.name = false → p.add decl = p) ∧
    ∀ file : ClassFile,
      (∀ p : Classpath, (p.insertFile file).get? file.name = some file.header) ∧
      (∀ text signature, file.signature = some text →
        ClassSignature.read file.name text = .ok signature →
        file.header =
          { name := file.name
            isInterface := file.isInterface
            typeParams := signature.typeParams
            superClass := if file.isInterface then none else some signature.superClass
            interfaces := signature.interfaces }) ∧
      (∀ text failure, file.signature = some text →
        ClassSignature.read file.name text = .error failure →
        file.header = { file with signature := none }.header) ∧
      (file.isInterface = true → file.header.superClass = none) := by
  refine ⟨fun config history => ?_, fun p decl => p.add_eq_self, fun file => ⟨fun p => ?_, ?_, ?_, ?_⟩⟩
  · have hrecords := records_after config history
    exact ⟨hrecords.classes_eq, fun name c => name_eq, hrecords.size_program,
      hrecords.size_classpath⟩
  · rw [Classpath.insertFile, Classpath.get?_insert, if_pos file.name_header.symm]
  · exact fun text signature => ClassFile.header_of_read
  · exact fun text failure => ClassFile.header_of_not_read
  · exact ClassFile.superClass_header

/-- The class file of a class `Tree`, or of an interface of that name. -/
def treeFile (accessFlags : UInt16) (signature : String) : ClassFile where
  name := "Tree"
  accessFlags := accessFlags
  superName := some "Plant"
  interfaceNames := ["Node"]
  signature := some signature

/-- A signature that can be read. -/
def treeSignature : ClassSignature where
  typeParams := TypeParam.declare (.ofClass "Tree") ["T"]
  superClass := .cls "Plant" [.var ⟨⟨.ofClass "Tree", 0⟩, "T"⟩]
  interfaces := []

/-- Both files of `Tree` and one of the two records of `Leaf` come to nothing: the program has a
class `Tree`, which is there from its first addition on, and `Leaf` is recorded again. -/
def treeHistory : List Change :=
  [.insertFile (treeFile 0x0021 "<T:>LPlant;"), .insert (plainDecl "Leaf" "Tree" []).toClassHeader,
    .add (plainDecl "Tree" "Plant" []), .add (plainDecl "Tree" "Shrub" []),
    .insertFile (treeFile 0x0021 "<T:Ljava/lang/Object;>LPlant<TT;>;"),
    .insert (plainDecl "Leaf" "Tree" ["Node"]).toClassHeader, .replace (plainDecl "Twig" "Tree" []),
    .add (plainDecl "Twig" "Leaf" [])]

theorem classes_after_exact_tree :
    (Workspace.after {} treeHistory).classes "Tree" =
      some ⟨(plainDecl "Tree" "Plant" []).toClassHeader, .program⟩ ∧
    (Workspace.after {} treeHistory).classes "Twig" =
      some ⟨(plainDecl "Twig" "Tree" []).toClassHeader, .program⟩ ∧
    (Workspace.after {} treeHistory).classes "Leaf" =
      some ⟨(plainDecl "Leaf" "Tree" ["Node"]).toClassHeader, .classpath⟩ ∧
    (Workspace.after {} treeHistory).classes "Plant" = none ∧
    (Workspace.after {} treeHistory).program.size = 2 ∧
    (Workspace.after {} treeHistory).classpath.size = 2 ∧
    (Workspace.after {} treeHistory).program.add (plainDecl "Tree" "Shrub" []) =
      (Workspace.after {} treeHistory).program ∧
    (treeFile 0x0021 "<T:Ljava/lang/Object;>LPlant<TT;>;").header =
      ⟨"Tree", false, treeSignature.typeParams, some treeSignature.superClass, []⟩ ∧
    (treeFile 0x0021 "<T:>LPlant;").header =
      ⟨"Tree", false, [], some (.cls "Plant" []), [.cls "Node" []]⟩ ∧
    (treeFile 0x0601 "<T:Ljava/lang/Object;>LPlant<TT;>;").header.superClass = none := by
  obtain ⟨hhistory, hadd, hfile⟩ := classes_after_exact
  obtain ⟨hclasses, -, hprogram, hclasspath⟩ := hhistory {} treeHistory
  have hlacks : (Workspace.after {} treeHistory).program.lacks "Tree" = false := by decide +kernel
  have hread : ClassSignature.read "Tree" "<T:Ljava/lang/Object;>LPlant<TT;>;" =
      .ok treeSignature := by decide +kernel
  have hnot : ClassSignature.read "Tree" "<T:>LPlant;" =
      .error (.notSignature "<T:>LPlant;") := by decide +kernel
  exact ⟨(hclasses "Tree").trans (by decide +kernel), (hclasses "Twig").trans (by decide +kernel),
    (hclasses "Leaf").trans (by decide +kernel), (hclasses "Plant").trans (by decide +kernel),
    hprogram.trans (by decide +kernel), hclasspath.trans (by decide +kernel),
    hadd _ (plainDecl "Tree" "Shrub" []) hlacks, (hfile _).2.1 _ treeSignature rfl hread,
    (hfile _).2.2.1 _ _ rfl hnot, (hfile _).2.2.2 (by decide)⟩

end Workspace

end Unerase
