import Unerase.ClassFile.Basic
import Unerase.Table

/-!
# The classpath

The classes outside of the program, of which no more than the header is known.
-/

namespace Unerase

/-- Class headers, each under its own name. -/
structure Classpath where
  table : Table String ClassHeader
  named : ∀ {name header}, table.get? name = some header → header.name = name

namespace Classpath

/-- The classpath without classes. -/
def empty : Classpath := ⟨Table.empty, fun h => nomatch h⟩

/-- The header of a class. -/
def get? (p : Classpath) (name : String) : Option ClassHeader := p.table.get? name

/-- The number of classes. -/
def size (p : Classpath) : Nat := p.table.size

/-- A classpath is empty when it has no class. -/
def isEmpty (p : Classpath) : Bool := p.table.isEmpty

/-- Records a class, in the place of one of its name if there is one. -/
def insert (p : Classpath) (header : ClassHeader) : Classpath where
  table := p.table.put header.name header
  named {name d} h := by
    rw [Table.get?_put] at h
    split at h
    · rename_i hn
      cases h
      exact hn.symm
    · exact p.named h

/-- Records the class of a class file. -/
def insertFile (p : Classpath) (file : ClassFile) : Classpath := p.insert file.header

/-- The classpath of the listed class files; of two with one name, the later counts. -/
def ofFiles (files : List ClassFile) : Classpath := files.foldl insertFile empty

@[simp] theorem get?_insert (p : Classpath) (header : ClassHeader) (name : String) :
    (p.insert header).get? name = if name = header.name then some header else p.get? name :=
  Table.get?_put ..

end Classpath

end Unerase
