import Unerase.Declaration
import Unerase.Table

/-!
# The classes of the program

A program holds class declarations by name. A class can be added, which never changes one that
is there, or put in the place of an older one.
-/

namespace Unerase

/-- Class declarations, each under its own name. -/
structure Program where
  table : Table String ClassDecl
  named : ∀ {name decl}, table.get? name = some decl → decl.name = name

namespace Program

/-- The program without classes. -/
def empty : Program := ⟨Table.empty, fun h => nomatch h⟩

/-- The class declared under a name. -/
def get? (p : Program) (name : String) : Option ClassDecl := p.table.get? name

/-- The number of classes. -/
def size (p : Program) : Nat := p.table.size

/-- A program is empty when it has no class. -/
def isEmpty (p : Program) : Bool := p.table.isEmpty

/-- Whether a class of that name is missing. -/
def lacks (p : Program) (name : String) : Bool := !p.table.contains name

/-- Adds a class unless there is one of its name. -/
def add (p : Program) (decl : ClassDecl) : Program where
  table := p.table.putNew decl.name decl
  named {name d} h := by
    rw [Table.get?_putNew] at h
    split at h
    · rename_i hn
      cases hd : p.table.get? decl.name with
      | none =>
        rw [hd] at h
        cases h
        exact hn.symm
      | some old =>
        rw [hd] at h
        cases h
        exact (p.named hd).trans hn.symm
    · exact p.named h

/-- Adds a class, in the place of one of its name if there is one. -/
def replace (p : Program) (decl : ClassDecl) : Program where
  table := p.table.put decl.name decl
  named {name d} h := by
    rw [Table.get?_put] at h
    split at h
    · rename_i hn
      cases h
      exact hn.symm
    · exact p.named h

@[simp] theorem get?_add (p : Program) (decl : ClassDecl) (name : String) :
    (p.add decl).get? name =
      if name = decl.name then some ((p.get? decl.name).getD decl) else p.get? name :=
  Table.get?_putNew ..

@[simp] theorem get?_replace (p : Program) (decl : ClassDecl) (name : String) :
    (p.replace decl).get? name = if name = decl.name then some decl else p.get? name :=
  Table.get?_put ..

end Program

end Unerase
