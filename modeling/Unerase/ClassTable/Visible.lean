import Unerase.ClassTable.Ancestors
import Unerase.JType.VarSet
import Unerase.Table

/-!
# Variables visible in a method

A method sees the type variables of its class, of the ancestors of its class and its own. They
are worked out once and remembered under the method's identity; what is remembered first stays,
whatever becomes known later.
-/

namespace Unerase

/-- The type variables visible inside of a method. -/
def ClassTable.visibleVars (classes : ClassTable) (config : Config) (method : MethodDecl) :
    VarSet :=
  ((VarSet.ofList (TypeParam.vars (classes.paramsOf method.id.className))).insertAll
    ((classes.ancestors config method.id.className).flatMap fun c =>
      TypeParam.vars c.typeParams)).insertAll (TypeParam.vars method.typeParams)

/-- The sets of variables that are remembered, by method. -/
structure Memo where
  table : Table MethodRef VarSet

namespace Memo

/-- Nothing is remembered. -/
def empty : Memo := ⟨Table.empty⟩

/-- The set remembered for a method. -/
def get? (memo : Memo) (id : MethodRef) : Option VarSet := memo.table.get? id

/-- The number of methods for which a set is remembered. -/
def size (memo : Memo) : Nat := memo.table.size

/-- A memo is empty when nothing is remembered. -/
def isEmpty (memo : Memo) : Bool := memo.table.isEmpty

/-- Remembers a set for a method unless there is one, and gives the set that is remembered. -/
def remember (memo : Memo) (id : MethodRef) (vars : VarSet) : VarSet × Memo :=
  ((memo.get? id).getD vars, ⟨memo.table.putNew id vars⟩)

/-- The remembered variables of a method, worked out now if there are none. -/
def visibleVars (memo : Memo) (classes : ClassTable) (config : Config) (method : MethodDecl) :
    VarSet × Memo :=
  match memo.get? method.id with
  | some vars => (vars, memo)
  | none => memo.remember method.id (classes.visibleVars config method)

/-- The variables of each of the methods in turn, remembered from one to the next. -/
def visibleVarsOfAll (memo : Memo) (classes : ClassTable) (config : Config) :
    List MethodDecl → List VarSet × Memo
  | [] => ([], memo)
  | method :: rest =>
    let first := memo.visibleVars classes config method
    let others := visibleVarsOfAll first.2 classes config rest
    (first.1 :: others.1, others.2)

end Memo

end Unerase
