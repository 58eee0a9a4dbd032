import Mathlib.Data.List.DropRight
import Mathlib.Data.List.Induction
import Unerase.Proofs.Table
import Unerase.Proofs.Workspace.Visible

/-!
# Histories of a memo

What a memo answers after any number of requests. It has one law: for every method it gives the
first set that was offered for the method since it was last cleared, whether that set was handed in
or worked out when it was asked for. Nothing else counts, neither later offers nor requests for
other methods (`answers_exact`). So for methods that are told apart by their identities, the sets
that are remembered are those that would be worked out anew.
-/

namespace Unerase.Memo

variable {memo : Memo} {classes : ClassTable} {config : Config} {m : MethodDecl} {id : MethodRef}
  {vars : VarSet}

/-! ## Remembering -/

@[simp] theorem get?_remember (memo : Memo) (id other : MethodRef) (vars : VarSet) :
    (memo.remember id vars).2.get? other =
      if other = id then some ((memo.get? id).getD vars) else memo.get? other :=
  Table.get?_putNew ..

/-- What is given is what is remembered from then on. -/
theorem get?_remember_self (memo : Memo) (id : MethodRef) (vars : VarSet) :
    (memo.remember id vars).2.get? id = some (memo.remember id vars).1 := by
  rw [get?_remember, if_pos rfl, remember]

/-- Asking for the variables of a method is offering them, whether they are remembered or not. -/
theorem visibleVars_eq_remember (memo : Memo) (classes : ClassTable) (config : Config)
    (m : MethodDecl) :
    memo.visibleVars classes config m = memo.remember m.id (classes.visibleVars config m) := by
  rw [visibleVars]
  cases h : memo.get? m.id with
  | none => rfl
  | some vars =>
    have htable : memo.table.putNew m.id (classes.visibleVars config m) = memo.table :=
      Table.putNew_eq_self h _
    simp [remember, h, htable]

/-! ## Requests -/

/-- What can be asked of a memo. -/
inductive Request where
  /-- To remember a set for a method unless there is one. -/
  | remember (id : MethodRef) (vars : VarSet)
  /-- To give what is remembered for a method. -/
  | get (id : MethodRef)
  /-- To forget everything. -/
  | clear
  /-- To give what is remembered for a method, and to work it out now if there is nothing. -/
  | visibleVars (classes : ClassTable) (config : Config) (method : MethodDecl)

namespace Request

/-- The method that a request is about. -/
def id? : Request → Option MethodRef
  | .remember id _ => some id
  | .get id => some id
  | .clear => none
  | .visibleVars _ _ method => some method.id

/-- Whether everything is to be forgotten. -/
def isClear : Request → Bool
  | .clear => true
  | _ => false

/-- The set that a request offers for a method. -/
def offer? : Request → Option (MethodRef × VarSet)
  | .remember id vars => some (id, vars)
  | .visibleVars classes config method => some (method.id, classes.visibleVars config method)
  | .get _ => none
  | .clear => none

end Request

/-- The answer to a request, and what is remembered afterwards. -/
def serve (memo : Memo) : Request → Option VarSet × Memo
  | .remember id vars => (some (memo.remember id vars).1, (memo.remember id vars).2)
  | .get id => (memo.get? id, memo)
  | .clear => (none, empty)
  | .visibleVars classes config method =>
    (some (memo.visibleVars classes config method).1, (memo.visibleVars classes config method).2)

/-- The answers to requests one after another, and what is remembered in the end. -/
def run (memo : Memo) : List Request → List (Option VarSet) × Memo
  | [] => ([], memo)
  | request :: rest =>
    let first := memo.serve request
    let others := run first.2 rest
    (first.1 :: others.1, others.2)

/-! ## Offers -/

/-- The sets that have been offered since the memo was last cleared. -/
def offers (history : List Request) : List (MethodRef × VarSet) :=
  (history.rtakeWhile fun request => !request.isClear).filterMap Request.offer?

/-- The first set that has been offered for a method since the memo was last cleared. It is the
only one to be stored: all later ones come upon it. -/
def firstOffer (history : List Request) (id : MethodRef) : Option VarSet :=
  (offers history).lookup id

theorem offers_concat (history : List Request) (request : Request) :
    offers (history ++ [request]) =
      if request.isClear then [] else offers history ++ request.offer?.toList := by
  rw [offers, List.rtakeWhile_concat]
  cases request.isClear with
  | true => rfl
  | false => cases h : request.offer? <;> simp [offers, h]

/-- A memo keeps the first of the offers for every method, and nothing else. -/
structure Keeps (memo : Memo) (offers : List (MethodRef × VarSet)) : Prop where
  get?_eq : ∀ id, memo.get? id = offers.lookup id
  size_eq : memo.size = (offers.map (·.1)).toFinset.card

/-- What is remembered for each method says how many methods there are. -/
theorem keeps_of_get?_eq {offers : List (MethodRef × VarSet)}
    (h : ∀ id, memo.get? id = offers.lookup id) : memo.Keeps offers := by
  refine ⟨h, Table.size_eq_card fun id => ?_⟩
  have hknown : memo.table.contains id = (memo.get? id).isSome := rfl
  rw [hknown, h, List.lookup_isSome_iff]
  simp

theorem keeps_empty : empty.Keeps [] := ⟨fun _ => rfl, rfl⟩

theorem Keeps.remember {offers : List (MethodRef × VarSet)} (h : memo.Keeps offers)
    (id : MethodRef) (vars : VarSet) :
    (memo.remember id vars).2.Keeps (offers ++ [(id, vars)]) := by
  refine keeps_of_get?_eq fun other => ?_
  rw [get?_remember, List.lookup_append, h.get?_eq, h.get?_eq]
  by_cases hother : other = id
  · subst hother
    cases offers.lookup other <;> simp
  · rw [if_neg hother, List.lookup_cons, beq_false_of_ne hother]
    simp

/-! ## One request -/

/-- After a request a memo keeps the first offers of the longer history. -/
theorem Keeps.serve {history : List Request} (h : memo.Keeps (offers history))
    (request : Request) : (memo.serve request).2.Keeps (offers (history ++ [request])) := by
  rw [offers_concat]
  cases request with
  | remember id vars => exact h.remember id vars
  | get id =>
    show memo.Keeps (offers history ++ [])
    rwa [List.append_nil]
  | clear => exact keeps_empty
  | visibleVars classes config m =>
    rw [Memo.serve, visibleVars_eq_remember]
    exact h.remember m.id (classes.visibleVars config m)

/-- The answer to a request is what is remembered for its method afterwards. -/
theorem answer_eq_get? (memo : Memo) (request : Request) :
    (memo.serve request).1 = request.id?.bind (memo.serve request).2.get? := by
  cases request with
  | remember id vars => exact (get?_remember_self memo id vars).symm
  | get id => rfl
  | clear => rfl
  | visibleVars classes config m =>
    rw [serve, visibleVars_eq_remember]
    exact (get?_remember_self memo m.id (classes.visibleVars config m)).symm

/-- So it is the first offer for the method, that of the request itself included. -/
theorem Keeps.answer_eq {history : List Request} (h : memo.Keeps (offers history))
    (request : Request) :
    (memo.serve request).1 = request.id?.bind (firstOffer (history ++ [request])) := by
  rw [answer_eq_get?]
  exact Option.bind_congr fun id _ => (h.serve request).get?_eq id

/-- A request about one method changes nothing for any other. -/
theorem get?_serve_of_ne {request : Request} (hclear : request.isClear = false)
    (hid : request.id? ≠ some id) : (memo.serve request).2.get? id = memo.get? id := by
  cases request with
  | remember other vars =>
    have hne : id ≠ other := fun heq => hid (by rw [heq]; rfl)
    rw [serve, get?_remember, if_neg hne]
  | get other => rfl
  | clear => cases hclear
  | visibleVars classes config m =>
    have hne : id ≠ m.id := fun heq => hid (by rw [heq]; rfl)
    rw [serve, visibleVars_eq_remember, get?_remember, if_neg hne]

/-! ## All requests -/

theorem run_append (memo : Memo) (before after : List Request) :
    memo.run (before ++ after) =
      ((memo.run before).1 ++ ((memo.run before).2.run after).1,
        ((memo.run before).2.run after).2) := by
  induction before generalizing memo with
  | nil => rfl
  | cons request before ih => simp only [List.cons_append, run, ih]

theorem length_run (memo : Memo) (history : List Request) :
    (memo.run history).1.length = history.length := by
  induction history generalizing memo with
  | nil => rfl
  | cons request rest ih => rw [run, List.length_cons, List.length_cons, ih]

/-- After every history a memo keeps the first offers. -/
theorem keeps_run (history : List Request) : (empty.run history).2.Keeps (offers history) := by
  induction history using List.reverseRecOn with
  | nil => exact keeps_empty
  | append_singleton history request ih =>
    rw [run_append]
    exact ih.serve request

/-- Every request is answered with the first offer for its method, whatever comes after it. -/
theorem getElem?_run (before : List Request) (request : Request) (after : List Request) :
    (empty.run (before ++ request :: after)).1[before.length]? =
      some (request.id?.bind (firstOffer (before ++ [request]))) := by
  rw [run_append, List.getElem?_append_right (by rw [length_run]), length_run, Nat.sub_self, run,
    ← (keeps_run before).answer_eq request]
  rfl

/-! ## Methods of one class table -/

/-- If methods of one identity declare the same variables and what is remembered for them is what
they see, then each of them is given what it sees. -/
theorem forall₂_visibleVarsOfAll {methods : List MethodDecl}
    (hsame : ∀ m ∈ methods, ∀ m' ∈ methods, m.id = m'.id → ∀ v, m.Declares v ↔ m'.Declares v)
    (hmemo : ∀ m ∈ methods, ∀ vars, memo.get? m.id = some vars →
      vars.same (classes.visibleVars config m) = true) :
    List.Forall₂ (fun vars m => vars.same (classes.visibleVars config m) = true)
      (memo.visibleVarsOfAll classes config methods).1 methods := by
  induction methods generalizing memo with
  | nil => exact .nil
  | cons m rest ih =>
    -- what is remembered for the first method is seen by all methods of its identity
    have hfirst : ∀ m' ∈ m :: rest, m'.id = m.id →
        ((memo.get? m.id).getD (classes.visibleVars config m)).same
          (classes.visibleVars config m') = true := by
      intro m' hm' hid
      cases hget : memo.get? m.id with
      | none =>
        exact ClassTable.visibleVars_congr (congrArg _ hid.symm)
          (hsame m List.mem_cons_self m' hm' hid.symm)
      | some vars => exact hmemo m' hm' vars (hid ▸ hget)
    rw [visibleVarsOfAll, visibleVars_eq_remember]
    refine .cons (hfirst m List.mem_cons_self rfl) (ih ?_ ?_)
    · exact fun a ha b hb => hsame a (List.mem_cons_of_mem m ha) b (List.mem_cons_of_mem m hb)
    · intro m' hm' vars hvars
      rw [get?_remember] at hvars
      by_cases hid : m'.id = m.id
      · rw [if_pos hid] at hvars
        cases hvars
        exact hfirst m' (List.mem_cons_of_mem m hm') hid
      · rw [if_neg hid] at hvars
        exact hmemo m' (List.mem_cons_of_mem m hm') vars hvars

/-- Over any history every answer for a method is the first set that was offered for it since the
memo was last cleared; requests about other methods change nothing, and as many sets are remembered
as there are methods with offers. So in one workspace, where methods of one identity declare the
same variables, each method is given the variables that it sees. -/
theorem answers_exact :
    (∀ before request after, (empty.run (before ++ request :: after)).1[before.length]? =
      some (request.id?.bind (firstOffer (before ++ [request])))) ∧
    (∀ history, (empty.run history).2.size = ((offers history).map (·.1)).toFinset.card) ∧
    (∀ (memo : Memo) (request : Request) (id : MethodRef), request.isClear = false →
      request.id? ≠ some id → (memo.serve request).2.get? id = memo.get? id) ∧
    ∀ (w : Workspace) (methods : List MethodDecl),
      (∀ m ∈ methods, ∀ m' ∈ methods, m.id = m'.id → ∀ v, m.Declares v ↔ m'.Declares v) →
      List.Forall₂ (fun vars m => vars.same (w.visibleVars m) = true)
        (w.visibleVarsOfAll methods) methods := by
  refine ⟨getElem?_run, fun history => (keeps_run history).size_eq, ?_, ?_⟩
  · exact fun memo request id hclear hid => get?_serve_of_ne hclear hid
  · intro w methods hsame
    exact forall₂_visibleVarsOfAll hsame fun m _ vars hvars => nomatch hvars

/-- Another method of the class `Node`, without type parameters. -/
def plainMethod : MethodDecl where
  id := ⟨"Node", "size", "()I"⟩
  typeParams := []
  params := []
  returnType := .prim .int
  isStatic := false

/-- A set is offered for a method too late, then in time, since all has been forgotten. -/
def nodeHistory : List Request :=
  [.visibleVars Workspace.nodeWorkspace.classes {} (Workspace.nodeMethod false),
    .remember (Workspace.nodeMethod false).id .empty,
    .clear,
    .get plainMethod.id,
    .remember (Workspace.nodeMethod false).id .empty,
    .visibleVars Workspace.nodeWorkspace.classes {} (Workspace.nodeMethod true)]

theorem answers_exact_node :
    (empty.run nodeHistory).1[5]? =
      some (firstOffer nodeHistory (Workspace.nodeMethod true).id) ∧
    ((empty.run nodeHistory).1.map fun answer => answer.map fun vars => vars.size) =
      [some 6, some 6, none, none, some 0, some 0] ∧
    (empty.run nodeHistory).2.size = 1 ∧
    ((empty.run nodeHistory).2.serve (.remember plainMethod.id .empty)).2.get?
        (Workspace.nodeMethod true).id =
      (empty.run nodeHistory).2.get? (Workspace.nodeMethod true).id ∧
    List.Forall₂ (fun vars m => vars.same (Workspace.nodeWorkspace.visibleVars m) = true)
      (Workspace.nodeWorkspace.visibleVarsOfAll
        [Workspace.nodeMethod false, plainMethod, Workspace.nodeMethod true])
      [Workspace.nodeMethod false, plainMethod, Workspace.nodeMethod true] := by
  have hsame : ∀ m ∈ [Workspace.nodeMethod false, plainMethod, Workspace.nodeMethod true],
      ∀ m' ∈ [Workspace.nodeMethod false, plainMethod, Workspace.nodeMethod true],
      m.id = m'.id → m.typeParams = m'.typeParams := by decide
  obtain ⟨hanswer, hsize, hother, hall⟩ := answers_exact
  refine ⟨hanswer (nodeHistory.take 5) _ [], by decide +kernel, (hsize nodeHistory).trans ?_,
    hother _ _ _ rfl (by decide), hall _ _ fun m hm m' hm' hid v => ?_⟩
  · decide +kernel
  · rw [MethodDecl.Declares, MethodDecl.Declares, hsame m hm m' hm' hid]

end Unerase.Memo
