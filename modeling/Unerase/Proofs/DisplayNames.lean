import Unerase.Call
import Unerase.Proofs.ClassTable.View
import Unerase.Proofs.ClassTable.Visible

/-!
# Names are for display only

The name of a type variable is carried along and never looked at. So whatever is asked of inputs
that differ at most in display names, the answers differ at most in display names, and where one is
missing or a failure, so is the other (`names_only_displayed`).
-/

namespace Unerase

/-! ## Ancestors -/

theorem KnownClass.supertypeNames_eq {c d : KnownClass} (h : c.unnamed = d.unnamed) :
    c.supertypeNames = d.supertypeNames := by
  have hnames : ∀ ts : List JType,
      ts.filterMap JType.className? = (ts.map JType.unnamed).filterMap JType.className? := by
    intro ts
    rw [List.filterMap_map]
    exact List.filterMap_congr fun t _ => t.className?_unnamed.symm
  rw [ClassHeader.supertypeNames, ClassHeader.supertypeNames, hnames, KnownClass.supertypes_eq h,
    ← hnames]

namespace ClassTable

variable {classes classes' : ClassTable} {config : Config}

theorem Same.isSome_admitted? (h : classes.Same classes') (name : String) :
    (classes.admitted? config name).isSome = (classes'.admitted? config name).isSome := by
  rw [admitted?, admitted?]
  rcases h.known name with ⟨hc, hd⟩ | ⟨c, d, hc, hd, heq⟩
  · rw [hc, hd]
  · have horigin : c.origin = d.origin := congrArg (·.origin) heq
    simp only [hc, hd, Option.filter_some, horigin]
    split <;> rfl

theorem Same.namesAbove (h : classes.Same classes') {c d : KnownClass}
    (heq : c.unnamed = d.unnamed) :
    classes.namesAbove config c = classes'.namesAbove config d := by
  rw [ClassTable.namesAbove, ClassTable.namesAbove, KnownClass.supertypeNames_eq heq]
  exact List.filter_congr fun name _ => h.isSome_admitted? name

/-- The walk over names is the very same walk. -/
theorem Same.ancestorNames (h : classes.Same classes') {c d : KnownClass}
    (heq : c.unnamed = d.unnamed) :
    classes.ancestorNames config c = classes'.ancestorNames config d := by
  have hstep : (fun name => ((classes name).map (classes.namesAbove config)).getD []) =
      fun name => ((classes' name).map (classes'.namesAbove config)).getD [] := by
    funext name
    rcases h.known name with ⟨hc, hd⟩ | ⟨c, d, hc, hd, heq⟩
    · rw [hc, hd]
      rfl
    · rw [hc, hd, Option.map_some, Option.map_some, h.namesAbove heq]
  have hname : c.name = d.name := congrArg (·.name) heq
  rw [ClassTable.ancestorNames, ClassTable.ancestorNames, hstep, h.namesAbove heq, hname]

theorem Same.ancestors (h : classes.Same classes') (config : Config) (name : String) :
    (classes.ancestors config name).map KnownClass.unnamed =
      (classes'.ancestors config name).map KnownClass.unnamed := by
  rw [ClassTable.ancestors, ClassTable.ancestors]
  rcases h.known name with ⟨hc, hd⟩ | ⟨c, d, hc, hd, heq⟩
  · rw [hc, hd]
  · rw [hc, hd]
    dsimp only
    rw [h.ancestorNames heq, List.map_filterMap, List.map_filterMap]
    exact List.filterMap_congr fun other _ => h other

/-! ## Views -/

/-- The searches over types that are the same take the same steps. -/
theorem Same.parallel (h : classes.Same classes') (target : String) :
    Parallel (fun t u : SizedType => t.type.unnamed = u.type.unnamed)
      (fun t => (classes.typesAbove config t.type).map .of) (fun t => t.type.isUseOf target)
      (fun u => (classes'.typesAbove config u.type).map .of) (fun u => u.type.isUseOf target) where
  next htu := by
    rw [List.forall₂_map_left_iff, List.forall₂_map_right_iff]
    exact h.typesAbove htu
  stop htu := by rw [JType.isUseOf, JType.isUseOf, JType.className?_eq_of_same htu]
  beq htu hxy := by rw [Bool.eq_iff_iff, SizedType.beq_iff, SizedType.beq_iff, htu, hxy]

theorem Same.typesUpTo (h : classes.Same classes') {t u : JType} (ht : t.unnamed = u.unnamed)
    (target : String) :
    (classes.typesUpTo config target t).map (fun x => x.type.unnamed) =
      (classes'.typesUpTo config target u).map fun x => x.type.unnamed := by
  rw [← List.forall₂_eq_eq_eq, List.forall₂_map_left_iff, List.forall₂_map_right_iff]
  exact (h.parallel target).forall₂_explore _ (.cons ht .nil) fun _ => rfl

theorem Same.viewAs (h : classes.Same classes') (config : Config) {t u : JType}
    (ht : t.unnamed = u.unnamed) (target : String) :
    (classes.viewAs config t target).map JType.unnamed =
      (classes'.viewAs config u target).map JType.unnamed := by
  -- what is found, without names, is the first use of the target among the types without names
  have hfind : ∀ types : List SizedType,
      ((types.find? fun x => x.type.isUseOf target).map (·.type)).map JType.unnamed =
        (types.map fun x => x.type.unnamed).find? (JType.isUseOf target) := by
    intro types
    rw [List.find?_map, Option.map_map]
    refine congrArg _ (List.find?_congr fun x _ => ?_)
    rw [Function.comp_apply, JType.isUseOf, JType.isUseOf, JType.className?_unnamed]
  rw [ClassTable.viewAs, ClassTable.viewAs, JType.className?_eq_of_same ht]
  split
  · rw [hfind, hfind, h.typesUpTo ht]
  · rfl

end ClassTable

/-! ## Visible variables -/

/-- A method declaration with all display names wiped. -/
def MethodDecl.unnamed (m : MethodDecl) : MethodDecl where
  id := m.id
  typeParams := m.typeParams.map TypeParam.unnamed
  params := m.params.map JType.unnamed
  returnType := m.returnType.unnamed
  isStatic := m.isStatic

/-- Wiping the display names of parameters leaves the identities of their variables. -/
theorem exists_mem_unnamed_iff {params : List TypeParam} {v : VarId} :
    (∃ param ∈ params.map TypeParam.unnamed, param.var.toVarId = v) ↔
      ∃ param ∈ params, param.var.toVarId = v := by
  simp only [List.mem_map, exists_exists_and_eq_and]
  rfl

theorem MethodDecl.declares_unnamed {m : MethodDecl} {v : VarId} :
    m.unnamed.Declares v ↔ m.Declares v := exists_mem_unnamed_iff

theorem KnownClass.declares_unnamed {c : KnownClass} {v : VarId} :
    c.unnamed.Declares v ↔ c.Declares v := exists_mem_unnamed_iff

namespace ClassTable

variable {classes classes' : ClassTable} {config : Config}

/-- Classes that are the same one by one declare the same variables together. -/
theorem exists_declares_congr {cs ds : List KnownClass}
    (h : cs.map KnownClass.unnamed = ds.map KnownClass.unnamed) {v : VarId} :
    (∃ c ∈ cs, c.Declares v) ↔ ∃ d ∈ ds, d.Declares v := by
  have hwiped : ∀ es : List KnownClass,
      (∃ e ∈ es.map KnownClass.unnamed, e.Declares v) ↔ ∃ e ∈ es, e.Declares v := by
    intro es
    simp only [List.mem_map, exists_exists_and_eq_and, KnownClass.declares_unnamed]
  rw [← hwiped, h, hwiped]

theorem Same.visibleVars (h : classes.Same classes') (config : Config) {m m' : MethodDecl}
    (hm : m.unnamed = m'.unnamed) :
    (classes.visibleVars config m).same (classes'.visibleVars config m') = true := by
  have hid : m.id = m'.id := congrArg (·.id) hm
  rw [VarSet.same_iff]
  intro v
  have hown : (∃ c, classes m'.id.className = some c ∧ c.Declares v) ↔
      ∃ d, classes' m'.id.className = some d ∧ d.Declares v := by
    rcases h.known m'.id.className with ⟨hc, hd⟩ | ⟨c, d, hc, hd, heq⟩
    · simp [hc, hd]
    · rw [hc, hd]
      simp only [Option.some.injEq, exists_eq_left']
      rw [← KnownClass.declares_unnamed, heq, KnownClass.declares_unnamed]
  rw [Bool.eq_iff_iff, contains_visibleVars_iff, contains_visibleVars_iff, hid, hown,
    exists_declares_congr (h.ancestors config m'.id.className), ← MethodDecl.declares_unnamed, hm,
    MethodDecl.declares_unnamed]

end ClassTable

/-! ## Calls -/

namespace Arguments

/-- Arguments are the same when they are as many, with as many of them skipped, and of types that
are the same. -/
structure Same (args args' : Arguments) : Prop where
  skipped : args.skipped = args'.skipped
  count : args.count = args'.count
  type? : ∀ index, (args.type? index).map JType.unnamed = (args'.type? index).map JType.unnamed

variable {args args' : Arguments} {target target' : JType}

theorem Same.passedFrom (h : args.Same args') (htarget : target.unnamed = target'.unnamed)
    {params params' : List JType} (hparams : params.map JType.unnamed = params'.map JType.unnamed)
    (index : Nat) :
    (args.passedFrom target index params).map (Option.map JType.unnamed) =
      (args'.passedFrom target' index params').map (Option.map JType.unnamed) := by
  rw [← JType.forall₂_unnamed_iff] at hparams
  induction hparams generalizing index with
  | nil => rfl
  | @cons param param' rest rest' hparam _ ih =>
    have hsame : param.same target = param'.same target' := by
      rw [Bool.eq_iff_iff, JType.same_iff, JType.same_iff, hparam, htarget]
    have harg := h.type? index
    rw [Arguments.passedFrom, Arguments.passedFrom, hsame]
    cases ht : args.type? index with
    | none =>
      rw [ht, Option.map_none, eq_comm, Option.map_eq_none_iff] at harg
      rw [harg, h.count]
    | some arg =>
      rw [ht, Option.map_some, eq_comm, Option.map_eq_some_iff] at harg
      obtain ⟨arg', harg', heq⟩ := harg
      rw [harg']
      dsimp only
      split
      · rw [Except.map, Except.map, Option.map_some, Option.map_some, heq]
      · exact ih (index + 1)

theorem Same.passedFor (h : args.Same args') (htarget : target.unnamed = target'.unnamed)
    {params params' : List JType}
    (hparams : params.map JType.unnamed = params'.map JType.unnamed) :
    (args.passedFor params target).map (Option.map JType.unnamed) =
      (args'.passedFor params' target').map (Option.map JType.unnamed) := by
  rw [Arguments.passedFor, Arguments.passedFor, h.skipped]
  exact h.passedFrom htarget hparams args'.skipped

end Arguments

/-! ## All answers -/

namespace ClassTable

variable {classes classes' : ClassTable} {config : Config}

theorem Same.readFor (h : classes.Same classes') {i j t u : JType} (hi : i.unnamed = j.unnamed)
    (ht : t.unnamed = u.unnamed) (limit : Nat) :
    (classes.readFor i t limit).unnamed = (classes'.readFor j u limit).unnamed := by
  have hbindings := h.bindings hi
  simp only [ClassTable.readFor, hbindings.isEmpty_eq]
  split
  · rfl
  · exact JType.subst_same hbindings ht limit

/-- Inputs that differ at most in the names of type variables get answers that differ at most in the
names of type variables: substitutions have the same outcome and calls the same failures, and there
are as many ancestors, and a view where there is one for the other inputs. -/
theorem names_only_displayed (classes classes' : ClassTable) (h : classes.Same classes')
    (config : Config) :
    (∀ (t u : JType) (b b' : Bindings) (limit : Nat), t.unnamed = u.unnamed → b.Same b' →
      (t.subst b limit).unnamed = (u.subst b' limit).unnamed) ∧
    (∀ t u : JType, t.unnamed = u.unnamed → (classes.bindings t).Same (classes'.bindings u)) ∧
    (∀ (i j t u : JType) (limit : Nat), i.unnamed = j.unnamed → t.unnamed = u.unnamed →
      (classes.readFor i t limit).unnamed = (classes'.readFor j u limit).unnamed) ∧
    (∀ name, (classes.ancestors config name).map KnownClass.unnamed =
      (classes'.ancestors config name).map KnownClass.unnamed) ∧
    (∀ (t u : JType) (target : String), t.unnamed = u.unnamed →
      (classes.viewAs config t target).map JType.unnamed =
        (classes'.viewAs config u target).map JType.unnamed) ∧
    (∀ m m' : MethodDecl, m.unnamed = m'.unnamed →
      (classes.visibleVars config m).same (classes'.visibleVars config m') = true) ∧
    ∀ (args args' : Arguments) (params params' : List JType) (t u : JType), args.Same args' →
      params.map JType.unnamed = params'.map JType.unnamed → t.unnamed = u.unnamed →
      (args.passedFor params t).map (Option.map JType.unnamed) =
        (args'.passedFor params' u).map (Option.map JType.unnamed) :=
  ⟨fun _ _ _ _ limit ht hb => JType.subst_same hb ht limit, fun _ _ => h.bindings,
    fun _ _ _ _ limit hi ht => h.readFor hi ht limit, h.ancestors config,
    fun _ _ target ht => h.viewAs config ht target, fun _ _ => h.visibleVars config,
    fun _ _ _ _ _ _ hargs hparams ht => hargs.passedFor ht hparams⟩

/-- A class of two parameters, displayed under the given names, that extends a pair of them in the
other order. -/
def swapOf (first second : String) : KnownClass where
  name := "Swap"
  isInterface := false
  typeParams := TypeParam.declare (.ofClass "Swap") [first, second]
  superClass := some (.cls "Pair"
    [.var ⟨⟨.ofClass "Swap", 1⟩, second⟩, .var ⟨⟨.ofClass "Swap", 0⟩, first⟩])
  interfaces := []
  origin := .program

/-- The class that it extends. -/
def pairOf (first second : String) : KnownClass where
  name := "Pair"
  isInterface := false
  typeParams := TypeParam.declare (.ofClass "Pair") [first, second]
  superClass := some .object
  interfaces := []
  origin := .classpath

/-- The table of the two. -/
def swaps (first second : String) : ClassTable := fun name =>
  if name = "Swap" then some (swapOf first second)
  else if name = "Pair" then some (pairOf first second)
  else none

/-- A variable of a method `main`. -/
def mainVar (index : UInt32) (name : String) : JType :=
  .var ⟨⟨.ofMethod ⟨"Main", "main", "()V"⟩, index⟩, name⟩

/-- In the second table and in what is asked of it the two names have changed places. -/
theorem names_only_displayed_swaps :
    swaps "A" "B" "Swap" ≠ swaps "B" "A" "Swap" ∧
    (swaps "A" "B").viewAs {} (.cls "Swap" [mainVar 0 "A", mainVar 1 "B"]) "Pair" =
      some (.cls "Pair" [mainVar 1 "B", mainVar 0 "A"]) ∧
    ((swaps "A" "B").viewAs {} (.cls "Swap" [mainVar 0 "A", mainVar 1 "B"]) "Pair").map
        JType.unnamed =
      ((swaps "B" "A").viewAs {} (.cls "Swap" [mainVar 0 "B", mainVar 1 "A"]) "Pair").map
        JType.unnamed ∧
    ((swaps "A" "B").ancestors {} "Swap").map KnownClass.unnamed =
      ((swaps "B" "A").ancestors {} "Swap").map KnownClass.unnamed ∧
    ((Call.mk .static [.object, mainVar 0 "A"]).arguments.passedFor
        [mainVar 0 "A", mainVar 1 "B"] (mainVar 1 "B")).map (Option.map JType.unnamed) =
      ((Call.mk .static [.object, mainVar 0 "B"]).arguments.passedFor
        [mainVar 0 "B", mainVar 1 "A"] (mainVar 1 "A")).map (Option.map JType.unnamed) := by
  have hsame : (swaps "A" "B").Same (swaps "B" "A") := by
    intro name
    by_cases hswap : name = "Swap"
    · subst hswap
      rfl
    · by_cases hpair : name = "Pair"
      · subst hpair
        rfl
      · simp only [swaps, hswap, hpair, if_false]
  have hargs : (Call.mk .static [.object, mainVar 0 "A"]).arguments.Same
      (Call.mk .static [.object, mainVar 0 "B"]).arguments :=
    ⟨rfl, rfl, fun
      | 0 => rfl
      | 1 => rfl
      | _ + 2 => rfl⟩
  obtain ⟨-, -, -, hancestors, hview, -, hpassed⟩ := names_only_displayed _ _ hsame {}
  exact ⟨by decide, by decide, hview _ _ "Pair" rfl, hancestors "Swap",
    hpassed _ _ _ _ _ _ hargs rfl rfl⟩

end ClassTable

end Unerase
