import Unerase.Proofs.ClassTable.Supertypes
import Unerase.Proofs.JType.Names

/-!
# Class tables and display names

Tables that differ at most in display names bind the same variables and read a declared supertype
the same for uses that are the same. So the types above two such uses are the same, one by one
(`Same.typesAbove`).
-/

namespace Unerase

/-! ## Wiping the names of declarations -/

/-- A parameter with the display names of its variable and of its bounds wiped. -/
def TypeParam.unnamed (param : TypeParam) : TypeParam where
  var := param.var.unnamed
  bounds := param.bounds.map JType.unnamed

/-- A class header with all display names wiped. -/
def ClassHeader.unnamed (c : ClassHeader) : ClassHeader where
  name := c.name
  isInterface := c.isInterface
  typeParams := c.typeParams.map TypeParam.unnamed
  superClass := c.superClass.map JType.unnamed
  interfaces := c.interfaces.map JType.unnamed

/-- A known class with all display names wiped. -/
def KnownClass.unnamed (c : KnownClass) : KnownClass where
  toClassHeader := c.toClassHeader.unnamed
  origin := c.origin

theorem ClassHeader.supertypes_unnamed (c : ClassHeader) :
    c.unnamed.supertypes = c.supertypes.map JType.unnamed := by
  rw [supertypes, supertypes, List.map_append, unnamed]
  cases c.superClass <;> rfl

theorem KnownClass.supertypes_eq {c d : KnownClass} (h : c.unnamed = d.unnamed) :
    c.supertypes.map JType.unnamed = d.supertypes.map JType.unnamed := by
  have hheader : c.toClassHeader.unnamed = d.toClassHeader.unnamed := congrArg (·.toClassHeader) h
  rw [← ClassHeader.supertypes_unnamed, hheader, ClassHeader.supertypes_unnamed]

namespace ClassTable

/-- Tables are the same when what they know differs at most in display names. -/
def Same (classes classes' : ClassTable) : Prop :=
  ∀ name, (classes name).map KnownClass.unnamed = (classes' name).map KnownClass.unnamed

variable {classes classes' : ClassTable} {config : Config} {name : String} {t u : JType}

theorem Same.refl (classes : ClassTable) : classes.Same classes := fun _ => rfl

/-- A name is either unknown to both tables or known to both. -/
theorem Same.known (h : classes.Same classes') (name : String) :
    (classes name = none ∧ classes' name = none) ∨
      ∃ c d, classes name = some c ∧ classes' name = some d ∧ c.unnamed = d.unnamed := by
  have hname := h name
  revert hname
  cases classes name <;> cases classes' name <;> simp

theorem Same.paramsOf (h : classes.Same classes') (name : String) :
    (classes.paramsOf name).map TypeParam.unnamed =
      (classes'.paramsOf name).map TypeParam.unnamed := by
  rw [ClassTable.paramsOf, ClassTable.paramsOf]
  rcases h.known name with ⟨hc, hd⟩ | ⟨c, d, hc, hd, heq⟩
  · rw [hc, hd]
  · rw [hc, hd]
    exact congrArg (·.typeParams) heq

/-! ## What is bound -/

/-- Parameters are bound by the identity of their variables. -/
theorem get?_bindAll_unnamed (params : List TypeParam) (args : List JType) (v : VarId) :
    (bindAll (params.map TypeParam.unnamed) args).get? v = (bindAll params args).get? v := by
  by_cases hlen : params.length = args.length
  · rw [get?_bindAll hlen, get?_bindAll (by simpa using hlen), List.zip_map_left,
      ← List.map_reverse, List.find?_map, Option.map_map]
    rfl
  · rw [get?_bindAll_of_ne hlen, get?_bindAll_of_ne (by simpa using hlen)]

theorem get?_bindings_cls (args : List JType) (v : VarId) :
    ((classes.bindings (.cls name args)).get? v).map JType.unnamed =
      (bindAll ((classes.paramsOf name).map TypeParam.unnamed)
        (args.map JType.unnamed)).get? v := by
  rw [get?_bindAll_unnamed, get?_bindAll_map, bindings]

/-- Types that are the same bind the same variables to types that are the same. -/
theorem Same.bindings (h : classes.Same classes') (ht : t.unnamed = u.unnamed) :
    (classes.bindings t).Same (classes'.bindings u) := by
  intro v
  cases t with
  | cls name args =>
    cases u with
    | cls name' args' =>
      simp only [JType.unnamed_cls, JType.cls.injEq] at ht
      obtain ⟨rfl, hargs⟩ := ht
      rw [get?_bindings_cls, get?_bindings_cls, h.paramsOf, hargs]
    | _ => simp [JType.unnamed] at ht
  | _ =>
    cases u with
    | cls name' args' => simp [JType.unnamed] at ht
    | _ => rfl

/-! ## Types above a type -/

theorem Same.isRawUse (h : classes.Same classes') {c d : KnownClass} (hc : c.unnamed = d.unnamed)
    (ht : t.unnamed = u.unnamed) : classes.isRawUse c t = classes'.isRawUse d u := by
  have hparams : c.typeParams.map TypeParam.unnamed = d.typeParams.map TypeParam.unnamed :=
    congrArg (·.typeParams) hc
  have hempty : c.typeParams.isEmpty = d.typeParams.isEmpty := by
    rw [← List.isEmpty_map, hparams, List.isEmpty_map]
  rw [ClassTable.isRawUse, ClassTable.isRawUse, hempty, (h.bindings ht).isEmpty_eq]

/-- A declared supertype reads the same with bindings that are the same. -/
theorem supertypeFor_same {b b' : Bindings} (hb : b.Same b') {s s' : JType}
    (hs : s.unnamed = s'.unnamed) (raw : Bool) :
    (supertypeFor config raw b s).unnamed = (supertypeFor config raw b' s').unnamed := by
  rw [supertypeFor_eq, supertypeFor_eq]
  split
  · rw [← JType.erasure_unnamed, hs, JType.erasure_unnamed]
  · exact JType.fillAt_same hb hs config.maxSubstitutionDepth

/-- Types that are the same have the same types above them, one by one. -/
theorem Same.typesAbove (h : classes.Same classes') (ht : t.unnamed = u.unnamed) :
    List.Forall₂ (fun x y => x.unnamed = y.unnamed) (classes.typesAbove config t)
      (classes'.typesAbove config u) := by
  have hname := JType.className?_eq_of_same ht
  cases hn : u.className? with
  | none =>
    have hbind : u.className?.bind classes' = none := by rw [hn, Option.bind_none]
    have hbind' : t.className?.bind classes = none := by rw [hname, hn, Option.bind_none]
    rw [typesAbove_of_unknown hbind, typesAbove_of_unknown hbind']
    exact .nil
  | some name =>
    rcases h.known name with ⟨hc, hd⟩ | ⟨c, d, hc, hd, heq⟩
    · have hbind : u.className?.bind classes' = none := by rw [hn, Option.bind_some, hd]
      have hbind' : t.className?.bind classes = none := by rw [hname, hn, Option.bind_some, hc]
      rw [typesAbove_of_unknown hbind, typesAbove_of_unknown hbind']
      exact .nil
    · have hbind : u.className?.bind classes' = some d := by rw [hn, Option.bind_some, hd]
      have hbind' : t.className?.bind classes = some c := by rw [hname, hn, Option.bind_some, hc]
      rw [typesAbove_of_known hbind, typesAbove_of_known hbind', h.isRawUse heq ht]
      have hsup := JType.forall₂_unnamed_iff.2 (KnownClass.supertypes_eq heq)
      -- whether a supertype reads as a class type does not depend on display names
      have hclass : ∀ ⦃x y : JType⦄, x.unnamed = y.unnamed →
          (x.className?.isSome ↔ y.className?.isSome) := fun x y hxy => by
        rw [JType.className?_eq_of_same hxy]
      refine List.rel_filter hclass ?_
      rw [List.forall₂_map_left_iff, List.forall₂_map_right_iff]
      exact hsup.imp fun s s' hs => supertypeFor_same (h.bindings ht) hs _

end ClassTable

end Unerase
