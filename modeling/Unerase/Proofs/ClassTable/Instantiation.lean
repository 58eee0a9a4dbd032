import Unerase.Proofs.ClassTable.Closed
import Unerase.Proofs.ClassTable.View

/-!
# Views of instances

Filling the variables of a class type fills those of the types above it, step by step and in the
same order. Types that were different may become the same on the way, so the search from the
filled type may skip what the other search took. It still finds the same use of the target,
because a search finds what is first in level order whatever it skips. So a view of an instance of
a class is worked out by viewing the class itself and then putting the arguments in.
-/

namespace Unerase

/-! ## Filling and class names -/

namespace JType

theorem className?_fillAt {f : Nat → TypeVar → JType} {t : JType} (h : t.className?.isSome)
    (depth : Nat) : (t.fillAt f depth).className? = t.className? := by
  cases t with
  | cls name args => rw [fillAt_cls, className?, className?]
  | _ => cases h

theorem className?_fill {f : TypeVar → JType} {t : JType} (h : t.className?.isSome) :
    (t.fill f).className? = t.className? := className?_fillAt h 0

theorem isUseOf_fill {f : TypeVar → JType} {t : JType} (h : t.className?.isSome) (target : String) :
    (t.fill f).isUseOf target = t.isUseOf target := by
  rw [isUseOf, className?_fill h, isUseOf]

theorem className?_erasure {t : JType} (h : t.className?.isSome) :
    t.erasure.className? = t.className? := by
  cases t with
  | cls name args => rfl
  | _ => cases h

theorem fill_erasure (f : TypeVar → JType) (t : JType) : t.erasure.fill f = t.erasure := by
  refine fillAt_eq_self fun o ho => ?_
  rw [occurrencesAt_eq_nil_iff.2 (vars_erasure t)] at ho
  cases ho

end JType

namespace Bindings

/-- Putting types in for unnamed variables comes to the same. -/
theorem unnamed_fill_unnamed (b : Bindings) (t : JType) :
    (t.unnamed.fill b.typeOf).unnamed = (t.fill b.typeOf).unnamed := by
  rw [JType.unnamed_eq_fill t, JType.fill_fill, JType.unnamed_fill, JType.unnamed_fill]
  exact JType.fillAt_congr fun o _ =>
    (Same.refl b).unnamed_typeOf (v := o.var.unnamed) (w := o.var) rfl

end Bindings

namespace ClassTable

variable {classes : ClassTable} {config : Config} {target : String}

theorem className?_supertypeFor {s : JType} (h : s.className?.isSome) (raw : Bool) (b : Bindings) :
    (supertypeFor config raw b s).className? = s.className? := by
  rw [supertypeFor_eq]
  split
  · exact JType.className?_erasure h
  · exact JType.className?_fillAt h 0

/-- Filling the arguments keeps a use of a class raw or not raw. -/
theorem isRawUse_map (c : KnownClass) (name : String) (args : List JType) (f : JType → JType) :
    classes.isRawUse c (.cls name (args.map f)) = classes.isRawUse c (.cls name args) := by
  rw [Bool.eq_iff_iff, isRawUse_iff, isRawUse_iff, bindings, bindings, isEmpty_bindAll_iff,
    isEmpty_bindAll_iff, List.length_map]

section Closed

variable (hclosed : classes.ClosedTo config.maxSubstitutionDepth)
  (hclass : ∀ name c, classes name = some c → ∀ s ∈ c.supertypes, s.className?.isSome)

include hclass

/-- Where every supertype is a class type, the search leaves none out. -/
theorem typesAbove_eq_map {name : String} {args : List JType} {c : KnownClass}
    (hc : classes name = some c) :
    classes.typesAbove config (.cls name args) =
      c.supertypes.map (supertypeFor config (classes.isRawUse c (.cls name args))
        (classes.bindings (.cls name args))) := by
  have hbind : (JType.cls name args).className?.bind classes = some c := hc
  rw [typesAbove_of_known hbind]
  refine List.filter_eq_self.2 fun u hu => ?_
  obtain ⟨s, hs, rfl⟩ := List.mem_map.1 hu
  rw [className?_supertypeFor (hclass name c hc s hs)]
  exact hclass name c hc s hs

include hclosed

/-- What is above a filled type is what is above the type, filled. -/
theorem typesAbove_fill (f : TypeVar → JType) {t : JType} (ht : t.className?.isSome) :
    classes.typesAbove config (t.fill f) = (classes.typesAbove config t).map (JType.fill f) := by
  cases t with
  | cls name args =>
    rw [JType.fill_cls]
    cases hc : classes name with
    | none =>
      have hbind : ∀ args, (JType.cls name args).className?.bind classes = none := fun _ => hc
      rw [typesAbove_of_unknown (hbind _), typesAbove_of_unknown (hbind _), List.map_nil]
    | some c =>
      rw [typesAbove_eq_map hclass hc, typesAbove_eq_map hclass hc, isRawUse_map, List.map_map]
      refine List.map_congr_left fun s hs => ?_
      rw [Function.comp_apply, supertypeFor_eq, supertypeFor_eq]
      split
      · exact (JType.fill_erasure f s).symm
      · rename_i hraw
        rw [JType.fill_fillAt]
        refine JType.fillAt_congr fun o ho => ?_
        -- the variable is a parameter of the class, and bound in both uses of it
        obtain ⟨hdepth, hdecl⟩ := hclosed name c hc s hs o ho
        have hbound := isSome_get?_bindings hc (Bool.eq_false_iff.2 hraw) hdecl
        obtain ⟨arg, harg⟩ := Option.isSome_iff_exists.1 hbound
        have harg' : (classes.bindings (.cls name (args.map (JType.fill f)))).get? o.var.toVarId =
            some (arg.fill f) := by
          rw [bindings, get?_bindAll_map]
          exact congrArg (Option.map _) harg
        rw [Bindings.upTo_of_le hdepth, Bindings.upTo_of_le hdepth, Bindings.typeOf, harg',
          Bindings.typeOf, harg]
        rfl
  | _ => cases ht

/-- The types reached from a filled type are those reached from the type, filled. -/
theorem reachable_fill (f : TypeVar → JType) {t : JType} (ht : t.className?.isSome) :
    classes.reachable config (t.fill f) = JType.fill f '' classes.reachable config t := by
  have hmap : ∀ n, atDistance (classes.typesAbove config) n ([t].map (JType.fill f)) =
      (atDistance (classes.typesAbove config) n [t]).map (JType.fill f) :=
    atDistance_map (P := fun u : JType => u.className?.isSome)
      (fun _ _ _ hw => (mem_typesAbove_iff.1 hw).2)
      (fun u hu => typesAbove_fill hclosed hclass f hu) (by simpa using ht)
  ext w
  rw [mem_reachable_iff (by rwa [JType.className?_fill ht])]
  constructor
  · intro h
    obtain ⟨n, hw⟩ := h
    obtain ⟨u, hu, rfl⟩ := List.mem_map.1 (hmap n ▸ hw)
    exact ⟨u, (mem_reachable_iff ht).2 ⟨n, hu⟩, rfl⟩
  · intro h
    obtain ⟨u, hu, rfl⟩ := h
    obtain ⟨n, hn⟩ := (mem_reachable_iff ht).1 hu
    exact ⟨n, hmap n ▸ List.mem_map_of_mem hn⟩

/-- Putting types in can only make reached types the same. -/
theorem reachCount_fill_le (b : Bindings) {t : JType} (ht : t.className?.isSome) :
    classes.reachCount config (t.fill b.typeOf) ≤ classes.reachCount config t := by
  -- filling acts on types without display names, so it maps what is counted onto what is counted
  have himage : JType.unnamed '' classes.reachable config (t.fill b.typeOf) =
      (fun u : JType => (u.fill b.typeOf).unnamed) ''
        (JType.unnamed '' classes.reachable config t) := by
    rw [reachable_fill hclosed hclass b.typeOf ht, Set.image_image, Set.image_image]
    exact Set.image_congr fun u _ => (b.unnamed_fill_unnamed u).symm
  rw [reachCount, himage]
  exact Set.encard_image_le _ _

/-- With room for all types above a type, the view of a filled type is the view of the type,
filled. -/
theorem viewAs_fill (b : Bindings) {t : JType} (ht : t.className?.isSome)
    (hcount : classes.reachCount config t ≤ config.maxAncestors) :
    classes.viewAs config (t.fill b.typeOf) target =
      (classes.viewAs config t target).map (JType.fill b.typeOf) := by
  have hkeep : ∀ u : JType, u.className?.isSome → ∀ w ∈ classes.typesAbove config u,
      w.className?.isSome := fun u _ w hw => (mem_typesAbove_iff.1 hw).2
  have hstart : ∀ u ∈ [t], u.className?.isSome := by simpa using ht
  have hnext : ∀ u : JType, u.className?.isSome → classes.typesAbove config (u.fill b.typeOf) =
      (classes.typesAbove config u).map (JType.fill b.typeOf) := fun u hu =>
    typesAbove_fill hclosed hclass b.typeOf hu
  have hstop : ∀ u : JType, u.className?.isSome →
      (u.fill b.typeOf).isUseOf target = u.isUseOf target := fun u hu => JType.isUseOf_fill hu target
  cases hview : classes.viewAs config t target with
  | some v =>
    have hfirst := (viewAs_eq_some_iff ht hcount).1 hview
    have hle := reachCount_fill_le hclosed hclass b ht
    have ht' : (t.fill b.typeOf).className?.isSome := by rwa [JType.className?_fill ht]
    exact (viewAs_eq_some_iff ht' (hle.trans hcount)).2 (hfirst.map hkeep hnext hstop hstart)
  | none =>
    rcases noStop_of_viewAs ht hview with hno | hlt
    · have hno' := hno.map hkeep hnext hstop hstart
      cases hview' : classes.viewAs config (t.fill b.typeOf) target with
      | none => rfl
      | some w => exact absurd hno' (firstStop_of_viewAs hview').not_noStop
    · exact absurd hcount (not_le_of_gt hlt)

end Closed

/-- Putting the arguments of an instance into a type fills its variables, if it is not nested too
deep. -/
theorem getD_readFor (classes : ClassTable) (t : JType) {u : JType} {limit : Nat}
    (h : u.depth ≤ limit) :
    (classes.readFor t u limit).getD u = u.fill (classes.bindings t).typeOf := by
  cases hempty : (classes.bindings t).isEmpty with
  | true =>
    have hnone : classes.readFor t u limit = .noBindings := by simp [readFor, hempty]
    rw [hnone]
    refine (JType.fillAt_eq_self fun o _ => ?_).symm
    rw [Bindings.typeOf, Bindings.isEmpty_iff.1 hempty]
    rfl
  | false =>
    have hsubst : classes.readFor t u limit = u.subst (classes.bindings t) limit := by
      simp [readFor, hempty]
    rw [hsubst, JType.getD_subst_of_depth_le h]

/-- Putting the arguments of an instance into the class itself gives the instance. -/
theorem selfType_fill {c : KnownClass} (hc : classes c.name = some c)
    (hnodup : (c.typeParams.map (·.var.toVarId)).Nodup) {args : List JType}
    (hargs : args.length = c.typeParams.length) :
    c.selfType.fill (classes.bindings (.cls c.name args)).typeOf = .cls c.name args := by
  have hparams : classes.paramsOf c.name = c.typeParams := by simp [paramsOf, hc]
  have hmap := map_typeOf_bindAll hargs.symm hnodup
  rw [ClassHeader.selfType, JType.fill_cls, List.map_map, bindings, hparams]
  exact congrArg (JType.cls c.name) hmap

/-- Viewing commutes with instantiation: an instance of a class is viewed by viewing the class
itself and putting the arguments into its view. -/
theorem viewAs_instance (classes : ClassTable) (config : Config)
    (hsup : ∀ name d, classes name = some d → ∀ s ∈ d.supertypes,
      s.className?.isSome ∧ (∀ v ∈ s.vars, d.Declares v.toVarId) ∧
        s.depth ≤ config.maxSubstitutionDepth)
    (c : KnownClass) (hc : classes c.name = some c)
    (hnodup : (c.typeParams.map (·.var.toVarId)).Nodup)
    (args : List JType) (hargs : args.length = c.typeParams.length)
    (hcount : classes.reachCount config c.selfType ≤ config.maxAncestors) (target : String)
    (hdepth : ∀ v, classes.viewAs config c.selfType target = some v →
      v.depth ≤ config.maxSubstitutionDepth) :
    classes.viewAs config (.cls c.name args) target =
      (classes.viewAs config c.selfType target).map fun v =>
        (classes.readFor (.cls c.name args) v config.maxSubstitutionDepth).getD v := by
  have hclosed : classes.ClosedTo config.maxSubstitutionDepth := fun name d hd =>
    ClassHeader.closedTo_of_depth_le fun s hs => (hsup name d hd s hs).2
  have hclass : ∀ name d, classes name = some d → ∀ s ∈ d.supertypes, s.className?.isSome :=
    fun name d hd s hs => (hsup name d hd s hs).1
  have hfill : classes.viewAs config (c.selfType.fill (classes.bindings _).typeOf) target = _ :=
    viewAs_fill hclosed hclass (classes.bindings (.cls c.name args)) rfl hcount
  rw [selfType_fill hc hnodup hargs] at hfill
  rw [hfill]
  refine Option.map_congr fun v hv => ?_
  exact (getD_readFor classes (.cls c.name args) (hdepth v hv)).symm

/-- A class of one parameter that extends another with a list of it. -/
def shelf : KnownClass where
  name := "Shelf"
  isInterface := false
  typeParams := TypeParam.declare (.ofClass "Shelf") ["T"]
  superClass := some (.cls "Box" [.cls "java.util.List" [.var ⟨⟨.ofClass "Shelf", 0⟩, "T"⟩]])
  interfaces := []
  origin := .program

/-- The class that a shelf extends. -/
def box : KnownClass where
  name := "Box"
  isInterface := false
  typeParams := TypeParam.declare (.ofClass "Box") ["T"]
  superClass := some .object
  interfaces := []
  origin := .classpath

/-- The table of the two. -/
def shelves : ClassTable := fun name =>
  if name = "Shelf" then some shelf else if name = "Box" then some box else none

/-- A shelf of strings is a box of a list of them, as a shelf is one of a list of its parameter. -/
theorem viewAs_instance_shelf :
    shelves.viewAs {} shelf.selfType "Box" =
      some (.cls "Box" [.cls "java.util.List" [.var ⟨⟨.ofClass "Shelf", 0⟩, "T"⟩]]) ∧
    shelves.viewAs {} (.cls "Shelf" [.cls "java.lang.String" []]) "Box" =
      ((shelves.viewAs {} shelf.selfType "Box").map fun v =>
        (shelves.readFor (.cls "Shelf" [.cls "java.lang.String" []]) v 256).getD v) ∧
    shelves.viewAs {} (.cls "Shelf" [.cls "java.lang.String" []]) "Box" =
      some (.cls "Box" [.cls "java.util.List" [.cls "java.lang.String" []]]) := by
  have hsup : ∀ name d, shelves name = some d → ∀ s ∈ d.supertypes,
      s.className?.isSome ∧ (∀ v ∈ s.vars, d.Declares v.toVarId) ∧ s.depth ≤ 256 := by
    intro name d hd
    unfold shelves at hd
    split at hd
    · cases hd
      decide
    · split at hd
      · cases hd
        decide
      · cases hd
  have hcount : shelves.reachCount {} shelf.selfType ≤ (4096 : Nat) :=
    (reachCount_le_length [shelf.selfType,
      .cls "Box" [.cls "java.util.List" [.var ⟨⟨.ofClass "Shelf", 0⟩, "T"⟩]], .object]
      rfl (by decide) (by decide)).trans (Nat.cast_le.2 (by decide))
  have hview : shelves.viewAs {} shelf.selfType "Box" =
      some (.cls "Box" [.cls "java.util.List" [.var ⟨⟨.ofClass "Shelf", 0⟩, "T"⟩]]) := by decide
  have hcommutes := viewAs_instance shelves {} hsup shelf rfl (by decide)
    [.cls "java.lang.String" []] rfl hcount "Box" fun v hv => by
      rw [hview] at hv
      cases hv
      decide
  refine ⟨hview, hcommutes, hcommutes.trans ?_⟩
  rw [hview]
  decide

end ClassTable

end Unerase
