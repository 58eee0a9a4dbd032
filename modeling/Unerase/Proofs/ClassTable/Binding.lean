import Mathlib.Data.List.Induction
import Mathlib.Data.List.Nodup
import Unerase.ClassTable.Binding
import Unerase.Proofs.JType.Same
import Unerase.Proofs.JType.Substitution

/-!
# Bindings of parameters to arguments

Binding is all or nothing: with as many arguments as parameters every parameter is bound to an
argument, and with another number nothing is bound. If a variable is declared twice, its last
argument counts; what is bound to it is some argument in any case.
-/

namespace Unerase

namespace Bindings

/-- Of several bindings of one variable the last counts. -/
theorem get?_ofList (pairs : List (TypeVar × JType)) (w : VarId) :
    (ofList pairs).get? w = (pairs.reverse.find? fun pair => pair.1.toVarId == w).map (·.2) := by
  induction pairs using List.reverseRecOn with
  | nil => rfl
  | append_singleton pairs pair ih =>
    have hstep : ofList (pairs ++ [pair]) = (ofList pairs).insert pair.1 pair.2 := by
      simp [ofList, List.foldl_append]
    rw [hstep, get?_insert, ih, List.reverse_append]
    by_cases h : w = pair.1.toVarId
    · subst h
      simp
    · have hne : (pair.1.toVarId == w) = false := by simpa using Ne.symm h
      simp [h, hne]

/-- A variable that is bound once stands for the type it is bound to. -/
theorem get?_ofList_of_mem {pairs : List (TypeVar × JType)}
    (hnodup : (pairs.map fun pair => pair.1.toVarId).Nodup) {pair : TypeVar × JType}
    (h : pair ∈ pairs) : (ofList pairs).get? pair.1.toVarId = some pair.2 := by
  rw [get?_ofList]
  cases hfind : pairs.reverse.find? fun other => other.1.toVarId == pair.1.toVarId with
  | none =>
    have := List.find?_eq_none.1 hfind pair (List.mem_reverse.2 h)
    simp at this
  | some other =>
    have hkey : other.1.toVarId = pair.1.toVarId := by simpa using List.find?_some hfind
    have hmem : other ∈ pairs := List.mem_reverse.1 (List.mem_of_find?_eq_some hfind)
    rw [List.inj_on_of_nodup_map hnodup hmem h hkey]
    rfl

end Bindings

namespace ClassTable

variable {params : List TypeParam} {args : List JType}

/-- If the arguments fit, each of the parameters is bound to the argument at its position. -/
theorem bindAll_eq_ofList (h : params.length = args.length) :
    bindAll params args =
      .ofList ((params.zip args).map fun pair => (pair.1.var, pair.2)) := by
  rw [bindAll, if_pos h, List.zip, List.map_zipWith]

theorem get?_bindAll (h : params.length = args.length) (w : VarId) :
    (bindAll params args).get? w =
      ((params.zip args).reverse.find? fun pair => pair.1.var.toVarId == w).map (·.2) := by
  rw [bindAll_eq_ofList h, Bindings.get?_ofList, ← List.map_reverse, List.find?_map,
    Option.map_map]
  rfl

theorem get?_bindAll_of_ne (h : params.length ≠ args.length) (w : VarId) :
    (bindAll params args).get? w = none := by
  rw [bindAll, if_neg h]
  rfl

/-- Whatever is bound is an argument. -/
theorem mem_args_of_get?_bindAll {w : VarId} {t : JType}
    (h : (bindAll params args).get? w = some t) : t ∈ args := by
  by_cases hlen : params.length = args.length
  · rw [get?_bindAll hlen] at h
    obtain ⟨pair, hfind, rfl⟩ := Option.map_eq_some_iff.1 h
    have hmem := List.mem_reverse.1 (List.mem_of_find?_eq_some hfind)
    exact (List.of_mem_zip hmem).2
  · rw [get?_bindAll_of_ne hlen] at h
    cases h

/-- If the arguments fit, every parameter is bound. -/
theorem isSome_get?_bindAll (hlen : params.length = args.length) {param : TypeParam}
    (h : param ∈ params) : ((bindAll params args).get? param.var.toVarId).isSome := by
  obtain ⟨i, hi, rfl⟩ := List.getElem_of_mem h
  have hmem : (params[i], args[i]) ∈ (params.zip args).reverse :=
    List.mem_reverse.2 (List.mem_iff_getElem.2 ⟨i, by simp; omega, by simp⟩)
  rw [get?_bindAll hlen, Option.isSome_map, List.find?_isSome]
  exact ⟨_, hmem, by simp⟩

/-- Binding nothing means that there are no parameters or that the arguments do not fit. -/
theorem isEmpty_bindAll_iff :
    (bindAll params args).isEmpty = true ↔ params = [] ∨ params.length ≠ args.length := by
  rw [Bindings.isEmpty_iff]
  constructor
  · intro h
    by_contra hne
    obtain ⟨hparams, hlen⟩ := not_or.1 hne
    obtain ⟨param, hparam⟩ := List.exists_mem_of_ne_nil params hparams
    have := isSome_get?_bindAll (Decidable.not_not.1 hlen) hparam
    rw [h] at this
    cases this
  · intro h w
    by_cases hlen : params.length = args.length
    · obtain rfl := h.resolve_right (not_not_intro hlen)
      rw [get?_bindAll hlen]
      rfl
    · exact get?_bindAll_of_ne hlen w

/-- Changing the arguments changes what is bound, and not which parameters are. -/
theorem get?_bindAll_map (f : JType → JType) (w : VarId) :
    (bindAll params (args.map f)).get? w = ((bindAll params args).get? w).map f := by
  by_cases hlen : params.length = args.length
  · rw [get?_bindAll hlen, get?_bindAll (by simpa using hlen), List.zip_map_right,
      ← List.map_reverse, List.find?_map, Option.map_map, Option.map_map]
    rfl
  · rw [get?_bindAll_of_ne hlen, get?_bindAll_of_ne (by simpa using hlen)]
    rfl

/-- Distinct parameters stand for the arguments at their positions. -/
theorem get?_bindAll_getElem (hlen : params.length = args.length)
    (hnodup : (params.map (·.var.toVarId)).Nodup) {i : Nat} (hi : i < params.length) :
    (bindAll params args).get? params[i].var.toVarId = args[i]? := by
  have hi' : i < args.length := hlen ▸ hi
  have hkeys : ((params.zip args).map fun pair => (pair.1.var, pair.2)).map
      (fun pair => pair.1.toVarId) = params.map (·.var.toVarId) := by
    conv_rhs => rw [← List.map_fst_zip (Nat.le_of_eq hlen), List.map_map]
    rw [List.map_map]
    rfl
  have hmem : (params[i].var, args[i]) ∈
      (params.zip args).map fun pair => (pair.1.var, pair.2) :=
    List.mem_iff_getElem.2 ⟨i, by simp; omega, by simp⟩
  rw [bindAll_eq_ofList hlen, List.getElem?_eq_getElem hi']
  exact Bindings.get?_ofList_of_mem (hkeys ▸ hnodup) hmem

theorem map_typeOf_bindAll (hlen : params.length = args.length)
    (hnodup : (params.map (·.var.toVarId)).Nodup) :
    params.map (fun param => (bindAll params args).typeOf param.var) = args := by
  refine List.ext_getElem (by simpa using hlen) fun i hi hi' => ?_
  have hi : i < params.length := by simpa using hi
  rw [List.getElem_map, Bindings.typeOf, get?_bindAll_getElem hlen hnodup hi,
    List.getElem?_eq_getElem hi']
  rfl

end ClassTable

end Unerase
