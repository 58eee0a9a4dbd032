import Unerase.JType.Substitution
import Unerase.Proofs.JType.Occurrence

/-!
# Substitution is filling

Substitution reports failure node by node: an array and a wildcard fail with their one part, a
class only with all of its arguments, and a wildcard without variables is not entered at all. What
comes out in the end is plain. The bound variables that stand no deeper than the limit are filled
with their types, and it is reported whether there was any (`subst_eq_fillAt`).
-/

namespace Unerase

namespace Bindings

variable {b : Bindings} {limit : Nat} {o : Occurrence}

/-- The type that a variable stands for: the variable itself if it is not bound. -/
def typeOf (b : Bindings) (v : TypeVar) : JType := (b.get? v.toVarId).getD (.var v)

/-- The type that a variable stands for at some depth: the variable itself below the limit. -/
def upTo (b : Bindings) (limit depth : Nat) (v : TypeVar) : JType :=
  if depth ≤ limit then b.typeOf v else .var v

/-- A substitution reaches the occurrences of bound variables that are not below the limit. -/
def Reaches (b : Bindings) (limit : Nat) (o : Occurrence) : Prop :=
  o.depth ≤ limit ∧ (b.get? o.var.toVarId).isSome

instance : Decidable (b.Reaches limit o) := inferInstanceAs (Decidable (_ ∧ _))

theorem upTo_of_le {depth : Nat} (h : depth ≤ limit) (v : TypeVar) :
    b.upTo limit depth v = b.typeOf v := if_pos h

theorem upTo_of_not_reaches (h : ¬ b.Reaches limit o) :
    b.upTo limit o.depth o.var = .var o.var := by
  unfold upTo
  split
  · rename_i hle
    have hnone : b.get? o.var.toVarId = none := by
      rw [← Option.not_isSome_iff_eq_none]
      exact fun hs => h ⟨hle, hs⟩
    rw [typeOf, hnone]
    rfl
  · rfl

/-- Without bindings no occurrence is reached. -/
theorem not_reaches_of_isEmpty (h : b.isEmpty = true) : ¬ b.Reaches limit o := by
  intro hreach
  have hs := hreach.2
  rw [isEmpty_iff.1 h] at hs
  cases hs

end Bindings

namespace JType

variable {b : Bindings} {limit : Nat}

/-- A part of a type at the limit is below the limit with everything in it. -/
theorem not_reaches_part {t : JType} {depth : Nat} (h : limit < depth) :
    ¬ ∃ o ∈ t.occurrencesAt depth, b.Reaches limit o := by
  intro hit
  obtain ⟨o, ho, hle, -⟩ := hit
  have := le_depth_of_mem_occurrencesAt ho
  omega

/-- What is not reached by a substitution is not changed by it. -/
theorem fillAt_upTo_eq_self {t : JType} {depth : Nat}
    (h : ¬ ∃ o ∈ t.occurrencesAt depth, b.Reaches limit o) :
    t.fillAt (b.upTo limit) depth = t :=
  fillAt_eq_self fun o ho => Bindings.upTo_of_not_reaches fun hr => h ⟨o, ho, hr⟩

/-- Arguments are replaced if any of them is, and the others are kept. -/
theorem replaceArgs?_eq {args : List JType} {depth room : Nat}
    (h : ∀ a ∈ args, a.replace? b room =
      if ∃ o ∈ a.occurrencesAt depth, b.Reaches limit o then
        some (a.fillAt (b.upTo limit) depth) else none) :
    replaceArgs? b args room =
      if ∃ o ∈ args.flatMap (occurrencesAt · depth), b.Reaches limit o then
        some (args.map (fillAt (b.upTo limit) · depth)) else none := by
  induction args with
  | nil => simp [replaceArgs?]
  | cons a rest ih =>
    have hrest := ih fun c hc => h c (List.mem_cons_of_mem a hc)
    -- where nothing is reached in the rest, keeping it is filling it
    have hkept : (replaceArgs? b rest room).getD rest =
        rest.map (fillAt (b.upTo limit) · depth) := by
      rw [hrest]
      split
      · rfl
      · rename_i hno
        refine ((List.map_congr_left fun c hc => fillAt_upTo_eq_self ?_).trans
          (List.map_id' rest)).symm
        exact fun ⟨o, ho, hr⟩ => hno ⟨o, List.mem_flatMap.2 ⟨c, hc, ho⟩, hr⟩
    have ha := h a List.mem_cons_self
    simp only [List.flatMap_cons, List.mem_append, or_and_right, exists_or, List.map_cons]
    by_cases hit : ∃ o ∈ a.occurrencesAt depth, b.Reaches limit o
    · rw [if_pos hit] at ha
      rw [if_pos (Or.inl hit), replaceArgs?, ha]
      simp only [hkept, Option.getD_some]
    · rw [if_neg hit] at ha
      by_cases hits : ∃ o ∈ rest.flatMap (occurrencesAt · depth), b.Reaches limit o
      · rw [if_pos hits] at hrest
        rw [if_pos (Or.inr hits), replaceArgs?, ha, hrest]
        simp only [Option.getD_none, Option.getD_some, fillAt_upTo_eq_self hit]
      · rw [if_neg hits] at hrest
        rw [if_neg (not_or.2 ⟨hit, hits⟩), replaceArgs?, ha, hrest]

/-- A type at some depth, with room for some more levels below it, is replaced exactly if an
occurrence in it is reached, and then by filling it. -/
theorem replace?_eq (b : Bindings) (t : JType) (depth room : Nat) :
    t.replace? b room =
      if ∃ o ∈ t.occurrencesAt depth, b.Reaches (depth + room) o then
        some (t.fillAt (b.upTo (depth + room)) depth) else none := by
  induction t using inductOn generalizing depth room with
  | prim p => simp [replace?]
  | cls name args ih =>
    cases room with
    | zero =>
      have hno : ¬ ∃ o ∈ args.flatMap (occurrencesAt · (depth + 1)), b.Reaches (depth + 0) o := by
        intro hit
        obtain ⟨o, ho, hr⟩ := hit
        obtain ⟨a, -, ho⟩ := List.mem_flatMap.1 ho
        exact not_reaches_part (Nat.lt_succ_self depth) ⟨o, ho, hr⟩
      rw [occurrencesAt_cls, if_neg hno, replace?] <;> simp
    | succ room =>
      have hargs := replaceArgs?_eq fun a ha => ih a ha (depth + 1) room
      rw [replace?, hargs, occurrencesAt_cls, fillAt_cls,
        show depth + (room + 1) = depth + 1 + room by omega]
      split <;> rfl
  | array elem ih =>
    cases room with
    | zero =>
      rw [Nat.add_zero, occurrencesAt_array,
        if_neg (not_reaches_part (Nat.lt_succ_self depth)), replace?] <;> simp
    | succ room =>
      rw [replace?, ih (depth + 1) room, occurrencesAt_array, fillAt_array,
        show depth + (room + 1) = depth + 1 + room by omega]
      split <;> rfl
  | var v =>
    rw [replace?, fillAt_var, Bindings.upTo_of_le (Nat.le_add_right depth room), Bindings.typeOf]
    cases hv : b.get? v.toVarId <;> simp [Bindings.Reaches, hv]
  | unbounded => simp [replace?]
  | bounded dir bound ih =>
    cases room with
    | zero =>
      rw [Nat.add_zero, occurrencesAt_bounded,
        if_neg (not_reaches_part (Nat.lt_succ_self depth)), replace?] <;> simp
    | succ room =>
      have hroom : depth + (room + 1) = depth + 1 + room := by omega
      cases hvar : bound.hasVar with
      | false =>
        -- the guard only skips a bound in which there is nothing to be reached
        have hnil : bound.vars = [] := by simpa [hasVar_eq] using hvar
        rw [replace?, hvar, occurrencesAt_bounded, occurrencesAt_eq_nil_iff.2 hnil]
        simp
      | true =>
        rw [replace?, hvar, if_pos rfl, ih (depth + 1) room, occurrencesAt_bounded,
          fillAt_bounded, hroom]
        split <;> rfl

/-- A substitution that reaches an occurrence replaces all that it reaches. -/
theorem subst_of_reaches {t : JType} (h : ∃ o ∈ t.occurrences, b.Reaches limit o) :
    t.subst b limit = .replaced (t.fillAt (b.upTo limit) 0) := by
  have hsome : b.isEmpty = false := by
    obtain ⟨o, -, hr⟩ := h
    exact Bool.eq_false_iff.2 fun hempty => Bindings.not_reaches_of_isEmpty hempty hr
  have heq : t.replace? b limit = some (t.fillAt (b.upTo limit) 0) := by
    rw [replace?_eq b t 0 limit, Nat.zero_add]
    exact if_pos h
  simp [subst, hsome, heq]

/-- A substitution that reaches no occurrence changes nothing. -/
theorem subst_of_not_reaches {t : JType} (h : ¬ ∃ o ∈ t.occurrences, b.Reaches limit o) :
    t.subst b limit = .unchanged := by
  have heq : t.replace? b limit = none := by
    rw [replace?_eq b t 0 limit, Nat.zero_add]
    exact if_neg h
  simp [subst, heq]

/-- Substitution is simultaneous replacement down to the limit: if the substitution reaches any
occurrence, all that it reaches are filled at once, with nothing else changed; otherwise nothing
was replaced. -/
theorem subst_eq_fillAt (t : JType) (b : Bindings) (limit : Nat) :
    t.subst b limit =
      if ∃ o ∈ t.occurrences, o.depth ≤ limit ∧ (b.get? o.var.toVarId).isSome then
        .replaced (t.fillAt (b.upTo limit) 0)
      else .unchanged := by
  split
  · rename_i h
    exact subst_of_reaches h
  · rename_i h
    exact subst_of_not_reaches h

/-- In either case the filled type comes out. -/
theorem getD_subst (t : JType) (b : Bindings) (limit : Nat) :
    (t.subst b limit).getD t = t.fillAt (b.upTo limit) 0 := by
  by_cases h : ∃ o ∈ t.occurrences, b.Reaches limit o
  · rw [subst_of_reaches h]
    rfl
  · rw [subst_of_not_reaches h]
    exact (fillAt_upTo_eq_self h).symm

/-! ## Without a limit -/

/-- Substitution without a limit: all bound variables are filled, if there are any. -/
def substAll (t : JType) (b : Bindings) : Outcome :=
  if ∃ v ∈ t.vars, (b.get? v.toVarId).isSome then .replaced (t.fill b.typeOf) else .unchanged

/-- A limit that no variable is below makes no difference. -/
theorem subst_of_forall_le {t : JType} (h : ∀ o ∈ t.occurrences, o.depth ≤ limit) :
    t.subst b limit = t.substAll b := by
  have hreach : (∃ o ∈ t.occurrences, b.Reaches limit o) ↔
      ∃ v ∈ t.vars, (b.get? v.toVarId).isSome := by
    simp only [mem_vars_iff, Bindings.Reaches]
    constructor
    · intro hit
      obtain ⟨o, ho, -, hbound⟩ := hit
      exact ⟨o.var, ⟨o, ho, rfl⟩, hbound⟩
    · intro hit
      obtain ⟨-, ⟨o, ho, rfl⟩, hbound⟩ := hit
      exact ⟨o, ho, h o ho, hbound⟩
  have hfill : t.fillAt (b.upTo limit) 0 = t.fill b.typeOf :=
    fillAt_congr fun o ho => Bindings.upTo_of_le (h o ho) o.var
  rw [substAll]
  by_cases hit : ∃ o ∈ t.occurrences, b.Reaches limit o
  · rw [subst_of_reaches hit, hfill, if_pos (hreach.1 hit)]
  · rw [subst_of_not_reaches hit, if_neg (mt hreach.2 hit)]

/-- Every type has such a limit, its nesting. -/
theorem subst_of_depth_le {t : JType} (h : t.depth ≤ limit) : t.subst b limit = t.substAll b :=
  subst_of_forall_le fun _ ho => Nat.le_trans (depth_le_of_mem_occurrences ho) h

/-- A limit that is not less than the nesting of a type makes no difference to it. -/
theorem getD_subst_of_depth_le {t : JType} (h : t.depth ≤ limit) :
    (t.subst b limit).getD t = t.fill b.typeOf := by
  rw [getD_subst]
  exact fillAt_congr fun o ho =>
    Bindings.upTo_of_le (Nat.le_trans (depth_le_of_mem_occurrences ho) h) o.var

end JType

end Unerase
