import Mathlib.Data.Nat.Find
import Mathlib.Order.Bounds.Basic
import Unerase.Call

/-!
# What a call tells about a type variable

The parameters of a call are looked through from left to right until one of them is declared as the
target or has no argument. So the answer hangs on which of the two positions comes first, and where
they are the same the argument that is missing counts (`passedFor_exact`).
-/

namespace Unerase

/-- A type is a part of another if it stands anywhere below its root. -/
inductive JType.PartOf : JType → JType → Prop
  | arg {name args a} : a ∈ args → PartOf a (.cls name args)
  | elem {elem} : PartOf elem (.array elem)
  | bound {dir bound} : PartOf bound (.bounded dir bound)
  | trans {a b c} : PartOf a b → PartOf b c → PartOf a c

namespace JType

theorem size_le_sizeArgs {a : JType} {args : List JType} (h : a ∈ args) :
    a.size ≤ sizeArgs args := by
  induction h with
  | head args => exact Nat.le_add_right _ _
  | tail b h ih => exact Nat.le_trans ih (Nat.le_add_left _ _)

theorem PartOf.size_lt {a b : JType} (h : a.PartOf b) : a.size < b.size := by
  induction h with
  | arg h =>
    have hle := size_le_sizeArgs h
    rw [size]
    omega
  | elem => rw [size]; omega
  | bound => rw [size]; omega
  | trans h h' ih ih' => exact Nat.lt_trans ih ih'

/-- No type is the same as a part of itself. -/
theorem PartOf.not_same {a b c : JType} (h : a.PartOf b) (hsame : a.same c = true) :
    b.same c = false := by
  refine Bool.eq_false_iff.2 fun hb => ?_
  have hlt := h.size_lt
  rw [size_eq_of_same hsame, size_eq_of_same hb] at hlt
  exact Nat.lt_irrefl _ hlt

end JType

namespace Arguments

variable {args : Arguments} {params : List JType} {target : JType}

/-- The positions of the parameters that are declared as the target. -/
def declaredAs (params : List JType) (target : JType) : Set Nat :=
  {i | ∃ param, params[i]? = some param ∧ param.same target = true}

/-- The positions of the parameters for which there is no argument. -/
def missing (args : Arguments) (params : List JType) : Set Nat :=
  {i | i < params.length ∧ args.type? (args.skipped + i) = none}

/-! ## One parameter after the other -/

/-- What is looked at next decides: an argument that is missing, a parameter that is declared as the
target, or else what comes behind them. -/
theorem passedFrom_drop (args : Arguments) (target : JType) {i : Nat} (h : i < params.length) :
    args.passedFrom target (args.skipped + i) (params.drop i) =
      match args.type? (args.skipped + i) with
      | none => .error (.noArgument (args.skipped + i) args.count)
      | some arg =>
        if params[i].same target then .ok (some arg)
        else args.passedFrom target (args.skipped + (i + 1)) (params.drop (i + 1)) := by
  rw [List.drop_eq_getElem_cons h, passedFrom]
  rfl

/-- Parameters that are not declared as the target are passed by as long as there are arguments. -/
theorem passedFor_eq_passedFrom {n : Nat} (hn : n ≤ params.length)
    (h : ∀ i < n, i ∉ declaredAs params target ∧ i ∉ args.missing params) :
    args.passedFor params target =
      args.passedFrom target (args.skipped + n) (params.drop n) := by
  induction n with
  | zero => rfl
  | succ n ih =>
    obtain ⟨hdeclared, hmissing⟩ := h n (Nat.lt_succ_self n)
    have hother : params[n].same target = false := by
      refine Bool.eq_false_iff.2 fun hsame => hdeclared ?_
      exact ⟨params[n], List.getElem?_eq_getElem hn, hsame⟩
    rw [ih (Nat.le_of_succ_le hn) fun i hi => h i (Nat.lt_succ_of_lt hi), passedFrom_drop _ _ hn]
    cases harg : args.type? (args.skipped + n) with
    | none => exact absurd ⟨hn, harg⟩ hmissing
    | some arg => simp only [hother, Bool.false_eq_true, if_false]

/-! ## The three answers -/

/-- The parameter at the position is the first that is declared as the target, and up to there no
argument is missing. -/
def Finds (args : Arguments) (params : List JType) (target : JType) (k : Nat) : Prop :=
  IsLeast (declaredAs params target) k ∧ ∀ j, IsLeast (args.missing params) j → k < j

/-- The argument at the position is the first that is missing, and no parameter before it is
declared as the target. -/
def Lacks (args : Arguments) (params : List JType) (target : JType) (j : Nat) : Prop :=
  IsLeast (args.missing params) j ∧ ∀ k, IsLeast (declaredAs params target) k → j ≤ k

/-- Where there is a position there is a first one. -/
theorem exists_isLeast_le {s : Set Nat} {n : Nat} (h : n ∈ s) : ∃ m, IsLeast s m ∧ m ≤ n := by
  classical
  exact ⟨Nat.find ⟨n, h⟩, ⟨Nat.find_spec ⟨n, h⟩, fun _ => Nat.find_min' _⟩, Nat.find_min' _ h⟩

theorem Lacks.passedFor_eq {j : Nat} (h : args.Lacks params target j) :
    args.passedFor params target = .error (.noArgument (args.skipped + j) args.count) := by
  obtain ⟨⟨hlt, hnone⟩, hleast⟩ := h.1
  rw [passedFor_eq_passedFrom (Nat.le_of_lt hlt) fun i hi => ⟨fun hk => ?_, fun hm => ?_⟩,
    passedFrom_drop _ _ hlt, hnone]
  · obtain ⟨k, hk, hki⟩ := exists_isLeast_le hk
    exact Nat.not_le_of_lt hi (Nat.le_trans (h.2 k hk) hki)
  · exact Nat.not_le_of_lt hi (hleast hm)

theorem Finds.passedFor_eq {k : Nat} (h : args.Finds params target k) :
    ∃ t, args.type? (args.skipped + k) = some t ∧ args.passedFor params target = .ok (some t) := by
  obtain ⟨⟨param, hparam, hsame⟩, hleast⟩ := h.1
  obtain ⟨hlt, rfl⟩ := List.getElem?_eq_some_iff.1 hparam
  have hbefore : ∀ j ∈ args.missing params, k < j := by
    intro j hj
    obtain ⟨m, hm, hmj⟩ := exists_isLeast_le hj
    exact Nat.lt_of_lt_of_le (h.2 m hm) hmj
  cases harg : args.type? (args.skipped + k) with
  | none => exact absurd (hbefore k ⟨hlt, harg⟩) (Nat.lt_irrefl k)
  | some t =>
    refine ⟨t, rfl, ?_⟩
    rw [passedFor_eq_passedFrom (Nat.le_of_lt hlt) fun i hi =>
      ⟨fun hd => Nat.not_le_of_lt hi (hleast hd), fun hm => Nat.lt_asymm hi (hbefore i hm)⟩,
      passedFrom_drop _ _ hlt, harg]
    simp only [hsame, if_true]

theorem passedFor_of_neither (hdeclared : declaredAs params target = ∅)
    (hmissing : args.missing params = ∅) : args.passedFor params target = .ok none := by
  rw [passedFor_eq_passedFrom (Nat.le_refl _) fun i _ => by simp [hdeclared, hmissing],
    List.drop_length, passedFrom]

/-- One of the two positions comes first, or there is neither. -/
theorem first_cases (args : Arguments) (params : List JType) (target : JType) :
    (∃ k, args.Finds params target k) ∨ (∃ j, args.Lacks params target j) ∨
      declaredAs params target = ∅ ∧ args.missing params = ∅ := by
  rcases Set.eq_empty_or_nonempty (declaredAs params target) with hd | ⟨k', hk'⟩
  · rcases Set.eq_empty_or_nonempty (args.missing params) with hm | ⟨j', hj'⟩
    · exact .inr (.inr ⟨hd, hm⟩)
    · obtain ⟨j, hj, -⟩ := exists_isLeast_le hj'
      exact .inr (.inl ⟨j, hj, fun k hk => absurd hk.1 (by simp [hd])⟩)
  · obtain ⟨k, hk, -⟩ := exists_isLeast_le hk'
    by_cases hbefore : ∀ j, IsLeast (args.missing params) j → k < j
    · exact .inl ⟨k, hk, hbefore⟩
    · push Not at hbefore
      obtain ⟨j, hj, hjk⟩ := hbefore
      exact .inr (.inl ⟨j, hj, fun k' hk' => hk'.unique hk ▸ hjk⟩)

theorem passedFor_eq_some_iff {t : JType} : args.passedFor params target = .ok (some t) ↔
    ∃ k, args.Finds params target k ∧ args.type? (args.skipped + k) = some t := by
  constructor
  · intro h
    rcases first_cases args params target with ⟨k, hk⟩ | ⟨j, hj⟩ | ⟨hd, hm⟩
    · obtain ⟨u, hu, heq⟩ := hk.passedFor_eq
      rw [heq] at h
      cases h
      exact ⟨k, hk, hu⟩
    · rw [hj.passedFor_eq] at h
      cases h
    · rw [passedFor_of_neither hd hm] at h
      cases h
  · intro h
    obtain ⟨k, hk, ht⟩ := h
    obtain ⟨u, hu, heq⟩ := hk.passedFor_eq
    rw [heq, ← hu, ht]

theorem passedFor_eq_error_iff {failure : Failure} :
    args.passedFor params target = .error failure ↔
      ∃ j, args.Lacks params target j ∧
        failure = .noArgument (args.skipped + j) args.count := by
  constructor
  · intro h
    rcases first_cases args params target with ⟨k, hk⟩ | ⟨j, hj⟩ | ⟨hd, hm⟩
    · obtain ⟨u, -, heq⟩ := hk.passedFor_eq
      rw [heq] at h
      cases h
    · rw [hj.passedFor_eq] at h
      cases h
      exact ⟨j, hj, rfl⟩
    · rw [passedFor_of_neither hd hm] at h
      cases h
  · intro h
    obtain ⟨j, hj, rfl⟩ := h
    exact hj.passedFor_eq

theorem passedFor_eq_none_iff : args.passedFor params target = .ok none ↔
    declaredAs params target = ∅ ∧ args.missing params = ∅ := by
  constructor
  · intro h
    rcases first_cases args params target with ⟨k, hk⟩ | ⟨j, hj⟩ | hneither
    · obtain ⟨u, -, heq⟩ := hk.passedFor_eq
      rw [heq] at h
      cases h
    · rw [hj.passedFor_eq] at h
      cases h
    · exact hneither
  · intro h
    exact passedFor_of_neither h.1 h.2

end Arguments

/-! ## Calls -/

namespace Call

open Arguments

variable {call : Call} {params : List JType} {target : JType}

/-- The arguments that a call does not have are those from some position on. -/
theorem mem_missing_iff {i : Nat} : i ∈ call.arguments.missing params ↔
    i < params.length ∧ call.args.length ≤ call.kind.receivers + i :=
  and_congr_right fun _ => List.getElem?_eq_none_iff

/-- With an argument for each parameter a call never fails. -/
theorem passedFor_ne_error (h : call.kind.receivers + params.length ≤ call.args.length)
    (failure : Failure) : call.arguments.passedFor params target ≠ .error failure := by
  intro herror
  obtain ⟨j, hj, -⟩ := passedFor_eq_error_iff.1 herror
  obtain ⟨hlt, hle⟩ := mem_missing_iff.1 hj.1.1
  omega

/-- With fewer arguments it fails at the first that is missing, unless some parameter is declared as
the target. -/
theorem passedFor_eq_error (h : call.args.length < call.kind.receivers + params.length)
    (hne : params ≠ []) (hother : ∀ p ∈ params, p.same target = false) :
    call.arguments.passedFor params target =
      .error (.noArgument (max call.kind.receivers call.args.length) call.args.length) := by
  have hpos := List.length_pos_iff.2 hne
  have hlacks : call.arguments.Lacks params target (call.args.length - call.kind.receivers) := by
    refine ⟨⟨mem_missing_iff.2 ⟨by omega, by omega⟩, fun i hi => ?_⟩, fun k hk => ?_⟩
    · have hle := (mem_missing_iff.1 hi).2
      omega
    · obtain ⟨param, hparam, hsame⟩ := hk.1
      rw [hother param (List.mem_of_getElem? hparam)] at hsame
      cases hsame
  have hindex : call.kind.receivers + (call.args.length - call.kind.receivers) =
      max call.kind.receivers call.args.length := by omega
  rw [hlacks.passedFor_eq, ← hindex]
  rfl

end Call

/-- The type of an argument is the answer exactly if its parameter is the first that is declared as
the target, with no argument missing up to there; there is a failure exactly at the first argument
that is missing, with no parameter declared as the target before; there is no answer exactly if
there is neither. A parameter that has the target as a part does not count. So a call with enough
arguments never fails, and one with fewer does if it has a parameter and none is declared as the
target. -/
theorem Arguments.passedFor_exact (target : JType) (params : List JType) :
    (∀ args : Arguments,
      (∀ t, args.passedFor params target = .ok (some t) ↔
        ∃ k, args.Finds params target k ∧ args.type? (args.skipped + k) = some t) ∧
      ((∃ t, args.passedFor params target = .ok (some t)) ↔
        ∃ k, args.Finds params target k) ∧
      (∀ failure, args.passedFor params target = .error failure ↔
        ∃ j, args.Lacks params target j ∧
          failure = .noArgument (args.skipped + j) args.count) ∧
      (args.passedFor params target = .ok none ↔
        declaredAs params target = ∅ ∧ args.missing params = ∅)) ∧
    (∀ (i : Nat) (p t : JType), params[i]? = some p → t.same target = true → t.PartOf p →
      i ∉ declaredAs params target) ∧
    ∀ call : Call,
      (call.kind.receivers + params.length ≤ call.args.length →
        ∀ failure, call.arguments.passedFor params target ≠ .error failure) ∧
      (call.args.length < call.kind.receivers + params.length → params ≠ [] →
        (∀ p ∈ params, p.same target = false) →
        call.arguments.passedFor params target =
          .error (.noArgument (max call.kind.receivers call.args.length) call.args.length)) := by
  refine ⟨fun args => ⟨fun _ => passedFor_eq_some_iff, ⟨?_, ?_⟩, fun _ => passedFor_eq_error_iff,
    passedFor_eq_none_iff⟩, ?_, fun call => ⟨Call.passedFor_ne_error, Call.passedFor_eq_error⟩⟩
  · intro h
    obtain ⟨t, ht⟩ := h
    obtain ⟨k, hk, -⟩ := passedFor_eq_some_iff.1 ht
    exact ⟨k, hk⟩
  · intro h
    obtain ⟨k, hk⟩ := h
    obtain ⟨t, -, ht⟩ := hk.passedFor_eq
    exact ⟨t, ht⟩
  · intro i p t hp ht hpart hdeclared
    obtain ⟨param, hparam, hsame⟩ := hdeclared
    rw [hp] at hparam
    cases hparam
    rw [hpart.not_same ht] at hsame
    cases hsame

/-- The receiver has the type that is looked for, and so has an argument behind the one that is
missing. The list of it does not count. -/
theorem Arguments.passedFor_exact_list :
    let t : JType := .var ⟨⟨.ofMethod ⟨"Util", "first", "(Ljava/util/List;)V"⟩, 0⟩, "T"⟩
    let list : JType := .cls "java.util.List" [t]
    let short : Call := ⟨.virtual, [t]⟩
    let full : Call := ⟨.virtual, [t, .object]⟩
    0 ∉ declaredAs [list] t ∧
    short.arguments.passedFor [list] t = .error (.noArgument 1 1) ∧
    (∀ failure, full.arguments.passedFor [list] t ≠ .error failure) ∧
    full.arguments.passedFor [list] t = .ok none ∧
    (⟨1, 3, fun i => if i = 1 then none else some .object⟩ : Arguments).passedFor [t, t] t =
      .error (.noArgument 1 3) := by
  intro t list short full
  obtain ⟨-, hpart, hcall⟩ := passedFor_exact t [list]
  refine ⟨hpart 0 list t rfl (JType.same_refl t) (.arg (by simp)), ?_, ?_,
    by decide, by decide⟩
  · exact (hcall short).2 (by decide) (by decide) (by decide)
  · exact (hcall full).1 (by decide)

end Unerase
