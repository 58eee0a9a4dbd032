import Unerase.Proofs.JType.Substitution

/-!
# One substitution after another

Two substitutions in a row do what a single one does. It binds what the first one binds, with the
second put into the types, and whatever else the second one binds (`Bindings.andThen`). No limit
may cut off anything on the way, and for that it is enough to look at the type between the two: the
given type and all that the first substitution puts in are nested no deeper (`subst_andThen`).
-/

namespace Unerase

namespace Bindings

/-- The bindings of two substitutions in a row: those of the first, with the second put into their
types, and those that only the second has. -/
def andThen (first second : Bindings) (limit : Nat) : Bindings :=
  first.table.entries.foldr
    (fun entry b => b.insert ⟨entry.1, entry.2.name⟩
      ((entry.2.type.subst second limit).getD entry.2.type))
    second

/-- Entries that are written over other bindings hide them. -/
theorem get?_foldr_insert (f : JType → JType) (entries : List (VarId × Binding)) (b : Bindings)
    (v : VarId) :
    (entries.foldr (fun entry b => b.insert ⟨entry.1, entry.2.name⟩ (f entry.2.type)) b).get? v =
      ((Entries.get? v entries).map fun bound => f bound.type).or (b.get? v) := by
  induction entries with
  | nil => rfl
  | cons entry rest ih =>
    obtain ⟨key, bound⟩ := entry
    rw [List.foldr_cons, get?_insert, ih, Entries.get?]
    by_cases h : v = key
    · subst h
      simp
    · simp [h, Ne.symm h]

theorem get?_andThen (first second : Bindings) (limit : Nat) (v : VarId) :
    (first.andThen second limit).get? v =
      ((first.get? v).map fun t => (t.subst second limit).getD t).or (second.get? v) := by
  rw [andThen, get?_foldr_insert fun t => (t.subst second limit).getD t]
  simp only [get?, Table.get?, Option.map_map, Function.comp_def]

end Bindings

namespace JType

/-! ## The nesting of a filled type -/

theorem depthArgs_le_iff {args : List JType} {n : Nat} :
    depthArgs args ≤ n ↔ ∀ a ∈ args, depth a < n := by
  induction args with
  | nil => simp [depthArgs]
  | cons a rest ih =>
    rw [depthArgs, Nat.max_le, ih, List.forall_mem_cons]
    exact Iff.rfl

variable {f : Nat → TypeVar → JType}

/-- A type is nested no deeper than what comes out when its variables are filled. -/
theorem depth_le_depth_fillAt (t : JType) (depth : Nat) : t.depth ≤ (t.fillAt f depth).depth := by
  induction t using inductOn generalizing depth with
  | prim p => exact Nat.le_refl _
  | cls name args ih =>
    rw [fillAt_cls, JType.depth, JType.depth, depthArgs_le_iff]
    intro a ha
    have hfilled := depth_lt_depthArgs (List.mem_map_of_mem (f := (fillAt f · (depth + 1))) ha)
    exact Nat.lt_of_le_of_lt (ih a ha (depth + 1)) hfilled
  | array elem ih =>
    rw [fillAt_array, JType.depth, JType.depth]
    exact Nat.succ_le_succ (ih (depth + 1))
  | var v => exact Nat.zero_le _
  | unbounded => exact Nat.le_refl _
  | bounded dir bound ih =>
    rw [fillAt_bounded, JType.depth, JType.depth]
    exact Nat.succ_le_succ (ih (depth + 1))

/-- What is put in stands in the filled type where the variable stood. -/
theorem depth_le_of_mem_fillAt {t : JType} {depth : Nat} {o : Occurrence}
    (h : o ∈ t.occurrencesAt depth) :
    o.depth + (f o.depth o.var).depth ≤ depth + (t.fillAt f depth).depth := by
  induction t using inductOn generalizing depth with
  | prim p => simp at h
  | cls name args ih =>
    rw [occurrencesAt_cls, List.mem_flatMap] at h
    obtain ⟨a, ha, ho⟩ := h
    have hpart := ih a ha ho
    have hfilled := depth_lt_depthArgs (List.mem_map_of_mem (f := (fillAt f · (depth + 1))) ha)
    rw [fillAt_cls, JType.depth]
    omega
  | array elem ih =>
    have hpart := ih h
    rw [fillAt_array, JType.depth]
    omega
  | var v =>
    obtain rfl : o = ⟨depth, v⟩ := by simpa using h
    exact Nat.le_refl _
  | unbounded => simp at h
  | bounded dir bound ih =>
    have hpart := ih h
    rw [fillAt_bounded, JType.depth]
    omega

/-! ## Two substitutions in a row -/

variable {first second : Bindings} {limit : Nat}

/-- A variable stands for what the first bindings make of it, with the second put in. -/
theorem typeOf_andThen {v : TypeVar} (h : (first.typeOf v).depth ≤ limit) :
    (first.andThen second limit).typeOf v = (first.typeOf v).fill second.typeOf := by
  rw [Bindings.typeOf, Bindings.get?_andThen]
  cases hv : first.get? v.toVarId with
  | none =>
    rw [Bindings.typeOf, hv]
    rfl
  | some t =>
    have hbound : first.typeOf v = t := by rw [Bindings.typeOf, hv]; rfl
    rw [hbound] at h ⊢
    simp [getD_subst_of_depth_le h]

/-- Substituting with the bindings of two substitutions in a row is substituting twice, for every
type for which the limit lets both of them reach everything. -/
theorem subst_andThen (first second : Bindings) (limit : Nat) :
    (∀ v, (first.andThen second limit).get? v =
      ((first.get? v).map fun t => (t.subst second limit).getD t).or (second.get? v)) ∧
    ∀ t : JType, ((t.subst first limit).getD t).depth ≤ limit →
      (((t.subst first limit).getD t).subst second limit).getD ((t.subst first limit).getD t) =
        (t.subst (first.andThen second limit) limit).getD t := by
  refine ⟨Bindings.get?_andThen first second limit, fun t hdepth => ?_⟩
  have ht : t.depth ≤ limit := by
    rw [getD_subst] at hdepth
    exact Nat.le_trans (depth_le_depth_fillAt t 0) hdepth
  rw [getD_subst_of_depth_le ht] at hdepth ⊢
  -- what the first substitution puts in is part of what comes out of it
  have hbound : ∀ o ∈ t.occurrences, (first.typeOf o.var).depth ≤ limit := by
    intro o ho
    have hpart := depth_le_of_mem_fillAt (f := fun _ => first.typeOf) ho
    rw [show t.fillAt (fun _ => first.typeOf) 0 = t.fill first.typeOf from rfl] at hpart
    omega
  calc ((t.fill first.typeOf).subst second limit).getD (t.fill first.typeOf)
      = (t.fill first.typeOf).fill second.typeOf := getD_subst_of_depth_le hdepth
    _ = t.fill fun v => (first.typeOf v).fill second.typeOf := fill_fill ..
    _ = t.fill (first.andThen second limit).typeOf :=
      fillAt_congr fun o ho => (typeOf_andThen (hbound o ho)).symm
    _ = (t.subst (first.andThen second limit) limit).getD t := (getD_subst_of_depth_le ht).symm

/-- A type parameter of a class `Entry<K, V>`. -/
def entryVar (index : UInt32) (name : String) : TypeVar := ⟨⟨.ofClass "Entry", index⟩, name⟩

/-- The type `Map<K[], ? extends V>`, in which only `K` is bound at first. -/
def mapOfEntry : JType :=
  .cls "Map" [.array (.var (entryVar 0 "K")), .bounded .upper (.var (entryVar 1 "V"))]

/-- `K` stands for `List<V>`. -/
def keyIsList : Bindings := .ofList [(entryVar 0 "K", .cls "List" [.var (entryVar 1 "V")])]

/-- `V` stands for `K`, which is not looked into again. -/
def valueIsKey : Bindings := .ofList [(entryVar 1 "V", .var (entryVar 0 "K"))]

/-- The limit is just as deep as the type `Map<List<V>[], ? extends V>` between the two. -/
theorem subst_andThen_entry :
    ((mapOfEntry.subst keyIsList 3).getD mapOfEntry).depth = 3 ∧
    (((mapOfEntry.subst keyIsList 3).getD mapOfEntry).subst valueIsKey 3).getD
        ((mapOfEntry.subst keyIsList 3).getD mapOfEntry) =
      (mapOfEntry.subst (keyIsList.andThen valueIsKey 3) 3).getD mapOfEntry ∧
    mapOfEntry.subst (keyIsList.andThen valueIsKey 3) 3 =
      .replaced (.cls "Map" [.array (.cls "List" [.var (entryVar 0 "K")]),
        .bounded .upper (.var (entryVar 0 "K"))]) := by
  have hdepth : ((mapOfEntry.subst keyIsList 3).getD mapOfEntry).depth = 3 := by decide
  exact ⟨hdepth, (subst_andThen keyIsList valueIsKey 3).2 mapOfEntry (Nat.le_of_eq hdepth),
    by decide⟩

end JType

end Unerase
