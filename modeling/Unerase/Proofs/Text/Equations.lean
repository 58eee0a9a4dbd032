import Unerase.Text.Reader.Lemmas

/-!
# Readers by equations

What each way of building a reader does with a text, as an equation. The statements on what readers
accept leave open how they come to fail, and a scanner that is to fail with a reader has to know.
-/

namespace Unerase.Text.Reader

variable {α β : Type}

/-! ## Combined readers -/

theorem read_mark (c : Char) (a : α) (s : List Char) :
    (mark c a).read s = if s.head? = some c then some (a, s.tail) else none := by
  cases s with
  | nil => rfl
  | cons x s =>
    by_cases hx : x = c <;> simp [mark, one, hx]

theorem read_map (p : Reader α) (f : α → β) (s : List Char) :
    (p.map f).read s = (p.read s).map fun x => (f x.1, x.2) := by
  cases h : p.read s <;> simp [map, filterMap, h]

theorem read_filterMap (p : Reader α) (meaning : α → Option β) (s : List Char) :
    (p.filterMap meaning).read s =
      (p.read s).bind fun x => (meaning x.1).map fun b => (b, x.2) := by
  cases h : p.read s <;> simp [filterMap, h]

theorem read_both (p : Reader α) (q : Reader β) (s : List Char) :
    (p.both q).read s =
      (p.read s).bind fun x => (q.read x.2).map fun y => ((x.1, y.1), y.2) := by
  cases h : p.read s <;> simp [both, h]

theorem read_after (p : Reader α) (c : Char) (s : List Char) :
    (p.after c).read s = if s.head? = some c then p.read s.tail else none := by
  rw [after, read_map, read_both, read_mark]
  split
  · cases h : p.read s.tail <;> simp [h]
  · rfl

theorem read_before (p : Reader α) (c : Char) (s : List Char) :
    (p.before c).read s =
      (p.read s).bind fun x => if x.2.head? = some c then some (x.1, x.2.tail) else none := by
  rw [before, read_map, read_both]
  cases p.read s with
  | none => rfl
  | some x =>
    simp only [Option.bind_some, read_mark]
    split <;> rfl

theorem read_andIf (p : Reader α) (sign : Char) (q : Reader β) (s : List Char) :
    (p.andIf sign q).read s =
      (p.read s).bind fun x =>
        if x.2.head? = some sign then (q.read x.2).map fun y => ((x.1, some y.1), y.2)
        else some ((x.1, none), x.2) := by
  rcases h : p.read s with _ | ⟨a, _ | ⟨c, r⟩⟩ <;> simp [andIf, h]

theorem read_nonempty (p : Reader (List α)) (s : List Char) :
    p.nonempty.read s = (p.read s).bind fun x => if x.1 = [] then none else some x := by
  rw [nonempty, read_filterMap]
  cases p.read s with
  | none => rfl
  | some x => obtain ⟨_ | _, r⟩ := x <;> rfl

theorem read_chain (first next : Reader α) (sign : Char) (s : List Char) :
    (first.chain sign next).read s =
      (first.read s).bind fun x => (listAfter sign next x.2).map fun y => (x.1 :: y.1, y.2) := by
  cases h : first.read s <;> simp [chain, h]

theorem all_eq (p : Reader α) (s : List Char) :
    p.all s = (p.read s).bind fun x => if x.2 = [] then some x.1 else none := by
  rcases h : p.read s with _ | ⟨a, _ | ⟨c, r⟩⟩ <;> simp [all, h]

/-! ## Repetition -/

theorem listTill_eq (p : Reader α) (close : Char) (s : List Char) :
    listTill p close s =
      if s.head? = some close then some ([], s.tail)
      else (p.read s).bind fun x => (listTill p close x.2).map fun y => (x.1 :: y.1, y.2) := by
  cases s with
  | nil => simp
  | cons c s =>
    rw [listTill]
    split
    · simp [*]
    · split <;> simp [*]

theorem listAfter_eq (sign : Char) (p : Reader α) (s : List Char) :
    listAfter sign p s =
      if s.head? = some sign then
        (p.read s.tail).bind fun x => (listAfter sign p x.2).map fun y => (x.1 :: y.1, y.2)
      else some ([], s) := by
  cases s with
  | nil => simp
  | cons c s =>
    rw [listAfter]
    split
    · split <;> simp [*]
    · simp [*]

theorem listToEnd_eq (p : Reader α) (s : List Char) :
    p.listToEnd s =
      if s = [] then some [] else (p.read s).bind fun x => (p.listToEnd x.2).map (x.1 :: ·) := by
  cases s with
  | nil => simp
  | cons c s =>
    rw [listToEnd]
    split
    · simp_all
    · split <;> simp [*]

/-- Items that take up the rest of a text are those that a sign announces up to where none does,
which has to be the end. -/
theorem listToEnd_after (sign : Char) (p : Reader α) (s : List Char) :
    (p.after sign).listToEnd s =
      (listAfter sign p s).bind fun x => if x.2 = [] then some x.1 else none := by
  fun_induction listAfter sign p s with
  | case1 => simp
  | case2 s hnone =>
    rw [listToEnd_eq]
    simp [read_after, hnone]
  | case3 s a r hp ih =>
    rw [listToEnd_eq]
    cases h : listAfter sign p r <;> simp_all [read_after]
  | case4 c s hc =>
    rw [listToEnd_eq]
    simp [read_after, hc]

end Unerase.Text.Reader
