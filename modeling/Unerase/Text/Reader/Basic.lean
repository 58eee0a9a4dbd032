/-!
# Readers

A reader takes a value off the front of a text and leaves the rest. Whenever it succeeds it has
taken at least one character, and the rest is what follows the characters it took (`consumes`).
So every loop over a reader ends with the text, and no reader can step outside of it.
-/

namespace Unerase.Text

universe u

variable {α β : Type}

/-- Reads a value off the front of a text, always taking at least one character. -/
structure Reader (α : Type) where
  read : List Char → Option (α × List Char)
  consumes : ∀ {s a r}, read s = some (a, r) → ∃ c w, s = c :: (w ++ r)

namespace Reader

/-- What a reader leaves is shorter than what it was given. -/
theorem shorter (p : Reader α) {s : List Char} {a : α} {r : List Char}
    (h : p.read s = some (a, r)) : r.length < s.length := by
  obtain ⟨c, w, rfl⟩ := p.consumes h
  simp only [List.length_cons, List.length_append]
  omega

/-- There is nothing to be read in the empty text. -/
@[simp] theorem read_nil (p : Reader α) : p.read [] = none := by
  cases h : p.read [] with
  | none => rfl
  | some x => exact absurd (p.shorter h) (Nat.not_lt_zero _)

/-! ## Single characters and runs -/

/-- Reads nothing at all. -/
def fail : Reader α := ⟨fun _ => none, fun h => nomatch h⟩

/-- Reads one character that has a meaning. -/
def one (meaning : Char → Option α) : Reader α where
  read
    | [] => none
    | c :: s => (meaning c).map fun a => (a, s)
  consumes {s a r} h := by
    cases s with
    | nil => cases h
    | cons c s =>
      obtain ⟨_, _, h⟩ := Option.map_eq_some_iff.1 h
      cases h
      exact ⟨c, [], rfl⟩

/-- Reads the given character, which stands for the given value. -/
def mark (c : Char) (a : α) : Reader α := one fun d => if d = c then some a else none

/-- Reads the characters before the first one that ends the run. There is at least one, and the
end has to come. -/
def run (ends : Char → Bool) : Reader (List Char) where
  read s :=
    let w := s.takeWhile (!ends ·)
    let r := s.dropWhile (!ends ·)
    if w.isEmpty || r.isEmpty then none else some (w, r)
  consumes {s a r} h := by
    have hs := List.takeWhile_append_dropWhile (p := (!ends ·)) (l := s)
    dsimp only at h
    split at h
    · cases h
    · rename_i hne
      cases h
      cases hw : s.takeWhile (!ends ·) with
      | nil => simp [hw] at hne
      | cons c w => exact ⟨c, w, by rw [← List.cons_append, ← hw, hs]⟩

/-! ## Combining readers -/

/-- Reads by the reader that the first character calls for. -/
def byFirst (choice : Char → Reader α) : Reader α where
  read
    | [] => none
    | c :: s => (choice c).read (c :: s)
  consumes {s a r} h := by
    cases s with
    | nil => cases h
    | cons c s => exact (choice c).consumes h

/-- Reads a value and accepts it if it has a meaning. -/
def filterMap (p : Reader α) (meaning : α → Option β) : Reader β where
  read s :=
    match p.read s with
    | some (a, r) => (meaning a).map fun b => (b, r)
    | none => none
  consumes {s b r} h := by
    split at h
    · obtain ⟨_, _, h⟩ := Option.map_eq_some_iff.1 h
      cases h
      exact p.consumes ‹_›
    · cases h

/-- Reads a value and turns it into another. -/
def map (p : Reader α) (f : α → β) : Reader β := p.filterMap fun a => some (f a)

/-- Reads one value after the other. -/
def both (p : Reader α) (q : Reader β) : Reader (α × β) where
  read s :=
    match p.read s with
    | some (a, r) => (q.read r).map fun x => ((a, x.1), x.2)
    | none => none
  consumes {s x r} h := by
    split at h
    · rename_i a t hp
      obtain ⟨⟨b, u⟩, hq, h⟩ := Option.map_eq_some_iff.1 h
      cases h
      obtain ⟨c, w, rfl⟩ := p.consumes hp
      obtain ⟨d, v, rfl⟩ := q.consumes hq
      exact ⟨c, w ++ d :: v, by simp⟩
    · cases h

/-- Reads a value that is announced by a mark. -/
def after (c : Char) (p : Reader α) : Reader α := ((mark c ()).both p).map (·.2)

/-- Reads a value that is closed by a mark. -/
def before (p : Reader α) (c : Char) : Reader α := (p.both (mark c ())).map (·.1)

/-- Reads a value, and a second one exactly if the given character comes next, which is the first
of the second value. -/
def andIf (p : Reader α) (sign : Char) (q : Reader β) : Reader (α × Option β) where
  read s :=
    match p.read s with
    | some (a, c :: r) =>
      if c = sign then (q.read (c :: r)).map fun x => ((a, some x.1), x.2)
      else some ((a, none), c :: r)
    | some (a, []) => some ((a, none), [])
    | none => none
  consumes {s x r} h := by
    split at h
    · rename_i a d t hp
      split at h
      · obtain ⟨⟨b, u⟩, hq, h⟩ := Option.map_eq_some_iff.1 h
        cases h
        obtain ⟨c, w, rfl⟩ := p.consumes hp
        obtain ⟨e, v, hv⟩ := q.consumes hq
        exact ⟨c, w ++ e :: v, by simp [hv]⟩
      · cases h
        exact p.consumes hp
    · cases h
      exact p.consumes ‹_›
    · cases h

/-! ## Repetition -/

/-- Reads values up to the closing mark. -/
def listTill (p : Reader α) (close : Char) : List Char → Option (List α × List Char)
  | [] => none
  | c :: s =>
    if c = close then some ([], s)
    else
      match _h : p.read (c :: s) with
      | none => none
      | some (a, r) => (listTill p close r).map fun x => (a :: x.1, x.2)
termination_by s => s.length
decreasing_by exact p.shorter ‹_›

/-- Reads a value for each mark that comes next. -/
def listAfter (sign : Char) (p : Reader α) : List Char → Option (List α × List Char)
  | [] => some ([], [])
  | c :: s =>
    if c = sign then
      match _h : p.read s with
      | none => none
      | some (a, r) => (listAfter sign p r).map fun x => (a :: x.1, x.2)
    else some ([], c :: s)
termination_by s => s.length
decreasing_by exact Nat.lt_succ_of_lt (p.shorter ‹_›)

/-- Reads values until the text ends. -/
def listToEnd (p : Reader α) (s : List Char) : Option (List α) :=
  if s.isEmpty then some []
  else
    match _h : p.read s with
    | none => none
    | some (a, r) => (listToEnd p r).map (a :: ·)
termination_by s.length
decreasing_by exact p.shorter ‹_›

theorem listTill_consumes (p : Reader α) (close : Char) {s : List Char} {as : List α}
    {r : List Char} (h : listTill p close s = some (as, r)) : ∃ c w, s = c :: (w ++ r) := by
  fun_induction listTill p close s generalizing as r with
  | case1 => cases h
  | case2 s =>
    cases h
    exact ⟨close, [], rfl⟩
  | case3 => cases h
  | case4 c s hc a t hp ih =>
    obtain ⟨⟨bs, u⟩, hbs, h⟩ := Option.map_eq_some_iff.1 h
    cases h
    obtain ⟨d, w, hw⟩ := p.consumes hp
    obtain ⟨e, v, rfl⟩ := ih hbs
    exact ⟨d, w ++ e :: v, by simp [hw]⟩

theorem listAfter_suffix (sign : Char) (p : Reader α) {s : List Char} {as : List α}
    {r : List Char} (h : listAfter sign p s = some (as, r)) : ∃ w, s = w ++ r := by
  fun_induction listAfter sign p s generalizing as r with
  | case1 =>
    cases h
    exact ⟨[], rfl⟩
  | case2 => cases h
  | case3 s a t hp ih =>
    obtain ⟨⟨bs, u⟩, hbs, h⟩ := Option.map_eq_some_iff.1 h
    cases h
    obtain ⟨d, w, rfl⟩ := p.consumes hp
    obtain ⟨v, rfl⟩ := ih hbs
    exact ⟨sign :: d :: w ++ v, by simp⟩
  | case4 c s hc =>
    cases h
    exact ⟨[], rfl⟩

/-- Reads values, possibly none, up to the closing mark. -/
def manyTill (p : Reader α) (close : Char) : Reader (List α) :=
  ⟨listTill p close, listTill_consumes p close⟩

/-- Reads a first value, and a further one for each mark that comes next. -/
def chain (first : Reader α) (sign : Char) (next : Reader α) : Reader (List α) where
  read s :=
    match first.read s with
    | some (a, r) => (listAfter sign next r).map fun x => (a :: x.1, x.2)
    | none => none
  consumes {s as r} h := by
    split at h
    · rename_i a t hp
      obtain ⟨⟨bs, u⟩, hbs, h⟩ := Option.map_eq_some_iff.1 h
      cases h
      obtain ⟨c, w, rfl⟩ := first.consumes hp
      obtain ⟨v, rfl⟩ := listAfter_suffix sign next hbs
      exact ⟨c, w ++ v, by simp⟩
    · cases h

/-- Accepts a list that is not empty. -/
def nonempty (p : Reader (List α)) : Reader (List α) :=
  p.filterMap fun as => if as.isEmpty then none else some as

/-- Reads a value that takes up the whole text. -/
def all (p : Reader α) (s : List Char) : Option α :=
  match p.read s with
  | some (a, []) => some a
  | _ => none

end Reader

end Unerase.Text
