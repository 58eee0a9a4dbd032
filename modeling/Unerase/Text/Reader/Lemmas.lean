import Unerase.Text.Reader.Basic

/-!
# What readers accept

For each way of building a reader, one statement that says exactly which texts it reads, what it
makes of them and what it leaves.
-/

namespace Unerase.Text.Reader

variable {α β : Type} {s r : List Char}

/-! ## Single characters and runs -/

@[simp] theorem read_fail : (fail : Reader α).read s = none := rfl

@[simp] theorem read_byFirst_cons {choice : Char → Reader α} {c : Char} :
    (byFirst choice).read (c :: s) = (choice c).read (c :: s) := rfl

theorem read_one_eq_some_iff {meaning : Char → Option α} {a : α} :
    (one meaning).read s = some (a, r) ↔ ∃ c, s = c :: r ∧ meaning c = some a := by
  constructor
  · intro h
    cases s with
    | nil => cases h
    | cons c s =>
      obtain ⟨b, hb, h⟩ := Option.map_eq_some_iff.1 h
      cases h
      exact ⟨c, rfl, hb⟩
  · rintro ⟨c, rfl, hc⟩
    show (meaning c).map (fun b => (b, r)) = some (a, r)
    rw [hc]
    rfl

theorem read_mark_eq_some_iff {c : Char} {a b : α} :
    (mark c a).read s = some (b, r) ↔ s = c :: r ∧ a = b := by
  rw [mark, read_one_eq_some_iff]
  constructor
  · rintro ⟨d, rfl, hd⟩
    by_cases h : d = c
    · rw [if_pos h] at hd
      exact ⟨by rw [h], Option.some.inj hd⟩
    · rw [if_neg h] at hd
      cases hd
  · rintro ⟨rfl, rfl⟩
    exact ⟨c, rfl, if_pos rfl⟩

theorem read_run_eq_some_iff {ends : Char → Bool} {w : List Char} :
    (run ends).read s = some (w, r) ↔
      s = w ++ r ∧ w ≠ [] ∧ (∀ c ∈ w, ends c = false) ∧ ∃ c t, r = c :: t ∧ ends c = true := by
  constructor
  · intro h
    have hs := List.takeWhile_append_dropWhile (p := (!ends ·)) (l := s)
    have hw := List.all_eq_true.1 (List.all_takeWhile (p := (!ends ·)) (l := s))
    have hr := List.head?_dropWhile_not (!ends ·) s
    simp only [run, Bool.or_eq_true, List.isEmpty_iff] at h
    split at h
    · cases h
    · rename_i hne
      cases h
      refine ⟨hs.symm, fun hnil => hne (.inl hnil),
        fun c hc => by simpa using hw c hc, ?_⟩
      cases hd : s.dropWhile (!ends ·) with
      | nil => exact absurd (.inr hd) hne
      | cons c t => exact ⟨c, t, rfl, by simpa [hd] using hr⟩
  · rintro ⟨rfl, hne, hw, c, t, rfl, hc⟩
    have hall : ∀ a ∈ w, (!ends a) = true := by simpa using hw
    simp only [run, List.takeWhile_append_of_pos hall, List.dropWhile_append_of_pos hall]
    simp [hc, hne]

/-! ## Combined readers -/

theorem read_filterMap_eq_some_iff {p : Reader α} {meaning : α → Option β} {b : β} :
    (p.filterMap meaning).read s = some (b, r) ↔
      ∃ a, p.read s = some (a, r) ∧ meaning a = some b := by
  simp only [filterMap]
  cases hp : p.read s with
  | none => simp
  | some x =>
    obtain ⟨a, t⟩ := x
    constructor
    · intro h
      obtain ⟨b', hb, h⟩ := Option.map_eq_some_iff.1 h
      cases h
      exact ⟨a, rfl, hb⟩
    · rintro ⟨a', ha, hb⟩
      cases ha
      simp [hb]

theorem read_map_eq_some_iff {p : Reader α} {f : α → β} {b : β} :
    (p.map f).read s = some (b, r) ↔ ∃ a, p.read s = some (a, r) ∧ f a = b := by
  simp [map, read_filterMap_eq_some_iff]

theorem read_nonempty_eq_some_iff {p : Reader (List α)} {as : List α} :
    p.nonempty.read s = some (as, r) ↔ p.read s = some (as, r) ∧ as ≠ [] := by
  rw [nonempty, read_filterMap_eq_some_iff]
  constructor
  · rintro ⟨bs, hp, hbs⟩
    cases bs with
    | nil => cases hbs
    | cons b bs =>
      cases hbs
      exact ⟨hp, List.cons_ne_nil b bs⟩
  · rintro ⟨hp, hne⟩
    exact ⟨as, hp, by simp [hne]⟩

theorem read_both_eq_some_iff {p : Reader α} {q : Reader β} {a : α} {b : β} :
    (p.both q).read s = some ((a, b), r) ↔
      ∃ t, p.read s = some (a, t) ∧ q.read t = some (b, r) := by
  simp only [both]
  cases hp : p.read s with
  | none => simp
  | some x =>
    obtain ⟨a', t⟩ := x
    constructor
    · intro h
      obtain ⟨⟨b', u⟩, hq, h⟩ := Option.map_eq_some_iff.1 h
      cases h
      exact ⟨t, rfl, hq⟩
    · rintro ⟨t', ht, hq⟩
      cases ht
      simp [hq]

theorem read_after_eq_some_iff {c : Char} {p : Reader α} {a : α} :
    (p.after c).read s = some (a, r) ↔ ∃ t, s = c :: t ∧ p.read t = some (a, r) := by
  simp [after, read_map_eq_some_iff, read_both_eq_some_iff, read_mark_eq_some_iff]

theorem read_before_eq_some_iff {p : Reader α} {c : Char} {a : α} :
    (p.before c).read s = some (a, r) ↔ p.read s = some (a, c :: r) := by
  simp [before, read_map_eq_some_iff, read_both_eq_some_iff, read_mark_eq_some_iff]

theorem read_andIf_eq_some_iff {p : Reader α} {sign : Char} {q : Reader β} {a : α}
    {b : Option β} :
    (p.andIf sign q).read s = some ((a, b), r) ↔
      (∃ t d, p.read s = some (a, sign :: t) ∧ q.read (sign :: t) = some (d, r) ∧ b = some d) ∨
        (p.read s = some (a, r) ∧ r.head? ≠ some sign ∧ b = none) := by
  simp only [andIf]
  rcases hp : p.read s with _ | ⟨a', _ | ⟨c, t⟩⟩
  · simp
  · constructor
    · intro h
      cases h
      exact .inr ⟨rfl, by simp, rfl⟩
    · rintro (⟨t, d, h, _⟩ | ⟨h, _, rfl⟩) <;> cases h
      rfl
  · by_cases hc : c = sign
    · subst hc
      simp only [if_pos]
      constructor
      · intro h
        obtain ⟨⟨d, u⟩, hq, h⟩ := Option.map_eq_some_iff.1 h
        cases h
        exact .inl ⟨t, d, rfl, hq, rfl⟩
      · rintro (⟨t', d, h, hq, rfl⟩ | ⟨h, hr, _⟩)
        · cases h
          simp [hq]
        · cases h
          simp at hr
    · simp only [if_neg hc]
      constructor
      · intro h
        cases h
        exact .inr ⟨rfl, by simpa using hc, rfl⟩
      · rintro (⟨t', d, h, _⟩ | ⟨h, _, rfl⟩)
        · cases h
          exact absurd rfl hc
        · cases h
          rfl

theorem all_eq_some_iff {p : Reader α} {a : α} : p.all s = some a ↔ p.read s = some (a, []) := by
  rcases hp : p.read s with _ | ⟨b, _ | ⟨c, t⟩⟩ <;> simp [all, hp]

/-! ## Repetition -/

@[simp] theorem listTill_nil {p : Reader α} {close : Char} : listTill p close [] = none := by
  rw [listTill]

theorem listTill_cons_eq_some_iff {p : Reader α} {close c : Char} {as : List α} :
    listTill p close (c :: s) = some (as, r) ↔
      (c = close ∧ as = [] ∧ r = s) ∨
        (c ≠ close ∧ ∃ a t bs, p.read (c :: s) = some (a, t) ∧
          listTill p close t = some (bs, r) ∧ as = a :: bs) := by
  rw [listTill]
  by_cases hc : c = close
  · simp [hc, eq_comm]
  · rw [if_neg hc]
    simp only [hc, false_and, false_or, ne_eq, not_false_eq_true, true_and]
    split
    · simp [*]
    · rename_i a t hp
      constructor
      · intro h
        obtain ⟨⟨bs, u⟩, hbs, h⟩ := Option.map_eq_some_iff.1 h
        cases h
        exact ⟨a, t, bs, hp, hbs, rfl⟩
      · rintro ⟨a', t', bs, h, hbs, rfl⟩
        rw [hp] at h
        cases h
        simp [hbs]

@[simp] theorem listAfter_nil {p : Reader α} {sign : Char} :
    listAfter sign p [] = some ([], []) := by
  rw [listAfter]

theorem listAfter_cons_eq_some_iff {p : Reader α} {sign c : Char} {as : List α} :
    listAfter sign p (c :: s) = some (as, r) ↔
      (c ≠ sign ∧ as = [] ∧ r = c :: s) ∨
        (c = sign ∧ ∃ a t bs, p.read s = some (a, t) ∧
          listAfter sign p t = some (bs, r) ∧ as = a :: bs) := by
  rw [listAfter]
  by_cases hc : c = sign
  · rw [if_pos hc]
    simp only [hc, ne_eq, not_true_eq_false, false_and, false_or, true_and]
    split
    · simp [*]
    · rename_i a t hp
      constructor
      · intro h
        obtain ⟨⟨bs, u⟩, hbs, h⟩ := Option.map_eq_some_iff.1 h
        cases h
        exact ⟨a, t, bs, hp, hbs, rfl⟩
      · rintro ⟨a', t', bs, h, hbs, rfl⟩
        rw [hp] at h
        cases h
        simp [hbs]
  · simp [hc, eq_comm]

theorem read_chain_eq_some_iff {first next : Reader α} {sign : Char} {as : List α} :
    (first.chain sign next).read s = some (as, r) ↔
      ∃ a t bs, first.read s = some (a, t) ∧ listAfter sign next t = some (bs, r) ∧
        as = a :: bs := by
  simp only [chain]
  cases hp : first.read s with
  | none => simp
  | some x =>
    obtain ⟨a, t⟩ := x
    constructor
    · intro h
      obtain ⟨⟨bs, u⟩, hbs, h⟩ := Option.map_eq_some_iff.1 h
      cases h
      exact ⟨a, t, bs, rfl, hbs, rfl⟩
    · rintro ⟨a', t', bs, h, hbs, rfl⟩
      cases h
      simp [hbs]

@[simp] theorem listToEnd_nil {p : Reader α} : p.listToEnd [] = some [] := by
  rw [listToEnd]
  rfl

theorem listToEnd_cons_eq_some_iff {p : Reader α} {c : Char} {as : List α} :
    p.listToEnd (c :: s) = some as ↔
      ∃ a t bs, p.read (c :: s) = some (a, t) ∧ p.listToEnd t = some bs ∧ as = a :: bs := by
  rw [listToEnd]
  simp only [List.isEmpty_cons, Bool.false_eq_true, if_false]
  split
  · simp [*]
  · rename_i a t hp
    constructor
    · intro h
      obtain ⟨bs, hbs, rfl⟩ := Option.map_eq_some_iff.1 h
      exact ⟨a, t, bs, hp, hbs, rfl⟩
    · rintro ⟨a', t', bs, h, hbs, rfl⟩
      rw [hp] at h
      cases h
      simp [hbs]

end Unerase.Text.Reader
