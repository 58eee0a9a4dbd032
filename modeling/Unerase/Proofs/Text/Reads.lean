import Unerase.Text.Reader.Lemmas

/-!
# Readers of written forms

A form has a text and a value. A reader reads the forms that are accepted if it takes the text of
such a form off the front of every text, whatever follows, and takes nothing else. Where a form
ends may have to be told from what follows, and then only certain texts may follow.

This is an equivalence, so it says at once that the reader is sound and that it is complete. It is
inherited along the ways of building a reader, the forms of a list being lists of forms.
-/

namespace Unerase.Text.Reader

variable {α β τ υ : Type} {p : Reader α} {q : Reader β} {follow : List Char → Prop}
  {ok : τ → Prop} {text : τ → List Char} {value : τ → α} {s r : List Char}

/-- The reader reads the accepted forms off the front of every text that goes on as is asked for,
and reads nothing else. -/
def Reads (p : Reader α) (follow : List Char → Prop) (ok : τ → Prop) (text : τ → List Char)
    (value : τ → α) : Prop :=
  ∀ s a r, follow r → (p.read s = some (a, r) ↔ ∃ x, ok x ∧ s = text x ++ r ∧ value x = a)

/-- Every text may follow. -/
def anything : List Char → Prop := fun _ => True

/-! ## Single readers -/

theorem reads_fail : (fail : Reader α).Reads anything (fun _ : τ => False) text value := by
  intro s a r _
  simp

/-- Off its text an accepted form is read as its value. -/
theorem Reads.read_text (h : p.Reads follow ok text value) {x : τ} (hx : ok x) (hr : follow r) :
    p.read (text x ++ r) = some (value x, r) := (h _ _ r hr).2 ⟨x, hx, rfl, rfl⟩

/-- Forms that begin the same text, each with what may follow it, have the same value and leave the
same. -/
theorem Reads.text_append_inj (h : p.Reads follow ok text value) {x y : τ} {r' : List Char}
    (hx : ok x) (hy : ok y) (hr : follow r) (hr' : follow r') (heq : text x ++ r = text y ++ r') :
    value x = value y ∧ r = r' := by
  have hread := h.read_text hy hr'
  rw [← heq, h.read_text hx hr] at hread
  exact Prod.mk.inj (Option.some.inj hread)

/-- Fewer texts may follow. -/
theorem Reads.mono {follow' : List Char → Prop} (h : p.Reads follow ok text value)
    (hfollow : ∀ r, follow' r → follow r) : p.Reads follow' ok text value :=
  fun s a r hr => h s a r (hfollow r hr)

/-- What makes a form accepted may be said in another way. -/
theorem Reads.of_iff {ok' : τ → Prop} (h : p.Reads follow ok text value)
    (hok : ∀ x, ok' x ↔ ok x) : p.Reads follow ok' text value := by
  intro s a r hr
  rw [h s a r hr]
  simp only [hok]

/-- An accepted form has a text that is not empty, because readers always take something. -/
theorem Reads.text_ne_nil (h : p.Reads follow ok text value) {x : τ} (hx : ok x)
    (hr : follow r) : text x ≠ [] := by
  intro hnil
  have hlt := p.shorter (h.read_text hx hr)
  simp [hnil] at hlt

/-- A value that is closed by a mark. -/
theorem Reads.before (h : p.Reads follow ok text value) (close : Char)
    (hclose : ∀ r, follow (close :: r)) :
    (p.before close).Reads anything ok (fun x => text x ++ [close]) value := by
  intro s a r _
  rw [read_before_eq_some_iff, h s a (close :: r) (hclose r)]
  simp

/-- A value that is announced by a mark. -/
theorem Reads.after (h : p.Reads follow ok text value) (sign : Char) :
    (p.after sign).Reads follow ok (fun x => sign :: text x) value := by
  intro s a r hr
  rw [read_after_eq_some_iff]
  constructor
  · intro hread
    obtain ⟨t, rfl, hread⟩ := hread
    obtain ⟨x, hx, rfl, rfl⟩ := (h t a r hr).1 hread
    exact ⟨x, hx, rfl, rfl⟩
  · intro hform
    obtain ⟨x, hx, rfl, rfl⟩ := hform
    exact ⟨text x ++ r, rfl, h.read_text hx hr⟩

/-- A value that is turned into another. -/
theorem Reads.map (h : p.Reads follow ok text value) (f : α → β) :
    (p.map f).Reads follow ok text fun x => f (value x) := by
  intro s b r hr
  rw [read_map_eq_some_iff]
  constructor
  · intro hread
    obtain ⟨a, hread, rfl⟩ := hread
    obtain ⟨x, hx, hs, rfl⟩ := (h s a r hr).1 hread
    exact ⟨x, hx, hs, rfl⟩
  · intro hform
    obtain ⟨x, hx, hs, rfl⟩ := hform
    exact ⟨value x, (h s _ r hr).2 ⟨x, hx, hs, rfl⟩, rfl⟩

/-- Two values, the first of which may be followed by the second. -/
theorem Reads.both {follow' : List Char → Prop} {ok' : υ → Prop} {text' : υ → List Char}
    {value' : υ → β} (h : p.Reads follow ok text value) (h' : q.Reads follow' ok' text' value')
    (hfollow : ∀ y r, ok' y → follow' r → follow (text' y ++ r)) :
    (p.both q).Reads follow' (fun z : τ × υ => ok z.1 ∧ ok' z.2)
      (fun z => text z.1 ++ text' z.2) fun z => (value z.1, value' z.2) := by
  intro s c r hr
  rw [read_both_eq_some_iff]
  constructor
  · intro hread
    obtain ⟨t, hp, hq⟩ := hread
    obtain ⟨y, hy, rfl, hb⟩ := (h' t c.2 r hr).1 hq
    obtain ⟨x, hx, rfl, ha⟩ := (h s c.1 _ (hfollow y r hy hr)).1 hp
    exact ⟨(x, y), ⟨hx, hy⟩, by simp, Prod.ext ha hb⟩
  · intro hform
    obtain ⟨⟨x, y⟩, ⟨hx, hy⟩, rfl, rfl⟩ := hform
    refine ⟨text' y ++ r, ?_, h'.read_text hy hr⟩
    rw [List.append_assoc]
    exact h.read_text hx (hfollow y r hy hr)

/-- A value that has a meaning. -/
theorem Reads.filterMap {meaning : α → Option β} {ok' : τ → Prop} {value' : τ → β}
    (h : p.Reads follow ok text value)
    (hmeaning : ∀ x b, meaning (value x) = some b ↔ ok' x ∧ value' x = b) :
    (p.filterMap meaning).Reads follow (fun x => ok x ∧ ok' x) text value' := by
  intro s b r hr
  rw [read_filterMap_eq_some_iff]
  constructor
  · intro hread
    obtain ⟨a, hread, hb⟩ := hread
    obtain ⟨x, hx, hs, rfl⟩ := (h s a r hr).1 hread
    obtain ⟨hx', hb⟩ := (hmeaning x b).1 hb
    exact ⟨x, ⟨hx, hx'⟩, hs, hb⟩
  · intro hform
    obtain ⟨x, ⟨hx, hx'⟩, hs, hb⟩ := hform
    exact ⟨value x, (h s _ r hr).2 ⟨x, hx, hs, rfl⟩, (hmeaning x b).2 ⟨hx', hb⟩⟩

/-- Forms that are told apart by their first character. Each reader may read only such forms, and
each form has to be read by the reader that its first character calls for. -/
theorem reads_byFirst {choice : Char → Reader α}
    (hsound : ∀ c t a r, (choice c).read (c :: t) = some (a, r) →
      ∃ x, ok x ∧ c :: t = text x ++ r ∧ value x = a)
    (hcomplete : ∀ x, ok x → ∃ c w, text x = c :: w ∧
      ∀ r, (choice c).read (c :: w ++ r) = some (value x, r)) :
    (byFirst choice).Reads anything ok text value := by
  intro s a r _
  constructor
  · intro hread
    cases s with
    | nil => cases hread
    | cons c t => exact hsound c t a r hread
  · intro hform
    obtain ⟨x, hx, rfl, rfl⟩ := hform
    obtain ⟨c, w, htext, hread⟩ := hcomplete x hx
    rw [htext]
    exact hread r

/-- The same forms seen as another kind of forms. -/
theorem Reads.image {ok' : υ → Prop} {text' : υ → List Char} {value' : υ → α}
    (h : p.Reads follow ok text value) (f : τ → υ) (hok : ∀ y, ok' y ↔ ∃ x, ok x ∧ f x = y)
    (htext : ∀ x, text' (f x) = text x) (hvalue : ∀ x, value' (f x) = value x) :
    p.Reads follow ok' text' value' := by
  intro s a r hr
  rw [h s a r hr]
  constructor
  · intro hform
    obtain ⟨x, hx, hs, ha⟩ := hform
    exact ⟨f x, (hok _).2 ⟨x, hx, rfl⟩, by rw [htext, hs], by rw [hvalue, ha]⟩
  · intro hform
    obtain ⟨y, hy, hs, ha⟩ := hform
    obtain ⟨x, hx, rfl⟩ := (hok y).1 hy
    exact ⟨x, hx, by rw [hs, htext], by rw [← hvalue, ha]⟩

/-! ## Whole texts -/

/-- The texts that are read as a whole are those of the accepted forms. -/
theorem Reads.all_iff (h : p.Reads anything ok text value) {a : α} :
    p.all s = some a ↔ ∃ x, ok x ∧ text x = s ∧ value x = a := by
  rw [all_eq_some_iff, h s a [] trivial]
  simp only [List.append_nil, eq_comm (a := s)]

/-- A text that is read as a whole is read off the front of every longer one. -/
theorem Reads.read_append (h : p.Reads anything ok text value) {a : α} (ha : p.all s = some a)
    (r : List Char) : p.read (s ++ r) = some (a, r) := by
  obtain ⟨x, hx, rfl, rfl⟩ := h.all_iff.1 ha
  exact h.read_text hx trivial

/-- So no longer text is read as a whole. -/
theorem Reads.all_append (h : p.Reads anything ok text value) {a : α} (ha : p.all s = some a)
    (hr : r ≠ []) : p.all (s ++ r) = none := by
  cases hall : p.all (s ++ r) with
  | none => rfl
  | some b =>
    have hread := all_eq_some_iff.1 hall
    rw [h.read_append ha r] at hread
    cases hread
    exact absurd rfl hr

/-- And where a text begins with one that is read as a whole, it does so in one way only. -/
theorem Reads.append_inj (h : p.Reads anything ok text value) {s' r' : List Char} {a b : α}
    (ha : p.all s = some a) (hb : p.all s' = some b) (heq : s ++ r = s' ++ r') :
    s = s' ∧ r = r' := by
  have hread := h.read_append hb r'
  rw [← heq, h.read_append ha r] at hread
  cases hread
  exact ⟨List.append_cancel_right heq, rfl⟩

/-! ## Repetition -/

/-- Values up to a closing mark are the forms that do not begin with it. -/
theorem Reads.listTill_eq_some_iff {close : Char} (h : p.Reads follow ok text value)
    (hitem : ∀ x r, ok x → follow (text x ++ r)) (hclose : ∀ r, follow (close :: r))
    {as : List α} : listTill p close s = some (as, r) ↔
      ∃ xs : List τ, (∀ x ∈ xs, ok x ∧ (text x).head? ≠ some close) ∧
        s = xs.flatMap text ++ close :: r ∧ xs.map value = as := by
  -- after an item comes another one or the mark
  have hfollow : ∀ xs : List τ, (∀ x ∈ xs, ok x ∧ (text x).head? ≠ some close) →
      follow (xs.flatMap text ++ close :: r) := by
    intro xs hxs
    cases xs with
    | nil => exact hclose r
    | cons x xs =>
      rw [List.flatMap_cons, List.append_assoc]
      exact hitem x _ (hxs x List.mem_cons_self).1
  constructor
  · intro hread
    fun_induction listTill p close s generalizing as r with
    | case1 => cases hread
    | case2 s =>
      cases hread
      exact ⟨[], by simp, rfl, rfl⟩
    | case3 => cases hread
    | case4 c s hc a t hp ih =>
      obtain ⟨⟨bs, u⟩, hbs, hread⟩ := Option.map_eq_some_iff.1 hread
      cases hread
      obtain ⟨xs, hxs, rfl, rfl⟩ := ih hfollow hbs
      obtain ⟨x, hx, hs, rfl⟩ := (h _ a _ (hfollow xs hxs)).1 hp
      refine ⟨x :: xs, List.forall_mem_cons.2 ⟨⟨hx, ?_⟩, hxs⟩, by simp [hs], rfl⟩
      -- the text of the item begins with the character at which the loop went on
      intro hhead
      cases htext : text x with
      | nil => simp [htext] at hhead
      | cons d w =>
        rw [htext, List.cons_append] at hs
        rw [htext] at hhead
        exact hc ((List.cons.inj hs).1.trans (Option.some.inj hhead))
  · intro hform
    obtain ⟨xs, hxs, rfl, rfl⟩ := hform
    induction xs with
    | nil => exact listTill_cons_eq_some_iff.2 (.inl ⟨rfl, rfl, rfl⟩)
    | cons x xs ih =>
      obtain ⟨⟨hx, hhead⟩, hrest⟩ := List.forall_mem_cons.1 hxs
      have hread := h.read_text hx (hfollow xs hrest)
      cases htext : text x with
      | nil => exact absurd htext (h.text_ne_nil hx (hfollow xs hrest))
      | cons d w =>
        rw [htext] at hhead hread
        rw [List.flatMap_cons, htext, List.append_assoc]
        exact listTill_cons_eq_some_iff.2
          (.inr ⟨fun hd => hhead (congrArg some hd), _, _, _, hread, ih hrest, rfl⟩)

/-- So is a list of values with its closing mark. -/
theorem Reads.manyTill (h : p.Reads follow ok text value) (close : Char)
    (hitem : ∀ x r, ok x → follow (text x ++ r)) (hclose : ∀ r, follow (close :: r)) :
    (p.manyTill close).Reads anything
      (fun xs : List τ => ∀ x ∈ xs, ok x ∧ (text x).head? ≠ some close)
      (fun xs => xs.flatMap text ++ [close]) fun xs => xs.map value := by
  intro s as r _
  have hread : (p.manyTill close).read s = some (as, r) ↔ _ :=
    h.listTill_eq_some_iff hitem hclose
  simpa using hread

/-- A list of values that is not empty. -/
theorem Reads.nonempty {p : Reader (List α)} {value : τ → List α}
    (h : p.Reads follow ok text value) :
    p.nonempty.Reads follow (fun x => ok x ∧ value x ≠ []) text value := by
  intro s as r hr
  rw [read_nonempty_eq_some_iff, h s as r hr]
  constructor
  · intro hread
    obtain ⟨⟨x, hx, hs, rfl⟩, hne⟩ := hread
    exact ⟨x, ⟨hx, hne⟩, hs, rfl⟩
  · intro hform
    obtain ⟨x, ⟨hx, hne⟩, hs, rfl⟩ := hform
    exact ⟨⟨x, hx, hs, rfl⟩, hne⟩

/-- Values that are announced by a mark each, up to a text that does not begin with the mark. -/
theorem Reads.listAfter_eq_some_iff {sign : Char} (h : p.Reads follow ok text value)
    (hnext : ∀ r, follow (sign :: r)) (hr : follow r) (hend : r.head? ≠ some sign)
    {as : List α} : listAfter sign p s = some (as, r) ↔
      ∃ xs : List τ, (∀ x ∈ xs, ok x) ∧ s = xs.flatMap (fun x => sign :: text x) ++ r ∧
        xs.map value = as := by
  -- after an item comes another mark or the rest
  have hfollow : ∀ xs : List τ, follow (xs.flatMap (fun x => sign :: text x) ++ r) := by
    intro xs
    cases xs with
    | nil => exact hr
    | cons x xs => exact hnext _
  constructor
  · intro hread
    fun_induction listAfter sign p s generalizing as r with
    | case1 =>
      cases hread
      exact ⟨[], by simp, rfl, rfl⟩
    | case2 => cases hread
    | case3 s a t hp ih =>
      obtain ⟨⟨bs, u⟩, hbs, hread⟩ := Option.map_eq_some_iff.1 hread
      cases hread
      obtain ⟨xs, hxs, rfl, rfl⟩ := ih hr hend hfollow hbs
      obtain ⟨x, hx, rfl, rfl⟩ := (h s a _ (hfollow xs)).1 hp
      exact ⟨x :: xs, List.forall_mem_cons.2 ⟨hx, hxs⟩, by simp, rfl⟩
    | case4 c s hc =>
      cases hread
      exact ⟨[], by simp, rfl, rfl⟩
  · intro hform
    obtain ⟨xs, hxs, rfl, rfl⟩ := hform
    induction xs with
    | nil =>
      cases r with
      | nil => exact listAfter_nil
      | cons c r => exact listAfter_cons_eq_some_iff.2 (.inl ⟨by simpa using hend, rfl, rfl⟩)
    | cons x xs ih =>
      obtain ⟨hx, hrest⟩ := List.forall_mem_cons.1 hxs
      have hread := h.read_text hx (hfollow xs)
      rw [List.flatMap_cons, List.cons_append, List.cons_append, List.append_assoc]
      exact listAfter_cons_eq_some_iff.2 (.inr ⟨rfl, _, _, _, hread, ih hrest, rfl⟩)

/-- A first value with more that are announced by a mark each. -/
theorem Reads.chain {next : Reader α} {ok' : υ → Prop} {text' : υ → List Char}
    {value' : υ → α} (h : p.Reads follow ok text value)
    (hnext : next.Reads follow ok' text' value') (sign : Char) (hsign : ∀ r, follow (sign :: r)) :
    (p.chain sign next).Reads (fun r => follow r ∧ r.head? ≠ some sign)
      (fun z : τ × List υ => ok z.1 ∧ ∀ y ∈ z.2, ok' y)
      (fun z => text z.1 ++ z.2.flatMap fun y => sign :: text' y)
      fun z => value z.1 :: z.2.map value' := by
  intro s as r hr
  have hfollow : ∀ ys : List υ, follow (ys.flatMap (fun y => sign :: text' y) ++ r) := by
    intro ys
    cases ys with
    | nil => exact hr.1
    | cons y ys => exact hsign _
  rw [read_chain_eq_some_iff]
  constructor
  · intro hread
    obtain ⟨a, t, bs, hp, hbs, rfl⟩ := hread
    obtain ⟨ys, hys, rfl, rfl⟩ := (hnext.listAfter_eq_some_iff hsign hr.1 hr.2).1 hbs
    obtain ⟨x, hx, rfl, rfl⟩ := (h s a _ (hfollow ys)).1 hp
    exact ⟨(x, ys), ⟨hx, hys⟩, by simp, rfl⟩
  · intro hform
    obtain ⟨⟨x, ys⟩, ⟨hx, hys⟩, rfl, rfl⟩ := hform
    refine ⟨value x, ys.flatMap (fun y => sign :: text' y) ++ r, ys.map value', ?_, ?_, rfl⟩
    · rw [List.append_assoc]
      exact h.read_text hx (hfollow ys)
    · exact (hnext.listAfter_eq_some_iff hsign hr.1 hr.2).2 ⟨ys, hys, rfl, rfl⟩

/-- Values that take up the rest of a text. -/
theorem Reads.listToEnd_eq_some_iff (h : p.Reads anything ok text value) {as : List α} :
    p.listToEnd s = some as ↔
      ∃ xs : List τ, (∀ x ∈ xs, ok x) ∧ s = xs.flatMap text ∧ xs.map value = as := by
  constructor
  · intro hread
    fun_induction listToEnd p s generalizing as with
    | case1 s hs =>
      cases hread
      exact ⟨[], by simp, List.isEmpty_iff.1 hs, rfl⟩
    | case2 => cases hread
    | case3 s hs a t hp ih =>
      obtain ⟨bs, hbs, rfl⟩ := Option.map_eq_some_iff.1 hread
      obtain ⟨xs, hxs, rfl, rfl⟩ := ih hbs
      obtain ⟨x, hx, rfl, rfl⟩ := (h s a _ trivial).1 hp
      exact ⟨x :: xs, List.forall_mem_cons.2 ⟨hx, hxs⟩, by simp, rfl⟩
  · intro hform
    obtain ⟨xs, hxs, rfl, rfl⟩ := hform
    induction xs with
    | nil => exact listToEnd_nil
    | cons x xs ih =>
      obtain ⟨hx, hrest⟩ := List.forall_mem_cons.1 hxs
      have hread : p.read (text x ++ xs.flatMap text) = _ := h.read_text hx trivial
      rw [List.flatMap_cons, List.map_cons]
      cases htext : text x with
      | nil => exact absurd htext (h.text_ne_nil (r := []) hx trivial)
      | cons c w =>
        rw [htext] at hread
        exact listToEnd_cons_eq_some_iff.2 ⟨_, _, _, hread, ih hrest, rfl⟩

end Unerase.Text.Reader
