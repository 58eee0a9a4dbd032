import Unerase.Text.Reader.Lemmas

/-!
# What readers yield

A property of all the values that a reader may yield, whatever the text is. It is inherited along
every way of building a reader, so a property of what a grammar reads is proved along the grammar
without a look at the text.
-/

namespace Unerase.Text.Reader

variable {α β : Type} {P : α → Prop} {Q : β → Prop} {p : Reader α} {q : Reader β}
  {s r : List Char}

/-- Every value that the reader yields has the property. -/
def Yields (p : Reader α) (P : α → Prop) : Prop := ∀ s a r, p.read s = some (a, r) → P a

theorem Yields.imp {P' : α → Prop} (h : p.Yields P) (himp : ∀ a, P a → P' a) : p.Yields P' :=
  fun s a r hr => himp a (h s a r hr)

/-! ## Single characters -/

theorem yields_fail : (fail : Reader α).Yields P := fun _ _ _ h => nomatch h

theorem yields_mark {c : Char} {a : α} (h : P a) : (mark c a).Yields P := by
  intro s b r hr
  obtain ⟨-, rfl⟩ := read_mark_eq_some_iff.1 hr
  exact h

theorem yields_true : p.Yields fun _ => True := fun _ _ _ _ => trivial

/-! ## Combined readers -/

theorem yields_byFirst {choice : Char → Reader α} (h : ∀ c, (choice c).Yields P) :
    (byFirst choice).Yields P := by
  intro s a r hr
  cases s with
  | nil => cases hr
  | cons c s => exact h c (c :: s) a r hr

theorem Yields.filterMap {meaning : α → Option β} (h : p.Yields P)
    (hmeaning : ∀ a b, P a → meaning a = some b → Q b) : (p.filterMap meaning).Yields Q := by
  intro s b r hr
  obtain ⟨a, ha, hb⟩ := read_filterMap_eq_some_iff.1 hr
  exact hmeaning a b (h s a r ha) hb

theorem Yields.map {f : α → β} (h : p.Yields P) (hf : ∀ a, P a → Q (f a)) : (p.map f).Yields Q := by
  intro s b r hr
  obtain ⟨a, ha, rfl⟩ := read_map_eq_some_iff.1 hr
  exact hf a (h s a r ha)

theorem Yields.after (h : p.Yields P) (c : Char) : (p.after c).Yields P := by
  intro s a r hr
  obtain ⟨t, -, ht⟩ := read_after_eq_some_iff.1 hr
  exact h t a r ht

theorem Yields.before (h : p.Yields P) (c : Char) : (p.before c).Yields P := by
  intro s a r hr
  exact h s a (c :: r) (read_before_eq_some_iff.1 hr)

theorem Yields.both (h : p.Yields P) (hq : q.Yields Q) :
    (p.both q).Yields fun x => P x.1 ∧ Q x.2 := by
  intro s x r hr
  obtain ⟨t, ha, hb⟩ := read_both_eq_some_iff.1 hr
  exact ⟨h s x.1 t ha, hq t x.2 r hb⟩

theorem yields_andIf (sign : Char) (h : q.Yields Q) :
    (p.andIf sign q).Yields fun x => ∀ b, x.2 = some b → Q b := by
  intro s x r hr b hx
  rcases read_andIf_eq_some_iff.1 hr with ⟨t, d, -, hd, hsome⟩ | ⟨-, -, hnone⟩
  · rw [hsome] at hx
    exact Option.some.inj hx ▸ h _ d r hd
  · rw [hnone] at hx
    cases hx

theorem Yields.of_all (h : p.Yields P) {a : α} (hr : p.all s = some a) : P a :=
  h s a [] (all_eq_some_iff.1 hr)

theorem Yields.nonempty {p : Reader (List α)} {P : List α → Prop} (h : p.Yields P) :
    p.nonempty.Yields P := by
  intro s as r hr
  exact h s as r (read_nonempty_eq_some_iff.1 hr).1

/-! ## Repetition -/

theorem Yields.of_listTill (h : p.Yields P) {close : Char} {as : List α}
    (hr : listTill p close s = some (as, r)) : ∀ a ∈ as, P a := by
  fun_induction listTill p close s generalizing as r with
  | case1 => cases hr
  | case2 s =>
    cases hr
    simp
  | case3 => cases hr
  | case4 c s hc a t hp ih =>
    obtain ⟨⟨bs, u⟩, hbs, hr⟩ := Option.map_eq_some_iff.1 hr
    cases hr
    exact List.forall_mem_cons.2 ⟨h _ a t hp, ih hbs⟩

theorem Yields.of_listAfter (h : p.Yields P) {sign : Char} {as : List α}
    (hr : listAfter sign p s = some (as, r)) : ∀ a ∈ as, P a := by
  fun_induction listAfter sign p s generalizing as r with
  | case1 =>
    cases hr
    simp
  | case2 => cases hr
  | case3 s a t hp ih =>
    obtain ⟨⟨bs, u⟩, hbs, hr⟩ := Option.map_eq_some_iff.1 hr
    cases hr
    exact List.forall_mem_cons.2 ⟨h _ a t hp, ih hbs⟩
  | case4 c s hc =>
    cases hr
    simp

theorem Yields.of_listToEnd (h : p.Yields P) {as : List α} (hr : p.listToEnd s = some as) :
    ∀ a ∈ as, P a := by
  fun_induction listToEnd p s generalizing as with
  | case1 =>
    cases hr
    simp
  | case2 => cases hr
  | case3 s hne a t hp ih =>
    obtain ⟨bs, hbs, rfl⟩ := Option.map_eq_some_iff.1 hr
    exact List.forall_mem_cons.2 ⟨h _ a t hp, ih hbs⟩

theorem Yields.manyTill (h : p.Yields P) (close : Char) :
    (p.manyTill close).Yields fun as => ∀ a ∈ as, P a := fun _ _ _ hr => h.of_listTill hr

theorem Yields.chain {first next : Reader α} (hfirst : first.Yields P) (hnext : next.Yields P)
    (sign : Char) : (first.chain sign next).Yields fun as => ∀ a ∈ as, P a := by
  intro s as r hr
  obtain ⟨a, t, bs, ha, hbs, rfl⟩ := read_chain_eq_some_iff.1 hr
  exact List.forall_mem_cons.2 ⟨hfirst s a t ha, hnext.of_listAfter hbs⟩

end Unerase.Text.Reader
