import Unerase.Proofs.ClassFile.Header

/-!
# Forms are told by their texts

No text is written by two forms. Since a form stands in a longer text, more has to be said: a form
and what comes behind it are both determined by the text that they make together (`ToldBy`). This is
proved along the forms, where lists of forms end at the mark that closes them or before the first
one that no sign announces.
-/

namespace Unerase.Form

open Text.Reader (anything)

section Lists

variable {τ : Type} {text : τ → List Char} {follow : List Char → Prop} {s t : List Char}
  {xs ys : List τ}

/-- A form is told by its text: where another form begins the same text, and each is followed by
something that may follow, it is the same form with the same behind it. -/
def ToldBy (text : τ → List Char) (follow : List Char → Prop) (x : τ) : Prop :=
  ∀ y s t, follow s → follow t → text x ++ s = text y ++ t → x = y ∧ s = t

/-- Forms up to a mark that closes them, with which none of them begins. -/
theorem eq_of_flatMap_close {close : Char} (htold : ∀ x ∈ xs, ToldBy text follow x)
    (hitem : ∀ x r, follow (text x ++ r)) (hclose : ∀ r, follow (close :: r))
    (hhead : ∀ x ∈ xs ++ ys, ∀ r, (text x ++ r).head? ≠ some close)
    (h : xs.flatMap text ++ close :: s = ys.flatMap text ++ close :: t) : xs = ys ∧ s = t := by
  have hfollow : ∀ (zs : List τ) r, follow (zs.flatMap text ++ close :: r) := by
    intro zs r
    cases zs with
    | nil => exact hclose r
    | cons z zs =>
      rw [List.flatMap_cons, List.append_assoc]
      exact hitem z _
  induction xs generalizing ys with
  | nil =>
    cases ys with
    | nil => exact ⟨rfl, (List.cons.inj h).2⟩
    | cons y ys =>
      rw [List.flatMap_cons, List.append_assoc] at h
      exact absurd (congrArg List.head? h).symm (hhead y (by simp) _)
  | cons x xs ih =>
    obtain ⟨hx, hxs⟩ := List.forall_mem_cons.1 htold
    rw [List.flatMap_cons, List.append_assoc] at h
    cases ys with
    | nil => exact absurd (congrArg List.head? h) (hhead x (by simp) _)
    | cons y ys =>
      rw [List.flatMap_cons, List.append_assoc] at h
      obtain ⟨rfl, hrest⟩ := hx y _ _ (hfollow xs s) (hfollow ys t) h
      have hheads : ∀ z ∈ xs ++ ys, ∀ r, (text z ++ r).head? ≠ some close := by
        intro z hz
        rcases List.mem_append.1 hz with hz | hz
        · exact hhead z (by simp [hz])
        · exact hhead z (by simp [hz])
      obtain ⟨rfl, rfl⟩ := ih hxs hheads hrest
      exact ⟨rfl, rfl⟩

/-- Forms that are announced by a sign each, up to a text that does not begin with the sign. -/
theorem eq_of_flatMap_sign {sign : Char} (htold : ∀ x ∈ xs, ToldBy text follow x)
    (hsign : ∀ r, follow (sign :: r)) (hs : follow s) (ht : follow t)
    (hsend : s.head? ≠ some sign) (htend : t.head? ≠ some sign)
    (h : xs.flatMap (fun x => sign :: text x) ++ s = ys.flatMap (fun y => sign :: text y) ++ t) :
    xs = ys ∧ s = t := by
  have hfollow : ∀ (zs : List τ) r, follow r →
      follow (zs.flatMap (fun z => sign :: text z) ++ r) := by
    intro zs r hr
    cases zs with
    | nil => exact hr
    | cons z zs => exact hsign _
  induction xs generalizing ys with
  | nil =>
    cases ys with
    | nil => exact ⟨rfl, h⟩
    | cons y ys => exact absurd (congrArg List.head? h) hsend
  | cons x xs ih =>
    obtain ⟨hx, hxs⟩ := List.forall_mem_cons.1 htold
    cases ys with
    | nil => exact absurd (congrArg List.head? h).symm htend
    | cons y ys =>
      simp only [List.flatMap_cons, List.cons_append, List.append_assoc, List.cons.injEq,
        true_and] at h
      obtain ⟨rfl, hrest⟩ := hx y _ _ (hfollow xs s hs) (hfollow ys t ht) h
      obtain ⟨rfl, rfl⟩ := ih hxs hrest
      exact ⟨rfl, rfl⟩

end Lists

/-! ## Types -/

section Types

variable {s t : List Char}

/-- A word is told by its characters if one of those that end it comes next. -/
theorem Word.told {stops : List Char} (w : Word stops) :
    ToldBy Word.chars (fun r => ∃ c u, r = c :: u ∧ c ∈ stops) w := by
  intro v s t hs ht h
  have hrun : (Text.Reader.run fun c => decide (c ∈ stops)).Reads _ (fun _ : Word stops => True)
      _ _ := Grammar.reads_run (by simp)
  obtain ⟨hchars, hrest⟩ := hrun.text_append_inj trivial trivial hs ht h
  cases w
  cases v
  cases hchars
  exact ⟨rfl, hrest⟩

/-- Two words that begin the same text, each up to a `:`, are the same and leave the same. -/
theorem Word.append_colon_inj {v w : Word [':']} (h : v.chars ++ ':' :: s = w.chars ++ ':' :: t) :
    v = w ∧ s = t := by
  obtain ⟨hsame, hrest⟩ := v.told w _ _ ⟨':', s, rfl, by simp⟩ ⟨':', t, rfl, by simp⟩ h
  exact ⟨hsame, List.tail_eq_of_cons_eq hrest⟩

theorem letter_injective : Function.Injective Primitive.letter := by
  intro p q h
  cases p <;> cases q <;> first | rfl | exact absurd h (by decide)

theorem sign_injective : Function.Injective Variance.sign := by
  intro dir dir' h
  cases dir <;> cases dir' <;> first | rfl | exact absurd h (by decide)

theorem not_beginsRef_letter (p : Primitive) : ¬ beginsRef p.letter := by
  cases p <;> simp [beginsRef, Primitive.letter]

theorem not_beginsRef_sign (dir : Variance) : ¬ beginsRef dir.sign := by
  cases dir <;> simp [beginsRef, Variance.sign]

theorem Ref.head?_text_append_ne (r : Ref) {c : Char} (hc : ¬ beginsRef c) (u : List Char) :
    (r.text ++ u).head? ≠ some c := by
  intro h
  obtain ⟨d, w, htext, hd⟩ := r.text_eq_cons
  rw [htext] at h
  exact hc (Option.some.inj h ▸ hd)

theorem Arg.head?_text_append_ne (arg : Arg) (u : List Char) :
    (arg.text ++ u).head? ≠ some '>' := by
  cases arg with
  | any => simp [text]
  | bounded dir bound => cases dir <;> simp [text, Variance.sign]
  | exact type =>
    rw [text]
    exact type.head?_text_append_ne (by simp [beginsRef]) u

/-- What may come behind one class of a nested class name. -/
def endsClass (r : List Char) : Prop := ∃ c u, r = c :: u ∧ (c = '.' ∨ c = ';')

theorem endsClass_dot (r : List Char) : endsClass ('.' :: r) := ⟨'.', r, rfl, .inl rfl⟩

theorem endsClass_semicolon (r : List Char) : endsClass (';' :: r) := ⟨';', r, rfl, .inr rfl⟩

theorem endsClass_inner (inner : List Segment) (r : List Char) :
    endsClass (inner.flatMap (fun segment => '.' :: segment.text) ++ ';' :: r) := by
  cases inner with
  | nil => exact endsClass_semicolon r
  | cons segment inner => exact endsClass_dot _

/-- The written arguments of a class. -/
def argsText (args : List Arg) : List Char :=
  if args.isEmpty then [] else '<' :: (args.flatMap Arg.text ++ ['>'])

theorem argsText_append_eq_cons (args : List Arg) (hs : endsClass s) :
    ∃ c u, argsText args ++ s = c :: u ∧ c ∈ ['<', '.', ';'] := by
  cases args with
  | nil =>
    obtain ⟨c, u, rfl, hc⟩ := hs
    exact ⟨c, u, rfl, by rcases hc with rfl | rfl <;> simp⟩
  | cons arg args => exact ⟨'<', _, rfl, by simp⟩

/-- Arguments are told by their text if each of them is, and there is no class behind which it is
open whether there are any. -/
theorem eq_of_argsText {args args' : List Arg} (htold : ∀ arg ∈ args, ToldBy Arg.text anything arg)
    (hs : endsClass s) (ht : endsClass t) (h : argsText args ++ s = argsText args' ++ t) :
    args = args' ∧ s = t := by
  have hopen : ∀ {r}, endsClass r → r.head? ≠ some '<' := by
    intro r hr
    obtain ⟨c, u, rfl, hc⟩ := hr
    rcases hc with rfl | rfl <;> simp
  cases args with
  | nil =>
    cases args' with
    | nil => exact ⟨rfl, h⟩
    | cons arg' args' => exact absurd (congrArg List.head? h) (hopen hs)
  | cons arg args =>
    cases args' with
    | nil => exact absurd (congrArg List.head? h).symm (hopen ht)
    | cons arg' args' =>
      have hlist : (arg :: args).flatMap Arg.text ++ '>' :: s =
          (arg' :: args').flatMap Arg.text ++ '>' :: t := by
        simpa [argsText] using h
      exact eq_of_flatMap_close htold (fun _ _ => trivial) (fun _ => trivial)
        (fun z _ u => z.head?_text_append_ne u) hlist

mutual

theorem Ref.told (r : Ref) : ToldBy Ref.text anything r := by
  intro q s t _ _ h
  cases r with
  | cls outermost inner =>
    cases q with
    | cls outermost' inner' =>
      simp only [Ref.text, List.cons_append, List.append_assoc, List.cons.injEq, true_and,
        List.nil_append] at h
      have hinner : ∀ segment ∈ inner, ToldBy Segment.text endsClass segment :=
        fun segment _ => Segment.told segment
      obtain ⟨rfl, hlist⟩ :=
        Segment.told outermost _ _ _ (endsClass_inner inner s) (endsClass_inner inner' t) h
      obtain ⟨rfl, hclose⟩ := eq_of_flatMap_sign hinner endsClass_dot (endsClass_semicolon s)
        (endsClass_semicolon t) (by simp) (by simp) hlist
      exact ⟨rfl, (List.cons.inj hclose).2⟩
    | array elem => simp [Ref.text] at h
    | var name => simp [Ref.text] at h
  | array elem =>
    cases q with
    | cls outermost inner => simp [Ref.text] at h
    | array elem' =>
      simp only [Ref.text, List.cons_append, List.cons.injEq, true_and] at h
      obtain ⟨rfl, rfl⟩ := Field.told elem elem' s t trivial trivial h
      exact ⟨rfl, rfl⟩
    | var name => simp [Ref.text] at h
  | var name =>
    cases q with
    | cls outermost inner => simp [Ref.text] at h
    | array elem => simp [Ref.text] at h
    | var name' =>
      simp only [Ref.text, List.cons_append, List.append_assoc, List.cons.injEq, true_and,
        List.nil_append] at h
      obtain ⟨rfl, hclose⟩ := name.told name' _ _ ⟨';', s, rfl, by simp⟩ ⟨';', t, rfl, by simp⟩ h
      exact ⟨rfl, (List.cons.inj hclose).2⟩

theorem Field.told (f : Field) : ToldBy Field.text anything f := by
  intro g s t _ _ h
  cases f with
  | prim p hp =>
    cases g with
    | prim q hq =>
      simp only [Field.text, List.singleton_append, List.cons.injEq] at h
      obtain rfl := letter_injective h.1
      exact ⟨rfl, h.2⟩
    | ref q =>
      rw [Field.text, Field.text] at h
      exact absurd (congrArg List.head? h).symm (q.head?_text_append_ne (not_beginsRef_letter p) t)
  | ref r =>
    cases g with
    | prim q hq =>
      rw [Field.text, Field.text] at h
      exact absurd (congrArg List.head? h) (r.head?_text_append_ne (not_beginsRef_letter q) s)
    | ref q =>
      rw [Field.text, Field.text] at h
      obtain ⟨rfl, rfl⟩ := Ref.told r q s t trivial trivial h
      exact ⟨rfl, rfl⟩

theorem Segment.told (segment : Segment) : ToldBy Segment.text endsClass segment := by
  intro segment' s t hs ht h
  cases segment with
  | mk name args =>
    cases segment' with
    | mk name' args' =>
      have hargs : ∀ arg ∈ args, ToldBy Arg.text anything arg := fun arg _ => Arg.told arg
      have htext : name.chars ++ (argsText args ++ s) = name'.chars ++ (argsText args' ++ t) := by
        rwa [Segment.text, Segment.text, List.append_assoc, List.append_assoc] at h
      obtain ⟨rfl, hrest⟩ := name.told name' _ _ (argsText_append_eq_cons args hs)
        (argsText_append_eq_cons args' ht) htext
      obtain ⟨rfl, rfl⟩ := eq_of_argsText hargs hs ht hrest
      exact ⟨rfl, rfl⟩

theorem Arg.told (arg : Arg) : ToldBy Arg.text anything arg := by
  intro arg' s t _ _ h
  cases arg with
  | any =>
    cases arg' with
    | any => exact ⟨rfl, List.append_cancel_left h⟩
    | bounded dir bound => cases dir <;> simp [Arg.text, Variance.sign] at h
    | exact type =>
      rw [Arg.text, Arg.text] at h
      exact absurd (congrArg List.head? h).symm (type.head?_text_append_ne (by simp [beginsRef]) t)
  | bounded dir bound =>
    cases arg' with
    | any => cases dir <;> simp [Arg.text, Variance.sign] at h
    | bounded dir' bound' =>
      simp only [Arg.text, List.cons_append, List.cons.injEq] at h
      obtain rfl := sign_injective h.1
      obtain ⟨rfl, rfl⟩ := Ref.told bound bound' s t trivial trivial h.2
      exact ⟨rfl, rfl⟩
    | exact type =>
      rw [Arg.text, Arg.text] at h
      exact absurd (congrArg List.head? h).symm
        (type.head?_text_append_ne (not_beginsRef_sign dir) t)
  | exact type =>
    cases arg' with
    | any =>
      rw [Arg.text, Arg.text] at h
      exact absurd (congrArg List.head? h) (type.head?_text_append_ne (by simp [beginsRef]) s)
    | bounded dir bound =>
      rw [Arg.text, Arg.text] at h
      exact absurd (congrArg List.head? h) (type.head?_text_append_ne (not_beginsRef_sign dir) s)
    | exact type' =>
      rw [Arg.text, Arg.text] at h
      obtain ⟨rfl, rfl⟩ := Ref.told type type' s t trivial trivial h
      exact ⟨rfl, rfl⟩

end

end Types

/-! ## Headers -/

section Headers

theorem Bounds.told (b : Bounds) : ToldBy Bounds.text (fun r => r.head? ≠ some ':') b := by
  intro b' s t hs ht h
  have hrefs : ∀ refs : List Ref, ∀ r ∈ refs, ToldBy Ref.text anything r := fun _ r _ => r.told
  cases b with
  | byClass bound interfaces =>
    cases b' with
    | byClass bound' interfaces' =>
      simp only [Bounds.text, List.append_assoc] at h
      obtain ⟨rfl, hlist⟩ := bound.told bound' _ _ trivial trivial h
      obtain ⟨rfl, rfl⟩ := eq_of_flatMap_sign (hrefs interfaces) (fun _ => trivial) trivial trivial
        hs ht hlist
      exact ⟨rfl, rfl⟩
    | byInterfaces first more =>
      simp only [Bounds.text, List.append_assoc] at h
      exact absurd (congrArg List.head? h) (bound.head?_text_append_ne (by simp [beginsRef]) _)
  | byInterfaces first more =>
    cases b' with
    | byClass bound interfaces =>
      simp only [Bounds.text, List.append_assoc] at h
      exact absurd (congrArg List.head? h).symm
        (bound.head?_text_append_ne (by simp [beginsRef]) _)
    | byInterfaces first' more' =>
      have hlist : (first :: more).flatMap (fun r => ':' :: r.text) ++ s =
          (first' :: more').flatMap (fun r => ':' :: r.text) ++ t := by
        simpa [Bounds.text] using h
      obtain ⟨hmore, rfl⟩ := eq_of_flatMap_sign (hrefs (first :: more)) (fun _ => trivial) trivial
        trivial hs ht hlist
      obtain ⟨rfl, rfl⟩ := List.cons.inj hmore
      exact ⟨rfl, rfl⟩

theorem Param.told (p : Param) : ToldBy Param.text (fun r => r.head? ≠ some ':') p := by
  intro q s t hs ht h
  obtain ⟨name, bounds⟩ := p
  obtain ⟨name', bounds'⟩ := q
  simp only [Param.text, List.append_assoc, List.singleton_append] at h
  obtain ⟨rfl, hrest⟩ := Word.append_colon_inj h
  obtain ⟨rfl, rfl⟩ := bounds.told bounds' s t hs ht hrest
  exact ⟨rfl, rfl⟩

/-- Where a text begins with a header, it does so in one way only. -/
theorem Header.told {header header' : Header} {s t : List Char} (hne : header.params ≠ [])
    (hne' : header'.params ≠ []) (h : header.text ++ s = header'.text ++ t) :
    header = header' ∧ s = t := by
  rw [Header.text, if_neg (by simpa using hne), Header.text, if_neg (by simpa using hne')] at h
  have hlist : header.params.flatMap Param.text ++ '>' :: s =
      header'.params.flatMap Param.text ++ '>' :: t := by
    simpa using h
  have hhead : ∀ p ∈ header.params ++ header'.params, ∀ r, (p.text ++ r).head? ≠ some '>' := by
    intro p hp r
    rw [p.head?_text]
    exact (List.mem_append.1 hp).elim (header.apart p) (header'.apart p)
  obtain ⟨hparams, rfl⟩ := eq_of_flatMap_close (fun p _ => p.told)
    (fun p r => by rw [p.head?_text]; exact p.head?_ne_colon) (fun r => by simp) hhead hlist
  cases header
  cases header'
  cases hparams
  exact ⟨rfl, rfl⟩

end Headers

end Unerase.Form
