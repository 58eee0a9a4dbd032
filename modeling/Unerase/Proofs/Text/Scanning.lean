import Unerase.Proofs.Text.Cursor
import Unerase.Proofs.Text.Equations

/-!
# Scanners that keep order

A scanner gives what a reader reads if, from a boundary in front of some characters, it yields the
value that is read off these characters and stops in front of those that are left, or rejects the
text if nothing is read. On its way it only takes steps that keep order. This is inherited along
the ways of building a scanner, each step being added to the log of those before it.
-/

namespace Unerase.Scan

open Text

/-! ## What scanners give -/

variable {α β σ : Type}

/-- The run from the cursor on has kept order, going back no more often than given. It has yielded
the expected value in front of the expected rest, with as many nested calls as before, or has
rejected the text if nothing is expected. -/
structure Run.Gives (run : Run α) (text : String) (c : Cursor) (rewinds : Nat)
    (expected : Option (α × List Char)) : Prop where
  trace : Trace text c run.log run.cursor
  depth : run.cursor.depth = c.depth
  rewinds : run.log.count .rewound ≤ rewinds
  result : match expected with
    | some (a, r) => run.outcome = .read a ∧ run.cursor.Before text r
    | none => run.outcome = .rejected

section Gives

variable {text : String} {c c' : Cursor} {n depth : Nat} {s r : List Char}
  {scan : Scanner α} {next : α → Scanner β} {given : Option (α × List Char)}
  {expected : Option (β × List Char)}

theorem gives_pure {b : β} (h : c.Before text r) (hexpected : expected = some (b, r)) :
    ((pure b : Scanner β) text c).Gives text c n expected where
  trace := .nil c
  depth := rfl
  rewinds := Nat.zero_le n
  result := by
    rw [hexpected]
    exact ⟨rfl, h⟩

theorem gives_reject (hexpected : expected = none) :
    ((reject : Scanner β) text c).Gives text c n expected where
  trace := .nil c
  depth := rfl
  rewinds := Nat.zero_le n
  result := by
    rw [hexpected]
    rfl

/-- One scanner gives what the next one goes on with. -/
theorem Run.Gives.bind {m : Nat} (h : (scan text c).Gives text c m given)
    (hnone : given = none → expected = none)
    (hsome : ∀ a r c', given = some (a, r) → c'.Before text r → c'.depth = c.depth →
      (next a text c').Gives text c' n expected) :
    ((scan >>= next) text c).Gives text c (n + m) expected := by
  obtain ⟨htrace, hdepth, hrewinds, hresult⟩ := h
  show ((scan text c).andThen fun a => next a text).Gives text c (n + m) expected
  rw [Run.andThen]
  cases given with
  | none =>
    obtain rfl := hnone rfl
    rw [show (scan text c).outcome = .rejected from hresult]
    exact ⟨htrace, hdepth, hrewinds.trans (Nat.le_add_left m n), rfl⟩
  | some x =>
    obtain ⟨a, r⟩ := x
    obtain ⟨hread, hbefore⟩ := hresult
    obtain ⟨htrace', hdepth', hrewinds', hresult'⟩ := hsome a r _ rfl hbefore hdepth
    rw [hread]
    refine ⟨htrace.append htrace', hdepth'.trans hdepth, ?_, hresult'⟩
    rw [Log.count_append, Nat.add_comm]
    exact Nat.add_le_add hrewinds' hrewinds

/-- What is done besides is added to the log. -/
theorem gives_act {next : Unit → Scanner β} {e : Event} {effect : Cursor → Cursor} {m : Nat}
    (hstep : Step text c e (effect c)) (hdepth : (effect c).depth = c.depth)
    (hm : (n + if e = .rewound then 1 else 0) = m)
    (h : (next () text (effect c)).Gives text (effect c) n expected) :
    ((act e effect >>= next) text c).Gives text c m expected := by
  obtain ⟨htrace, hdepth', hrewinds, hresult⟩ := h
  refine ⟨.cons hstep htrace, hdepth'.trans hdepth, ?_, hresult⟩
  rw [← hm]
  show Log.count ((e, effect c) :: _) .rewound ≤ _
  rw [Log.count_cons]
  exact Nat.add_le_add_right hrewinds _

/-! ### Single bytes -/

theorem peek_bind (next : Option Char → Scanner β) (text : String) (c : Cursor) :
    (peek >>= next) text c = next (nextByte text c.pos) text c := rfl

theorem position_bind (next : Nat → Scanner β) (text : String) (c : Cursor) :
    (position >>= next) text c = next c.pos text c := rfl

theorem gives_atEnd {next : Bool → Scanner β} (h : c.Before text s)
    (hnext : (next (s = []) text c).Gives text c n expected) :
    ((atEnd >>= next) text c).Gives text c n expected := by
  have hend : decide (text.utf8ByteSize ≤ c.pos) = decide (s = []) := by
    simp only [h.le_pos_iff]
  show (next (decide (text.utf8ByteSize ≤ c.pos)) text c).Gives text c n expected
  rwa [hend]

theorem gives_expectEnd {next : Unit → Scanner β} (h : c.Before text s)
    (hend : ∀ c', s = [] → c'.Before text s → (next () text c').Gives text c' n expected)
    (hmore : s ≠ [] → expected = none) : ((expectEnd >>= next) text c).Gives text c n expected := by
  have hexpect : (expectEnd text c).Gives text c 0 (if s = [] then some ((), s) else none) := by
    refine gives_atEnd h ?_
    by_cases hs : s = []
    · simp only [hs, decide_true, if_true]
      exact gives_pure (hs ▸ h) rfl
    · simp only [hs, decide_false, Bool.false_eq_true, if_false]
      exact gives_reject rfl
  refine hexpect.bind (fun hnone => hmore (by simpa using hnone)) fun _ r c' hsome hc' _ => ?_
  obtain ⟨hs, -, rfl⟩ : s = [] ∧ () = () ∧ s = r := by simpa using hsome
  exact hend c' hs hc'

/-- In front of a character below 128, the scanner may go over it. -/
theorem gives_advance {next : Unit → Scanner β} {x : Char} (hx : x.toNat < 128)
    (h : c.Before text (x :: s))
    (hnext : ∀ c', c'.Before text s → c'.depth = c.depth →
      (next () text c').Gives text c' n expected) :
    ((advance >>= next) text c).Gives text c n expected := by
  have hbytes : bytes [x] = [UInt8.ofNat x.toNat] := by simp [utf8EncodeChar_of_lt hx]
  have hbehind : (⟨c.pos + 1, c.depth⟩ : Cursor).Before text s := by
    have happend := Cursor.Before.append (w := [x]) h
    rwa [hbytes] at happend
  have hpos : c.pos < text.utf8ByteSize := by
    have hle := hbehind.pos_add
    dsimp only at hle
    omega
  exact gives_act (.moved hpos) rfl rfl (hnext _ hbehind rfl)

theorem eat_bind (b : Char) (next : Bool → Scanner β) (text : String) (c : Cursor) :
    (eat b >>= next) text c =
      if nextByte text c.pos = some b then (advance >>= fun _ => next true) text c
      else next false text c := by
  show ((if nextByte text c.pos = some b then (advance >>= fun _ => pure true : Scanner Bool)
    else pure false) text c).andThen (fun a => next a text) = _
  split <;> rfl

theorem gives_eat {next : Bool → Scanner β} {b : Char} (hb : b.toNat < 128) (h : c.Before text s)
    (hyes : ∀ t c', s = b :: t → c'.Before text t → c'.depth = c.depth →
      (next true text c').Gives text c' n expected)
    (hno : s.head? ≠ some b → (next false text c).Gives text c n expected) :
    ((eat b >>= next) text c).Gives text c n expected := by
  rw [eat_bind]
  by_cases hs : s.head? = some b
  · rw [if_pos ((h.nextByte_eq_iff hb).2 hs)]
    obtain ⟨t, rfl⟩ := List.head?_eq_some_iff.1 hs
    exact gives_advance hb h fun c' => hyes t c' rfl
  · rw [if_neg fun hnext => hs ((h.nextByte_eq_iff hb).1 hnext)]
    exact hno hs

theorem gives_expect {next : Unit → Scanner β} {b : Char} (hb : b.toNat < 128)
    (h : c.Before text s)
    (hyes : ∀ t c', s = b :: t → c'.Before text t → c'.depth = c.depth →
      (next () text c').Gives text c' n expected)
    (hno : s.head? ≠ some b → expected = none) :
    ((expect b >>= next) text c).Gives text c n expected := by
  have hexpect : (expect b text c).Gives text c 0
      (if s.head? = some b then some ((), s.tail) else none) := by
    refine gives_eat hb h (fun t c' hs hc' _ => ?_) fun hs => ?_
    · exact gives_pure hc' (by simp [hs])
    · exact gives_reject (if_neg hs)
  refine hexpect.bind (fun hnone => hno (by simpa using hnone)) fun _ r c' hsome hc' hdepth => ?_
  obtain ⟨hs, -, rfl⟩ : s.head? = some b ∧ () = () ∧ s.tail = r := by simpa using hsome
  obtain ⟨t, rfl⟩ := List.head?_eq_some_iff.1 hs
  exact hyes t c' rfl hc' hdepth

/-- Between two cursors in front of characters there is a slice. -/
theorem gives_slice {w : List Char} {expected : Option (List Char × List Char)}
    (h : c.Before text (w ++ r)) (h' : c'.Before text r) (hexpected : expected = some (w, r)) :
    (slice c.pos text c').Gives text c' n expected := by
  obtain ⟨v, hv, hpos⟩ := h.exists_append h' (by simp)
  obtain rfl := List.append_cancel_right hv
  have hstep : Step text c' (.sliced c.pos) c' :=
    .sliced c.pos (by omega) h.boundary h'.boundary
  have hchars := h.charsBetween
  rw [← hpos] at hchars
  rw [slice, hchars, hexpected]
  exact ⟨hstep.trace, rfl, by simp, rfl, h'⟩

/-! ### Parts and calls -/

theorem Run.Gives.part {scan : Scanner β} (h : (scan text c).Gives text c n expected) :
    (part scan text c).Gives text c n expected := by
  obtain ⟨htrace, hdepth, hrewinds, hresult⟩ := h
  rw [Scan.part]
  cases expected with
  | none =>
    have hrejected : (scan text c).outcome = .rejected := hresult
    simp only [hrejected]
    exact ⟨htrace, hdepth, hrewinds, hresult⟩
  | some x =>
    obtain ⟨hread, hbefore⟩ := hresult
    simp only [hread]
    refine ⟨htrace.append (Step.finished c hdepth).trace, hdepth, ?_, rfl, hbefore⟩
    simpa using hrewinds

theorem gives_nested {scan : Scanner β} {limit : Nat} (hlimit : limit ≤ 300)
    (hfull : limit ≤ c.depth → expected = none)
    (h : c.depth < limit → (scan text { c with depth := c.depth + 1 }).Gives text
      { c with depth := c.depth + 1 } n expected) :
    (nested limit scan text c).Gives text c n expected := by
  rw [nested]
  split
  · rename_i hle
    exact gives_reject (hfull hle)
  · rename_i hlt
    obtain ⟨htrace, hdepth, hrewinds, hresult⟩ := h (by omega)
    have henter : Step text c .entered { c with depth := c.depth + 1 } := .entered (by omega)
    have hleave : Step text _ .left _ := .left c.depth hdepth
    have hdepth' : (scan text { c with depth := c.depth + 1 }).cursor.depth - 1 = c.depth := by
      rw [hdepth, Nat.add_sub_cancel]
    dsimp only
    rw [hdepth']
    refine ⟨.cons henter (htrace.append hleave.trace), rfl, by simpa using hrewinds, ?_⟩
    cases expected with
    | none => exact hresult
    | some x => exact ⟨hresult.1, hresult.2.of_pos rfl⟩

end Gives

/-! ## Loops -/

section Loop

variable {text : String} {depth clock : Nat}

/-- From every cursor with this number of nested calls, the scanner gives what is read off the
characters in front of it. -/
def Scans (scan : Scanner α) (text : String) (depth : Nat)
    (read : List Char → Option (α × List Char)) : Prop :=
  ∀ c s, c.Before text s → c.depth = depth → (scan text c).Gives text c 0 (read s)

/-- A loop ends if each turn that goes on leaves fewer characters than it was given. It gives what
satisfies the equation of the turn. -/
theorem scans_loop (read : σ → List Char → Option (β × List Char))
    {turn : σ → Scanner (σ ⊕ β)} {step : σ → List Char → Option ((σ ⊕ β) × List Char)}
    (hturn : ∀ state, Scans (turn state) text depth (step state))
    (hshorter : ∀ state s state' r, step state s = some (.inl state', r) → r.length < s.length)
    (hread : ∀ state s, read state s =
      match step state s with
      | some (.inl state', r) => read state' r
      | some (.inr b, r) => some (b, r)
      | none => none)
    (hclock : text.utf8ByteSize < clock) (state : σ) :
    Scans (loop turn clock state) text depth (read state) := by
  intro c s hc hdepth
  -- each turn takes at least one byte of those in front of the cursor
  replace hclock : (bytes s).length < clock := by
    have hpos := hc.pos_add
    omega
  induction clock generalizing state c s with
  | zero => exact absurd hclock (Nat.not_lt_zero _)
  | succ clock ih =>
    rw [loop, position_bind, hread]
    refine (hturn state c s hc hdepth).bind (fun hstep => by rw [hstep])
      fun result r c' hstep hc' hdepth' => ?_
    rw [hstep]
    cases result with
    | inr b => exact gives_pure hc' rfl
    | inl state' =>
      have hlt := hc.pos_lt hc' (hshorter state s state' r hstep)
      refine gives_act (.turned c.pos hlt) rfl rfl ?_
      refine ih state' c' r hc' (hdepth'.trans hdepth) ?_
      have hpos := hc.pos_add
      have hpos' := hc'.pos_add
      omega

/-! ### Names -/

/-- It is the same whether the end of a name is looked for among the bytes or among the
characters. -/
def EndsByByte (ends : Char → Bool) : Prop :=
  ∀ x, ∀ b ∈ String.utf8EncodeChar x, ends (Char.ofUInt8 b) = ends x

theorem takeWhile_bytes {ends : Char → Bool} (hends : EndsByByte ends) (s : List Char) :
    (bytes s).takeWhile (fun b => !ends (Char.ofUInt8 b)) = bytes (s.takeWhile (!ends ·)) := by
  induction s with
  | nil => rfl
  | cons x s ih =>
    by_cases hx : ends x
    · obtain ⟨b, bs, hb⟩ := List.exists_cons_of_ne_nil (String.utf8EncodeChar_ne_nil (c := x))
      have hend : ends (Char.ofUInt8 b) = true := (hends x b (by simp [hb])).trans hx
      simp [hb, hend, hx]
    · have hall : ∀ b ∈ String.utf8EncodeChar x, (!ends (Char.ofUInt8 b)) = true := fun b hb => by
        simp [hends x b hb, hx]
      rw [bytes_cons, List.takeWhile_append_of_pos hall, ih,
        List.takeWhile_cons_of_pos (by simp [hx]), bytes_cons]

theorem loop_nameTurn_succ (ends : Char → Bool) (c : Cursor) :
    loop (nameTurn ends) (clock + 1) () text c =
      match nextByte text c.pos with
      | none => ⟨.rejected, c, []⟩
      | some b =>
        if ends b then ⟨.read (), c, []⟩
        else
          let next : Cursor := { c with pos := c.pos + 1 }
          let rest := loop (nameTurn ends) clock () text next
          ⟨rest.outcome, rest.cursor, (.moved, next) :: (.turned c.pos, next) :: rest.log⟩ := by
  rw [loop, position_bind]
  show ((nameTurn ends () text c).andThen _) = _
  rw [nameTurn, peek_bind]
  cases nextByte text c.pos with
  | none => rfl
  | some b => by_cases hend : ends b = true <;> simp only [hend] <;> rfl

/-- The loop over the bytes of a name goes over those at which it does not end. -/
theorem loop_nameTurn (ends : Char → Bool) {bs : List UInt8} {c : Cursor}
    (hbs : (bytes text.toList).drop c.pos = bs) (hclock : bs.length < clock) :
    let w := bs.takeWhile fun b => !ends (Char.ofUInt8 b)
    let stop : Cursor := { c with pos := c.pos + w.length }
    let run := loop (nameTurn ends) clock () text c
    run.outcome = (if w = bs then .rejected else .read ()) ∧ run.cursor = stop ∧
      Trace text c run.log stop ∧ run.log.count .rewound = 0 := by
  induction bs generalizing c clock with
  | nil =>
    obtain ⟨clock, rfl⟩ := Nat.exists_eq_succ_of_ne_zero (Nat.ne_zero_of_lt hclock)
    have hnext : nextByte text c.pos = none := by
      rw [nextByte_eq, ← List.head?_drop, hbs]
      rfl
    simp only [loop_nameTurn_succ, hnext]
    exact ⟨rfl, rfl, .nil c, rfl⟩
  | cons b bs ih =>
    obtain ⟨clock, rfl⟩ := Nat.exists_eq_succ_of_ne_zero (Nat.ne_zero_of_lt hclock)
    have hnext : nextByte text c.pos = some (Char.ofUInt8 b) := by
      rw [nextByte_eq, ← List.head?_drop, hbs]
      rfl
    simp only [loop_nameTurn_succ, hnext]
    by_cases hend : ends (Char.ofUInt8 b) = true
    · simp only [hend, Bool.not_true, Bool.false_eq_true, not_false_eq_true,
        List.takeWhile_cons_of_neg, if_true]
      exact ⟨by simp, rfl, .nil c, rfl⟩
    · have hpos : c.pos < text.utf8ByteSize := by
        have hlength := congrArg List.length hbs
        rw [List.length_drop, length_bytes, String.ofList_toList, List.length_cons] at hlength
        omega
      have hrest : (bytes text.toList).drop (c.pos + 1) = bs := by
        rw [← List.tail_drop, hbs, List.tail_cons]
      obtain ⟨houtcome, hcursor, htrace, hcount⟩ := ih (c := ⟨c.pos + 1, c.depth⟩) hrest
        (Nat.lt_of_succ_lt_succ hclock)
      simp only [hend, Bool.false_eq_true, if_false, Bool.not_false, List.takeWhile_cons_of_pos,
        List.cons.injEq, true_and, List.length_cons, ← Nat.add_assoc, Nat.add_right_comm _ _ 1]
      refine ⟨houtcome, hcursor, .cons (.moved hpos) (.cons ?_ htrace), by simp [hcount]⟩
      exact .turned c.pos (Nat.lt_succ_self _)

/-- A name is what is read up to where it ends. -/
theorem scans_name {ends : Char → Bool} (hends : EndsByByte ends)
    (hclock : text.utf8ByteSize < clock) :
    Scans (name clock ends) text depth (Reader.run ends).read := by
  intro c s hc _
  obtain ⟨w, r, hw, hr, rfl⟩ : ∃ w r, s.takeWhile (!ends ·) = w ∧ s.dropWhile (!ends ·) = r ∧
      s = w ++ r := ⟨_, _, rfl, rfl, List.takeWhile_append_dropWhile.symm⟩
  have hread : (Reader.run ends).read (w ++ r) = if w = [] ∨ r = [] then none else some (w, r) := by
    simp only [Reader.run, hw, hr, Bool.or_eq_true, List.isEmpty_iff]
  have hbs : (bytes text.toList).drop c.pos = bytes (w ++ r) := by
    obtain ⟨past, htext, hpos⟩ := hc
    rw [htext, bytes_append, hpos, List.drop_left]
  have hlength : (bytes (w ++ r)).length < clock := by
    have hpos := hc.pos_add
    omega
  obtain ⟨houtcome, hcursor, htrace, hcount⟩ := loop_nameTurn ends hbs hlength
  simp only [takeWhile_bytes hends, hw] at houtcome hcursor htrace
  have hloop : (loop (nameTurn ends) clock () text c).Gives text c 0
      (if r = [] then none else some ((), r)) := by
    refine ⟨hcursor ▸ htrace, by rw [hcursor], hcount.le, ?_⟩
    by_cases hnil : r = []
    · simpa [hnil] using houtcome
    · have hne : bytes w ≠ bytes (w ++ r) := by simpa using hnil
      rw [if_neg hne] at houtcome
      rw [if_neg hnil]
      exact ⟨houtcome, hcursor ▸ hc.append⟩
  refine Run.Gives.part ?_
  rw [position_bind]
  refine hloop.bind (fun hnone => ?_) fun _ r' c' hsome hc' _ => ?_
  · rw [hread, if_pos (.inr (by simpa using hnone))]
  · obtain ⟨hnil, -, rfl⟩ : r ≠ [] ∧ () = () ∧ r = r' := by simpa using hsome
    obtain ⟨v, hv, hstop⟩ := hc.exists_append hc' (by simp)
    obtain rfl := List.append_cancel_right hv
    rw [position_bind]
    split
    · rename_i hempty
      have hw : w = [] := by
        rw [← bytes_eq_nil_iff, ← List.length_eq_zero_iff]
        omega
      exact gives_reject (by rw [hread, if_pos (.inl hw)])
    · rename_i hmoved
      have hw : w ≠ [] := by
        rintro rfl
        exact hmoved hstop
      exact gives_slice hc hc' (by rw [hread, if_neg (by simp [hw, hnil])])

/-! ### Lists -/

/-- What a turn of a loop over a list comes to. Either there is another item in front of some
characters, or the loop ends in front of them. -/
def itemStep (p : Reader α) (items : List α) :
    Bool × List Char → Option ((List α ⊕ List α) × List Char)
  | (true, s) => (p.read s).map fun x => (.inl (items ++ [x.1]), x.2)
  | (false, s) => some (.inr items, s)

/-- A loop over a list gives the list that satisfies its equation. -/
theorem scans_items (list : List Char → Option (List α × List Char))
    {turn : List α → Scanner (List α ⊕ List α)} {p : Reader α}
    {plan : List Char → Bool × List Char}
    (hturn : ∀ items, Scans (turn items) text depth fun s => itemStep p items (plan s))
    (hplan : ∀ s, (plan s).2.length ≤ s.length)
    (hlist : ∀ s, list s =
      if (plan s).1 then
        (p.read (plan s).2).bind fun x => (list x.2).map fun y => (x.1 :: y.1, y.2)
      else some ([], (plan s).2))
    (hclock : text.utf8ByteSize < clock) (items : List α) :
    Scans (loop turn clock items) text depth fun s =>
      (list s).map fun x => (items ++ x.1, x.2) := by
  refine scans_loop (fun items s => (list s).map fun x => (items ++ x.1, x.2)) hturn
    (fun items s items' r hstep => ?_) (fun items s => ?_) hclock items
  · have hle := hplan s
    generalize plan s = t at hstep hle
    obtain ⟨_ | _, t⟩ := t
    · cases hstep
    · obtain ⟨x, hx, hsame⟩ := Option.map_eq_some_iff.1 hstep
      cases hsame
      exact (p.shorter hx).trans_le hle
  · rw [hlist s]
    generalize plan s = t
    obtain ⟨_ | _, t⟩ := t
    · simp [itemStep]
    · cases hx : p.read t <;> simp [itemStep, hx, Function.comp_def]

/-- A list up to a closing mark. -/
theorem scans_listTill (close : Char) (hclose : close.toNat < 128) {item : Scanner α} {p : Reader α}
    (hitem : Scans item text depth p.read) (hclock : text.utf8ByteSize < clock) :
    Scans (listTill clock close item) text depth (Reader.listTill p close) := by
  have hturn : ∀ items, Scans (tillTurn close item items) text depth fun s =>
      itemStep p items (if s.head? = some close then (false, s.tail) else (true, s)) := by
    intro items c s hc hdepth
    refine gives_eat hclose hc (fun t c' hs hc' _ => ?_) fun hs => ?_
    · exact gives_pure hc' (by simp [itemStep, hs])
    · refine (hitem c s hc hdepth).bind (fun hnone => ?_) fun a r c' hsome hc' _ => ?_
      · simp [itemStep, hs, hnone]
      · exact gives_pure hc' (by simp [itemStep, hs, hsome])
  have hloop := scans_items (Reader.listTill p close) hturn (fun s => ?_) (fun s => ?_)
    hclock []
  · simpa [listTill] using hloop
  · split <;> simp
  · rw [Reader.listTill_eq]
    split <;> rfl

/-- A list between two marks, which is not empty. -/
theorem scans_enclosed {opening close : Char} (hopening : opening.toNat < 128)
    (hclose : close.toNat < 128) {item : Scanner α} {p : Reader α}
    (hitem : Scans item text depth p.read) (hclock : text.utf8ByteSize < clock) :
    Scans (enclosed clock opening close item) text depth
      ((p.manyTill close).nonempty.after opening).read := by
  intro c s hc hdepth
  rw [Reader.read_after, Reader.read_nonempty]
  refine gives_expect hopening hc (fun t c' hs hc' hdepth' => ?_) fun hs => if_neg hs
  have hread : (p.manyTill close).read t = Reader.listTill p close t := rfl
  rw [if_pos (by simp [hs]), hs, List.tail_cons, hread]
  refine (scans_listTill close hclose hitem hclock c' t hc' (hdepth'.trans hdepth)).bind
    (fun hnone => by rw [hnone]; rfl) fun items r c'' hitems hc'' _ => ?_
  rw [hitems]
  cases items with
  | nil => exact gives_reject rfl
  | cons a items => exact gives_pure hc'' rfl

/-- A list of items that are announced by a sign, behind other items. -/
theorem scans_listAfter (sign : Char) (hsign : sign.toNat < 128) {item : Scanner α} {p : Reader α}
    (hitem : Scans item text depth p.read) (hclock : text.utf8ByteSize < clock) (items : List α) :
    Scans (listAfter clock sign item items) text depth fun s =>
      (Reader.listAfter sign p s).map fun x => (items ++ x.1, x.2) := by
  have hturn : ∀ items, Scans (afterTurn sign item items) text depth fun s =>
      itemStep p items (if s.head? = some sign then (true, s.tail) else (false, s)) := by
    intro items c s hc hdepth
    refine gives_eat hsign hc (fun t c' hs hc' hdepth' => ?_) fun hs => ?_
    · refine (hitem c' t hc' (hdepth'.trans hdepth)).bind (fun hnone => ?_)
        fun a r c' hsome hc' _ => ?_
      · simp [itemStep, hs, hnone]
      · exact gives_pure hc' (by simp [itemStep, hs, hsome])
    · exact gives_pure hc (by simp [itemStep, hs])
  refine scans_items (Reader.listAfter sign p) hturn (fun s => ?_) (fun s => ?_) hclock items
  · split <;> simp
  · rw [Reader.listAfter_eq]
    split <;> rfl

/-- A list up to the end of the text. -/
theorem scans_listToEnd {item : Scanner α} {p : Reader α} (hitem : Scans item text depth p.read)
    (hclock : text.utf8ByteSize < clock) :
    Scans (listToEnd clock item) text depth fun s => (p.listToEnd s).map fun as => (as, []) := by
  have hturn : ∀ items, Scans (toEndTurn item items) text depth fun s =>
      itemStep p items (if s = [] then (false, s) else (true, s)) := by
    intro items c s hc hdepth
    refine gives_atEnd hc ?_
    by_cases hs : s = []
    · simp only [hs, decide_true, if_true]
      exact gives_pure (hs ▸ hc) rfl
    · simp only [hs, decide_false, Bool.false_eq_true, if_false]
      refine (hitem c s hc hdepth).bind (fun hnone => ?_) fun a r c' hsome hc' _ => ?_
      · simp [itemStep, hnone]
      · exact gives_pure hc' (by simp [itemStep, hsome])
  have hloop := scans_items (fun s => (p.listToEnd s).map fun as => (as, [])) hturn
    (fun s => ?_) (fun s => ?_) hclock []
  · simpa [listToEnd, Function.comp_def] using hloop
  · split <;> simp
  · rw [Reader.listToEnd_eq]
    split
    · simp [*]
    · cases p.read s <;> simp [Function.comp_def]

/-! ## Whole texts -/

/-- The first cursor of a text. -/
def start : Cursor := ⟨0, 0⟩

/-- A scanner that has to come to the end of the text yields what takes up the whole of it. -/
theorem Scans.all {scan : Scanner α} {p : Reader α} (h : Scans scan text 0 p.read) (f : α → β) :
    ((scan >>= fun a => expectEnd >>= fun _ => pure (f a)) text start).Gives text start 0
      (((p.all text.toList).map f).map fun b => (b, [])) := by
  rw [Reader.all_eq]
  refine (h start _ (before_start text 0) rfl).bind (fun hnone => by rw [hnone]; rfl)
    fun a r c' hread hc' _ => ?_
  rw [hread]
  refine gives_expectEnd hc' (fun c'' hr hc'' => ?_) fun hr => ?_
  · exact gives_pure hc'' (by simp [hr])
  · simp [hr]

end Loop

end Unerase.Scan
