import Unerase.Proofs.ClassFile.Reference
import Unerase.Proofs.ClassFile.Scanner
import Unerase.Proofs.Text.Scanning

/-!
# Scanning descriptors and signatures

Each production gives what is read by the production of the same name. For references and lists of
arguments this is by induction on the number of levels that are left, which is the number of nested
calls that may still be made.
-/

namespace Unerase.Scan

open Grammar Text Text.Reader

variable {text : String} {depth clock : Nat} {reference : Scanner JType} {p : Reader JType}
  {arguments : Scanner (List JType)} {args : Reader (List JType)}

/-! ## Single characters -/

theorem beq_ofUInt8 {x a : Char} (ha : a.toNat < 128) {b : UInt8}
    (hb : b ∈ String.utf8EncodeChar x) : (Char.ofUInt8 b == a) = (x == a) :=
  Bool.eq_iff_iff.2 (by simp [ofUInt8_eq_iff ha hb])

theorem endsByByte_beq {a : Char} (ha : a.toNat < 128) : EndsByByte (· == a) :=
  fun _ _ hb => beq_ofUInt8 ha hb

theorem endsByByte_endsSegment : EndsByByte endsSegment := by
  intro x b hb
  simp only [endsSegment]
  rw [beq_ofUInt8 (by decide) hb, beq_ofUInt8 (by decide) hb, beq_ofUInt8 (by decide) hb]

theorem letter_lt (p : Primitive) : p.letter.toNat < 128 := by
  cases p <;> decide

/-- The letter of a primitive type is told by its byte. -/
theorem ofLetter?_congr {x y : Char} (h : ∀ a : Char, a.toNat < 128 → (y = a ↔ x = a)) :
    Primitive.ofLetter? y = Primitive.ofLetter? x := by
  refine Option.ext fun p => ?_
  rw [Primitive.ofLetter?_eq_some_iff, Primitive.ofLetter?_eq_some_iff, eq_comm (b := y),
    eq_comm (b := x), h _ (letter_lt p)]

/-- A type that is announced by a character, which the scanner has already looked at. -/
theorem gives_announced {x : Char} (hx : x.toNat < 128) {scan : Scanner JType}
    (h : Scans scan text depth p.read) (f : JType → JType) {c : Cursor} {s : List Char}
    (hc : c.Before text (x :: s)) (hdepth : c.depth = depth) :
    ((advance >>= fun _ => scan >>= fun type => pure (f type)) text c).Gives text c 0
      (((p.after x).map f).read (x :: s)) := by
  rw [read_map, read_after, if_pos List.head?_cons, List.tail_cons]
  refine gives_advance hx hc fun c' hc' hdepth' => ?_
  refine (h c' s hc' (hdepth'.trans hdepth)).bind (fun hnone => by rw [hnone]; rfl)
    fun type r c'' htype hc'' _ => ?_
  exact gives_pure hc'' (by rw [htype]; rfl)

/-! ## Types -/

theorem scans_fieldType (h : Scans reference text depth p.read) :
    Scans (fieldType reference) text depth (Grammar.fieldType p).read := by
  intro c s hc hdepth
  refine Run.Gives.part ?_
  rw [peek_bind]
  cases s with
  | nil =>
    rw [hc.nextByte_eq_none_iff.2 rfl, read_nil]
    simpa using h c [] hc hdepth
  | cons x s =>
    obtain ⟨y, hy, hsame⟩ := hc.nextByte_cons
    have hletter := ofLetter?_congr hsame
    rw [hy, Option.bind_some, hletter, Grammar.fieldType, read_byFirst_cons]
    cases hx : Primitive.ofLetter? x with
    | none => exact h c (x :: s) hc hdepth
    | some q =>
      obtain ⟨-, rfl⟩ := Primitive.ofLetter?_eq_some_iff.1 hx
      refine gives_advance (letter_lt q) hc fun c' hc' _ => gives_pure hc' ?_
      simp [read_mark]

/-- The classes of a nested class name, up to the `;` that closes the last of them. -/
def segments (args : Reader (List JType)) : Reader (List Segment) :=
  ((Grammar.segment args).chain '.' (Grammar.segment args)).before ';'

theorem read_segments (args : Reader (List JType)) (s : List Char) :
    (segments args).read s = ((Grammar.segment args).read s).bind fun x =>
      if x.2.head? = some '.' then
        ((segments args).read x.2.tail).map fun y => (x.1 :: y.1, y.2)
      else if x.2.head? = some ';' then some ([x.1], x.2.tail)
      else none := by
  rw [segments, read_before, read_chain]
  cases (Grammar.segment args).read s with
  | none => rfl
  | some x =>
    simp only [Option.bind_some]
    rw [listAfter_eq]
    split
    · rw [read_before, read_chain]
      cases (Grammar.segment args).read x.2.tail with
      | none => rfl
      | some y =>
        simp only [Option.bind_some]
        cases Reader.listAfter '.' (Grammar.segment args) y.2 with
        | none => rfl
        | some z =>
          simp only [Option.map_some, Option.bind_some]
          split <;> rfl
    · simp

theorem scans_segment (hargs : Scans arguments text depth args.read)
    (hclock : text.utf8ByteSize < clock) :
    Scans (segment clock arguments) text depth (Grammar.segment args).read := by
  intro c s hc hdepth
  rw [Grammar.segment, read_andIf]
  refine (scans_name endsByByte_endsSegment hclock c s hc hdepth).bind (fun hnone => ?_)
    fun chars r c' hchars hc' hdepth' => ?_
  · simp [hnone]
  · rw [hchars, Option.bind_some, peek_bind]
    by_cases hr : r.head? = some '<'
    · rw [if_pos ((hc'.nextByte_eq_iff (by decide)).2 hr), if_pos hr]
      refine (hargs c' r hc' (hdepth'.trans hdepth)).bind (fun hnone => ?_)
        fun as t c'' has hc'' _ => ?_
      · simp [hnone]
      · exact gives_pure hc'' (by simp [has])
    · rw [if_neg fun hnext => hr ((hc'.nextByte_eq_iff (by decide)).1 hnext), if_neg hr]
      exact gives_pure hc' rfl

/-- What a turn of the loop over a nested class name comes to. -/
def segmentStep (args : Reader (List JType)) (segments : List Segment) (s : List Char) :
    Option ((List Segment ⊕ List Segment) × List Char) :=
  ((Grammar.segment args).read s).bind fun x =>
    if x.2.head? = some '.' then some (.inl (segments ++ [x.1]), x.2.tail)
    else if x.2.head? = some ';' then some (.inr (segments ++ [x.1]), x.2.tail)
    else none

theorem scans_segmentTurn (hargs : Scans arguments text depth args.read)
    (hclock : text.utf8ByteSize < clock) (segments : List Segment) :
    Scans (segmentTurn clock arguments segments) text depth (segmentStep args segments) := by
  intro c s hc hdepth
  refine (scans_segment hargs hclock c s hc hdepth).bind (fun hnone => ?_)
    fun last r c' hlast hc' _ => ?_
  · simp [segmentStep, hnone]
  refine gives_eat (by decide) hc' (fun t c'' hr hc'' _ => ?_) fun hdot => ?_
  · exact gives_pure hc'' (by simp [segmentStep, hlast, hr])
  refine gives_expect (by decide) hc' (fun t c'' hr hc'' _ => ?_) fun hsemicolon => ?_
  · exact gives_pure hc'' (by simp [segmentStep, hlast, hr])
  · simp [segmentStep, hlast, hdot, hsemicolon]

theorem scans_segments (hargs : Scans arguments text depth args.read)
    (hclock : text.utf8ByteSize < clock) :
    Scans (loop (segmentTurn clock arguments) clock []) text depth (segments args).read := by
  have hloop := scans_loop
    (fun before s => ((segments args).read s).map fun x => (before ++ x.1, x.2))
    (scans_segmentTurn hargs hclock) (fun before s before' r hstep => ?_) (fun before s => ?_)
    hclock []
  · simpa using hloop
  · obtain ⟨x, hx, hstep⟩ := Option.bind_eq_some_iff.1 hstep
    have hlt := (Grammar.segment args).shorter hx
    split at hstep
    · cases hstep
      rw [List.length_tail]
      omega
    · split at hstep <;> cases hstep
  · rw [read_segments, segmentStep]
    cases (Grammar.segment args).read s with
    | none => rfl
    | some x =>
      simp only [Option.bind_some]
      split
      · simp [Function.comp_def]
      · split <;> simp

theorem scans_classType (hargs : Scans arguments text depth args.read)
    (hclock : text.utf8ByteSize < clock) :
    Scans (classType clock arguments) text depth (Grammar.classType args).read := by
  intro c s hc hdepth
  refine Run.Gives.part ?_
  have hread : (Grammar.classType args).read s = if s.head? = some 'L' then
      ((segments args).read s.tail).map fun x => (classOfSegments x.1, x.2) else none := by
    rw [Grammar.classType, read_map, read_after, segments]
    split <;> rfl
  rw [hread]
  refine gives_expect (by decide) hc (fun t c' hs hc' hdepth' => ?_) fun hs => if_neg hs
  refine (scans_segments hargs hclock c' t hc' (hdepth'.trans hdepth)).bind (fun hnone => ?_)
    fun all r c'' hall hc'' _ => ?_
  · simp [hs, hnone]
  · exact gives_pure hc'' (by simp [hs, hall])

theorem scans_typeVariable (d : Dialect) (hclock : text.utf8ByteSize < clock) :
    Scans (typeVariable clock d) text depth (Grammar.typeVariable d).read := by
  intro c s hc hdepth
  cases d with
  | descriptor => exact gives_reject rfl
  | signature resolve =>
    refine Run.Gives.part ?_
    rw [Grammar.typeVariable, read_filterMap, read_after, read_before]
    refine gives_expect (by decide) hc (fun t c' hs hc' hdepth' => ?_) fun hs => by simp [hs]
    refine (scans_name (endsByByte_beq (by decide)) hclock c' t hc' (hdepth'.trans hdepth)).bind
      (fun hnone => by simp [hs, hnone]) fun chars r c'' hchars hc'' _ => ?_
    refine gives_expect (by decide) hc'' (fun t' c''' hr hc''' _ => ?_) fun hr => ?_
    · cases htype : resolve (String.ofList chars) with
      | none => exact gives_reject (by simp [hs, hchars, hr, htype])
      | some type => exact gives_pure hc''' (by simp [hs, hchars, hr, htype])
    · simp [hs, hchars, hr]

/-- Where no type variable begins, none is read. -/
theorem read_typeVariable_of_ne {d : Dialect} {x : Char} (hx : x ≠ 'T') (s : List Char) :
    (Grammar.typeVariable d).read (x :: s) = none := by
  cases d with
  | descriptor => rfl
  | signature resolve => simp [Grammar.typeVariable, read_filterMap, read_after, hx]

theorem referenceBy_of_ne (d : Dialect) (inner : Calls) {y : Char} (hL : y ≠ 'L')
    (hopen : y ≠ '[') (hT : y ≠ 'T') : referenceBy clock d inner (some y) = reject := by
  unfold referenceBy
  split <;> simp_all

theorem scans_referenceOver (d : Dialect) {inner : Calls} {level : Level}
    (href : Scans inner.reference text depth level.reference.read)
    (hargs : Scans inner.arguments text depth level.arguments.read)
    (hclock : text.utf8ByteSize < clock) :
    Scans (referenceOver clock d inner) text depth (Grammar.referenceOver d level).read := by
  intro c s hc hdepth
  unfold referenceOver
  rw [peek_bind]
  cases s with
  | nil =>
    rw [hc.nextByte_eq_none_iff.2 rfl]
    exact gives_reject rfl
  | cons x s =>
    obtain ⟨y, hy, hsame⟩ := hc.nextByte_cons
    rw [hy, Grammar.referenceOver, read_byFirst_cons]
    split
    · obtain rfl : y = 'L' := (hsame _ (by decide)).2 rfl
      exact scans_classType hargs hclock c _ hc hdepth
    · obtain rfl : y = '[' := (hsame _ (by decide)).2 rfl
      exact gives_announced (by decide) (scans_fieldType href) .array hc hdepth
    · rename_i hL hopen
      by_cases hT : x = 'T'
      · subst hT
        obtain rfl : y = 'T' := (hsame _ (by decide)).2 rfl
        exact scans_typeVariable d hclock c _ hc hdepth
      · rw [read_typeVariable_of_ne hT, referenceBy_of_ne]
        · exact gives_reject rfl
        · exact fun h => hL ((hsame _ (by decide)).1 h)
        · exact fun h => hopen ((hsame _ (by decide)).1 h)
        · exact fun h => hT ((hsame _ (by decide)).1 h)

theorem argumentBy_of_ne (reference : Scanner JType) {y : Char} (hstar : y ≠ '*') (hplus : y ≠ '+')
    (hminus : y ≠ '-') : argumentBy reference (some y) = reference := by
  unfold argumentBy
  split <;> simp_all

theorem scans_argument (href : Scans reference text depth p.read) :
    Scans (argument reference) text depth (Grammar.argument p).read := by
  intro c s hc hdepth
  unfold argument
  rw [peek_bind]
  cases s with
  | nil =>
    rw [hc.nextByte_eq_none_iff.2 rfl]
    exact gives_reject rfl
  | cons x s =>
    obtain ⟨y, hy, hsame⟩ := hc.nextByte_cons
    rw [hy, Grammar.argument, read_byFirst_cons]
    split
    · obtain rfl : y = '*' := (hsame _ (by decide)).2 rfl
      exact gives_advance (by decide) hc fun c' hc' _ => gives_pure hc' (by simp [read_mark])
    · obtain rfl : y = '+' := (hsame _ (by decide)).2 rfl
      exact gives_announced (by decide) href (.bounded .upper) hc hdepth
    · obtain rfl : y = '-' := (hsame _ (by decide)).2 rfl
      exact gives_announced (by decide) href (.bounded .lower) hc hdepth
    · rename_i hstar hplus hminus
      rw [argumentBy_of_ne]
      · exact href c (x :: s) hc hdepth
      · exact fun h => hstar ((hsame _ (by decide)).1 h)
      · exact fun h => hplus ((hsame _ (by decide)).1 h)
      · exact fun h => hminus ((hsame _ (by decide)).1 h)

theorem scans_argumentsOver (resolve : String → Option JType) {inner : Calls} {level : Level}
    (href : Scans inner.reference text depth level.reference.read)
    (hclock : text.utf8ByteSize < clock) :
    Scans (argumentsOver clock inner) text depth
      (Grammar.argumentsOver (.signature resolve) level).read :=
  scans_enclosed (by decide) (by decide) (scans_argument href) hclock

/-- With as many calls to come as there are levels left, references and lists of arguments are
scanned as they are read. A call for which no level is left is never made, so it does not matter
that there could be more of them. -/
theorem scans_calls (d : Dialect) (hclock : text.utf8ByteSize < clock) {room count : Nat}
    (hroom : room + depth = maxNesting) (hcount : room < count) :
    Scans (calls clock d count).reference text depth (level d room).reference.read ∧
      Scans (calls clock d count).arguments text depth (level d room).arguments.read := by
  have hlimit : maxNesting ≤ 300 := Nat.le_refl _
  induction room generalizing count depth with
  | zero =>
    obtain ⟨count, rfl⟩ := Nat.exists_eq_succ_of_ne_zero (Nat.ne_zero_of_lt hcount)
    constructor
    · intro c s hc hdepth
      exact (gives_nested hlimit (fun _ => rfl) fun hlt => by omega).part
    · intro c s hc hdepth
      cases d with
      | descriptor => exact gives_reject rfl
      | signature resolve =>
        exact (gives_nested hlimit (fun _ => rfl) fun hlt => by omega).part
  | succ room ih =>
    obtain ⟨count, rfl⟩ := Nat.exists_eq_succ_of_ne_zero (Nat.ne_zero_of_lt hcount)
    obtain ⟨href, hargs⟩ := ih (show room + (depth + 1) = maxNesting by omega)
      (Nat.lt_of_succ_lt_succ hcount)
    constructor
    · intro c s hc hdepth
      refine (gives_nested hlimit (fun hfull => by omega) fun _ => ?_).part
      exact scans_referenceOver d href hargs hclock _ s (hc.of_pos rfl) (by simp [hdepth])
    · intro c s hc hdepth
      cases d with
      | descriptor => exact gives_reject rfl
      | signature resolve =>
        refine (gives_nested hlimit (fun hfull => by omega) fun _ => ?_).part
        exact scans_argumentsOver resolve href hclock _ s (hc.of_pos rfl) (by simp [hdepth])

theorem scans_topCalls (d : Dialect) (hclock : text.utf8ByteSize < clock)
    (hcalls : maxNesting < clock) :
    Scans (topCalls clock d).reference text 0 (top d).reference.read ∧
      Scans (topCalls clock d).arguments text 0 (top d).arguments.read :=
  scans_calls d hclock (Nat.add_zero _) hcalls

/-! ## Headers -/

theorem read_bounds (p : Reader JType) (s : List Char) :
    (Grammar.bounds p).read s =
      if s.head? = some ':' then Reader.listAfter ':' p s
      else
        (p.read s).bind fun x => (Reader.listAfter ':' p x.2).map fun y => (x.1 :: y.1, y.2) := by
  rw [Grammar.bounds, read_chain, listAfter_eq (s := s)]
  cases s with
  | nil => simp
  | cons c s =>
    rw [read_byFirst_cons]
    by_cases hc : c = ':'
    · subst hc
      simp [read_after]
    · have hhead : (c :: s).head? ≠ some ':' := by simpa using hc
      rw [if_neg hhead]
      split
      · contradiction
      · rfl

/-- Where a sign comes next, the list is not empty. -/
theorem ne_nil_of_listAfter {sign : Char} {s r : List Char} {types : List JType}
    (hs : s.head? = some sign) (h : Reader.listAfter sign p s = some (types, r)) : types ≠ [] := by
  rw [listAfter_eq, if_pos hs] at h
  obtain ⟨x, -, h⟩ := Option.bind_eq_some_iff.1 h
  obtain ⟨y, -, h⟩ := Option.map_eq_some_iff.1 h
  cases h
  exact List.cons_ne_nil _ _

/-- There is always a bound to be read, by a class or, where a second `:` comes next, by an
interface. So no parameter is left without any. -/
theorem scans_bounds (href : Scans reference text depth p.read)
    (hclock : text.utf8ByteSize < clock) :
    Scans (bounds clock reference) text depth (Grammar.bounds p).read := by
  have hmore : ∀ first c s, c.Before text s → c.depth = depth →
      (first = [] → s.head? = some ':') →
      ((listAfter clock ':' reference first >>= fun all =>
        if all.isEmpty then pure [.object] else pure all) text c).Gives text c 0
        ((Reader.listAfter ':' p s).map fun x => (first ++ x.1, x.2)) := by
    intro first c s hc hdepth hfirst
    refine (scans_listAfter ':' (by decide) href hclock first c s hc hdepth).bind id
      fun all r c' hall hc' _ => ?_
    obtain ⟨x, hx, hsame⟩ := Option.map_eq_some_iff.1 hall
    cases hsame
    have hne : first ++ x.1 ≠ [] := fun hnil => by
      obtain ⟨hnil, hempty⟩ := List.append_eq_nil_iff.1 hnil
      exact ne_nil_of_listAfter (hfirst hnil) hx hempty
    rw [if_neg (by simpa using hne)]
    exact gives_pure hc' hall
  intro c s hc hdepth
  rw [read_bounds]
  by_cases hs : s.head? = some ':'
  · have hfirst : (classBound reference text c).Gives text c 0 (some ([], s)) := by
      rw [classBound, peek_bind, if_pos ((hc.nextByte_eq_iff (by decide)).2 hs)]
      exact gives_pure hc rfl
    rw [if_pos hs]
    refine hfirst.bind (fun hnone => by cases hnone) fun first r c' hsome hc' hdepth' => ?_
    cases hsome
    simpa using hmore [] c' s hc' (hdepth'.trans hdepth) fun _ => hs
  · have hfirst : (classBound reference text c).Gives text c 0
        ((p.read s).map fun x => ([x.1], x.2)) := by
      rw [classBound, peek_bind,
        if_neg fun hnext => hs ((hc.nextByte_eq_iff (by decide)).1 hnext)]
      refine (href c s hc hdepth).bind (fun hnone => by rw [hnone]; rfl)
        fun bound r c' hbound hc' _ => ?_
      exact gives_pure hc' (by rw [hbound]; rfl)
    rw [if_neg hs]
    refine hfirst.bind (fun hnone => ?_) fun first r c' hsome hc' hdepth' => ?_
    · rw [Option.map_eq_none_iff.1 hnone]
      rfl
    · obtain ⟨x, hx, hsame⟩ := Option.map_eq_some_iff.1 hsome
      cases hsame
      rw [hx]
      exact hmore [x.1] c' x.2 hc' (hdepth'.trans hdepth) fun hnil => by cases hnil

theorem scans_typeParam (href : Scans reference text depth p.read)
    (hclock : text.utf8ByteSize < clock) :
    Scans (typeParam clock reference) text depth (Grammar.typeParam p).read := by
  intro c s hc hdepth
  refine Run.Gives.part ?_
  rw [Grammar.typeParam, read_both, read_before]
  refine (scans_name (endsByByte_beq (by decide)) hclock c s hc hdepth).bind
    (fun hnone => by simp [hnone]) fun chars r c' hchars hc' hdepth' => ?_
  refine gives_expect (by decide) hc' (fun t c'' hr hc'' hdepth'' => ?_) fun hr => ?_
  · refine (scans_bounds href hclock c'' t hc'' ((hdepth''.trans hdepth').trans hdepth)).bind
      (fun hnone => by simp [hchars, hr, hnone]) fun all r' c''' hall hc''' _ => ?_
    exact gives_pure hc''' (by simp [hchars, hr, hall])
  · simp [hchars, hr]

theorem scans_header (href : Scans reference text depth p.read)
    (hclock : text.utf8ByteSize < clock) :
    Scans (header clock reference) text depth (Grammar.header p).read := fun c s hc hdepth =>
  (scans_enclosed (by decide) (by decide) (scans_typeParam href hclock) hclock c s hc hdepth).part

/-- To scan a header again, the scanner goes back once. -/
theorem gives_typeParams (owner : Owner) (scope : List TypeVar) (hclock : text.utf8ByteSize < clock)
    (hcalls : maxNesting < clock) {c : Cursor} {s : List Char} (hc : c.Before text s)
    (hdepth : c.depth = 0) :
    (typeParams clock owner scope text c).Gives text c 1 (Grammar.typeParams owner scope s) := by
  refine Run.Gives.part ?_
  rw [peek_bind, Grammar.typeParams]
  by_cases hs : s.head? = some '<'
  · rw [if_pos ((hc.nextByte_eq_iff (by decide)).2 hs), if_pos hs, position_bind]
    have hnames := scans_header (scans_topCalls .anyVariable hclock hcalls).1 hclock c s hc hdepth
    refine hnames.bind (fun hnone => by rw [hnone]) fun named r c' hnamed hc' hdepth' => ?_
    have hbehind := hc.pos_lt hc' ((Grammar.header _).shorter hnamed)
    rw [hnamed]
    refine gives_act (.rewound c.pos hbehind.le) rfl rfl ?_
    have hbounds := scans_header
      (scans_topCalls (.inScope (scope ++ declared owner (named.map (·.1)))) hclock hcalls).1 hclock
      { c' with pos := c.pos } s (hc.of_pos rfl) (hdepth'.trans hdepth)
    refine hbounds.bind (fun hnone => by dsimp only; rw [hnone])
      fun bounded r' c'' hbounded hc'' _ => ?_
    exact gives_pure hc'' (by dsimp only; rw [hbounded])
  · rw [if_neg fun hnext => hs ((hc.nextByte_eq_iff (by decide)).1 hnext), if_neg hs]
    exact gives_pure hc rfl

/-! ## Methods -/

theorem scans_paramType (href : Scans reference text depth p.read) :
    Scans (paramType reference) text depth (Grammar.fieldType p).read := by
  intro c s hc hdepth
  refine gives_atEnd hc ?_
  cases s with
  | nil => exact gives_reject (read_nil _)
  | cons x s => exact scans_fieldType href c (x :: s) hc hdepth

theorem scans_returnType (href : Scans reference text depth p.read) :
    Scans (returnType reference) text depth (Grammar.returnType p).read := by
  intro c s hc hdepth
  refine gives_eat (by decide) hc (fun t c' hs hc' _ => ?_) fun hs => ?_
  · subst hs
    exact gives_pure hc' (by simp [Grammar.returnType, read_mark])
  · have hread : (Grammar.returnType p).read s = (Grammar.fieldType p).read s := by
      cases s with
      | nil => rw [read_nil, read_nil]
      | cons x s =>
        rw [Grammar.returnType, read_byFirst_cons]
        split
        · exact absurd rfl hs
        · rfl
    rw [hread]
    exact scans_fieldType href c s hc hdepth

theorem scans_methodTypes (href : Scans reference text depth p.read)
    (hclock : text.utf8ByteSize < clock) :
    Scans (methodTypes clock reference) text depth (Grammar.methodTypes p).read := by
  intro c s hc hdepth
  refine Run.Gives.part ?_
  rw [Grammar.methodTypes, read_both, read_after]
  refine gives_expect (by decide) hc (fun t c' hs hc' hdepth' => ?_) fun hs => by simp [hs]
  have hread : ((Grammar.fieldType p).manyTill ')').read t =
    Reader.listTill (Grammar.fieldType p) ')' t := rfl
  rw [if_pos (by simp [hs]), hs, List.tail_cons, hread]
  refine (scans_listTill ')' (by decide) (scans_paramType href) hclock c' t hc'
    (hdepth'.trans hdepth)).bind (fun hnone => by rw [hnone]; rfl)
    fun params r c'' hparams hc'' hdepth'' => ?_
  rw [hparams, Option.bind_some]
  refine (scans_returnType href c'' r hc'' ((hdepth''.trans hdepth').trans hdepth)).bind
    (fun hnone => by rw [hnone]; rfl) fun result r' c''' hresult hc''' _ => ?_
  exact gives_pure hc''' (by rw [hresult]; rfl)

/-! ## Whole texts -/

/-- What becomes of a scanner that does not fail in any other way than by rejecting the text. -/
def Outcome.ofAnswer {α : Type} : Except Failure α → Outcome α
  | .ok a => .read a
  | .error _ => .rejected

/-- The run has ended with the given answer. Nothing went wrong on the way, and the scanner went
back no more often than given. -/
structure Run.Safe {α : Type} (run : Run α) (text : String) (rewinds : Nat)
    (answer : Except Failure α) : Prop where
  outcome : run.outcome = .ofAnswer answer
  orderly : Orderly text run.log
  rewinds : run.log.count .rewound ≤ rewinds

section Whole

variable {α : Type} {run : Run α} {rewinds : Nat} {value : Option α} {failure : Failure}

theorem Run.Gives.safe {answer : Except Failure α}
    (h : run.Gives text start rewinds (value.map fun a => (a, [])))
    (hanswer : Outcome.ofAnswer answer = value.elim .rejected .read) :
    run.Safe text rewinds answer := by
  refine ⟨?_, h.trace.orderly, h.rewinds⟩
  rw [hanswer]
  have hresult := h.result
  cases value with
  | none => exact hresult
  | some a => exact hresult.1

end Whole

section Entries

variable (hclock : text.utf8ByteSize < clock) (hcalls : maxNesting < clock)
include hclock hcalls

theorem safe_fieldDescriptor :
    (fieldDescriptor clock text start).Safe text 0 (JType.ofDescriptor text) := by
  have href := (scans_topCalls .descriptor hclock hcalls).1
  refine ((scans_fieldType href).all id).safe ?_
  rw [JType.ofDescriptor]
  cases (Grammar.fieldType (top .descriptor).reference).all text.toList <;> rfl

theorem safe_methodDescriptor :
    (methodDescriptor clock text start).Safe text 0 (MethodDescriptor.read text) := by
  have href := (scans_topCalls .descriptor hclock hcalls).1
  refine ((scans_methodTypes href hclock).all fun types =>
    MethodDescriptor.mk types.1 types.2).safe ?_
  rw [MethodDescriptor.read]
  cases (Grammar.methodTypes (top .descriptor).reference).all text.toList <;> rfl

theorem safe_fieldSignature (scope : List TypeParam) :
    (fieldSignature clock scope text start).Safe text 0 (JType.ofSignature scope text) := by
  refine ((scans_topCalls _ hclock hcalls).1.all id).safe ?_
  rw [JType.ofSignature]
  cases (top (.inScope (TypeParam.vars scope))).reference.all text.toList <;> rfl

theorem safe_classSignature (owner : String) :
    (classSignature clock owner text start).Safe text 1 (ClassSignature.read owner text) := by
  have hgives : (classSignature clock owner text start).Gives text start 1
      ((ClassSignature.read? owner text.toList).map fun signature => (signature, [])) := by
    rw [ClassSignature.read?]
    refine (gives_typeParams (.ofClass owner) [] hclock hcalls (before_start text 0) rfl).bind
      (fun hnone => by rw [hnone]; rfl) fun params r c hparams hc hdepth => ?_
    rw [hparams]
    have hclass := scans_classType
      (scans_topCalls (.inScope (TypeParam.vars params)) hclock hcalls).2 hclock
    dsimp only
    rw [ClassSignature.supertypes]
    refine (hclass c r hc hdepth).bind (fun hnone => by rw [hnone]; rfl)
      fun superClass r' c' hsuper hc' hdepth' => ?_
    rw [hsuper]
    refine (scans_listToEnd hclass hclock c' r' hc' (hdepth'.trans hdepth)).bind
      (fun hnone => ?_) fun interfaces r'' c'' hinterfaces hc'' _ => ?_
    · simp [Option.map_eq_none_iff.1 hnone]
    · obtain ⟨as, has, hsame⟩ := Option.map_eq_some_iff.1 hinterfaces
      cases hsame
      exact gives_pure hc'' (by simp [has])
  refine hgives.safe ?_
  rw [ClassSignature.read]
  cases ClassSignature.read? owner text.toList <;> rfl

theorem safe_methodSignature (id : MethodRef) (classParams : List TypeParam) :
    (methodSignature clock id classParams text start).Safe text 1
      (MethodSignature.read id classParams text) := by
  have hgives : (methodSignature clock id classParams text start).Gives text start 1
      ((MethodSignature.read? id classParams text.toList).map fun signature =>
        (signature, [])) := by
    rw [MethodSignature.read?]
    refine (gives_typeParams (.ofMethod id) (TypeParam.vars classParams) hclock hcalls
      (before_start text 0) rfl).bind (fun hnone => by rw [hnone]; rfl)
      fun params r c hparams hc hdepth => ?_
    rw [hparams]
    dsimp only
    have href := (scans_topCalls (.inScope (TypeParam.vars classParams ++ TypeParam.vars params))
      hclock hcalls).1
    refine (scans_methodTypes href hclock c r hc hdepth).bind (fun hnone => by rw [hnone]; rfl)
      fun types r' c' htypes hc' hdepth' => ?_
    rw [htypes]
    dsimp only
    rw [listToEnd_after]
    refine (scans_listAfter '^' (by decide) href hclock [] c' r' hc' (hdepth'.trans hdepth)).bind
      (fun hnone => ?_) fun throws r'' c'' hthrows hc'' _ => ?_
    · simp [Option.map_eq_none_iff.1 hnone]
    · obtain ⟨x, hx, hsame⟩ := Option.map_eq_some_iff.1 hthrows
      cases hsame
      rw [hx]
      refine gives_expectEnd hc'' (fun c''' hend hc''' => ?_) fun hmore => ?_
      · exact gives_pure hc''' (by simp [hend])
      · simp [hmore]
  refine hgives.safe ?_
  rw [MethodSignature.read]
  cases MethodSignature.read? id classParams text.toList <;> rfl

end Entries

/-- If the clock allows for more than the bytes of a text and more than 300 nested calls, the
scanners of descriptors and signatures end on this text. They yield what is read of it, or reject it
if nothing is. Nothing goes wrong with them on the way. Only the headers of class and method
signatures are gone over twice. -/
theorem scanners_safe (text : String) (clock : Nat) (hclock : text.utf8ByteSize < clock)
    (hcalls : 300 < clock) :
    (fieldDescriptor clock text start).Safe text 0 (JType.ofDescriptor text) ∧
    (methodDescriptor clock text start).Safe text 0 (MethodDescriptor.read text) ∧
    (∀ scope, (fieldSignature clock scope text start).Safe text 0
      (JType.ofSignature scope text)) ∧
    (∀ owner, (classSignature clock owner text start).Safe text 1
      (ClassSignature.read owner text)) ∧
    ∀ id classParams, (methodSignature clock id classParams text start).Safe text 1
      (MethodSignature.read id classParams text) :=
  ⟨safe_fieldDescriptor hclock hcalls, safe_methodDescriptor hclock hcalls,
    safe_fieldSignature hclock hcalls, safe_classSignature hclock hcalls,
    safe_methodSignature hclock hcalls⟩

/-- The names in the signature are not written in single bytes. -/
theorem scanners_safe_accents :
    let text := "<é:Ljava/lang/Object;>LÀ<Té;>.ß;"
    let run := classSignature 400 "C" text start
    run.outcome = .read ⟨[⟨⟨⟨.ofClass "C", 0⟩, "é"⟩, [.object]⟩], .cls "À$ß" [], []⟩ ∧
    Orderly text run.log ∧ run.log.count .rewound ≤ 1 := by
  intro text run
  obtain ⟨-, -, -, hclass, -⟩ := scanners_safe text 400 (by decide +kernel) (by decide)
  obtain ⟨houtcome, horderly, hrewinds⟩ := hclass "C"
  have hread : ClassSignature.read "C" text =
      .ok ⟨[⟨⟨⟨.ofClass "C", 0⟩, "é"⟩, [.object]⟩], .cls "À$ß" [], []⟩ := by decide +kernel
  rw [hread] at houtcome
  exact ⟨houtcome, horderly, hrewinds⟩

/-- The name of the class is the slice from the second byte to the fourth. -/
example : (fieldSignature 400 [] "Lé;" start).log.filter (fun entry => entry.1 = .sliced 1) =
    [(.sliced 1, ⟨3, 1⟩)] := by decide +kernel

end Unerase.Scan
