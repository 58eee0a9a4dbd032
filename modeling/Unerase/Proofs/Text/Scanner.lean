import Mathlib.Data.List.Basic
import Mathlib.Data.List.Infix

/-!
# Scanners

A reader takes the characters of a text off its front. A scanner does the same with a cursor that
counts the bytes behind it. It looks at one byte at a time, goes on byte by byte, and takes slices
between two byte positions, which fails unless both of them are boundaries of characters. It may
also go back, and nothing about it guarantees that it ends: every loop runs by a clock, and the
scanner hangs when the clock has run out.

A scanner keeps a log of what it does. That the log is `Orderly` says that nothing went wrong on
the way, whether the text was accepted in the end or not.
-/

namespace Unerase.Scan

/-- Where a scanner is: how many bytes are behind it, and how many nested calls it counts. -/
structure Cursor where
  pos : Nat
  depth : Nat
  deriving DecidableEq

/-- What a scanner does, apart from looking at the next byte. -/
inductive Event where
  /-- Goes one byte further. -/
  | moved
  /-- Goes back to an earlier position. -/
  | rewound
  /-- Takes the slice of the text from an earlier position. -/
  | sliced (start : Nat)
  /-- Ends a turn of a loop, which began at the given position, to go on with the next one. -/
  | turned (start : Nat)
  /-- Begins a nested call. -/
  | entered
  /-- Ends a nested call. -/
  | left
  /-- Ends a part of the text that has been read successfully, from the given cursor on. -/
  | finished (start : Cursor)
  deriving DecidableEq

/-- What a scanner did, each time with the cursor afterwards. -/
abbrev Log := List (Event × Cursor)

/-- How often the event is in the log. -/
def Log.count (log : Log) (e : Event) : Nat := (log.map (·.1)).count e

@[simp] theorem Log.count_nil (e : Event) : Log.count [] e = 0 := rfl

@[simp] theorem Log.count_cons (entry : Event × Cursor) (log : Log) (e : Event) :
    Log.count (entry :: log) e = log.count e + if entry.1 = e then 1 else 0 := by
  simp [count, List.count_cons]

@[simp] theorem Log.count_append (log log' : Log) (e : Event) :
    Log.count (log ++ log') e = log.count e + log'.count e := by
  simp [count]

/-- The position is between two characters of the text, or at one of its ends. -/
def Boundary (text : String) (pos : Nat) : Prop := String.Pos.Raw.IsValid text ⟨pos⟩

instance {text : String} {pos : Nat} : Decidable (Boundary text pos) :=
  inferInstanceAs (Decidable (String.Pos.Raw.IsValid ..))

/-- The log of a scanner with which nothing went wrong. -/
structure Orderly (text : String) (log : Log) : Prop where
  /-- No position is outside of the text. -/
  within : ∀ e ∈ log, e.2.pos ≤ text.utf8ByteSize
  /-- As long as the scanner does not go back, each position is behind those before it. -/
  onward : ∀ pass, pass <:+: log → (∀ e ∈ pass, e.1 ≠ .rewound) →
    (pass.map (·.2.pos)).Pairwise (· ≤ ·)
  /-- Slices are taken between boundaries of characters. -/
  sliced : ∀ e ∈ log, ∀ start, e.1 = .sliced start →
    start ≤ e.2.pos ∧ Boundary text start ∧ Boundary text e.2.pos
  /-- A loop that goes on has come further since its last turn. -/
  turned : ∀ e ∈ log, ∀ start, e.1 = .turned start → start < e.2.pos
  /-- Behind a part that has been read, as many calls are counted as in front of it. -/
  finished : ∀ e ∈ log, ∀ start, e.1 = .finished start → e.2.depth = start.depth
  /-- The calls that are counted are those that have begun and not ended. -/
  counted : ∀ past e, past ++ [e] <+: log →
    Log.count (past ++ [e]) .entered = Log.count (past ++ [e]) .left + e.2.depth
  /-- There are at most 300 of them. -/
  bounded : ∀ e ∈ log, e.2.depth ≤ 300

/-! ## Scanners and what they are made of -/

/-- What becomes of a scanner: it yields a value, rejects the text, breaks off because a slice was
not possible, or hangs. -/
inductive Outcome (α : Type) where
  | read (a : α)
  | rejected
  | broken
  | hung

/-- What became of a scanner, where it stopped, and what it did until then. -/
structure Run (α : Type) where
  outcome : Outcome α
  cursor : Cursor
  log : Log

variable {α β σ : Type}

/-- Goes on with what was read, if something was. -/
def Run.andThen (run : Run α) (next : α → Cursor → Run β) : Run β :=
  match run.outcome with
  | .read a =>
    let rest := next a run.cursor
    ⟨rest.outcome, rest.cursor, run.log ++ rest.log⟩
  | .rejected => ⟨.rejected, run.cursor, run.log⟩
  | .broken => ⟨.broken, run.cursor, run.log⟩
  | .hung => ⟨.hung, run.cursor, run.log⟩

/-- Scans a text from a cursor on. -/
def Scanner (α : Type) := String → Cursor → Run α

instance : Monad Scanner where
  pure a := fun _ c => ⟨.read a, c, []⟩
  bind scan next := fun text c => (scan text c).andThen fun a => next a text

/-- Rejects the text. -/
def reject : Scanner α := fun _ c => ⟨.rejected, c, []⟩

/-- Does not end. -/
def hang : Scanner α := fun _ c => ⟨.hung, c, []⟩

/-- Does one thing. -/
def act (e : Event) (effect : Cursor → Cursor) : Scanner Unit := fun _ c =>
  ⟨.read (), effect c, [(e, effect c)]⟩

/-- The next byte, as the character of this number. -/
def nextByte (text : String) (pos : Nat) : Option Char := text.toByteArray[pos]?.map Char.ofUInt8

/-- Looks at the next byte, if there is one. -/
def peek : Scanner (Option Char) := fun text c => ⟨.read (nextByte text c.pos), c, []⟩

/-- Looks whether the text ends. -/
def atEnd : Scanner Bool := fun text c => ⟨.read (text.utf8ByteSize ≤ c.pos), c, []⟩

/-- Looks where it is. -/
def position : Scanner Nat := fun _ c => ⟨.read c.pos, c, []⟩

/-- Goes one byte further. -/
def advance : Scanner Unit := act .moved fun c => { c with pos := c.pos + 1 }

/-- Goes back to a position. -/
def rewind (start : Nat) : Scanner Unit := act .rewound fun c => { c with pos := start }

/-- Takes the byte if it is the next one. -/
def eat (b : Char) : Scanner Bool := do
  if (← peek) = some b then
    advance
    pure true
  else
    pure false

/-- Takes the byte, which has to be the next one. -/
def expect (b : Char) : Scanner Unit := do
  if ← eat b then pure () else reject

/-- Rejects the text unless it ends. -/
def expectEnd : Scanner Unit := do
  if ← atEnd then pure () else reject

/-- The characters between two positions, which have to be boundaries. -/
def charsBetween (text : String) (start stop : Nat) : Option (List Char) :=
  if h : start ≤ stop ∧ Boundary text start ∧ Boundary text stop then
    some (String.extract (⟨⟨start⟩, h.2.1⟩ : text.Pos) ⟨⟨stop⟩, h.2.2⟩).toList
  else none

/-- Takes the slice of the text from an earlier position, and breaks off if this is not possible. -/
def slice (start : Nat) : Scanner (List Char) := fun text c =>
  match charsBetween text start c.pos with
  | some chars => ⟨.read chars, c, [(.sliced start, c)]⟩
  | none => ⟨.broken, c, [(.sliced start, c)]⟩

/-- Takes turns until one of them yields a result, at most as many as the clock allows. Other turns
yield a state for the next one. -/
def loop (turn : σ → Scanner (σ ⊕ β)) : Nat → σ → Scanner β
  | 0, _ => hang
  | clock + 1, state => do
    let start ← position
    match ← turn state with
    | .inl state =>
      act (.turned start) id
      loop turn clock state
    | .inr result => pure result

/-- Scans as a nested call, unless there are too many of them already. -/
def nested (limit : Nat) (scan : Scanner α) : Scanner α := fun text c =>
  if limit ≤ c.depth then ⟨.rejected, c, []⟩
  else
    let inside : Cursor := { c with depth := c.depth + 1 }
    let run := scan text inside
    let outside := { run.cursor with depth := run.cursor.depth - 1 }
    ⟨run.outcome, outside, (.entered, inside) :: (run.log ++ [(.left, outside)])⟩

/-- Scans a part of the text. -/
def part (scan : Scanner α) : Scanner α := fun text c =>
  let run := scan text c
  match run.outcome with
  | .read _ => { run with log := run.log ++ [(.finished c, run.cursor)] }
  | _ => run

/-! ## Loops -/

/-- One turn of the loop that looks for the end of a name. -/
def nameTurn (ends : Char → Bool) (_ : Unit) : Scanner (Unit ⊕ Unit) := do
  match ← peek with
  | none => reject
  | some b =>
    if ends b then
      pure (.inr ())
    else
      advance
      pure (.inl ())

/-- Takes the bytes before the first one at which a name ends. There is at least one, and the end
has to come. -/
def name (clock : Nat) (ends : Char → Bool) : Scanner (List Char) := part do
  let start ← position
  loop (nameTurn ends) clock ()
  if (← position) = start then reject else slice start

/-- One turn of the loop over a list that is closed by a mark. -/
def tillTurn (close : Char) (item : Scanner α) (items : List α) :
    Scanner (List α ⊕ List α) := do
  if ← eat close then
    pure (.inr items)
  else
    let a ← item
    pure (.inl (items ++ [a]))

/-- Scans items until it can take the closing mark. -/
def listTill (clock : Nat) (close : Char) (item : Scanner α) : Scanner (List α) :=
  loop (tillTurn close item) clock []

/-- Scans a list between two marks, which is not empty. -/
def enclosed (clock : Nat) (opening close : Char) (item : Scanner α) : Scanner (List α) := do
  expect opening
  let items ← listTill clock close item
  if items.isEmpty then reject else pure items

/-- One turn of the loop over items that are announced by a sign. -/
def afterTurn (sign : Char) (item : Scanner α) (items : List α) :
    Scanner (List α ⊕ List α) := do
  if ← eat sign then
    let a ← item
    pure (.inl (items ++ [a]))
  else
    pure (.inr items)

/-- Scans an item for each sign that comes next, behind the items that are there already. -/
def listAfter (clock : Nat) (sign : Char) (item : Scanner α) (items : List α) :
    Scanner (List α) :=
  loop (afterTurn sign item) clock items

/-- One turn of the loop over the items up to the end of the text. -/
def toEndTurn (item : Scanner α) (items : List α) : Scanner (List α ⊕ List α) := do
  if ← atEnd then
    pure (.inr items)
  else
    let a ← item
    pure (.inl (items ++ [a]))

/-- Scans items until the text ends. -/
def listToEnd (clock : Nat) (item : Scanner α) : Scanner (List α) :=
  loop (toEndTurn item) clock []

/-! ## Traces -/

/-- An event that keeps order, with the cursors before and after it. -/
inductive Step (text : String) (c : Cursor) : Event → Cursor → Prop where
  | moved (h : c.pos < text.utf8ByteSize) : Step text c .moved { c with pos := c.pos + 1 }
  | rewound (start : Nat) (h : start ≤ c.pos) : Step text c .rewound { c with pos := start }
  | sliced (start : Nat) (h : start ≤ c.pos) (hstart : Boundary text start)
      (hpos : Boundary text c.pos) : Step text c (.sliced start) c
  | turned (start : Nat) (h : start < c.pos) : Step text c (.turned start) c
  | entered (h : c.depth < 300) : Step text c .entered { c with depth := c.depth + 1 }
  | left (depth : Nat) (h : c.depth = depth + 1) : Step text c .left { c with depth := depth }
  | finished (start : Cursor) (h : c.depth = start.depth) : Step text c (.finished start) c

/-- A log of events that keep order, which lead from one cursor to another. -/
inductive Trace (text : String) : Cursor → Log → Cursor → Prop where
  | nil (c : Cursor) : Trace text c [] c
  | cons {c c' c'' : Cursor} {e : Event} {log : Log} (h : Step text c e c')
      (hlog : Trace text c' log c'') : Trace text c ((e, c') :: log) c''

section Trace

variable {text : String} {c c' c'' : Cursor} {e : Event} {log log' : Log}

theorem Step.trace (h : Step text c e c') : Trace text c [(e, c')] c' := .cons h (.nil c')

theorem Trace.append (h : Trace text c log c') (h' : Trace text c' log' c'') :
    Trace text c (log ++ log') c'' := by
  induction h with
  | nil => exact h'
  | cons hstep _ ih => exact .cons hstep (ih h')

theorem Trace.of_append (h : Trace text c (log ++ log') c'') :
    ∃ c', Trace text c log c' ∧ Trace text c' log' c'' := by
  induction log generalizing c with
  | nil => exact ⟨c, .nil c, h⟩
  | cons entry log ih =>
    cases h with
    | cons hstep hlog =>
      obtain ⟨c', hleft, hright⟩ := ih hlog
      exact ⟨c', .cons hstep hleft, hright⟩

/-- Each event of a trace is a step. -/
theorem Trace.step_of_mem (h : Trace text c log c') {entry : Event × Cursor} (hmem : entry ∈ log) :
    ∃ before, Step text before entry.1 entry.2 := by
  induction h with
  | nil => cases hmem
  | cons hstep _ ih =>
    rcases List.mem_cons.1 hmem with rfl | hmem
    · exact ⟨_, hstep⟩
    · exact ih hmem

/-- What holds at the beginning and is kept by each step holds all the time. -/
theorem Trace.invariant (h : Trace text c log c') (P : Cursor → Prop) (hstart : P c)
    (hstep : ∀ c e c', P c → Step text c e c' → P c') : ∀ entry ∈ log, P entry.2 := by
  induction h with
  | nil => simp
  | cons hfirst _ ih =>
    have hnext := hstep _ _ _ hstart hfirst
    exact List.forall_mem_cons.2 ⟨hnext, ih hnext⟩

theorem Step.pos_le (h : Step text c e c') (hc : c.pos ≤ text.utf8ByteSize) :
    c'.pos ≤ text.utf8ByteSize := by
  cases h <;> first | exact hc | (dsimp only; omega)

theorem Step.depth_le (h : Step text c e c') (hc : c.depth ≤ 300) : c'.depth ≤ 300 := by
  cases h <;> first | exact hc | (dsimp only; omega)

theorem Step.pos_le_pos (h : Step text c e c') (he : e ≠ .rewound) : c.pos ≤ c'.pos := by
  cases h with
  | rewound => exact absurd rfl he
  | moved => exact Nat.le_succ _
  | _ => exact Nat.le_refl _

/-- Without going back, a trace comes to later and later positions. -/
theorem Trace.pairwise (h : Trace text c log c') (hlog : ∀ entry ∈ log, entry.1 ≠ .rewound) :
    (log.map (·.2.pos)).Pairwise (· ≤ ·) ∧ ∀ entry ∈ log, c.pos ≤ entry.2.pos := by
  induction h with
  | nil => simp
  | cons hstep _ ih =>
    obtain ⟨he, hlog⟩ := List.forall_mem_cons.1 hlog
    obtain ⟨hpairwise, hbehind⟩ := ih hlog
    have honward := hstep.pos_le_pos he
    refine ⟨List.pairwise_cons.2 ⟨List.forall_mem_map.2 hbehind, hpairwise⟩,
      List.forall_mem_cons.2 ⟨honward, fun entry hentry => honward.trans (hbehind entry hentry)⟩⟩

/-- The depth is the number of calls that have begun and not ended. -/
theorem Trace.count (h : Trace text c log c') :
    log.count .entered + c.depth = log.count .left + c'.depth := by
  induction h with
  | nil => rfl
  | cons hstep _ ih =>
    rw [Log.count_cons, Log.count_cons]
    cases hstep <;> simp at ih ⊢ <;> omega

/-- The last of the events leads to where the trace ends. -/
theorem Trace.eq_of_concat {c₀ : Cursor} (h : Trace text c₀ (log ++ [(e, c)]) c') : c' = c := by
  obtain ⟨_, -, hlast⟩ := h.of_append
  cases hlast with
  | cons _ hnil =>
    cases hnil
    rfl

/-- A trace through the text from its beginning is orderly. -/
theorem Trace.orderly (h : Trace text ⟨0, 0⟩ log c) : Orderly text log where
  within := h.invariant (·.pos ≤ text.utf8ByteSize) (Nat.zero_le _) fun _ _ _ hc hs => hs.pos_le hc
  bounded := h.invariant (·.depth ≤ 300) (Nat.zero_le _) fun _ _ _ hc hs => hs.depth_le hc
  onward := by
    rintro pass ⟨past, future, rfl⟩ hpass
    obtain ⟨_, hpast, -⟩ := h.of_append
    obtain ⟨_, -, htrace⟩ := hpast.of_append
    exact (htrace.pairwise hpass).1
  sliced := by
    rintro ⟨e, c⟩ hmem start rfl
    obtain ⟨before, hstep⟩ := h.step_of_mem hmem
    cases hstep with
    | sliced _ hle hstart hpos => exact ⟨hle, hstart, hpos⟩
  turned := by
    rintro ⟨e, c⟩ hmem start rfl
    obtain ⟨before, hstep⟩ := h.step_of_mem hmem
    cases hstep with
    | turned _ hlt => exact hlt
  finished := by
    rintro ⟨e, c⟩ hmem start rfl
    obtain ⟨before, hstep⟩ := h.step_of_mem hmem
    cases hstep with
    | finished _ hdepth => exact hdepth
  counted := by
    rintro past ⟨e, c⟩ ⟨future, rfl⟩
    obtain ⟨c', htrace, -⟩ := h.of_append
    obtain rfl := htrace.eq_of_concat
    exact htrace.count

end Trace

end Unerase.Scan
