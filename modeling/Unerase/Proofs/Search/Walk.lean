import Unerase.Proofs.Search

/-!
# Walks round by round

A walk takes one node off its queue in every round and decides what to do with it, until the queue
is empty, the node is what it looks for, or it has no room for another one. Neither the queue nor
what can be reached has to become smaller on the way. What does is the room that is left, and
between two expansions the queue: so every walk that expands only so many nodes ends, whatever graph
it goes over (`exists_ends`). Along with the end it is said what has been put into the queue until
then, which also bounds the number of rounds.
-/

namespace Unerase

universe u

variable {ν : Type u}

/-- What is to be done with a node that was taken off the queue. -/
inductive Visit (ν : Type u) where
  /-- The node is left out. -/
  | skip
  /-- The node is remembered, and nothing is above it. -/
  | note
  /-- The node is remembered, and what is above it goes to the end of the queue. -/
  | expand (above : List ν)
  /-- The node is what the walk looks for. -/
  | found
  /-- There is no room for the node. -/
  | full

/-- How a walk ends. -/
inductive Ending (ν : Type u) where
  | exhausted
  | found (node : ν)
  | full

/-- What a walk has found in the end. -/
def Ending.found? : Ending ν → Option ν
  | .found node => some node
  | _ => none

/-- The state of a walk between two rounds. Remembered and expanded nodes are listed from the latest
to the first. -/
structure Walk (ν : Type u) where
  queue : List ν
  seen : List ν
  expanded : List ν
  /-- All nodes that were ever put into the queue. -/
  queued : List ν
  expanded_sublist : expanded.Sublist seen

namespace Walk

/-- A walk that begins with some nodes in its queue and remembers others from the beginning. -/
def start (seen queue : List ν) : Walk ν := ⟨queue, seen, [], queue, List.nil_sublist seen⟩

/-- The walk goes on with the rest of its queue. -/
def skip (w : Walk ν) (rest : List ν) : Walk ν := { w with queue := rest }

/-- The walk remembers a node and goes on with the rest of its queue. -/
def note (w : Walk ν) (node : ν) (rest : List ν) : Walk ν where
  queue := rest
  seen := node :: w.seen
  expanded := w.expanded
  queued := w.queued
  expanded_sublist := w.expanded_sublist.cons node

/-- The walk remembers a node, and has what is above it behind the rest of its queue. -/
def expand (w : Walk ν) (node : ν) (rest above : List ν) : Walk ν where
  queue := rest ++ above
  seen := node :: w.seen
  expanded := node :: w.expanded
  queued := w.queued ++ above
  expanded_sublist := w.expanded_sublist.cons_cons node

/-- One round: either the walk goes on, or it ends. -/
def round (visit : Walk ν → ν → Visit ν) (w : Walk ν) : Except (Ending ν) (Walk ν) :=
  match w.queue with
  | [] => .error .exhausted
  | node :: rest =>
    match visit w node with
    | .skip => .ok (w.skip rest)
    | .note => .ok (w.note node rest)
    | .expand above => .ok (w.expand node rest above)
    | .found => .error (.found node)
    | .full => .error .full

variable {visit : Walk ν → ν → Visit ν} {w w' u : Walk ν}

/-- A round in which the walk goes on takes the first node off the queue. -/
theorem round_eq_ok (h : w.round visit = .ok w') :
    ∃ node rest, w.queue = node :: rest ∧
      (visit w node = .skip ∧ w' = w.skip rest ∨ visit w node = .note ∧ w' = w.note node rest ∨
        ∃ above, visit w node = .expand above ∧ w' = w.expand node rest above) := by
  unfold round at h
  split at h
  · cases h
  · rename_i node rest hqueue
    refine ⟨node, rest, hqueue, ?_⟩
    split at h <;> rename_i hvisit <;> cases h
    · exact .inl ⟨hvisit, rfl⟩
    · exact .inr (.inl ⟨hvisit, rfl⟩)
    · exact .inr (.inr ⟨_, hvisit, rfl⟩)

/-- The walk ends with an empty queue, or at the first node of the queue. -/
theorem round_eq_error {ending : Ending ν} (h : w.round visit = .error ending) :
    w.queue = [] ∧ ending = .exhausted ∨ ∃ node rest, w.queue = node :: rest ∧
      (visit w node = .found ∧ ending = .found node ∨ visit w node = .full ∧ ending = .full) := by
  unfold round at h
  split at h
  · rename_i hqueue
    cases h
    exact .inl ⟨hqueue, rfl⟩
  · rename_i node rest hqueue
    refine .inr ⟨node, rest, hqueue, ?_⟩
    split at h <;> rename_i hvisit <;> cases h
    · exact .inl ⟨hvisit, rfl⟩
    · exact .inr ⟨hvisit, rfl⟩

/-- The walk leads to a state in so many rounds. -/
inductive Run (visit : Walk ν → ν → Visit ν) : Nat → Walk ν → Walk ν → Prop
  | refl (w : Walk ν) : Run visit 0 w w
  | step {n : Nat} {w w' u : Walk ν} :
    w.round visit = .ok w' → Run visit n w' u → Run visit (n + 1) w u

/-- What every round keeps is kept by a run. -/
theorem Run.keeps {P : Walk ν → Prop} (hstep : ∀ w w', w.round visit = .ok w' → P w → P w')
    {n : Nat} (h : Run visit n w u) (hw : P w) : P u := by
  induction h with
  | refl => exact hw
  | step hround _ ih => exact ih (hstep _ _ hround hw)

/-- Every round takes one node off the queue. -/
theorem Run.length_queued {n : Nat} (h : Run visit n w u) :
    n + u.queue.length + w.queued.length = w.queue.length + u.queued.length := by
  induction h with
  | refl => omega
  | step hround _ ih =>
    obtain ⟨node, rest, hqueue, ⟨-, rfl⟩ | ⟨-, rfl⟩ | ⟨above, -, rfl⟩⟩ := round_eq_ok hround
    · simp only [skip] at ih
      rw [hqueue, List.length_cons]
      omega
    · simp only [note] at ih
      rw [hqueue, List.length_cons]
      omega
    · simp only [expand, List.length_append] at ih
      rw [hqueue, List.length_cons]
      omega

/-- The walk ends after so many rounds in a last state. -/
structure Ends (visit : Walk ν → ν → Visit ν) (rounds : Nat) (w last : Walk ν)
    (ending : Ending ν) : Prop where
  run : Run visit rounds w last
  stop : last.round visit = .error ending

variable [BEq ν] {limit : Nat} {above : ν → List ν}

/-- A walk is within a limit when it remembers no node that it remembers already, expands a node
only while it has expanded fewer than the limit, and then puts into the queue what is above the
node. -/
structure Within (visit : Walk ν → ν → Visit ν) (limit : Nat) (above : ν → List ν) : Prop where
  note : ∀ {w node}, visit w node = .note → w.seen.contains node = false
  expand : ∀ {w node nodes}, visit w node = .expand nodes →
    w.seen.contains node = false ∧ w.expanded.length < limit ∧ nodes = above node

/-- What holds of a walk at any time: no node is remembered twice, no more nodes than the limit are
expanded, and nothing has been put into the queue but what was there at first and what is above
expanded nodes. -/
structure Steady (limit : Nat) (above : ν → List ν) (first w : Walk ν) : Prop where
  distinct : w.seen.Pairwise fun a b => (a == b) = false
  remembered : (w.expanded ++ first.seen).Sublist w.seen
  length_le : w.expanded.length ≤ limit
  queued : w.queued = first.queued ++ w.expanded.reverse.flatMap above

/-- What a walk has cost by its end. The nodes that it has expanded are different from each other
and from those that were remembered from the beginning, and no more than the limit. Nothing was put
into the queue but what was there at first and what is above these nodes, and what was taken off the
queue, one node in every round, had been put there. -/
structure Cost (limit : Nat) (above : ν → List ν) (first last : Walk ν) (rounds : Nat) : Prop where
  distinct : (last.expanded ++ first.seen).Pairwise fun a b => (a == b) = false
  length_le : last.expanded.length ≤ limit
  queued : last.queued = first.queued ++ last.expanded.reverse.flatMap above
  rounds_le : rounds ≤ last.queued.length

theorem pairwise_cons_of_new {seen : List ν} {node : ν} (hnew : seen.contains node = false)
    (h : seen.Pairwise fun a b => (a == b) = false) :
    (node :: seen).Pairwise fun a b => (a == b) = false := by
  refine List.pairwise_cons.2 ⟨fun s hs => ?_, h⟩
  by_contra heq
  rw [List.contains_iff_exists_mem_beq.2 ⟨s, hs, by simpa using heq⟩] at hnew
  cases hnew

theorem Within.steady (hwithin : Within visit limit above) {first : Walk ν}
    (hround : w.round visit = .ok w') (h : Steady limit above first w) :
    Steady limit above first w' := by
  obtain ⟨node, rest, -, ⟨-, rfl⟩ | ⟨hvisit, rfl⟩ | ⟨nodes, hvisit, rfl⟩⟩ := round_eq_ok hround
  · exact ⟨h.distinct, h.remembered, h.length_le, h.queued⟩
  · exact ⟨pairwise_cons_of_new (hwithin.note hvisit) h.distinct, h.remembered.cons node,
      h.length_le, h.queued⟩
  · obtain ⟨hnew, hlt, rfl⟩ := hwithin.expand hvisit
    refine ⟨pairwise_cons_of_new hnew h.distinct, h.remembered.cons_cons node, hlt, ?_⟩
    simp [Walk.expand, h.queued]

/-- A round that goes on leaves less room, or as much room and a shorter queue. -/
theorem Within.decreases (hwithin : Within visit limit above) (hround : w.round visit = .ok w') :
    Prod.Lex (· < ·) (· < ·) (limit - w'.expanded.length, w'.queue.length)
      (limit - w.expanded.length, w.queue.length) := by
  obtain ⟨node, rest, hqueue, ⟨-, rfl⟩ | ⟨-, rfl⟩ | ⟨nodes, hvisit, rfl⟩⟩ := round_eq_ok hround
  · rw [hqueue]
    exact .right _ (Nat.lt_succ_self _)
  · rw [hqueue]
    exact .right _ (Nat.lt_succ_self _)
  · have hlt := (hwithin.expand hvisit).2.1
    refine .left _ _ ?_
    rw [Walk.expand, List.length_cons]
    omega

/-- A walk within a limit ends, from whatever state it begins. -/
theorem Within.exists_ends_of (hwithin : Within visit limit above) (w : Walk ν) :
    ∃ rounds last ending, Ends visit rounds w last ending := by
  cases hround : w.round visit with
  | error ending => exact ⟨0, w, ending, .refl w, hround⟩
  | ok w' =>
    obtain ⟨rounds, last, ending, hends⟩ := hwithin.exists_ends_of w'
    exact ⟨rounds + 1, last, ending, .step hround hends.run, hends.stop⟩
termination_by (limit - w.expanded.length, w.queue.length)
decreasing_by exact hwithin.decreases hround

/-- A walk within a limit ends, and this is what it costs. -/
theorem Within.exists_ends (hwithin : Within visit limit above) {seen : List ν}
    (hseen : seen.Pairwise fun a b => (a == b) = false) (queue : List ν) :
    ∃ rounds last ending, Ends visit rounds (start seen queue) last ending ∧
      Cost limit above (start seen queue) last rounds := by
  obtain ⟨rounds, last, ending, hends⟩ := hwithin.exists_ends_of (start seen queue)
  have hfirst : Steady limit above (start seen queue) (start seen queue) :=
    ⟨hseen, .refl seen, Nat.zero_le limit, (List.append_nil queue).symm⟩
  have hlast := hends.run.keeps (fun _ _ => hwithin.steady) hfirst
  have hlength := hends.run.length_queued
  simp only [start] at hlength
  exact ⟨rounds, last, ending, hends, hlast.distinct.sublist hlast.remembered, hlast.length_le,
    hlast.queued, by omega⟩

end Walk

end Unerase
