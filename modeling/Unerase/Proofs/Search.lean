import Mathlib.Data.List.Basic
import Mathlib.Data.List.Find
import Mathlib.Data.Set.Card
import Unerase.Search

/-!
# Search in level order

A search that never skipped a node would meet the nodes by their distance from the start, and
those of one distance in the order of the ways that lead to them. `explore` skips nodes that are
equal to one it has seen, where "equal" may be coarser than identity, and gives up when its room
is used. Neither changes what is found: if `explore` comes to a node that stops it, this is the
very node at which the unrestricted search stops first (`FirstStop`), and if it comes to none
although it has not used up its room, there is none (`NoStop`).
-/

namespace Unerase

universe u v

variable {ν : Type u} {next : ν → List ν} {stop : ν → Bool}

/-! ## Nodes by their distance -/

/-- The nodes that are the given number of steps away from a list of nodes, each as often as there
are ways to it, in the order of the ways. -/
def atDistance (next : ν → List ν) : Nat → List ν → List ν
  | 0, nodes => nodes
  | n + 1, nodes => atDistance next n (nodes.flatMap next)

@[simp] theorem atDistance_zero (nodes : List ν) : atDistance next 0 nodes = nodes := rfl

theorem atDistance_succ (n : Nat) (nodes : List ν) :
    atDistance next (n + 1) nodes = atDistance next n (nodes.flatMap next) := rfl

@[simp] theorem atDistance_nil (n : Nat) : atDistance next n [] = [] := by
  induction n with
  | zero => rfl
  | succ n ih => exact ih

theorem atDistance_append (n : Nat) (xs ys : List ν) :
    atDistance next n (xs ++ ys) = atDistance next n xs ++ atDistance next n ys := by
  induction n generalizing xs ys with
  | zero => rfl
  | succ n ih => rw [atDistance_succ, List.flatMap_append, ih, atDistance_succ, atDistance_succ]

theorem atDistance_cons (n : Nat) (x : ν) (xs : List ν) :
    atDistance next n (x :: xs) = atDistance next n [x] ++ atDistance next n xs :=
  atDistance_append n [x] xs

/-- The last step of a way may be split off instead of the first. -/
theorem atDistance_succ' (n : Nat) (nodes : List ν) :
    atDistance next (n + 1) nodes = (atDistance next n nodes).flatMap next := by
  induction n generalizing nodes with
  | zero => rfl
  | succ n ih => rw [atDistance_succ, ih, atDistance_succ]

theorem mem_atDistance_iff {n : Nat} {nodes : List ν} {y : ν} :
    y ∈ atDistance next n nodes ↔ ∃ x ∈ nodes, y ∈ atDistance next n [x] := by
  induction nodes with
  | nil => simp
  | cons x rest ih => rw [atDistance_cons, List.mem_append, ih]; simp

/-- What holds of the start and is kept by every step holds at every distance. -/
theorem of_mem_atDistance {P : ν → Prop} (hstep : ∀ x, P x → ∀ y ∈ next x, P y) {n : Nat}
    {nodes : List ν} (hstart : ∀ x ∈ nodes, P x) : ∀ y ∈ atDistance next n nodes, P y := by
  induction n generalizing nodes with
  | zero => exact hstart
  | succ n ih =>
    refine ih fun y hy => ?_
    obtain ⟨x, hx, hy⟩ := List.mem_flatMap.1 hy
    exact hstep x (hstart x hx) y hy

/-- At which distances a node stands does not depend on the order of the steps. -/
theorem mem_atDistance_congr {next' : ν → List ν} (h : ∀ x y, y ∈ next x ↔ y ∈ next' x) {n : Nat}
    {nodes : List ν} {y : ν} : y ∈ atDistance next n nodes ↔ y ∈ atDistance next' n nodes := by
  induction n generalizing y with
  | zero => rfl
  | succ n ih => simp only [atDistance_succ', List.mem_flatMap, ih, h]

/-! ## The first node that stops -/

/-- No node at any distance stops. -/
def NoStop (next : ν → List ν) (stop : ν → Bool) (queue : List ν) : Prop :=
  ∀ n, ∀ x ∈ atDistance next n queue, stop x = false

/-- The node is the first to stop among those of the least distance at which any does. -/
def FirstStop (next : ν → List ν) (stop : ν → Bool) (queue : List ν) (node : ν) : Prop :=
  ∃ n, (∀ m < n, ∀ x ∈ atDistance next m queue, stop x = false) ∧
    (atDistance next n queue).find? stop = some node

theorem FirstStop.stops {queue : List ν} {node : ν} (h : FirstStop next stop queue node) :
    stop node = true := by
  obtain ⟨n, -, hn⟩ := h
  exact List.find?_some hn

theorem FirstStop.not_noStop {queue : List ν} {node : ν} (h : FirstStop next stop queue node) :
    ¬ NoStop next stop queue := by
  intro hno
  have hstop := h.stops
  obtain ⟨n, -, hn⟩ := h
  rw [hno n node (List.mem_of_find?_eq_some hn)] at hstop
  cases hstop

/-- There is at most one first node. -/
theorem FirstStop.unique {queue : List ν} {node node' : ν} (h : FirstStop next stop queue node)
    (h' : FirstStop next stop queue node') : node = node' := by
  have hstop := h.stops
  have hstop' := h'.stops
  obtain ⟨n, hlt, hn⟩ := h
  obtain ⟨n', hlt', hn'⟩ := h'
  have hmem := List.mem_of_find?_eq_some hn
  have hmem' := List.mem_of_find?_eq_some hn'
  rcases Nat.lt_trichotomy n n' with h | rfl | h
  · rw [hlt' n h node hmem] at hstop
    cases hstop
  · rw [hn] at hn'
    exact Option.some.inj hn'
  · rw [hlt n' h node' hmem'] at hstop'
    cases hstop'

theorem firstStop_head {node : ν} (h : stop node = true) (rest : List ν) :
    FirstStop next stop (node :: rest) node :=
  ⟨0, fun _ hm => absurd hm (Nat.not_lt_zero _), by simp [h]⟩

/-! ## Taking a node off the queue -/

/-- A node taken off the queue leaves its successors behind the rest. -/
theorem noStop_cons {node : ν} {rest : List ν} (hnode : stop node = false)
    (h : NoStop next stop (rest ++ next node)) : NoStop next stop (node :: rest) := by
  intro n x hx
  rw [atDistance_cons, List.mem_append] at hx
  rcases hx with hx | hx
  · cases n with
    | zero =>
      obtain rfl : x = node := by simpa using hx
      exact hnode
    | succ n =>
      refine h n x ?_
      rw [atDistance_append, List.mem_append]
      exact .inr (by simpa [atDistance_succ] using hx)
  · refine h n x ?_
    rw [atDistance_append, List.mem_append]
    exact .inl hx

/-- Putting the successors of a node behind the queue, and not in the place of the node, keeps
the order in which the nodes are met. -/
theorem firstStop_cons {node found : ν} {rest : List ν} (hnode : stop node = false)
    (h : FirstStop next stop (rest ++ next node) found) :
    FirstStop next stop (node :: rest) found := by
  obtain ⟨n, hlt, hn⟩ := h
  have hrest : ∀ m < n, ∀ x ∈ atDistance next m rest, stop x = false := fun m hm x hx =>
    hlt m hm x (by rw [atDistance_append]; exact List.mem_append_left _ hx)
  have habove : ∀ m ≤ n, ∀ x ∈ atDistance next m [node], stop x = false := by
    intro m hm x hx
    cases m with
    | zero =>
      obtain rfl : x = node := by simpa using hx
      exact hnode
    | succ m =>
      refine hlt m hm x ?_
      rw [atDistance_append]
      exact List.mem_append_right _ (by simpa [atDistance_succ] using hx)
  have hnone : (atDistance next n [node]).find? stop = none :=
    List.find?_eq_none.2 fun x hx => by simp [habove n (Nat.le_refl n) x hx]
  rw [atDistance_append, List.find?_append] at hn
  cases hfind : (atDistance next n rest).find? stop with
  | some y =>
    -- the first stop is in the rest, at the same distance as before
    rw [hfind] at hn
    refine ⟨n, fun m hm x hx => ?_, ?_⟩
    · rw [atDistance_cons, List.mem_append] at hx
      exact hx.elim (habove m (Nat.le_of_lt hm) x) (hrest m hm x)
    · rw [atDistance_cons, List.find?_append, hnone, hfind]
      exact hn
  | none =>
    -- the first stop is above the node, one step further than before
    rw [hfind, Option.none_or] at hn
    refine ⟨n + 1, fun m hm x hx => ?_, ?_⟩
    · rw [atDistance_cons, List.mem_append] at hx
      rcases hx with hx | hx
      · exact habove m (Nat.le_of_lt_succ hm) x hx
      · rcases Nat.lt_or_ge m n with hmn | hmn
        · exact hrest m hmn x hx
        · obtain rfl : m = n := by omega
          simpa using List.find?_eq_none.1 hfind x hx
    · rw [atDistance_cons, List.find?_append, atDistance_succ]
      simp [hn]

/-! ## Graphs that map into one another -/

section Map

variable {μ : Type v} {next' : μ → List μ} {stop' : μ → Bool} {f : ν → μ} {P : ν → Prop}
  {queue : List ν}

theorem atDistance_map (hkeep : ∀ x, P x → ∀ y ∈ next x, P y)
    (hnext : ∀ x, P x → next' (f x) = (next x).map f) (hqueue : ∀ x ∈ queue, P x) (n : Nat) :
    atDistance next' n (queue.map f) = (atDistance next n queue).map f := by
  induction n generalizing queue with
  | zero => rfl
  | succ n ih =>
    have hstep : (queue.map f).flatMap next' = (queue.flatMap next).map f := by
      rw [List.flatMap_map, List.map_flatMap]
      exact List.flatMap_congr fun x hx => hnext x (hqueue x hx)
    rw [atDistance_succ, atDistance_succ, hstep]
    refine ih fun y hy => ?_
    obtain ⟨x, hx, hy⟩ := List.mem_flatMap.1 hy
    exact hkeep x (hqueue x hx) y hy

/-- If a map of the nodes takes successors to successors and keeps what stops, it takes the first
stop to the first stop. -/
theorem FirstStop.map (hkeep : ∀ x, P x → ∀ y ∈ next x, P y)
    (hnext : ∀ x, P x → next' (f x) = (next x).map f) (hstop : ∀ x, P x → stop' (f x) = stop x)
    (hqueue : ∀ x ∈ queue, P x) {node : ν} (h : FirstStop next stop queue node) :
    FirstStop next' stop' (queue.map f) (f node) := by
  have hP : ∀ n, ∀ x ∈ atDistance next n queue, P x := fun n => of_mem_atDistance hkeep hqueue
  obtain ⟨n, hlt, hn⟩ := h
  refine ⟨n, fun m hm y hy => ?_, ?_⟩
  · rw [atDistance_map hkeep hnext hqueue, List.mem_map] at hy
    obtain ⟨x, hx, rfl⟩ := hy
    rw [hstop x (hP m x hx)]
    exact hlt m hm x hx
  · rw [atDistance_map hkeep hnext hqueue, List.find?_map]
    have hfind : (atDistance next n queue).find? (stop' ∘ f) =
        (atDistance next n queue).find? stop :=
      List.find?_congr fun x hx => hstop x (hP n x hx)
    rw [hfind, hn]
    rfl

/-- Nor does such a map add a stop. -/
theorem NoStop.map (hkeep : ∀ x, P x → ∀ y ∈ next x, P y)
    (hnext : ∀ x, P x → next' (f x) = (next x).map f) (hstop : ∀ x, P x → stop' (f x) = stop x)
    (hqueue : ∀ x ∈ queue, P x) (h : NoStop next stop queue) :
    NoStop next' stop' (queue.map f) := by
  intro n y hy
  rw [atDistance_map hkeep hnext hqueue, List.mem_map] at hy
  obtain ⟨x, hx, rfl⟩ := hy
  rw [hstop x (of_mem_atDistance hkeep hqueue x hx)]
  exact h n x hx

end Map

/-! ## Counting -/

/-- A list in which every node of a kind occurs is no shorter than there are such nodes. -/
theorem encard_le_length {nodes : List ν} {s : Set ν} (h : ∀ x ∈ s, x ∈ nodes) :
    s.encard ≤ nodes.length := by
  classical
  calc s.encard ≤ (nodes.toFinset : Set ν).encard :=
        Set.encard_le_encard fun x hx => by simpa using h x hx
    _ = nodes.toFinset.card := Set.encard_coe_eq_coe_finsetCard _
    _ ≤ nodes.length := by exact_mod_cast List.toFinset_card_le nodes

/-- Nodes of a kind that are listed once each are no more than there are such nodes. -/
theorem length_le_encard {nodes : List ν} {s : Set ν} (hnodup : nodes.Nodup)
    (h : ∀ x ∈ nodes, x ∈ s) : (nodes.length : ℕ∞) ≤ s.encard := by
  classical
  calc (nodes.length : ℕ∞) = nodes.toFinset.card := by rw [List.toFinset_card_of_nodup hnodup]
    _ = (nodes.toFinset : Set ν).encard := (Set.encard_coe_eq_coe_finsetCard _).symm
    _ ≤ s.encard := Set.encard_le_encard fun x hx => h x (by simpa using hx)

section Seen

variable [BEq ν] {seen : List ν}

/-! ## Steps of the search -/

@[simp] theorem explore_nil (room : Nat) : explore next stop room seen [] = [] := by
  cases room <;> simp [explore]

theorem explore_skip {node : ν} (hseen : seen.contains node = true) (room : Nat) (rest : List ν) :
    explore next stop room seen (node :: rest) = explore next stop room seen rest := by
  cases room with
  | zero => rfl
  | succ room => rw [explore, explore, List.dropWhile_cons_of_pos hseen]

theorem explore_take {node : ν} (hnew : seen.contains node = false) (room : Nat) (rest : List ν) :
    explore next stop (room + 1) seen (node :: rest) =
      if stop node then [node]
      else node :: explore next stop room (node :: seen) (rest ++ next node) := by
  rw [explore, List.dropWhile_cons_of_neg (by simp [hnew])]

/-- Every run of the search is made of these steps. -/
theorem explore_induct (next : ν → List ν) (stop : ν → Bool)
    {motive : Nat → List ν → List ν → Prop}
    (full : ∀ seen queue, motive 0 seen queue)
    (done : ∀ room seen, motive (room + 1) seen [])
    (skip : ∀ room seen node rest, seen.contains node = true → motive (room + 1) seen rest →
      motive (room + 1) seen (node :: rest))
    (halt : ∀ room seen node rest, seen.contains node = false → stop node = true →
      motive (room + 1) seen (node :: rest))
    (take : ∀ room seen node rest, seen.contains node = false → stop node = false →
      motive room (node :: seen) (rest ++ next node) → motive (room + 1) seen (node :: rest))
    (room : Nat) (seen queue : List ν) : motive room seen queue := by
  induction room generalizing seen queue with
  | zero => exact full seen queue
  | succ room ih =>
    -- skipping uses no room, so the skipped nodes need an induction of their own
    induction queue with
    | nil => exact done room seen
    | cons node rest ihq =>
      cases hseen : seen.contains node with
      | true => exact skip room seen node rest hseen ihq
      | false =>
        cases hstop : stop node with
        | true => exact halt room seen node rest hseen hstop
        | false => exact take room seen node rest hseen hstop (ih _ _)

/-- With less room the search lists the beginning of what it lists with more. -/
theorem explore_eq_take {room more : Nat} (h : room ≤ more) (seen queue : List ν) :
    explore next stop room seen queue = (explore next stop more seen queue).take room := by
  obtain ⟨extra, rfl⟩ := Nat.exists_eq_add_of_le h
  clear h
  induction room, seen, queue using explore_induct next stop with
  | full seen queue => rfl
  | done room seen => simp
  | skip room seen node rest hseen ih => rw [explore_skip hseen, explore_skip hseen, ih]
  | halt room seen node rest hnew hstop =>
    rw [Nat.add_right_comm, explore_take hnew, explore_take hnew, if_pos hstop, if_pos hstop,
      List.take_succ_cons, List.take_nil]
  | take room seen node rest hnew hstop ih =>
    rw [Nat.add_right_comm, explore_take hnew, explore_take hnew, hstop, if_neg (by simp),
      if_neg (by simp), List.take_succ_cons, ih]

/-- Along a relation two graphs are parallel when related nodes have related successors, one by one,
stop alike, and are told apart alike. -/
structure Parallel {μ : Type v} [BEq μ] (R : ν → μ → Prop) (next : ν → List ν) (stop : ν → Bool)
    (next' : μ → List μ) (stop' : μ → Bool) : Prop where
  next : ∀ {a b}, R a b → List.Forall₂ R (next a) (next' b)
  stop : ∀ {a b}, R a b → stop a = stop' b
  beq : ∀ {a b c d}, R a b → R c d → (a == c) = (b == d)

/-- Searches over parallel graphs list related nodes, one by one. -/
theorem Parallel.forall₂_explore {μ : Type v} [BEq μ] {R : ν → μ → Prop} {next' : μ → List μ}
    {stop' : μ → Bool} (hR : Parallel R next stop next' stop') (room : Nat) {seen' queue' : List μ}
    {queue : List ν} (hqueue : List.Forall₂ R queue queue')
    (hseen : ∀ {a b}, R a b → seen.contains a = seen'.contains b) :
    List.Forall₂ R (explore next stop room seen queue) (explore next' stop' room seen' queue') := by
  induction room, seen, queue using explore_induct next stop generalizing seen' queue' with
  | full seen queue => exact .nil
  | done room seen =>
    cases hqueue
    simp
  | skip room seen node rest hnode ih =>
    cases hqueue with
    | cons hab hrest =>
      rw [explore_skip hnode, explore_skip (hseen hab ▸ hnode)]
      exact ih hrest hseen
  | halt room seen node rest hnew hstop =>
    cases hqueue with
    | cons hab hrest =>
      rw [explore_take hnew, explore_take (hseen hab ▸ hnew), if_pos hstop,
        if_pos (hR.stop hab ▸ hstop)]
      exact .cons hab .nil
  | take room seen node rest hnew hstop ih =>
    cases hqueue with
    | cons hab hrest =>
      rw [explore_take hnew, explore_take (hseen hab ▸ hnew), ← hR.stop hab, hstop]
      refine .cons hab (ih (List.rel_append hrest (hR.next hab)) fun {c d} hcd => ?_)
      rw [List.contains_cons, List.contains_cons, hR.beq hcd hab, hseen hcd]

/-- A search depends neither on the graph beside the nodes that it can come to nor on what else has
been seen. -/
theorem explore_congr {next' : ν → List ν} {P : ν → Prop} (hP : ∀ x, P x → ∀ y ∈ next x, P y)
    (hnext : ∀ x, P x → next x = next' x) (room : Nat) {seen' queue : List ν}
    (hqueue : ∀ x ∈ queue, P x) (hseen : ∀ x, P x → seen.contains x = seen'.contains x) :
    explore next stop room seen queue = explore next' stop room seen' queue := by
  have hparallel : Parallel (fun x y => x = y ∧ P x) next stop next' stop := by
    refine ⟨?_, ?_, ?_⟩
    · rintro x _ ⟨rfl, hx⟩
      rw [← hnext x hx]
      exact List.forall₂_same.2 fun y hy => ⟨rfl, hP x hx y hy⟩
    · rintro x _ ⟨rfl, -⟩
      rfl
    · rintro x _ y _ ⟨rfl, -⟩ ⟨rfl, -⟩
      rfl
  have hlists : List.Forall₂ (fun x y => x = y ∧ P x) (explore next stop room seen queue)
      (explore next' stop room seen' queue) := by
    refine hparallel.forall₂_explore room
      (List.forall₂_same.2 fun x hx => ⟨rfl, hqueue x hx⟩) ?_
    rintro x _ ⟨rfl, hx⟩
    exact hseen x hx
  exact List.forall₂_eq_eq_eq ▸ hlists.imp fun _ _ h => h.1

/-- What the search lists lies at some distance from the queue. -/
theorem mem_explore {room : Nat} {queue : List ν} {x : ν}
    (h : x ∈ explore next stop room seen queue) : ∃ n, x ∈ atDistance next n queue := by
  induction room, seen, queue using explore_induct next stop with
  | full seen queue => simp [explore] at h
  | done room seen => simp at h
  | skip room seen node rest hseen ih =>
    rw [explore_skip hseen] at h
    obtain ⟨n, hn⟩ := ih h
    exact ⟨n, by rw [atDistance_cons]; exact List.mem_append_right _ hn⟩
  | halt room seen node rest hnew hstop =>
    rw [explore_take hnew, if_pos hstop, List.mem_singleton] at h
    exact ⟨0, by simp [h]⟩
  | take room seen node rest hnew hstop ih =>
    rw [explore_take hnew, hstop] at h
    rcases List.mem_cons.1 h with rfl | h
    · exact ⟨0, by simp⟩
    · obtain ⟨n, hn⟩ := ih h
      rw [atDistance_append, List.mem_append] at hn
      rcases hn with hn | hn
      · exact ⟨n, by rw [atDistance_cons]; exact List.mem_append_right _ hn⟩
      · refine ⟨n + 1, ?_⟩
        rw [atDistance_cons, atDistance_succ]
        exact List.mem_append_left _ (by simpa using hn)

/-- The search lists no two equal nodes, and none that is equal to one seen before. -/
theorem pairwise_explore (room : Nat) (seen queue : List ν) :
    (explore next stop room seen queue).Pairwise (fun a b => (b == a) = false) ∧
      ∀ x ∈ explore next stop room seen queue, seen.contains x = false := by
  induction room, seen, queue using explore_induct next stop with
  | full seen queue => simp [explore]
  | done room seen => simp
  | skip room seen node rest hseen ih =>
    rw [explore_skip hseen]
    exact ih
  | halt room seen node rest hnew hstop =>
    rw [explore_take hnew, if_pos hstop]
    exact ⟨List.pairwise_singleton _ _, fun x hx => List.mem_singleton.1 hx ▸ hnew⟩
  | take room seen node rest hnew hstop ih =>
    rw [explore_take hnew, hstop]
    have hfresh : ∀ x ∈ explore next stop room (node :: seen) (rest ++ next node),
        (x == node) = false ∧ seen.contains x = false := by
      intro x hx
      have := ih.2 x hx
      rw [List.contains_cons, Bool.or_eq_false_iff] at this
      exact this
    refine ⟨List.pairwise_cons.2 ⟨fun x hx => (hfresh x hx).1, ih.1⟩, fun x hx => ?_⟩
    rcases List.mem_cons.1 hx with rfl | hx
    · exact hnew
    · exact (hfresh x hx).2

/-! ## Leaving out what has been seen -/

/-- Equal nodes have equal successors, and stop or do not stop alike. -/
structure Respects (next : ν → List ν) (stop : ν → Bool) : Prop where
  next : ∀ {a b}, a == b → ∀ x ∈ next a, ∃ y ∈ next b, x == y
  stop : ∀ {a b}, a == b → stop a = stop b

/-- What has been seen is settled when none of it stops and every way on from it leads, up to
equality, to what has been seen or to the queue. -/
def Settled (next : ν → List ν) (stop : ν → Bool) (seen queue : List ν) : Prop :=
  ∀ s ∈ seen, stop s = false ∧ ∀ y ∈ next s, (∃ s' ∈ seen, y == s') ∨ ∃ q ∈ queue, y == q

/-- At the start nothing has been seen. -/
theorem settled_nil (queue : List ν) : Settled next stop [] queue :=
  fun _ hs => absurd hs List.not_mem_nil

theorem Respects.atDistance (hr : Respects next stop) {a b : ν} (hab : a == b) {n : Nat} {x : ν}
    (hx : x ∈ atDistance next n [a]) : ∃ y ∈ Unerase.atDistance next n [b], x == y := by
  induction n generalizing x with
  | zero =>
    obtain rfl : x = a := by simpa using hx
    exact ⟨b, by simp, hab⟩
  | succ n ih =>
    rw [atDistance_succ', List.mem_flatMap] at hx
    obtain ⟨w, hw, hx⟩ := hx
    obtain ⟨w', hw', hww'⟩ := ih hw
    obtain ⟨y, hy, hxy⟩ := hr.next hww' x hx
    refine ⟨y, ?_, hxy⟩
    rw [atDistance_succ', List.mem_flatMap]
    exact ⟨w', hw', hy⟩

variable [EquivBEq ν]

/-- A stop above a node that has been seen is also above the queue, and closer to it. -/
theorem Settled.closer (hr : Respects next stop) {queue : List ν}
    (hs : Settled next stop seen queue) {n : Nat} {a s x : ν} (hseen : s ∈ seen) (has : a == s)
    (hx : x ∈ atDistance next n [a]) (hstop : stop x = true) :
    ∃ m < n, ∃ y ∈ atDistance next m queue, stop y = true := by
  induction n generalizing a s with
  | zero =>
    obtain rfl : x = a := by simpa using hx
    rw [hr.stop has, (hs s hseen).1] at hstop
    cases hstop
  | succ n ih =>
    rw [atDistance_succ, mem_atDistance_iff] at hx
    obtain ⟨w, hw, hx⟩ := hx
    obtain ⟨w', hw', hww'⟩ := hr.next has w (by simpa using hw)
    -- the first step leads to what has been seen, or to the queue with one step less to go
    rcases (hs s hseen).2 w' hw' with ⟨s', hs', hws⟩ | ⟨q, hq, hwq⟩
    · obtain ⟨m, hm, hy⟩ := ih hs' (BEq.trans hww' hws) hx
      exact ⟨m, Nat.lt_succ_of_lt hm, hy⟩
    · obtain ⟨y, hy, hxy⟩ := hr.atDistance (BEq.trans hww' hwq) hx
      refine ⟨n, Nat.lt_succ_self n, y, mem_atDistance_iff.2 ⟨q, hq, hy⟩, ?_⟩
      rw [← hr.stop hxy]
      exact hstop

/-- A node that has been seen need not be in the queue. -/
theorem Settled.skip {node : ν} {rest : List ν} (hseen : seen.contains node = true)
    (hs : Settled next stop seen (node :: rest)) : Settled next stop seen rest := by
  obtain ⟨s, hmem, hns⟩ := List.contains_iff_exists_mem_beq.1 hseen
  intro t ht
  refine ⟨(hs t ht).1, fun y hy => ?_⟩
  rcases (hs t ht).2 y hy with h | ⟨q, hq, hyq⟩
  · exact .inl h
  · rcases List.mem_cons.1 hq with rfl | hq
    · exact .inl ⟨s, hmem, BEq.trans hyq hns⟩
    · exact .inr ⟨q, hq, hyq⟩

/-- A node is settled once its successors are in the queue. -/
theorem Settled.take {node : ν} {rest : List ν} (hnode : stop node = false)
    (hs : Settled next stop seen (node :: rest)) :
    Settled next stop (node :: seen) (rest ++ next node) := by
  intro t ht
  rcases List.mem_cons.1 ht with rfl | ht
  · exact ⟨hnode, fun y hy => .inr ⟨y, List.mem_append_right _ hy, BEq.rfl⟩⟩
  · refine ⟨(hs t ht).1, fun y hy => ?_⟩
    rcases (hs t ht).2 y hy with ⟨s', hs', hys⟩ | ⟨q, hq, hyq⟩
    · exact .inl ⟨s', List.mem_cons_of_mem _ hs', hys⟩
    · rcases List.mem_cons.1 hq with rfl | hq
      · exact .inl ⟨q, List.mem_cons_self, hyq⟩
      · exact .inr ⟨q, List.mem_append_left _ hq, hyq⟩

/-- So as long as nothing above the queue stops, nothing above such a node does. -/
theorem Settled.quiet (hr : Respects next stop) {queue : List ν}
    (hs : Settled next stop seen queue) {node : ν} (hseen : seen.contains node = true) {n : Nat}
    (h : ∀ m < n, ∀ x ∈ atDistance next m queue, stop x = false) :
    ∀ m ≤ n, ∀ x ∈ atDistance next m [node], stop x = false := by
  obtain ⟨s, hmem, hns⟩ := List.contains_iff_exists_mem_beq.1 hseen
  intro m hm x hx
  by_contra hstop
  obtain ⟨k, hk, y, hy, hstop⟩ := hs.closer hr hmem hns hx (by simpa using hstop)
  rw [h k (by omega) y hy] at hstop
  cases hstop

theorem noStop_skip (hr : Respects next stop) {node : ν} {rest : List ν}
    (hseen : seen.contains node = true) (hs : Settled next stop seen rest)
    (h : NoStop next stop rest) : NoStop next stop (node :: rest) := by
  intro n x hx
  rw [atDistance_cons, List.mem_append] at hx
  exact hx.elim (hs.quiet hr hseen (fun m _ => h m) n (Nat.le_refl n) x) (h n x)

/-- Skipping a node that has been seen does not change which node stops the search first. -/
theorem firstStop_skip (hr : Respects next stop) {node found : ν} {rest : List ν}
    (hseen : seen.contains node = true) (hs : Settled next stop seen rest)
    (h : FirstStop next stop rest found) : FirstStop next stop (node :: rest) found := by
  obtain ⟨n, hlt, hn⟩ := h
  have habove := hs.quiet hr hseen hlt
  have hnone : (atDistance next n [node]).find? stop = none :=
    List.find?_eq_none.2 fun x hx => by simp [habove n (Nat.le_refl n) x hx]
  refine ⟨n, fun m hm x hx => ?_, ?_⟩
  · rw [atDistance_cons, List.mem_append] at hx
    exact hx.elim (habove m (Nat.le_of_lt hm) x) (hlt m hm x)
  · rw [atDistance_cons, List.find?_append, hnone]
    exact hn

/-! ## What the search finds -/

/-- What the search finds is what stops the unrestricted search first. -/
theorem firstStop_explore (hr : Respects next stop) {room : Nat} {queue : List ν} {found : ν}
    (hs : Settled next stop seen queue)
    (h : (explore next stop room seen queue).find? stop = some found) :
    FirstStop next stop queue found := by
  induction room, seen, queue using explore_induct next stop with
  | full seen queue => simp [explore] at h
  | done room seen => simp at h
  | skip room seen node rest hseen ih =>
    rw [explore_skip hseen] at h
    exact firstStop_skip hr hseen (hs.skip hseen) (ih (hs.skip hseen) h)
  | halt room seen node rest hnew hstop =>
    rw [explore_take hnew, if_pos hstop, List.find?_singleton, if_pos hstop] at h
    exact Option.some.inj h ▸ firstStop_head hstop rest
  | take room seen node rest hnew hstop ih =>
    rw [explore_take hnew, hstop, if_neg (by simp), List.find?_cons, hstop] at h
    exact firstStop_cons hstop (ih (hs.take hstop) h)

/-- If the search finds nothing, there is nothing to be found unless its room is used up. -/
theorem noStop_explore (hr : Respects next stop) {room : Nat} {queue : List ν}
    (hs : Settled next stop seen queue)
    (h : (explore next stop room seen queue).find? stop = none) :
    NoStop next stop queue ∨ (explore next stop room seen queue).length = room := by
  induction room, seen, queue using explore_induct next stop with
  | full seen queue => exact .inr rfl
  | done room seen => exact .inl fun n x hx => by simp at hx
  | skip room seen node rest hseen ih =>
    rw [explore_skip hseen] at h ⊢
    exact (ih (hs.skip hseen) h).imp (noStop_skip hr hseen (hs.skip hseen)) id
  | halt room seen node rest hnew hstop =>
    rw [explore_take hnew, if_pos hstop, List.find?_singleton, if_pos hstop] at h
    cases h
  | take room seen node rest hnew hstop ih =>
    rw [explore_take hnew, hstop, if_neg (by simp)] at h ⊢
    rw [List.find?_cons, hstop] at h
    exact (ih (hs.take hstop) h).imp (noStop_cons hstop) (congrArg (· + 1))

end Seen

end Unerase
