import Unerase.Proofs.Search

/-!
# The list of a search that nothing stops

A search that nothing stops lists what it has met. Up to the first node of some kind it is the
search that such a node stops, so what is known of the first stop says in which order the nodes are
listed (`pairwise_metBefore_explore`), and that none is missing as long as there is room
(`mem_explore_of_length_lt`). Nodes with nothing behind them, and nodes that have been seen, can be
left out of the graph.
-/

namespace Unerase

universe u

variable {ν : Type u} {next : ν → List ν} {stop : ν → Bool}

/-! ## Order -/

/-- When a node is met for some time, another one has not been met yet: neither at a smaller
distance nor before it at its own. -/
def MetBefore (next : ν → List ν) (start : List ν) (a b : ν) : Prop :=
  ∃ n before after, atDistance next n start = before ++ a :: after ∧ b ∉ before ∧
    ∀ m < n, b ∉ atDistance next m start

/-- What is met first is at most as far away. -/
theorem MetBefore.closer {start : List ν} {a b : ν} (h : MetBefore next start a b) {m : Nat}
    (hb : b ∈ atDistance next m start) : ∃ k ≤ m, a ∈ atDistance next k start := by
  obtain ⟨n, before, after, hn, -, hlt⟩ := h
  refine ⟨n, ?_, by simp [hn]⟩
  by_contra hmn
  exact hlt m (by omega) hb

/-- If of two nodes one stops first, it is met before the other. -/
theorem FirstStop.metBefore [BEq ν] [LawfulBEq ν] {start : List ν} {a b : ν}
    (h : FirstStop next (fun x => x == a || x == b) start a) : MetBefore next start a b := by
  obtain ⟨n, hlt, hn⟩ := h
  obtain ⟨-, before, after, hsplit, hbefore⟩ := List.find?_eq_some_iff_append.1 hn
  refine ⟨n, before, after, hsplit, fun hmem => ?_, fun m hm hmem => ?_⟩
  · simpa using hbefore b hmem
  · simpa using hlt m hm b hmem

/-! ## Leaving out nodes -/

section Filter

variable {keep : ν → Bool} {queue : List ν}

theorem filter_flatMap (hdrop : ∀ x, keep x = false → next x = []) (xs : List ν) :
    (xs.flatMap next).filter keep =
      (xs.filter keep).flatMap fun x => (next x).filter keep := by
  induction xs with
  | nil => rfl
  | cons x xs ih =>
    rw [List.flatMap_cons, List.filter_append, ih]
    by_cases hx : keep x = true
    · rw [List.filter_cons_of_pos hx, List.flatMap_cons]
    · rw [List.filter_cons_of_neg hx, hdrop x (by simpa using hx), List.filter_nil,
        List.nil_append]

/-- Nodes that no step leads away from are met, but nothing is met behind them. -/
theorem atDistance_filter (hdrop : ∀ x, keep x = false → next x = []) (n : Nat) :
    atDistance (fun x => (next x).filter keep) n (queue.filter keep) =
      (atDistance next n queue).filter keep := by
  induction n generalizing queue with
  | zero => rfl
  | succ n ih => rw [atDistance_succ, atDistance_succ, ← filter_flatMap hdrop, ih]

/-- Leaving out such nodes does not change which of two others is met first. -/
theorem MetBefore.of_filter (hdrop : ∀ x, keep x = false → next x = []) {a b : ν}
    (hb : keep b = true)
    (h : MetBefore (fun x => (next x).filter keep) (queue.filter keep) a b) :
    MetBefore next queue a b := by
  obtain ⟨n, before, after, hn, hbefore, hlt⟩ := h
  simp only [atDistance_filter hdrop, List.mem_filter, not_and] at hn hlt
  obtain ⟨left, right, hsplit, rfl, hright⟩ := List.filter_eq_append_iff.1 hn
  obtain ⟨gap, rest, rfl, hgap, -, rfl⟩ := List.filter_eq_cons_iff.1 hright
  refine ⟨n, left ++ gap, rest, by rw [hsplit, List.append_assoc], ?_, fun m hm hmem => ?_⟩
  · intro hmem
    rcases List.mem_append.1 hmem with hmem | hmem
    · exact hbefore (List.mem_filter.2 ⟨hmem, hb⟩)
    · exact hgap b hmem hb
  · exact hlt m hm hmem hb

end Filter

section Search

variable [BEq ν] {seen queue : List ν}

theorem keep_of_new {keep : ν → Bool} {P : ν → Prop} {node : ν}
    (hseen : ∀ x, P x → keep x = false → seen.contains x = true) (hnode : P node)
    (hnew : seen.contains node = false) : keep node = true := by
  by_contra hkeep
  rw [hseen node hnode (by simpa using hkeep)] at hnew
  cases hnew

/-- The search never takes nodes that have been seen, so the graph may be without them. -/
theorem explore_filter {next' : ν → List ν} {keep : ν → Bool} {P : ν → Prop}
    (hP : ∀ x, P x → ∀ y ∈ next x, P y)
    (hnext : ∀ x, P x → keep x = true → next' x = (next x).filter keep) (room : Nat)
    (hqueue : ∀ x ∈ queue, P x) (hseen : ∀ x, P x → keep x = false → seen.contains x = true) :
    explore next stop room seen queue = explore next' stop room seen (queue.filter keep) := by
  induction room, seen, queue using explore_induct next stop with
  | full seen queue => rfl
  | done room seen => simp
  | skip room seen node rest hnode ih =>
    have ih := ih (fun x hx => hqueue x (List.mem_cons_of_mem _ hx)) hseen
    rw [explore_skip hnode, ih]
    by_cases hkeep : keep node = true
    · rw [List.filter_cons_of_pos hkeep, explore_skip hnode]
    · rw [List.filter_cons_of_neg hkeep]
  | halt room seen node rest hnew hstop =>
    have hkeep : keep node = true := keep_of_new hseen (hqueue node List.mem_cons_self) hnew
    rw [List.filter_cons_of_pos hkeep, explore_take hnew, explore_take hnew, if_pos hstop,
      if_pos hstop]
  | take room seen node rest hnew hstop ih =>
    have hnode := hqueue node List.mem_cons_self
    have hkeep : keep node = true := keep_of_new hseen hnode hnew
    have ih := ih
      (fun x hx => (List.mem_append.1 hx).elim (fun hx => hqueue x (List.mem_cons_of_mem _ hx))
        (hP node hnode x))
      (fun x hx hdrop => by rw [List.contains_cons, hseen x hx hdrop, Bool.or_true])
    rw [List.filter_cons_of_pos hkeep, explore_take hnew, explore_take hnew, hstop,
      hnext node hnode hkeep, ← List.filter_append, ih]

/-! ## Searching on -/

/-- A search that is stopped has begun like the one that nothing stops. -/
theorem isPrefix_explore (room : Nat) (seen queue : List ν) :
    explore next stop room seen queue <+: explore next (fun _ => false) room seen queue := by
  induction room, seen, queue using explore_induct next stop with
  | full seen queue => exact List.prefix_rfl
  | done room seen => simp
  | skip room seen node rest hseen ih =>
    rw [explore_skip hseen, explore_skip hseen]
    exact ih
  | halt room seen node rest hnew hstop =>
    rw [explore_take hnew, explore_take hnew, if_pos hstop]
    exact ⟨_, rfl⟩
  | take room seen node rest hnew hstop ih =>
    rw [explore_take hnew, explore_take hnew, hstop]
    exact (List.prefix_cons_inj node).2 ih

/-- Searching on does not change which node of a kind comes first. -/
theorem find?_explore (room : Nat) (seen queue : List ν) :
    (explore next (fun _ => false) room seen queue).find? stop =
      (explore next stop room seen queue).find? stop := by
  induction room, seen, queue using explore_induct next stop with
  | full seen queue => rfl
  | done room seen => simp
  | skip room seen node rest hseen ih =>
    rw [explore_skip hseen, explore_skip hseen, ih]
  | halt room seen node rest hnew hstop =>
    rw [explore_take hnew, explore_take hnew, if_pos hstop, if_neg (by simp),
      List.find?_cons_of_pos hstop, List.find?_cons_of_pos hstop]
  | take room seen node rest hnew hstop ih =>
    rw [explore_take hnew, explore_take hnew, if_neg (by simp), hstop, if_neg (by simp),
      List.find?_cons_of_neg (by simp [hstop]), List.find?_cons_of_neg (by simp [hstop]), ih]

variable [LawfulBEq ν]

/-- Nodes that are told apart by identity have the same successors if they are equal. -/
theorem respects_of_lawful (next : ν → List ν) (stop : ν → Bool) : Respects next stop where
  next {a b} hab x hx := ⟨x, eq_of_beq hab ▸ hx, BEq.rfl⟩
  stop {a b} hab := by rw [eq_of_beq hab]

theorem nodup_explore (room : Nat) (seen queue : List ν) :
    (explore next stop room seen queue).Nodup := by
  refine (pairwise_explore room seen queue).1.imp fun {a b} hab heq => ?_
  rw [heq, BEq.rfl] at hab
  cases hab

/-- Of two nodes that are listed once, the search for either finds the former. -/
theorem find?_former {nodes : List ν} (hnodup : nodes.Nodup) {i j : Nat} (hij : i < j)
    (hj : j < nodes.length) :
    nodes.find? (fun x => x == nodes[i] || x == nodes[j]) = some nodes[i] := by
  have hne := List.pairwise_iff_getElem.1 hnodup
  refine List.find?_eq_some_iff_getElem.2 ⟨by simp, i, by omega, rfl, fun k hk => ?_⟩
  have hki := hne k i (by omega) (by omega) hk
  have hkj := hne k j (by omega) hj (by omega)
  simp [hki, hkj]

/-- The search lists the nodes in the order in which they are met. -/
theorem pairwise_metBefore_explore (room : Nat) (queue : List ν) :
    (explore next (fun _ => false) room [] queue).Pairwise (MetBefore next queue) := by
  rw [List.pairwise_iff_getElem]
  intro i j hi hj hij
  -- a search that either of the two stops is stopped by the former
  have hfind := find?_former (nodup_explore _ _ _) hij hj
  rw [find?_explore] at hfind
  exact (firstStop_explore (respects_of_lawful _ _) (settled_nil queue) hfind).metBefore

/-- While it has room, the search lists all that is met at any distance. -/
theorem mem_explore_of_length_lt {room n : Nat} {x : ν}
    (hroom : (explore next (fun _ => false) room [] queue).length < room)
    (hx : x ∈ atDistance next n queue) : x ∈ explore next (fun _ => false) room [] queue := by
  by_contra hmem
  have hfind : (explore next (fun _ => false) room [] queue).find? (· == x) = none :=
    List.find?_eq_none.2 fun y hy heq => hmem (eq_of_beq heq ▸ hy)
  rw [find?_explore] at hfind
  rcases noStop_explore (respects_of_lawful _ _) (settled_nil queue) hfind with hno | hlen
  · simpa using hno n x hx
  · have hle : (explore next (· == x) room [] queue).length ≤ _ := (isPrefix_explore _ _ _).length_le
    omega

end Search

end Unerase
