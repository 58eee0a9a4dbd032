/-!
# Breadth-first search

A search over a graph that is given by the successors of a node. It lists the nodes in the order
in which it meets them, each once, and ends when a node stops it or when there is no more room.
Only the nodes in the list are ever asked for their successors, so the search ends on every
graph, an infinite one too.
-/

namespace Unerase

universe u

variable {ν : Type u} [BEq ν]

/-- Takes the first queued node that has not been seen, and puts its successors at the end of the
queue. At most `room` nodes are taken. -/
def explore (next : ν → List ν) (stop : ν → Bool) : Nat → List ν → List ν → List ν
  | 0, _, _ => []
  | room + 1, seen, queue =>
    match queue.dropWhile fun node => seen.contains node with
    | [] => []
    | node :: rest =>
      if stop node then [node]
      else node :: explore next stop room (node :: seen) (rest ++ next node)

end Unerase
