/-!
# Reachability in layers

The nodes of a finite graph that can be reached from a node, nearest first: the
node itself, then its successors, then the successors of those, each node at its
first occurrence. `reachable` takes a bound on the number of layers; the number
of nodes is always enough, because each layer but the last holds a new node.
-/

namespace OwlEl.Layers

variable {α : Type} [DecidableEq α]

/-- The elements that are not yet seen, each once and in their order. -/
def unseen : List α → List α → List α
  | _, [] => []
  | seen, a :: rest => if a ∈ seen then unseen seen rest else a :: unseen (a :: seen) rest

/-- Add layer after layer to the nodes found so far, of which `frontier` is the last layer. -/
def extend (successors : α → List α) : Nat → List α → List α → List α
  | 0, found, _ => found
  | bound + 1, found, frontier =>
      match unseen found (frontier.flatMap successors) with
      | [] => found
      | layer => extend successors bound (found ++ layer) layer

/-- The nodes that can be reached from `start` in at most `bound` steps, nearest first. -/
def reachable (successors : α → List α) (bound : Nat) (start : α) : List α :=
  extend successors bound [start] [start]

end OwlEl.Layers
