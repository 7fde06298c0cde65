import FeatureLogic.Agenda
import FeatureLogic.Graph.Slots

/-!
Trails: the nodes that can be reached from a root, in the order in which a depth-first walk first
comes to them, each with its place in that order.
-/

namespace FeatureLogic

/-- The nodes met so far, in order, and the place of each. -/
structure Trail where
  order : Array NodeId
  places : Array (Option Nat)

namespace Trail

def start (size : Nat) : Trail := ⟨#[], .replicate size none⟩

def place? (t : Trail) (n : NodeId) : Option Nat := t.places.getD n none

/-- Comes to a node; at the first time what follows it is still to be gone through. -/
def meet (next : NodeId → List NodeId) (t : Trail) (n : NodeId) : Turn Trail NodeId Empty :=
  match t.place? n with
  | some _ => .next t []
  | none =>
    let ⟨order, places⟩ := t
    let place := order.size
    .next ⟨order.push n, places.setIfInBounds n (some place)⟩ (next n)

/-- The trail from a root among `size` nodes; `work` bounds the number of arrivals. -/
def walk (size work : Nat) (next : NodeId → List NodeId) (root : NodeId) : Trail :=
  (Agenda.run (meet next) work (start size) [root]).state

/-- The nodes of a trail in order. -/
def toList (t : Trail) : List NodeId := t.order.toList

end Trail

namespace Graph

/-- The trail along committed edges. -/
def trail (g : Graph) (root : NodeId) : Trail :=
  .walk g.size g.weight (fun n => (g.edges n).map Edge.target) root

/-- The nodes that stand for the targets of a node's current edges. -/
def currentTargets (g : Graph) (n : NodeId) : List NodeId :=
  (g.currentEdges n).map fun e => g.deref e.target

/-- The trail along current edges, from node standing for others to node standing for others. -/
def currentTrail (g : Graph) (root : NodeId) : Trail :=
  .walk g.size g.weight g.currentTargets (g.deref root)

end Graph

end FeatureLogic
