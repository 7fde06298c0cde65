import FeatureLogic.Session.Basic

/-!
Walks that find out about the structure of the episode without changing what is committed: whether
it has a cycle, and how many of its nodes are shared. Each of them ends the episode.
-/

namespace FeatureLogic

/-- What a search for a cycle has still to do. -/
inductive CycleTask
  | enter (node : NodeId)
  /-- All below the node was gone through. -/
  | leave (node : NodeId)

namespace Session

/-- One turn of a search for a cycle, which is found at a node that is still being gone through. -/
def cycleTurn (g : Graph) : CycleTask → Turn Graph CycleTask Unit
  | .leave n => .next (g.setCopyMark n .blank) []
  | .enter n =>
    let n := g.deref n
    if g.visits n = 0 then
      let tasks := (g.currentEdges n).foldr (fun e tasks => .enter e.target :: tasks) [.leave n]
      .next ((g.setVisits n 1).setCopyMark n .underway) tasks
    else if g.copyMark n = .underway then .halt g ()
    else .next g []

/-- Whether the structure below a node has a cycle. -/
def cyclic (s : Session) (root : NodeId) : Bool × Session :=
  let ⟨grammar, graph, failures⟩ := s
  match Agenda.run cycleTurn graph.weight graph [.enter root] with
  | .done graph | .spent graph _ => (false, ⟨grammar, graph.invalidate, failures⟩)
  | .halted graph _ _ => (true, ⟨grammar, graph.invalidate, failures⟩)

/-- Comes to a node and counts it at the second time. What is below it is gone through at the
first `times` times. Whether the mark of a counted node is 2, as here, or the running count makes no
difference: it only tells that the node is counted. -/
def countTurn (times : Nat) (state : Graph × Nat) (n : NodeId) :
    Turn (Graph × Nat) NodeId Empty :=
  let (g, count) := state
  let n := g.deref n
  let visits := g.visits n
  if 2 ≤ visits then .next (g, count) []
  else
    let tasks := if visits < times then (g.currentEdges n).map Edge.target else []
    .next (g.setVisits n (visits + 1), if visits = 1 then count + 1 else count) tasks

/-- Counts the nodes that a walk, going on from each node at most `times` times, comes to more
than once. -/
def countRepeated (times : Nat) (s : Session) (root : NodeId) : Nat × Session :=
  let ⟨grammar, graph, failures⟩ := s
  let (graph, count) :=
    (Agenda.run (countTurn times) (times * graph.weight) (graph, 0) [root]).state
  (count, ⟨grammar, graph.invalidate, failures⟩)

/-- The number of nodes with more than one edge to them; the root counts as having one more. -/
def sharedCount (s : Session) (root : NodeId) : Nat × Session := countRepeated 1 s root

/-- The number of nodes reached by more than one path; all below a shared node are. -/
def rigidCount (s : Session) (root : NodeId) : Nat × Session := countRepeated 2 s root

end Session

end FeatureLogic
