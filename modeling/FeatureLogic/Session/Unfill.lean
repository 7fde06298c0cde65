import FeatureLogic.Session.Basic

/-!
Unfilling: dropping values of features that the features alone bring about. An edge can go when its
value is a node without edges of the greatest type that the feature allows and the node that
carries it has the type that introduces the feature. A value that is reached by more than one edge
stays, since a coreference would be lost with it.
-/

namespace FeatureLogic

/-- How often committed edges below a root lead to each node; to the root once more. -/
def Graph.committedArrivals (g : Graph) (root : NodeId) : Array Nat :=
  let start := (Array.replicate g.size 0).modify root (· + 1)
  (g.trail root).order.foldl (fun counts n =>
    (g.edges n).foldl (fun counts e => counts.modify e.target (· + 1)) counts) start

/-- What is looked at to tell whether an edge can go. -/
structure Unfilling where
  grammar : Grammar
  /-- How often each node was come to before anything was dropped. -/
  arrivals : Array Nat
  /-- Whether the node that carries the edge may have any type. -/
  sloppy : Bool

/-- Whether an edge of a node can go. -/
def Unfilling.canGo (u : Unfilling) (g : Graph) (n : NodeId) (e : Edge) : Bool :=
  match u.grammar.appropriateness? e.feature with
  | none => false
  | some a =>
    (g.edges e.target).isEmpty && u.arrivals.getD e.target 0 ≤ 1
      && (u.sloppy || g.type n == a.introducer) && g.type e.target == a.maximal

/-- What unfilling has still to do. -/
inductive UnfillTask
  | enter (node : NodeId)
  /-- Drop edges of a node whose values were gone through. -/
  | finish (node : NodeId)

namespace Session

/-- One turn of unfilling; `Array Bool` tells the nodes come to. -/
def unfillTurn (u : Unfilling) (state : Graph × Array Bool) :
    UnfillTask → Turn (Graph × Array Bool) UnfillTask Empty
  | .enter n =>
    let (g, seen) := state
    if seen.getD n false then .next (g, seen) []
    else
      let tasks := (g.edges n).foldr (fun e tasks => .enter e.target :: tasks) [.finish n]
      .next (g, seen.setIfInBounds n true) tasks
  | .finish n =>
    let (g, seen) := state
    let kept := (g.edges n).filter fun e => !u.canGo g n e
    .next (g.setEdges n kept, seen) []

/-- Drops every edge below a node that can go, from the bottom up, and ends the episode. -/
def unfill (s : Session) (root : NodeId) (sloppy : Bool) : Session :=
  let ⟨grammar, graph, failures⟩ := s
  let u : Unfilling := ⟨grammar, graph.committedArrivals root, sloppy⟩
  let start := Array.replicate graph.size false
  let (graph, _) :=
    (Agenda.run (unfillTurn u) graph.weight (graph, start) [.enter root]).state
  ⟨grammar, graph.invalidate, failures⟩

end Session

end FeatureLogic
