import FeatureLogic.Agenda
import FeatureLogic.Graph.Basic

/-!
Copying committed structure into a graph, from another graph or within the graph. A walk goes depth
first. It adds the copy of a node when it first comes to the node, and gives the copy its edges
when all their targets have copies; so a node that is reached twice is copied once, and a cycle
closes in the copy. The numbers of the copies rise in the order of the trail.

A graph that is copied within itself is read as it grows: an edge that leads to no node may lead to
a copy by the time when the walk takes it.
-/

namespace FeatureLogic

/-- A graph with copies in it, and for each node its copy, if it has one. -/
structure Copying where
  graph : Graph
  copies : Array (Option NodeId)

/-- What copying committed structure has still to do. -/
inductive Copying.Task
  /-- Copy the structure below a node. -/
  | enter (node : NodeId)
  /-- Give a copy the edges of its node, whose targets have copies by now. -/
  | connect (copy : NodeId) (edges : List Edge)

namespace Copying

/-- The copy of a node. -/
def copyIn? (copies : Array (Option NodeId)) (n : NodeId) : Option NodeId := copies.getD n none

/-- Notes the copy of a node. -/
def noteIn (copies : Array (Option NodeId)) (n copy : NodeId) : Array (Option NodeId) :=
  (copies.rightpad (n + 1) none).setIfInBounds n (some copy)

/-- Noting the copy of a node changes the copy of no other node. -/
theorem copyIn?_noteIn (copies : Array (Option NodeId)) (n copy m : NodeId) :
    copyIn? (noteIn copies n copy) m = if n = m then some copy else copyIn? copies m := by
  simp only [copyIn?, noteIn, Array.getD_eq_getD_getElem?, Array.getElem?_setIfInBounds,
    Array.rightpad, Array.size_append, Array.size_replicate, Array.getElem?_append,
    Array.getElem?_replicate]
  by_cases h : n = m
  · subst h
    rw [if_pos rfl, if_pos rfl, if_pos (by omega)]
    rfl
  · rw [if_neg h, if_neg h]
    by_cases hm : m < copies.size
    · rw [if_pos hm]
    · rw [if_neg hm, Array.getElem?_eq_none (Nat.le_of_not_lt hm)]
      split <;> rfl

/-- One turn of copying out of a source, which may depend on the graph as it has become. A copy has
no edges until it is connected. -/
def turn (source : Graph → Graph) (c : Copying) : Task → Turn Copying Task Empty
  | .enter n =>
    let ⟨graph, copies⟩ := c
    match copyIn? copies n with
    | some _ => .next ⟨graph, copies⟩ []
    | none =>
      let type := (source graph).type n
      let copy := graph.size
      let graph := graph.add type []
      let edges := (source graph).edges n
      .next ⟨graph, noteIn copies n copy⟩
        (edges.foldr (fun e tasks => .enter e.target :: tasks) [.connect copy edges])
  | .connect copy edges =>
    let ⟨graph, copies⟩ := c
    let edges := Edges.mapTargets (fun m => (copyIn? copies m).getD m) edges
    .next ⟨graph.setEdges copy edges, copies⟩ []

/-- Copies the structure below a node. One round of turns goes along each edge of the source. -/
def walk (source : Graph → Graph) (rounds : Nat) (g : Graph) (root : NodeId) : Graph :=
  let before := source g
  let start : Copying := ⟨g, .replicate before.size none⟩
  (Agenda.runRounds (turn source) (2 * before.weight) rounds start [.enter root]).state.graph

end Copying

namespace Graph

/-- The number of edges that lead to no node. -/
def dangling (g : Graph) : Nat :=
  g.nodes.foldl (fun count node =>
    count + (node.edges ++ node.slots.pending).countP fun e => g.size ≤ e.target) 0

/-- A bound on the rounds of a walk that puts copies behind the nodes of the graph it walks in. An
edge that led to no node may come to lead to a copy, and then what there is to walk at most
doubles. -/
def copyRounds (g : Graph) : Nat := 1 <<< g.dangling

/-- Copies the committed structure below a node of `source` behind the nodes of `g`. The copy of
the root comes first: its number is the old size of `g`. -/
def copyFrom (g source : Graph) (root : NodeId) : Graph :=
  Copying.walk (fun _ => source) 1 g root

/-- Copies the committed structure below a node behind the nodes of the same graph, the copy of the
root first. -/
def copyWithin (g : Graph) (root : NodeId) : Graph := Copying.walk id g.copyRounds g root

end Graph

end FeatureLogic
