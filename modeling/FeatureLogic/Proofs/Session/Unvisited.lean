import FeatureLogic.Proofs.Session.Arising

/-!
Counts of visits. A search for cycles and a count of shared nodes note on a node how often they came
to it, and end the episode when they are through. So they find no such count, whatever happened
before and whether an episode is open or not (`Session.Reached.unvisited`).
-/

namespace FeatureLogic

namespace Graph

/-- No node has been counted in this episode. -/
def Unvisited (g : Graph) : Prop := ∀ n : Nat, g.visits n = 0

variable {g g' : Graph}

theorem visits_congr (hgeneration : g'.generation = g.generation) {n m : Nat}
    (hslots : (g'.node n).slots = (g.node m).slots) : g'.visits n = g.visits m := by
  unfold visits slots Node.slotsIn
  rw [hslots, hgeneration]
  split <;> rfl

theorem AtRest.unvisited (h : g.AtRest) : g.Unvisited := fun n => by
  rw [visits, h.slots_eq]
  rfl

namespace Unvisited

variable (h : g.Unvisited)
include h

/-- Every node has the slots of a node that was there. -/
theorem of_slots (hgeneration : g'.generation = g.generation)
    (hslots : ∀ n : Nat, ∃ m : Nat, (g'.node n).slots = (g.node m).slots) : g'.Unvisited :=
  fun n => by
    obtain ⟨m, hm⟩ := hslots n
    rw [visits_congr hgeneration hm, h]

theorem note (n : NodeId) {f : Slots → Slots} (hstamp : ∀ s, (f s).stamp = s.stamp)
    (hvisits : ∀ s, (f s).visits = s.visits) : (g.note n f).Unvisited := fun m => by
  rw [visits, read_note Slots.visits hstamp hvisits]
  exact h m

/-- A change of the committed part of a node. -/
theorem modify (n : NodeId) {f : Node → Node} (hf : ∀ node, (f node).slots = node.slots) :
    ({ g with nodes := g.nodes.modify n f } : Graph).Unvisited :=
  h.of_slots rfl fun m => by
    refine ⟨m, ?_⟩
    rw [node_modify]
    split
    · exact hf _
    · rfl

theorem grown (hg : g.Grown g') : g'.Unvisited :=
  h.of_slots hg.generation_eq fun m => ⟨m, hg.slots_eq m⟩

theorem add (type : TypeId) (edges : List Edge) : (g.add type edges).Unvisited :=
  h.grown ((Grown.refl g).add type edges)

theorem truncate (size : Nat) : (g.truncate size).Unvisited :=
  h.of_slots rfl fun m => by
    rw [node_truncate]
    split
    · exact ⟨m, rfl⟩
    · exact ⟨g.size, by rw [node_of_le (Nat.le_refl _)]⟩

theorem compact (first start : Nat) : (g.compact first start).Unvisited :=
  h.of_slots (generation_compact ..) fun m => exists_slots_compact g first start m

/-- To copy committed structure is to add nodes and to give them edges. -/
theorem copyWalk (source : Graph → Graph) (rounds : Nat) (root : NodeId) :
    (Copying.walk source rounds g root).Unvisited := by
  rw [Copying.walk, Agenda.runRounds_eq_run]
  refine Agenda.state_run (P := fun c : Copying => c.graph.Unvisited) (fun {c} task hc => ?_) _ _ h
  cases task with
  | enter n =>
    simp only [Copying.turn]
    split
    · exact hc
    · exact hc.add _ _
  | connect copy edges => exact hc.modify _ fun _ => rfl

end Unvisited

end Graph

namespace Session

theorem lasting_unvisited : Lasting Graph.Unvisited where
  setForward h n _ := h.note n (by intro _; rfl) (by intro _; rfl)
  setCurrentType h n _ := h.note n (by intro _; rfl) (by intro _; rfl)
  addPending h n _ := h.note n (by intro _; rfl) (by intro _; rfl)
  copyFrom h _ root := h.copyWalk _ 1 root

section Unvisited

variable {s s' : Session} (hstamped : s.graph.Stamped) (hs : s.graph.Unvisited)
include hstamped hs

theorem unvisited_entangle {budget : Nat} {left right : NodeId} {unified : Bool}
    (h : s.entangle budget left right = some (unified, s')) : s'.graph.Unvisited := by
  obtain ⟨⟨unified', s₁⟩, h₁, heq⟩ := Option.map_eq_some_iff.1 h
  cases unified' with
  | true =>
    cases heq
    exact lasting_unvisited.unifyNodes hs h₁
  | false =>
    cases heq
    exact (lasting_stamped.unifyNodes hstamped h₁).invalidate.2.unvisited.truncate _

theorem Call.unvisited {c : Call} (h : c.run? s = some s') : s'.graph.Unvisited := by
  by_cases hlacks : c.LacksArgument s
  · rw [Call.eq_of_lacksArgument hlacks h]
    exact hs
  · exact ((Call.stamped hstamped h).2 hlacks).unvisited

theorem Move.unvisited {m : Move} (h : m.run? s = some s') : s'.graph.Unvisited := by
  cases Move.effect h with
  | call hcall => exact Call.unvisited hstamped hs hcall
  | unifies _ _ hunified => exact unvisited_entangle hstamped hs hunified
  | lacks => exact hs
  | adds hadded => exact hs.grown hadded.grown
  | importFrom source root => exact hs.copyWalk _ _ root
  | clone root => exact hs.copyWalk _ _ root
  | edits _ hedits => exact (hedits.stamped hstamped).2.unvisited
  | setType n type => exact hs.modify n fun _ => rfl
  | putEdge n feature target => exact hs.modify n fun _ => rfl
  | dropEdge n feature => exact hs.modify n fun _ => rfl
  | truncate size => exact hs.truncate size
  | compact first start => exact hs.compact first start
  | clear => exact Graph.atRest_empty.unvisited
  | invalidate => exact hstamped.invalidate.2.unvisited

theorem Act.unvisited (h : Act s s') : s'.graph.Unvisited := by
  cases h with
  | move h => exact Move.unvisited hstamped hs h
  | aside h =>
    rw [h]
    exact hs

end Unvisited

theorem Reached.unvisited {s : Session} (h : Reached s) : s.graph.Unvisited := by
  induction h with
  | start grammar => exact Graph.atRest_empty.unvisited
  | act hs ha ih => exact ha.unvisited hs.stamped ih

theorem Arises.reached {s : Session} (h : s.Arises) : Reached s := by
  induction h with
  | start _ => exact .start _
  | move _ _ h ih => exact ih.act (.move h)
  | aside _ hgraph _ ih => exact ih.act (.aside hgraph)

end Session

end FeatureLogic
