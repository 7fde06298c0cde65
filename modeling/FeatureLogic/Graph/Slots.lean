import FeatureLogic.Graph.Basic

/-!
Notes of the current episode and the structure as it is with them: `deref` follows the pointers
from absorbed nodes to the node that stands for them, and the current type and edges are those of
that node with what it gained. Notes of earlier episodes read as unset.
-/

namespace FeatureLogic

/-- The slots of a node in an episode, as unset ones when no note of that episode is on it. -/
def Node.slotsIn (node : Node) (generation : Nat) : Slots :=
  if node.slots.stamp = generation then node.slots else .unset generation node.type

theorem Node.stamp_slotsIn (node : Node) (generation : Nat) :
    (node.slotsIn generation).stamp = generation := by
  unfold slotsIn
  split
  · assumption
  · rfl

namespace Graph

/-- The slots of a node, as unset ones when no note of this episode is on it. -/
def slots (g : Graph) (n : NodeId) : Slots := (g.node n).slotsIn g.generation

/-- Changes the slots of a node, which become those of this episode. -/
@[inline]
def note (g : Graph) (n : NodeId) (f : Slots → Slots) : Graph :=
  let generation := g.generation
  { g with nodes := g.nodes.modify n fun node =>
    { node with slots := f (node.slotsIn generation) } }

def forward? (g : Graph) (n : NodeId) : Option NodeId := (g.slots n).forward

def setForward (g : Graph) (n target : NodeId) : Graph :=
  g.note n fun s => { s with forward := some target }

/-- The type that the node has in this episode. -/
def currentType (g : Graph) (n : NodeId) : TypeId := (g.slots n).type

def setCurrentType (g : Graph) (n : NodeId) (type : TypeId) : Graph :=
  g.note n fun s => { s with type }

def copyMark (g : Graph) (n : NodeId) : CopyMark := (g.slots n).copy

def setCopyMark (g : Graph) (n : NodeId) (mark : CopyMark) : Graph :=
  g.note n fun s => { s with copy := mark }

def visits (g : Graph) (n : NodeId) : Nat := (g.slots n).visits

def setVisits (g : Graph) (n : NodeId) (visits : Nat) : Graph :=
  g.note n fun s => { s with visits }

def pending (g : Graph) (n : NodeId) : List Edge := (g.slots n).pending

/-- Notes an edge that the node gains in this episode. -/
def addPending (g : Graph) (n : NodeId) (e : Edge) : Graph :=
  g.note n fun s => { s with pending := Edges.put e.feature e.target s.pending }

/-! ### The structure of the episode -/

/-- Follows at most `fuel` pointers, stopping at a node that points nowhere or at itself. -/
def derefIn (g : Graph) : Nat → NodeId → NodeId
  | 0, n => n
  | fuel + 1, n =>
    match g.forward? n with
    | none => n
    | some next => if next = n then n else derefIn g fuel next

/-- The node that stands for a node. A chain of pointers has no node twice, so it is no longer
than the graph is large. -/
def deref (g : Graph) (n : NodeId) : NodeId := g.derefIn g.size n

/-- Committed and pending edges of a node together, by feature. -/
def currentEdges (g : Graph) (n : NodeId) : List Edge :=
  match g.pending n with
  | [] => g.edges n
  | pending => Edges.merge (g.edges n) pending

def hasCurrentEdges (g : Graph) (n : NodeId) : Bool :=
  !(g.edges n).isEmpty || !(g.pending n).isEmpty

/-- The target of a feature among committed edges first and pending ones then. -/
def currentEdge? (g : Graph) (n : NodeId) (feature : FeatureId) : Option NodeId :=
  match g.value? n feature with
  | some target => some target
  | none => Edges.target? feature (g.pending n)

/-- The value of a feature, from a node that stands for `n` to the node that stands for it. -/
def currentValue? (g : Graph) (n : NodeId) (feature : FeatureId) : Option NodeId :=
  (g.currentEdge? (g.deref n) feature).map g.deref

/-! ### Laws -/

@[simp] theorem size_note (g : Graph) (n : NodeId) (f : Slots → Slots) :
    (g.note n f).size = g.size := by simp [note, size]

/-- A note changes the slots of its node and of no other. -/
theorem slots_note (g : Graph) (n m : NodeId) (f : Slots → Slots)
    (h : ∀ s, (f s).stamp = s.stamp) :
    (g.note n f).slots m = if n = m ∧ n < g.size then f (g.slots m) else g.slots m := by
  simp only [slots, note, node_modify]
  split
  · exact if_pos ((h _).trans ((g.node m).stamp_slotsIn g.generation))
  · rfl

theorem type_note (g : Graph) (n m : NodeId) (f : Slots → Slots) :
    (g.note n f).type m = g.type m := by
  simp only [note, type, node, Array.getD_eq_getD_getElem?, Array.getElem?_modify]
  split <;> cases g.nodes[m]? <;> rfl

theorem edges_note (g : Graph) (n m : NodeId) (f : Slots → Slots) :
    (g.note n f).edges m = g.edges m := by
  simp only [note, edges, node, Array.getD_eq_getD_getElem?, Array.getElem?_modify]
  split <;> cases g.nodes[m]? <;> rfl

/-- A node without a pointer stands for itself. -/
theorem deref_of_forward_none {g : Graph} {n : NodeId} (h : g.forward? n = none) :
    g.deref n = n := by
  unfold deref
  cases g.size <;> simp [derefIn, h]

end Graph

end FeatureLogic
