import FeatureLogic.Graph.Edge

/-!
Graphs of typed nodes. A node has a committed type and committed edges, and slots for notes that
hold during one episode: a walk that unifies, copies or compares. The notes carry the number of the
episode in which they were made, so that starting the next one, `Graph.invalidate`, makes all of
them void at once.
-/

namespace FeatureLogic

/-- What an episode notes on a node about its copy. -/
inductive CopyMark
  | blank
  /-- The node is being copied; to meet it again is to have gone round a cycle. -/
  | underway
  | copied (node : NodeId)
  deriving DecidableEq, Repr

/-- The notes of one episode on a node. -/
structure Slots where
  /-- The episode in which the notes were made. -/
  stamp : Nat
  /-- The type that the node has got. -/
  type : TypeId
  /-- The node that stands for this one. -/
  forward : Option NodeId
  copy : CopyMark
  /-- How often a counting walk came by: 0, 1 or 2. As a signed mark of 32 bits it is -1 while it is
  unset, 0 after the first visit, and the number of nodes counted so far from the second on, which is
  positive for up to 2^31 - 1 of them. -/
  visits : Nat
  /-- Edges gained and not committed. -/
  pending : List Edge
  deriving Repr

/-- Slots without notes. -/
def Slots.unset (stamp : Nat) (type : TypeId) : Slots := ⟨stamp, type, none, .blank, 0, []⟩

/-- A node: committed type and edges, and its slots. -/
structure Node where
  type : TypeId
  edges : List Edge
  slots : Slots
  deriving Repr

/-- A node that no episode has touched. -/
def Node.fresh (type : TypeId) (edges : List Edge) : Node := ⟨type, edges, .unset 0 .top⟩

instance : Inhabited Node := ⟨.fresh .top []⟩

/-- Nodes by number, and the number of the current episode. -/
structure Graph where
  nodes : Array Node
  generation : Nat
  deriving Repr

namespace Graph

/-- The graph without nodes, before its first episode. -/
def empty : Graph := ⟨#[], 1⟩

instance : Inhabited Graph := ⟨empty⟩

def size (g : Graph) : Nat := g.nodes.size

def isEmpty (g : Graph) : Bool := g.nodes.isEmpty

def node (g : Graph) (n : NodeId) : Node := g.nodes.getD n default

/-! ### Committed structure -/

/-- The committed type of a node. -/
def type (g : Graph) (n : NodeId) : TypeId := (g.node n).type

/-- The committed edges of a node, by feature. -/
def edges (g : Graph) (n : NodeId) : List Edge := (g.node n).edges

/-- The committed value of a feature. -/
def value? (g : Graph) (n : NodeId) (feature : FeatureId) : Option NodeId :=
  Edges.target? feature (g.edges n)

/-- The node at the end of a path of committed edges. -/
def follow? (g : Graph) (n : NodeId) (path : List FeatureId) : Option NodeId :=
  path.foldlM g.value? n

/-- Adds a node with the given edges, which must be in order; its number is the old size. -/
def add (g : Graph) (type : TypeId) (edges : List Edge) : Graph :=
  { g with nodes := g.nodes.push (.fresh type edges) }

def setType (g : Graph) (n : NodeId) (type : TypeId) : Graph :=
  { g with nodes := g.nodes.modify n fun node => { node with type } }

def setEdges (g : Graph) (n : NodeId) (edges : List Edge) : Graph :=
  { g with nodes := g.nodes.modify n fun node => { node with edges } }

/-- Sets the value of a feature. -/
def putEdge (g : Graph) (n : NodeId) (feature : FeatureId) (target : NodeId) : Graph :=
  { g with nodes := g.nodes.modify n fun node =>
    { node with edges := Edges.put feature target node.edges } }

/-- Takes a feature away. -/
def dropEdge (g : Graph) (n : NodeId) (feature : FeatureId) : Graph :=
  { g with nodes := g.nodes.modify n fun node =>
    { node with edges := Edges.drop feature node.edges } }

/-! ### Size -/

/-- Drops the nodes from `size` on. Nothing that stays may point at them. -/
def truncate (g : Graph) (size : Nat) : Graph := { g with nodes := g.nodes.take size }

/-- The number of a node after the nodes from `first` to before `start` are gone. -/
def shifted (first start n : Nat) : NodeId := if start ≤ n then n - (start - first) else n

/-- Drops the nodes from `first` to before `start` and moves the later ones down in their place.
Nothing that stays may point at a dropped node. -/
def compact (g : Graph) (first start : Nat) : Graph :=
  if start ≤ first then g
  else
    let later := (g.nodes.extract start g.nodes.size).map fun node =>
      { node with edges := Edges.mapTargets (shifted first start) node.edges }
    { g with nodes := g.nodes.take first ++ later }

/-- Drops all nodes and begins anew. -/
def clear (_ : Graph) : Graph := empty

/-- A bound on the work of a walk that goes along each edge once: nodes, edges and pending edges
together. -/
def weight (g : Graph) : Nat :=
  g.nodes.foldl (fun w node => w + 1 + node.edges.length + node.slots.pending.length) 1

/-! ### Episodes -/

/-- The last number an episode can have. -/
def lastGeneration : Nat := 4294967295

/-- Starts the next episode. After the last number the stamps are wiped and numbers begin anew. -/
def invalidate (g : Graph) : Graph :=
  if g.generation = lastGeneration then
    { nodes := g.nodes.map fun node => { node with slots := { node.slots with stamp := 0 } }
      generation := 1 }
  else { g with generation := g.generation + 1 }

/-! ### Laws -/

@[simp] theorem size_add (g : Graph) (type : TypeId) (edges : List Edge) :
    (g.add type edges).size = g.size + 1 := by simp [add, size]

/-- The node that was changed is changed, and no other. -/
theorem node_modify (g : Graph) (n m : NodeId) (f : Node → Node) :
    ({ g with nodes := g.nodes.modify n f } : Graph).node m =
      if n = m ∧ n < g.size then f (g.node m) else g.node m := by
  simp only [node, size, Array.getD_eq_getD_getElem?, Array.getElem?_modify]
  by_cases h : n = m
  · subst h
    by_cases hn : n < g.nodes.size <;> simp [hn]
  · simp [h]

theorem type_putEdge (g : Graph) (n m : NodeId) (feature : FeatureId) (target : NodeId) :
    (g.putEdge n feature target).type m = g.type m := by
  simp only [type, putEdge, node_modify]
  split <;> rfl

/-- Setting the value of a feature changes that one value. -/
theorem value?_putEdge (g : Graph) (n m : NodeId) (feature f : FeatureId) (target : NodeId) :
    (g.putEdge n feature target).value? m f =
      if n = m ∧ n < g.size ∧ feature = f then some target else g.value? m f := by
  simp only [value?, edges, putEdge, node_modify]
  by_cases h : n = m ∧ n < g.size
  · rw [if_pos h]
    simp only [Edges.target?_put, h.1, h.1 ▸ h.2, true_and]
  · rw [if_neg h, if_neg fun hc => h ⟨hc.1, hc.2.1⟩]

theorem edges_add (g : Graph) (type : TypeId) (edges : List Edge) (m : NodeId) :
    (g.add type edges).edges m = if m = g.size then edges else g.edges m := by
  simp only [Graph.edges, node, add, size, Array.getD_eq_getD_getElem?, Array.getElem?_push]
  split <;> simp [Node.fresh]

theorem type_add (g : Graph) (type : TypeId) (edges : List Edge) (m : NodeId) :
    (g.add type edges).type m = if m = g.size then type else g.type m := by
  simp only [Graph.type, node, add, size, Array.getD_eq_getD_getElem?, Array.getElem?_push]
  split <;> simp [Node.fresh]

@[simp] theorem size_putEdge (g : Graph) (n : NodeId) (feature : FeatureId) (target : NodeId) :
    (g.putEdge n feature target).size = g.size := by simp [putEdge, size]

@[simp] theorem size_dropEdge (g : Graph) (n : NodeId) (feature : FeatureId) :
    (g.dropEdge n feature).size = g.size := by simp [dropEdge, size]

@[simp] theorem size_truncate (g : Graph) (size : Nat) :
    (g.truncate size).size = min size g.size := by simp [truncate, Graph.size]

@[simp] theorem size_setType (g : Graph) (n : NodeId) (type : TypeId) :
    (g.setType n type).size = g.size := by simp [setType, size]

@[simp] theorem size_setEdges (g : Graph) (n : NodeId) (edges : List Edge) :
    (g.setEdges n edges).size = g.size := by simp [setEdges, size]

@[simp] theorem size_invalidate (g : Graph) : g.invalidate.size = g.size := by
  unfold invalidate
  split <;> simp [size]

@[simp] theorem type_invalidate (g : Graph) (n : NodeId) : g.invalidate.type n = g.type n := by
  unfold invalidate
  split
  · simp only [type, node, Array.getD_eq_getD_getElem?, Array.getElem?_map]
    cases g.nodes[n]? <;> rfl
  · rfl

@[simp] theorem edges_invalidate (g : Graph) (n : NodeId) : g.invalidate.edges n = g.edges n := by
  unfold invalidate
  split
  · simp only [edges, node, Array.getD_eq_getD_getElem?, Array.getElem?_map]
    cases g.nodes[n]? <;> rfl
  · rfl

end Graph

end FeatureLogic
