import FeatureLogic.Agenda
import FeatureLogic.Graph.Slots
import FeatureLogic.Lattice.Basic
import FeatureLogic.PathTree
import FeatureLogic.Text.Decimal

/-!
Quick check: the types at a fixed set of paths, compared before two structures are unified. Where
both structures have a path, the types at its ends must have a common lower bound if the structures
are to unify.
-/

namespace FeatureLogic

/-- Why a structure encodes no quick-check paths. -/
inductive QuickCheckError
  | badPosition (node : NodeId) (name : String)
  | cyclic (node : NodeId)
  deriving DecidableEq, Repr

def QuickCheckError.message : QuickCheckError → String
  | badPosition node name => s!"quick-check node n{node} is not named by a position: `{name}`"
  | cyclic node => s!"quick-check paths contain a cycle through n{node}"

/-- A tree of paths that each fill a position of a vector. A position that several paths fill gets
the last that is there. -/
structure QuickCheck where
  tree : PathTree
  /-- The number of positions. -/
  size : Nat
  deriving DecidableEq, Repr

namespace QuickCheck

def empty : QuickCheck := ⟨.root, 0⟩

instance : Inhabited QuickCheck := ⟨empty⟩

def isEmpty (q : QuickCheck) : Bool := q.size == 0

/-- Adds a path that fills the position after the last one. -/
def addPath (q : QuickCheck) (path : List FeatureId) (position : Nat) : QuickCheck :=
  let ⟨tree, _⟩ := q
  let (n, tree) := tree.ensure path
  ⟨tree.mark n position, position + 1⟩

/-- The path at place `i` of a list fills position `i`. -/
def ofPaths (paths : List (List FeatureId)) : QuickCheck :=
  paths.zipIdx.foldl (fun q (path, position) => q.addPath path position) empty

/-! ### Paths written as a feature structure -/

/-- The state of a walk along all paths: the nodes of the current path, and the paths so far. -/
structure Survey where
  onPath : Array Bool
  tree : PathTree
  size : Nat

/-- What a walk along all paths has still to do; `place` is a node of the tree. -/
inductive SurveyTask
  /-- Take up a node, to which a path with this place leads. -/
  | enter (node : NodeId) (place : Nat)
  /-- Go along an edge of a node with this place. -/
  | along (edge : Edge) (place : Nat)
  /-- The node is no longer on the current path. -/
  | leave (node : NodeId)

/-- The position that a type name gives, counted from one; quotation marks around it do not
count. -/
def positionOf? (name : String) : Option Nat :=
  let bare := ((name.toList.dropWhile (· == '"')).reverse.dropWhile (· == '"')).reverse
  (Text.natBelow? (Nat.pow 2 64) bare).filter (0 < ·)

/-- Writes the position of a node at its place, if its type is not the universal one. -/
def Survey.mark (l : Lattice) (g : Graph) (node : NodeId) (place : Nat) (s : Survey) :
    Except QuickCheckError Survey :=
  let type := g.type node
  if type.isTop then .ok s
  else
    let name := (l.typeName? type).getD ""
    match positionOf? name with
    | some position =>
      let ⟨onPath, tree, size⟩ := s
      .ok ⟨onPath, tree.mark place (position - 1), max size position⟩
    | none => .error (.badPosition node name)

/-- One turn of the walk. It ends the walk at a name that is no position, or on a cycle. -/
def Survey.turn (l : Lattice) (g : Graph) (s : Survey) :
    SurveyTask → Turn Survey SurveyTask QuickCheckError
  | .leave node => .next { s with onPath := s.onPath.setIfInBounds node false } []
  | .along edge place =>
    let ⟨onPath, tree, size⟩ := s
    let (child, tree) := tree.ensureChild place edge.feature
    .next ⟨onPath, tree, size⟩ [.enter edge.target child]
  | .enter node place =>
    if s.onPath.getD node false then .halt s (.cyclic node)
    else match s.mark l g node place with
      | .error e => .halt s e
      | .ok s =>
        .next { s with onPath := s.onPath.setIfInBounds node true }
          ((g.edges node).map (.along · place) ++ [.leave node])

/-- The number of turns in one round of a walk along all paths. -/
def turnsPerRound : Nat := 1 <<< 32

/-- Reads paths from the structure below a node. A node's type names the position that the path
to it fills, counted from one; nodes of the universal type only lead on. A path of a structure
without cycles is no longer than the structure is large, which bounds the number of the paths. -/
def ofGraph (g : Graph) (l : Lattice) (root : NodeId) : Except QuickCheckError QuickCheck :=
  let start : Survey := ⟨.replicate g.size false, .root, 0⟩
  let rounds := Nat.pow (g.weight + 2) (g.size + 2)
  match Agenda.runRounds (Survey.turn l g) turnsPerRound rounds start [.enter root 0] with
  | .done s | .spent s _ => .ok ⟨s.tree, s.size⟩
  | .halted _ e _ => .error e

/-! ### Vectors -/

/-- The values that a node has for features, each with the node of the tree that its feature leads
to. -/
def descend (g : Graph) (n : NodeId) (children : List Edge) : List (NodeId × Nat) :=
  children.filterMap fun e => (g.currentValue? n e.feature).map fun value => (value, e.target)

/-- One turn of a walk along the tree and a structure at once: what stands at a node of the tree is
found for its position, and the walk goes on to the children whose features have a value. -/
def collect (t : PathTree) (g : Graph) (found : Array (Option NodeId)) (task : NodeId × Nat) :
    Turn (Array (Option NodeId)) (NodeId × Nat) Empty :=
  let (n, place) := task
  let entry := t.node place
  let found := match entry.position with
    | some position => found.setIfInBounds position (some n)
    | none => found
  .next found (descend g n entry.children)

/-- For each position the node found there. -/
def nodes (q : QuickCheck) (g : Graph) (root : NodeId) : List (Option NodeId) :=
  let start := Array.replicate q.size none
  (Agenda.run (collect q.tree g) q.tree.size start [(g.deref root, 0)]).state.toList

/-- For each position the type found there, `bottom` where there is no node. -/
def vector (q : QuickCheck) (g : Graph) (root : NodeId) : List TypeId :=
  (q.nodes g root).map fun n => (n.map g.currentType).getD .bottom

/-- Whether wherever both vectors have a type the two have a common lower bound. -/
def compatible : List TypeId → List TypeId → Lattice → Bool × Lattice
  | s :: first, t :: second, l =>
    if s.isBottom || t.isBottom then compatible first second l
    else
      let (glb, l) := l.unify s t
      if glb.isBottom then (false, l) else compatible first second l
  | _, _, l => (true, l)

end QuickCheck

end FeatureLogic
