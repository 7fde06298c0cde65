import FeatureLogic.Agenda
import FeatureLogic.Graph.Trail
import FeatureLogic.Lattice.Basic

/-!
Printing feature structures: `[type FEAT[...] FEAT #1[...] FEAT #1]`. What is printed is the
structure of the current episode. A node that is reached more than once has a coreference number,
counted from one in the order in which the numbers come up in the text; its structure stands at
the first place only.
-/

namespace FeatureLogic.Notation

/-- How often a walk that goes on from each node once comes to each node: once for the root, and
once for each edge of a node on the trail. -/
def arrivals (g : Graph) (root : NodeId) : Array Nat :=
  let start := (Array.replicate g.size 0).modify (g.deref root) (· + 1)
  (g.currentTrail root).order.foldl (fun counts n =>
    (g.currentTargets n).foldl (fun counts m => counts.modify m (· + 1)) counts) start

/-- A name between quotation marks, with a backslash before marks and backslashes. -/
def quotedName (name : String) : String :=
  "\"" ++ String.join (name.toList.map fun c =>
    if c = '"' ∨ c = '\\' then "\\" ++ c.toString else c.toString) ++ "\""

/-- A type by name, an atom's name quoted; a type without name by number. -/
def typeText (l : Lattice) (t : TypeId) : String :=
  match l.typeName? t with
  | some name => if l.isAtom t then quotedName name else name
  | none => toString t.code

/-- A feature by name, or by number when it has none. -/
def featureText (names : NameTable) (feature : FeatureId) : String :=
  (names.name? feature).getD (toString feature)

/-- What printing needs to know of the whole structure and does not change. -/
structure Scene where
  graph : Graph
  lattice : Lattice
  names : NameTable
  /-- How often each node is come to. -/
  arrivals : Array Nat

/-- Whether a node is come to more than once. -/
def Scene.isShared (s : Scene) (n : NodeId) : Bool := 1 < s.arrivals.getD n 0

/-- The text printed so far and the numbers given. -/
structure Printed where
  text : String
  numbers : Array (Option Nat)
  count : Nat

/-- What is to be printed next. -/
inductive PrintTask
  | text (text : String)
  /-- A node that stands for itself. -/
  | node (n : NodeId)

namespace Scene

/-- The tasks of a node's edges, and of the bracket that closes it. -/
def body (s : Scene) (n : NodeId) : List PrintTask :=
  (s.graph.currentEdges n).foldr (fun e tasks =>
    let target := s.graph.deref e.target
    let name := " " ++ featureText s.names e.feature
    .text (if s.isShared target then name ++ " " else name) :: .node target :: tasks)
    [.text "]"]

/-- The open bracket of a node with its type. -/
def opening (s : Scene) (n : NodeId) : String :=
  "[" ++ typeText s.lattice (s.graph.currentType n)

/-- Prints one text or the beginning of one node. -/
def turn (s : Scene) (p : Printed) : PrintTask → Turn Printed PrintTask Empty
  | .text text => .next { p with text := p.text ++ text } []
  | .node n =>
    if s.isShared n then
      match p.numbers.getD n none with
      | some number => .next { p with text := p.text ++ s!"#{number}" } []
      | none =>
        let ⟨text, numbers, count⟩ := p
        let number := count + 1
        .next ⟨text ++ s!"#{number}" ++ s.opening n, numbers.setIfInBounds n (some number), number⟩
          (s.body n)
    else .next { p with text := p.text ++ s.opening n } (s.body n)

end Scene

/-- The text of the structure below a node. Every edge and node on the trail leads to two tasks. -/
def print (names : NameTable) (lattice : Lattice) (graph : Graph) (root : NodeId) : String :=
  let scene : Scene := ⟨graph, lattice, names, arrivals graph root⟩
  let start : Printed := ⟨"", .replicate graph.size none, 0⟩
  (Agenda.run scene.turn (2 * graph.weight) start [.node (graph.deref root)]).state.text

end FeatureLogic.Notation
