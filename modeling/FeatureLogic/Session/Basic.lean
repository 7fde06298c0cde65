import FeatureLogic.FailureLog
import FeatureLogic.Grammar.Basic
import FeatureLogic.Graph.Copying
import FeatureLogic.Notation.Printer
import FeatureLogic.Notation.Reader

/-!
Sessions: a grammar with one graph of nodes and, if wanted, a record of failures.
-/

namespace FeatureLogic

/-- A grammar with a graph to work in. What is learned about its lattice stays with the session. -/
structure Session where
  grammar : Grammar
  graph : Graph
  /-- The record of failures, when failures are recorded. -/
  failures : Option FailureLog

namespace Session

/-- A session without nodes. -/
def ofGrammar (grammar : Grammar) : Session := ⟨grammar, .empty, none⟩

instance : Inhabited Session := ⟨ofGrammar default⟩

/-- Changes the graph alone. -/
@[inline]
def mapGraph (s : Session) (f : Graph → Graph) : Session := { s with graph := f s.graph }

/-- A question to the lattice, which keeps what it learned. -/
@[inline]
def ask {α : Type} (s : Session) (question : Lattice → α × Lattice) : α × Session :=
  let ⟨grammar, graph, failures⟩ := s
  let (answer, lattice) := question grammar.lattice
  (answer, ⟨{ grammar with lattice }, graph, failures⟩)

/-- Notes a failure of two nodes, when failures are recorded. -/
def record (s : Session) (left right : NodeId) (kind : FailureKind) : Session :=
  { s with failures := s.failures.map (·.add left right kind) }

def recordForward (s : Session) (node : NodeId) (kind : FailureKind) : Session :=
  { s with failures := s.failures.map (·.addForward node kind) }

def recordBackward (s : Session) (node : NodeId) (kind : FailureKind) : Session :=
  { s with failures := s.failures.map (·.addBackward node kind) }

/-- Turns recording on, with an empty record, or off. -/
def recordFailures (s : Session) (on : Bool) : Session :=
  { s with failures := if on then some .empty else none }

/-- The record so far; an empty one takes its place. -/
def takeFailures (s : Session) : Option FailureLog × Session :=
  (s.failures, { s with failures := s.failures.map fun _ => .empty })

/-- Ends the episode: all notes become void. -/
def invalidate (s : Session) : Session := s.mapGraph Graph.invalidate

/-- Ends the episode and drops the nodes from `size` on. -/
def abandon (s : Session) (size : Nat) : Session :=
  s.mapGraph fun g => g.invalidate.truncate size

/-- Reads a structure into the graph. -/
def parse (s : Session) (text : String) : Except Notation.SyntaxError NodeId × Session :=
  let ⟨grammar, graph, failures⟩ := s
  let read := Notation.parse grammar.features grammar.lattice graph text
  (read.outcome, ⟨{ grammar with lattice := read.lattice }, read.graph, failures⟩)

/-- Reads the next structure of a text into the graph. -/
def read (s : Session) (scanner : Notation.Scanner) :
    Except Notation.SyntaxError NodeId × Notation.Scanner × Session :=
  let ⟨grammar, graph, failures⟩ := s
  let read := Notation.read grammar.features grammar.lattice graph scanner
  (read.outcome, read.scanner, ⟨{ grammar with lattice := read.lattice }, read.graph, failures⟩)

/-- The text of the structure below a node. -/
def print (s : Session) (root : NodeId) : String :=
  Notation.print s.grammar.features s.grammar.lattice s.graph root

/-- Copies the committed structure below a node of another graph. -/
def importFrom (s : Session) (source : Graph) (root : NodeId) : NodeId × Session :=
  (s.graph.size, s.mapGraph (·.copyFrom source root))

/-- Copies the committed structure below a node. -/
def clone (s : Session) (root : NodeId) : NodeId × Session :=
  (s.graph.size, s.mapGraph (·.copyWithin root))

end Session

end FeatureLogic
