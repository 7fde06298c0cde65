import Std.Data.HashMap
import FeatureLogic.Agenda
import FeatureLogic.Graph.Trail
import FeatureLogic.Lattice.Basic
import FeatureLogic.Notation.Scanner

/-!
Reading feature structures from tokens:

```text
FS   := '#' n FS? | '[' TYPE (FEATURE FS)* ']'
TYPE := word | "quoted" | number
```

Numbers in type or feature position are the numbers of types and features. A quoted name that is
no type of the hierarchy becomes an atom; a word that names no type stands for the universal type.
A coreference `#n` may be used before its structure is complete, which is how cycles are written.
A structure that cannot be read leaves no nodes behind.
-/

namespace FeatureLogic.Notation

/-- The state of reading one structure. -/
structure Reading where
  graph : Graph
  lattice : Lattice
  scanner : Scanner
  /-- The nodes of the coreference numbers met. -/
  corefs : Std.HashMap Nat NodeId
  /-- The node of the structure read last. -/
  value : NodeId

/-- What is to be read next. -/
inductive ReadTask
  /-- A whole structure. -/
  | whole
  /-- The type of a node whose bracket is open. -/
  | type (node : NodeId)
  /-- Features and values up to the closing bracket. -/
  | features (node : NodeId)
  /-- The structure read last is the value of a feature. -/
  | attach (node : NodeId) (feature : FeatureId)

namespace Reading

/-- Reads a token; the end of the text is an error that names what was expected. -/
@[inline]
def take (expected : String) (r : Reading)
    (k : Reading → Token → Position → Turn Reading ReadTask SyntaxError) :
    Turn Reading ReadTask SyntaxError :=
  let ⟨graph, lattice, scanner, corefs, value⟩ := r
  let (found, scanner) := scanner.next
  let r := ⟨graph, lattice, scanner, corefs, value⟩
  match found with
  | .error e => .halt r e
  | .ok none => .halt r (.unexpectedEnd expected)
  | .ok (some (token, position)) => k r token position

/-- Refuses a token. -/
def refuse (expected : String) (r : Reading) (token : Token) (position : Position) :
    Turn Reading ReadTask SyntaxError :=
  .halt r (.unexpectedToken expected token.describe position)

/-- A new node without type and edges so far. -/
def newNode (r : Reading) : Reading := { r with graph := r.graph.add .top [] }

/-- The node of a new coreference number. -/
def define (r : Reading) (n : Nat) (node : NodeId) : Reading :=
  { r with corefs := r.corefs.insert n node }

/-- Reads the beginning of a structure: an open bracket, or a coreference with the bracket after
its first use. -/
def readStructure (r : Reading) : Turn Reading ReadTask SyntaxError :=
  r.take "`[` or `#`" fun r token position =>
    match token with
    | .openBracket =>
      let node := r.graph.size
      .next r.newNode [.type node]
    | .hash => r.take "coreference number" fun r token position =>
      match token with
      | .number n =>
        match r.corefs[n]? with
        | some node => .next { r with value := node } []
        | none =>
          let node := r.graph.size
          (r.newNode.define n node).take "`[`" fun r token position =>
            match token with
            | .openBracket => .next r [.type node]
            | _ => r.refuse "`[`" token position
      | _ => .halt r (.badCoreference position)
    | _ => r.refuse "`[` or `#`" token position

/-- Reads the type of a node. -/
def readType (r : Reading) (node : NodeId) : Turn Reading ReadTask SyntaxError :=
  r.take "type" fun r token position =>
    let give (r : Reading) (type : TypeId) : Turn Reading ReadTask SyntaxError :=
      .next { r with graph := r.graph.setType node type } [.features node]
    match token with
    | .number n => give r (if r.lattice.isGrammarType (.of n) then .of n else .top)
    | .word name => give r ((r.lattice.typeId? name).getD .top)
    | .quoted name =>
      let (type, lattice) := r.lattice.intern name
      give { r with lattice } type
    | _ => r.refuse "type" token position

/-- Reads a feature, whose value is to be read next, or the closing bracket. -/
def readFeature (names : NameTable) (r : Reading) (node : NodeId) :
    Turn Reading ReadTask SyntaxError :=
  r.take "feature or `]`" fun r token position =>
    let value (r : Reading) (feature : FeatureId) : Turn Reading ReadTask SyntaxError :=
      .next r [.whole, .attach node feature, .features node]
    match token with
    | .closeBracket => .next { r with value := node } []
    | .number n =>
      if n < names.size then value r n else .halt r (.unknownFeature (toString n) position)
    | .word name =>
      match names.index? name with
      | some feature => value r feature
      | none => .halt r (.unknownFeature name position)
    | _ => r.refuse "feature or `]`" token position

/-- Does one task. -/
def turn (names : NameTable) (r : Reading) : ReadTask → Turn Reading ReadTask SyntaxError
  | .whole => r.readStructure
  | .type node => r.readType node
  | .features node => r.readFeature names node
  | .attach node feature =>
    .next { r with graph := r.graph.putEdge node feature r.value } []

end Reading

/-- What reading leaves: the node read or the error, and what it changed. -/
structure ReadResult where
  outcome : Except SyntaxError NodeId
  graph : Graph
  lattice : Lattice
  scanner : Scanner

/-- Reads the next structure of a text. Every token leads to at most three tasks. -/
def read (names : NameTable) (lattice : Lattice) (graph : Graph) (scanner : Scanner) : ReadResult :=
  let size := graph.size
  let start : Reading := ⟨graph, lattice, scanner, {}, 0⟩
  match Agenda.run (Reading.turn names) (3 * (scanner.bound + 2)) start [.whole] with
  | .done r => ⟨.ok r.value, r.graph, r.lattice, r.scanner⟩
  | .halted r e _ => ⟨.error e, r.graph.truncate size, r.lattice, r.scanner⟩
  | .spent r _ =>
    ⟨.error (.unexpectedEnd "`[` or `#`"), r.graph.truncate size, r.lattice, r.scanner⟩

/-- Reads a text that holds one structure and nothing else. When something follows, the structure
stays in the graph. -/
def parse (names : NameTable) (lattice : Lattice) (graph : Graph) (text : String) : ReadResult :=
  let result := read names lattice graph (.start text)
  match result with
  | ⟨.error _, _, _, _⟩ => result
  | ⟨.ok node, graph, lattice, scanner⟩ =>
    match scanner.next with
    | (.ok none, scanner) => ⟨.ok node, graph, lattice, scanner⟩
    | (.ok (some (_, position)), scanner) =>
      ⟨.error (.trailingInput position), graph, lattice, scanner⟩
    | (.error e, scanner) => ⟨.error e, graph, lattice, scanner⟩

end FeatureLogic.Notation
