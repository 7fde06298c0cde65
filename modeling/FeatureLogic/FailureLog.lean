import FeatureLogic.Ident

/-!
Records of where unification or subsumption failed, for each side by node. Of several entries for
a node the last one counts.
-/

namespace FeatureLogic

/-- Why a step failed at a node. -/
inductive FailureKind
  /-- The two types have no common lower bound. -/
  | type
  /-- The result contains a cycle. -/
  | cycle
  /-- The values of a feature do not unify. -/
  | feature
  /-- Paths that lead to one node demand incompatible values. -/
  | coreference
  /-- The structure that its type demands does not unify with the node. -/
  | wellformedness
  deriving DecidableEq, Repr

/-- The words for a failure. -/
def FailureKind.message : FailureKind → String
  | type => "type clash"
  | cycle => "cycle"
  | feature => "feature clash"
  | coreference => "coreference clash"
  | wellformedness => "wellformedness"

/-- Entries for the first and for the second operand, last first. -/
structure FailureLog where
  forward : List (NodeId × FailureKind)
  backward : List (NodeId × FailureKind)
  deriving Repr

namespace FailureLog

def empty : FailureLog := ⟨[], []⟩

def isEmpty (log : FailureLog) : Bool := log.forward.isEmpty && log.backward.isEmpty

def addForward (log : FailureLog) (node : NodeId) (kind : FailureKind) : FailureLog :=
  { log with forward := (node, kind) :: log.forward }

def addBackward (log : FailureLog) (node : NodeId) (kind : FailureKind) : FailureLog :=
  { log with backward := (node, kind) :: log.backward }

/-- An entry for each operand. -/
def add (log : FailureLog) (left right : NodeId) (kind : FailureKind) : FailureLog :=
  ⟨(left, kind) :: log.forward, (right, kind) :: log.backward⟩

/-- From entries by node the first of each node. -/
def firstOfEach : List (NodeId × FailureKind) → List (NodeId × FailureKind)
  | [] => []
  | [entry] => [entry]
  | a :: b :: rest =>
    if a.1 = b.1 then firstOfEach (a :: rest) else a :: firstOfEach (b :: rest)
  termination_by entries => entries.length

/-- The entries that count, by node. -/
def byNode (entries : List (NodeId × FailureKind)) : List (NodeId × FailureKind) :=
  firstOfEach (entries.mergeSort fun a b => a.1 ≤ b.1)

end FailureLog

end FeatureLogic
