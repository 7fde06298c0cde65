import FeatureLogic.Session.Unify
import FeatureLogic.Restrictor.Basic

/-!
Copying the structure of an episode out into new nodes, through a restrictor if wanted. A node that
is reached twice is copied once, so coreferences stay. A node that is reached while its own copy is
under way closes a cycle, and then there is no copy.
-/

namespace FeatureLogic

/-- Why there is no copy: the structure has a cycle that closes at a node. -/
structure CycleError where
  node : NodeId
  deriving DecidableEq, Repr

/-- The text of the error. -/
def CycleError.message (e : CycleError) : String := s!"result contains a cycle through n{e.node}"

/-- What a copy has still to do. -/
inductive CopyTask
  /-- Copy the structure below a node. -/
  | enter (node : NodeId) (cursor : RestrictCursor)
  /-- Make the copy of a node whose kept edges have copied targets. -/
  | finish (node : NodeId) (type : TypeId) (kept : List Edge)

namespace Session

/-- The copy of the node that stands for `n`. -/
def copyOf (g : Graph) (n : NodeId) : NodeId :=
  match g.copyMark (g.deref n) with
  | .copied copy => copy
  | _ => n

/-- One turn of a copy. A cycle ends it, with the node where it closes. -/
def copyTurn (r : Restrictor) (s : Session) : CopyTask → Turn Session CopyTask CycleError
  | .enter n cursor =>
    let n := s.graph.deref n
    match s.graph.copyMark n with
    | .underway => .halt s ⟨n⟩
    | .copied _ => .next s []
    | .blank =>
      let type := s.graph.currentType n
      let (type, s) := s.ask fun l => r.generalize cursor type l
      let kept := (s.graph.currentEdges n).filter fun e => r.keeps cursor e.feature
      .next (s.mapGraph (·.setCopyMark n .underway))
        (kept.foldr (fun e tasks => .enter e.target (r.descend cursor e.feature) :: tasks)
          [.finish n type kept])
  | .finish n type kept =>
    let edges := Edges.mapTargets (copyOf s.graph) kept
    .next (s.mapGraph fun g =>
      let copy := g.size
      (g.add type edges).setCopyMark n (.copied copy)) []

/-- Copies the structure of the episode below a node and ends the episode. On a cycle, which is
reported by the node that closes it, the nodes of the partial copy are dropped. -/
def extract (s : Session) (root : NodeId) (r : Restrictor) :
    Except CycleError NodeId × Session :=
  let size := s.graph.size
  let work := 2 * s.graph.weight
  match Agenda.runRounds (copyTurn r) work s.graph.copyRounds s [.enter root r.start] with
  | .done s | .spent s _ => (.ok (copyOf s.graph root), s.invalidate)
  | .halted s e _ =>
    (.error e, (s.record e.node e.node .cycle).mapGraph fun g => (g.truncate size).invalidate)

/-- Keeps everything. -/
def unrestricted : Restrictor := .simple .empty

/-- Copies the result of an episode out and drops what the episode made from `size` on, so that
only the copy stays; `none` for a cyclic result. -/
def extractOver (size : Nat) (s : Session) (root : NodeId) (r : Restrictor) :
    Option NodeId × Session :=
  let start := s.graph.size
  match s.extract root r with
  | (.ok copy, s) => (some (Graph.shifted size start copy), s.mapGraph (·.compact size start))
  | (.error _, s) => (none, s.mapGraph (·.truncate size))

/-- Unifies two nodes and copies the result out through a restrictor. The operands stay as they
are. -/
def unifyInto (budget : Nat) (s : Session) (left right : NodeId) (r : Restrictor) :
    Option (Option NodeId × Session) :=
  let size := s.graph.size
  (entangle budget s left right).map fun (unified, s) =>
    if unified then s.extractOver size left r else (none, s)

end Session

end FeatureLogic
