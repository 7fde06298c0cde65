import FeatureLogic.Session.Basic

/-!
Subsumption of structures. The first structure subsumes the second when its nodes can be mapped to
nodes of the second, root to root, so that types get more special at most and every edge has a
matching one. A walk notes the partner of each node of the first structure as its pointer, and
with both directions checked at once the partner of each node of the second as its copy.
-/

namespace FeatureLogic

/-- What a check of one direction has still to do. -/
inductive SubsumeTask
  | compare (general specific : NodeId)
  /-- The second structure lacks a feature. -/
  | missing

/-- Which of two structures subsumes which. -/
structure Relation where
  /-- The first subsumes the second. -/
  firstGeneral : Bool
  /-- The second subsumes the first. -/
  secondGeneral : Bool
  deriving DecidableEq, Repr

namespace Relation

def equal : Relation := ⟨true, true⟩

def isNone (r : Relation) : Bool := !r.firstGeneral && !r.secondGeneral

end Relation

/-- What a check of both directions has still to do. -/
inductive RelateTask
  | compare (first second : NodeId)
  /-- Only the first of the two nodes has some feature. -/
  | onlyFirst (first : NodeId)
  /-- Only the second of the two nodes has some feature; `first` is the first. -/
  | onlySecond (first : NodeId)

/-- The state of a check of both directions. -/
structure Relating where
  session : Session
  relation : Relation

namespace Session

/-! ### One direction -/

/-- The values to compare, feature by feature, up to the first that the second list lacks. -/
def matchEdges (specific : List Edge) : List Edge → List SubsumeTask
  | [] => []
  | e :: rest =>
    match Edges.target? e.feature specific with
    | some target => .compare e.target target :: matchEdges specific rest
    | none => [.missing]

/-- One turn of a check of one direction. It ends the check when the direction fails. -/
def subsumeTurn (s : Session) : SubsumeTask → Turn Session SubsumeTask Unit
  | .missing => .halt s ()
  | .compare a b =>
    match s.graph.forward? a with
    | some partner => if partner = b then .next s [] else .halt s ()
    | none =>
      let s := s.mapGraph (·.setForward a b)
      let general := s.graph.currentType a
      let specific := s.graph.currentType b
      let (fits, s) := s.ask fun l => l.subsumes general specific
      if fits then .next s (matchEdges (s.graph.edges b) (s.graph.edges a)) else .halt s ()

/-- Whether the structure below `general` subsumes that below `specific`. -/
def subsumes (s : Session) (general specific : NodeId) : Bool × Session :=
  match Agenda.run subsumeTurn s.graph.weight s [.compare general specific] with
  | .done s | .spent s _ => (true, s.invalidate)
  | .halted s _ _ => (false, s.invalidate)

/-! ### Both directions -/

/-- The values to compare and the features that one side lacks, by feature; `a` is the first
node. -/
def pairEdges (a : NodeId) : List Edge → List Edge → List RelateTask
  | [], second => second.map fun _ => .onlySecond a
  | first, [] => first.map fun _ => .onlyFirst a
  | d :: first, e :: second =>
    if d.feature = e.feature then .compare d.target e.target :: pairEdges a first second
    else if d.feature < e.feature then .onlyFirst a :: pairEdges a first (e :: second)
    else .onlySecond a :: pairEdges a (d :: first) second
  termination_by first second => first.length + second.length

end Session

namespace Relating

/-- The first structure does not subsume the second, as node `a` shows. -/
def dropFirst (r : Relating) (a : NodeId) (kind : FailureKind) : Relating :=
  ⟨r.session.recordForward a kind, { r.relation with firstGeneral := false }⟩

/-- The second structure does not subsume the first, as node `a` of the first shows. -/
def dropSecond (r : Relating) (a : NodeId) (kind : FailureKind) : Relating :=
  ⟨r.session.recordBackward a kind, { r.relation with secondGeneral := false }⟩

/-- Goes on with `k`, unless no direction is left. -/
@[inline]
def orHalt (r : Relating) (k : Relating → Turn Relating RelateTask Unit) :
    Turn Relating RelateTask Unit :=
  if r.relation.isNone then .halt r () else k r

/-- Pairs `a` with `b` for the first direction, and tells whether they were a pair already. -/
def pairFirst (r : Relating) (a b : NodeId) : Bool × Relating :=
  let ⟨session, relation⟩ := r
  if relation.firstGeneral then
    match session.graph.forward? a with
    | none => (false, ⟨session.mapGraph (·.setForward a b), relation⟩)
    | some partner =>
      if partner = b then (true, ⟨session, relation⟩)
      else (false, dropFirst ⟨session, relation⟩ a .coreference)
  else (false, ⟨session, relation⟩)

/-- Pairs `b` with `a` for the second direction, and tells whether they were a pair already. -/
def pairSecond (r : Relating) (a b : NodeId) : Bool × Relating :=
  let ⟨session, relation⟩ := r
  if relation.secondGeneral then
    match session.graph.copyMark b with
    | .blank => (false, ⟨session.mapGraph (·.setCopyMark b (.copied a)), relation⟩)
    | .copied partner =>
      if partner = a then (true, ⟨session, relation⟩)
      else (false, dropSecond ⟨session, relation⟩ a .coreference)
    | .underway => (false, dropSecond ⟨session, relation⟩ a .coreference)
  else (false, ⟨session, relation⟩)

/-- Drops the directions that the types of two nodes rule out, the first direction first. -/
def compareTypes (r : Relating) (a b : NodeId)
    (k : Relating → Turn Relating RelateTask Unit) : Turn Relating RelateTask Unit :=
  let ⟨session, relation⟩ := r
  let first := session.graph.currentType a
  let second := session.graph.currentType b
  if first = second then k ⟨session, relation⟩
  else
    let (fits, session) := session.ask fun l => l.subsumes first second
    let r : Relating := ⟨session, relation⟩
    let r := if fits then r else r.dropFirst a .type
    r.orHalt fun ⟨session, relation⟩ =>
      let (fits, session) := session.ask fun l => l.subsumes second first
      let r : Relating := ⟨session, relation⟩
      let r := if fits then r else r.dropSecond a .type
      r.orHalt k

/-- One turn of a check of both directions. It ends the check when no direction is left. -/
def turn (r : Relating) : RelateTask → Turn Relating RelateTask Unit
  | .onlyFirst a => (r.dropFirst a .feature).orHalt fun r => .next r []
  | .onlySecond a => (r.dropSecond a .feature).orHalt fun r => .next r []
  | .compare a b =>
    match r.pairFirst a b with
    | (true, r) => .next r []
    | (false, r) => r.orHalt fun r =>
      match r.pairSecond a b with
      | (true, r) => .next r []
      | (false, r) => r.orHalt fun r =>
        r.compareTypes a b fun r =>
          .next r (Session.pairEdges a (r.session.graph.edges a) (r.session.graph.edges b))

end Relating

namespace Session

/-- Which of two structures subsumes which. The record of failures, if any, begins anew. Every
turn that goes on pairs a node in one of the two directions, of which the first may end. -/
def relate (s : Session) (a b : NodeId) : Relation × Session :=
  let s := { s with failures := s.failures.map fun _ => .empty }
  let bound := 2 * (s.graph.weight + 1) * (s.graph.weight + 1)
  let final := (Agenda.run Relating.turn bound ⟨s, .equal⟩ [.compare a b]).state
  (final.relation, final.session.invalidate)

end Session

end FeatureLogic
