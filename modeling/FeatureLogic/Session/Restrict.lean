import Std.Data.HashSet
import FeatureLogic.Restrictor.Basic
import FeatureLogic.Session.Unfill

/-!
Restriction in place: the committed structure below a node loses the edges that a restrictor does
not keep and its types get as general as the restrictor says. A node that is reached at several
positions of the restrictor gets the restriction of each.

The special restriction treats structures as they are stored for later use: difference lists that
are closed are emptied, and where a rule says something about a node, the edges it says nothing
about are unfilled.
-/

namespace FeatureLogic

/-- The state of a restriction: the nodes and the cursors at which they were come to. -/
structure Pruning where
  session : Session
  seen : Std.HashSet (NodeId × RestrictCursor)

namespace Pruning

def start (s : Session) : Pruning := ⟨s, {}⟩

@[inline]
def mapGraph (p : Pruning) (f : Graph → Graph) : Pruning :=
  { p with session := p.session.mapGraph f }

/-- Notes a node at a cursor. -/
def mark (p : Pruning) (n : NodeId) (cursor : RestrictCursor) : Pruning :=
  { p with seen := p.seen.insert (n, cursor) }

/-- Makes the type of a node as general as the restrictor says. -/
def generalize (p : Pruning) (r : Restrictor) (n : NodeId) (cursor : RestrictCursor) : Pruning :=
  let ⟨session, seen⟩ := p
  let type := session.graph.type n
  let (type, session) := session.ask fun l => r.generalize cursor type l
  ⟨session.mapGraph (·.setType n type), seen⟩

/-! ### Plain restriction -/

/-- Comes to a node at a cursor: at the first time it is restricted and what follows it is to be
come to. -/
def turn (r : Restrictor) (p : Pruning) (place : NodeId × RestrictCursor) :
    Turn Pruning (NodeId × RestrictCursor) Empty :=
  let (n, cursor) := place
  if p.seen.contains (n, cursor) then .next p []
  else
    let p := (p.mark n cursor).generalize r n cursor
    let kept := (p.session.graph.edges n).filter fun e => r.keeps cursor e.feature
    .next (p.mapGraph (·.setEdges n kept))
      (kept.map fun e => (e.target, r.descend cursor e.feature))

end Pruning

/-- Restricts the structure below a node and ends the episode. -/
def Session.restrict (s : Session) (root : NodeId) (r : Restrictor) : Session :=
  let work := r.cursorBound * s.graph.weight
  (Agenda.run (Pruning.turn r) work (.start s) [(root, r.start)]).state.session.invalidate

/-! ### Special restriction -/

/-- How many values of the feature for gaps a special restriction goes down; the difference list
reached there is emptied. -/
def slashLimit : Nat := 999

/-- What a special restriction has still to do. -/
inductive SpecialTask
  /-- Restrict the structure below a node, `depth` gap values down. -/
  | enter (node : NodeId) (cursor : RestrictCursor) (depth : Nat)
  /-- Decide on the edges `left` of a node; `kept` are kept, last first. -/
  | decide (node : NodeId) (cursor : RestrictCursor) (depth : Nat) (left kept : List Edge)
  /-- Decide on an edge that the rules mention, now that its value is restricted. -/
  | judge (node : NodeId) (cursor : RestrictCursor) (depth : Nat) (edge : Edge)
      (left kept : List Edge)

namespace Pruning

/-- Empties the list of a difference list whose front and tail meet. -/
def emptyClosed (p : Pruning) (n : NodeId) : Pruning :=
  let grammar := p.session.grammar
  match grammar.diffList, grammar.special.list, grammar.special.last with
  | some diffList, some list, some last =>
    let ⟨session, seen⟩ := p
    let type := session.graph.type n
    let (isList, session) := session.ask fun l => l.subsumes diffList type
    let p : Pruning := ⟨session, seen⟩
    if isList then
      match p.session.graph.value? n list, p.session.graph.value? n last with
      | some front, some tail => if front = tail then p.mapGraph (·.setEdges front []) else p
      | _, _ => p
    else p
  | _, _, _ => p

/-- Makes a difference list an empty one: its front loses its structure and is its tail, too. -/
def truncateList (p : Pruning) (n : NodeId) : Pruning :=
  let special := p.session.grammar.special
  match special.list, special.last with
  | some list, some last =>
    match p.session.graph.value? n list with
    | some front => p.mapGraph fun g => (g.setEdges front []).putEdge n last front
    | none => p
  | _, _ => p

/-- The rule at a cursor, unless it says nothing: it leaves everything and has no children. -/
def speakingRule? (r : Restrictor) (cursor : RestrictCursor) : Option RestrictRule :=
  (r.ruleAt? cursor).filter fun rule => rule.mode != .leave || !rule.children.isEmpty

/-- Decides on one edge of a node. -/
def decide (u : Unfilling) (r : Restrictor) (p : Pruning) (n : NodeId) (cursor : RestrictCursor)
    (depth : Nat) (e : Edge) (left kept : List Edge) : Turn Pruning SpecialTask Empty :=
  if !r.keeps cursor e.feature then .next p [.decide n cursor depth left kept]
  else match speakingRule? r cursor with
    | none =>
      .next p [.enter e.target (r.descend cursor e.feature) depth,
        .decide n cursor depth left (e :: kept)]
    | some rule =>
      match rule.child? e.feature with
      | none =>
        let kept := if u.canGo p.session.graph n e then kept else e :: kept
        .next p [.decide n cursor depth left kept]
      | some child =>
        let isSlash := p.session.grammar.special.slash == some e.feature
        let below := if isSlash then depth + 1 else depth
        if isSlash && below == slashLimit then
          .next (p.truncateList e.target) [.decide n cursor depth left (e :: kept)]
        else .next p [.enter e.target (.at child) below, .judge n cursor depth e left kept]

/-- One turn of a special restriction. -/
def specialTurn (u : Unfilling) (r : Restrictor) (p : Pruning) :
    SpecialTask → Turn Pruning SpecialTask Empty
  | .enter n cursor depth =>
    if p.seen.contains (n, cursor) then .next p []
    else
      let p := ((p.mark n cursor).emptyClosed n).generalize r n cursor
      .next p [.decide n cursor depth (p.session.graph.edges n) []]
  | .decide n _ _ [] kept => .next (p.mapGraph (·.setEdges n kept.reverse)) []
  | .decide n cursor depth (e :: left) kept => decide u r p n cursor depth e left kept
  | .judge n cursor depth e left kept =>
    let kept := if u.canGo p.session.graph n e then kept else e :: kept
    .next p [.decide n cursor depth left kept]

end Pruning

/-- Restricts the structure below a node in the special way and ends the episode. At each cursor a
node is gone through once, with one edge more than before at most and three tasks an edge. -/
def Session.restrictSpecial (s : Session) (root : NodeId) (r : Restrictor) : Session :=
  let u : Unfilling := ⟨s.grammar, s.graph.committedArrivals root, false⟩
  let work := 8 * r.cursorBound * s.graph.weight
  let final := (Agenda.run (Pruning.specialTurn u r) work (.start s) [.enter root r.start 0]).state
  final.session.invalidate

end FeatureLogic
