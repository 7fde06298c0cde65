import FeatureLogic.Session.Basic

/-!
Unification. A step changes no committed structure: it notes the type that the surviving node gets,
a pointer from the absorbed node to it and the edges that it gains. Where a node gets a more
special type whose prototype it has not met, it is unified with a copy of that prototype first.
The unified structure stays entangled with its operands until it is copied out.

Completion with prototypes need not come to an end, so every unification has a budget of turns and
says when it is used up.
-/

namespace FeatureLogic

/-- What a unification has still to do. -/
inductive UnifyTask
  /-- Unify two nodes. -/
  | pair (left right : NodeId)
  /-- Hand the edges of the absorbed node over to the survivor, for the nodes `left` and
  `right`. -/
  | merge (left right survivor : NodeId) (incoming : List Edge)
  /-- Unify `first` and `second` once more, now that `first` has met the prototype of its type. -/
  | resume (left right first second : NodeId)

namespace Session

/-- Absorbs one of two nodes that stand for themselves and both have the type `type`. The one
without edges is absorbed; when both have edges it is the second, and its edges are handed over. -/
def absorb (s : Session) (left right first second : NodeId) (type : TypeId) :
    Turn Session UnifyTask Unit :=
  let ⟨grammar, graph, failures⟩ := s
  if !graph.hasCurrentEdges second then
    .next ⟨grammar, graph.setForward second first, failures⟩ []
  else if !graph.hasCurrentEdges first then
    .next ⟨grammar, (graph.setCurrentType second type).setForward first second, failures⟩ []
  else
    let incoming := graph.currentEdges second
    .next ⟨grammar, graph.setForward second first, failures⟩ [.merge left right first incoming]

/-- Whether the node that gets the type `unified` brings edges that the prototype of that type has
not seen: neither has the type from the start and with edges. -/
def needsCompletion (unified first second : TypeId) (edges₁ edges₂ : Bool) : Bool :=
  !((first == unified && second == unified) || (!edges₁ && !edges₂)
    || (first == unified && edges₁) || (second == unified && edges₂))

/-- Unifies two nodes as far as it goes without looking at the values of their features. -/
def unifyPair (s : Session) (left right : NodeId) : Turn Session UnifyTask Unit :=
  let first := s.graph.deref left
  let second := s.graph.deref right
  if first = second then .next s []
  else
    let type₁ := s.graph.currentType first
    let type₂ := s.graph.currentType second
    let (unified, s) := s.ask fun l => l.unify type₁ type₂
    if unified.isBottom then
      let kind := if first ≠ left ∨ second ≠ right then .coreference else .type
      .halt (s.record left right kind) ()
    else
      let s := s.mapGraph (·.setCurrentType first unified)
      let edges₁ := s.graph.hasCurrentEdges first
      let edges₂ := s.graph.hasCurrentEdges second
      if needsCompletion unified type₁ type₂ edges₁ edges₂ then
        match s.grammar.featuredPrototype? unified with
        | some root =>
          let (copy, s) := s.importFrom s.grammar.prototypes root
          .next s [.pair first copy, .resume left right first second]
        | none => s.absorb left right first second unified
      else s.absorb left right first second unified

/-- Hands one edge over to the survivor, which may itself have been absorbed meanwhile. -/
def handOver (s : Session) (left right survivor : NodeId) (e : Edge) (rest : List Edge) :
    Turn Session UnifyTask Unit :=
  let holder := s.graph.deref survivor
  match s.graph.currentEdge? holder e.feature with
  | some existing => .next s [.pair existing e.target, .merge left right survivor rest]
  | none =>
    .next (s.mapGraph (·.addPending holder e)) [.merge left right survivor rest]

/-- One turn of a unification. It ends the whole unification when two types clash. -/
def unifyTurn (s : Session) : UnifyTask → Turn Session UnifyTask Unit
  | .pair left right => s.unifyPair left right
  | .merge _ _ _ [] => .next s []
  | .merge left right survivor (e :: rest) => s.handOver left right survivor e rest
  | .resume _ _ first second => .next s [.pair first second]

/-- Notes on whose behalf a failed unification was under way. -/
def blame (s : Session) : UnifyTask → Session
  | .pair _ _ => s
  | .merge left right _ _ => s.record left right .feature
  | .resume left right _ _ => s.record left right .wellformedness

/-- Unifies two nodes within the episode; `none` when the budget does not suffice. -/
def unifyNodes (budget : Nat) (s : Session) (left right : NodeId) : Option (Bool × Session) :=
  match Agenda.run unifyTurn budget s [.pair left right] with
  | .done s => some (true, s)
  | .halted s _ waiting => some (false, waiting.foldl blame s)
  | .spent _ _ => none

/-- Unifies two nodes and leaves the result entangled with them, for further unifications into it.
A failure ends the episode and drops the nodes made in it. -/
def entangle (budget : Nat) (s : Session) (left right : NodeId) : Option (Bool × Session) :=
  let size := s.graph.size
  (unifyNodes budget s left right).map fun (unified, s) =>
    (unified, if unified then s else s.abandon size)

/-- Whether two nodes unify, cycles in the result allowed. The episode ends in either case. -/
def unifiable (budget : Nat) (s : Session) (left right : NodeId) : Option (Bool × Session) :=
  let size := s.graph.size
  (unifyNodes budget s left right).map fun (unified, s) => (unified, s.abandon size)

end Session

end FeatureLogic
