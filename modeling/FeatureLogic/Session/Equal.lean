import FeatureLogic.Session.Basic

/-!
Equality of structures: same types, same features and same coreferences. The walk notes at the
nodes of a pair a pointer to the first of them; a node that is met again must be met with its
partner.
-/

namespace FeatureLogic.Session

/-- Compares two nodes and asks for the comparison of their values. It ends the comparison when
they differ. -/
def equalTurn (g : Graph) (pair : NodeId × NodeId) : Turn Graph (NodeId × NodeId) Unit :=
  let (a, b) := pair
  match g.forward? a, g.forward? b with
  | none, none =>
    let g := (g.setForward b a).setForward a a
    let first := g.edges a
    let second := g.edges b
    if g.type a = g.type b ∧ first.map Edge.feature = second.map Edge.feature then
      .next g ((first.zip second).map fun (d, e) => (d.target, e.target))
    else .halt g ()
  | p, q => if p = q then .next g [] else .halt g ()

/-- Whether the committed structures below two nodes are the same but for the nodes' numbers. -/
def equal (s : Session) (a b : NodeId) : Bool × Session :=
  let ⟨grammar, graph, failures⟩ := s
  match Agenda.run equalTurn graph.weight graph [(a, b)] with
  | .done graph | .spent graph _ => (true, ⟨grammar, graph.invalidate, failures⟩)
  | .halted graph _ _ => (false, ⟨grammar, graph.invalidate, failures⟩)

end FeatureLogic.Session
