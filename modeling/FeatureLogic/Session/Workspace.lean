import FeatureLogic.Session.Basic

/-!
Several sessions on one grammar. What one of them learns about the lattice, all of them know.
-/

namespace FeatureLogic

/-- A grammar and, for each session, its graph and its record of failures. -/
structure Workspace where
  grammar : Grammar
  seats : Array (Graph × Option FailureLog)

namespace Workspace

/-- A number of fresh sessions. -/
def ofGrammar (grammar : Grammar) (count : Nat) : Workspace :=
  ⟨grammar, .replicate count (.empty, none)⟩

instance : Inhabited Workspace := ⟨ofGrammar default 0⟩

/-- The graph of a session. -/
def graph (w : Workspace) (i : Nat) : Graph := (w.seats.getD i (.empty, none)).1

/-- One session as it is now. -/
def session (w : Workspace) (i : Nat) : Session :=
  let (graph, failures) := w.seats.getD i (.empty, none)
  ⟨w.grammar, graph, failures⟩

/-- Lets one session act. -/
@[inline]
def act {α : Type} (w : Workspace) (i : Nat) (f : Session → α × Session) : α × Workspace :=
  let ⟨grammar, seats⟩ := w
  let (graph, failures) := seats.getD i (.empty, none)
  let seats := seats.setIfInBounds i (.empty, none)
  let (answer, s) := f ⟨grammar, graph, failures⟩
  (answer, ⟨s.grammar, seats.setIfInBounds i (s.graph, s.failures)⟩)

end Workspace

end FeatureLogic
