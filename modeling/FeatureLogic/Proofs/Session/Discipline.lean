import FeatureLogic.Proofs.Sample
import FeatureLogic.Proofs.Session.Reached

/-!
The discipline of episodes. Whatever happened to a session before, a call that ends the episode
leaves no scratch state live; it is only about an argument that is not there that a call leaves the
episode open.
-/

namespace FeatureLogic.Session

/-- After a call every node stands for itself and has its committed type and edges, whether the call
succeeds or fails and also if it found an episode open. A call about an argument that is not there
leaves the session as it is. -/
theorem settled_of_call {s s' : Session} (hs : s.Reached) {c : Call} (h : c.run? s = some s') :
    (¬ c.LacksArgument s → s'.graph.Settled) ∧ (c.LacksArgument s → s' = s) :=
  ⟨fun hc => ((Call.stamped hs.stamped h).2 hc).settled, fun hc => Call.eq_of_lacksArgument hc h⟩

/-- Two nodes, neither of which has features. -/
def couple : Session :=
  ((ofGrammar (Sample.grammar [] [])).mapGraph (·.add .top [])).mapGraph (·.add .top [])

theorem reached_couple : couple.Reached :=
  ((Reached.start _).act (.move (m := .add .top) rfl)).act (.move (m := .add .top) rfl)

/-- A unification that is left open is ended by the next one. -/
theorem settled_of_call_couple : ∃ s s', s.Reached ∧ ¬ s.graph.Settled ∧
    (Call.unifyInto 5 0 1 unrestricted).run? s = some s' ∧
    ((¬ (Call.unifyInto 5 0 1 unrestricted).LacksArgument s → s'.graph.Settled) ∧
      ((Call.unifyInto 5 0 1 unrestricted).LacksArgument s → s' = s)) := by
  have hanswer : (couple.entangle 5 0 1).map (fun p => (p.1, p.2.graph.deref 1,
      ((Call.unifyInto 5 0 1 unrestricted).run? p.2).isSome)) = some (true, 0, true) := by
    decide +kernel
  obtain ⟨⟨unified, s⟩, h, heq⟩ := Option.map_eq_some_iff.1 hanswer
  simp only [Prod.mk.injEq] at heq
  obtain ⟨s', hs'⟩ := Option.isSome_iff_exists.1 heq.2.2
  have hs := reached_couple.act
    (.move (m := .entangle 5 0 1) (congrArg (Option.map Prod.snd) h))
  refine ⟨s, s', hs, fun hsettled => ?_, hs', settled_of_call hs hs'⟩
  have := (hsettled 1).1
  rw [heq.2.1] at this
  cases this

/-- An episode stays open over a call about an argument that is not there. -/
theorem not_settled_of_call : ∃ s s', s.Reached ∧
    (Call.unifyArgument 5 (s.item 0) (s.item 1) 0 unrestricted).run? s = some s' ∧
    ¬ s'.graph.Settled := by
  have hanswer : (couple.entangle 5 0 1).map (fun p => (p.1, ((Call.unifyArgument 5 (p.2.item 0)
      (p.2.item 1) 0 unrestricted).run? p.2).map (·.graph.deref 1))) = some (true, some 0) := by
    decide +kernel
  obtain ⟨⟨unified, s⟩, h, heq⟩ := Option.map_eq_some_iff.1 hanswer
  simp only [Prod.mk.injEq] at heq
  obtain ⟨s', hs', hderef⟩ := Option.map_eq_some_iff.1 heq.2
  have hs := reached_couple.act
    (.move (m := .entangle 5 0 1) (congrArg (Option.map Prod.snd) h))
  refine ⟨s, s', hs, hs', fun hsettled => ?_⟩
  have := (hsettled 1).1
  rw [hderef] at this
  cases this

end FeatureLogic.Session
