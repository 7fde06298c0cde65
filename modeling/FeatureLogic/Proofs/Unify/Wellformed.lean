import FeatureLogic.Proofs.Unify.Laws

/-!
Results of unification are wellformed: whatever features a node has, it meets the prototype of its
type, if that is so of the operands and of the prototypes themselves.
-/

open Relation

namespace FeatureLogic

namespace Session

/-- All nodes of the structure that has come about below `a` are wellformed. -/
def WellformedBelow (s : Session) (a : NodeId) : Prop :=
  ∀ n, s.current.Reach (s.graph.deref a) n → s.current.Wellformed s.grammar n

theorem wellformedBelow_iff {s : Session} (hr : s.AtRest) {a : NodeId} :
    s.WellformedBelow a ↔ ∀ n, s.shape.Reach a n → s.shape.Wellformed s.grammar n := by
  have hrep : s.graph.deref a = a := hr.web_rep a
  have hview : s.current = s.shape := hr.view_eq
  rw [WellformedBelow, hview, hrep]

/-- Unification keeps wellformedness. An episode may be open, and then what has come about in it
counts for the operands; the result is committed, and no episode is open afterwards. -/
theorem wellformed_unifyInto {s s' : Session} (hs : s.Sound) (he : s.graph.Entangled)
    (hproto : s.grammar.WellformedPrototypes) {a b : Nat} (ha : a < s.graph.size)
    (hb : b < s.graph.size) (hleft : s.WellformedBelow a) (hright : s.WellformedBelow b)
    {budget : Nat} {r : NodeId} (h : s.unifyInto budget a b unrestricted = some (some r, s')) :
    s'.AtRest ∧ ∀ n, s'.shape.Reach r n → s'.shape.Wellformed s'.grammar n := by
  obtain ⟨hsound, hrest, hlater, hended⟩ := ended_unifyInto hs he ha hb h
  refine ⟨hrest, fun n hn => ?_⟩
  cases hended with
  | result hrun hk hcopy =>
    -- the node is the copy of a class, and the classes are wellformed at the end
    obtain ⟨m, hm, hiso⟩ := (hcopy rfl).2.exists_below hn
    have hwell := wellformed_of_done hs he ha hb hproto (hleft _) (hright _) hrun hm
    exact hlater.grammar.wellformed (hwell.isomorphic hs.grammar hiso)

theorem wellformedPrototypes_completing : completing.grammar.WellformedPrototypes :=
  Grammar.wellformedPrototypes_of_forall sound_completing.1.grammar [0, 1] (by decide) (by decide)
    (by decide)

theorem wellformedBelow_completing : completing.WellformedBelow 0 ∧ completing.WellformedBelow 2 := by
  have hnone : ∀ n ∈ [0, 1, 2],
      completing.grammar.featuredPrototype? (completing.graph.type n) = none := by
    decide
  have hbelow : ∀ x ∈ [0, 1, 2], completing.WellformedBelow x := by
    intro x hx
    refine (wellformedBelow_iff sound_completing.2).2 fun n hn f m root _ hroot => ?_
    rw [show completing.shape.type n = completing.graph.type n from rfl,
      hnone n (sound_completing.1.graph.mem_of_reach _ hx (by decide) hn)] at hroot
    cases hroot
  exact ⟨hbelow 0 (by decide), hbelow 2 (by decide)⟩

/-- A prototype comes in when operands get its type, and the result meets it. -/
theorem wellformed_unifyInto_completing : ∃ r s',
    completing.unifyInto 20 0 2 unrestricted = some (some r, s') ∧ s'.graph.type r = .of 3 ∧
      s'.AtRest ∧ ∀ n, s'.shape.Reach r n → s'.shape.Wellformed s'.grammar n := by
  have hanswer : (completing.unifyInto 20 0 2 unrestricted).map
      (fun p => (p.1, p.1.map p.2.graph.type)) = some (some 4, some (.of 3)) := by
    decide +kernel
  obtain ⟨⟨answer, s'⟩, h, hr⟩ := Option.map_eq_some_iff.1 hanswer
  simp only [Prod.mk.injEq] at hr
  obtain ⟨rfl, htype⟩ := hr
  exact ⟨4, s', h, Option.some.inj htype,
    wellformed_unifyInto sound_completing.1
      (Graph.entangled_of_atRest sound_completing.1.graph sound_completing.2)
      wellformedPrototypes_completing (by decide) (by decide) wellformedBelow_completing.1
      wellformedBelow_completing.2 h⟩

end Session

end FeatureLogic
