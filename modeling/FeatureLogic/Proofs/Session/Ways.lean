import FeatureLogic.Proofs.Session.Counting

/-!
Nodes that are reached in two ways. The count that goes on from every node twice comes to its end,
also where there are infinitely many ways, and gives their number (`Session.rigidCount_eq_ways`).
A way is told by the edges that are taken. It is told by their features where no node has two edges
for one feature, as in every session whose edges were set while no episode was open.
-/

open Relation

namespace FeatureLogic.Session

theorem functional_of_entangled {g : Graph} (h : g.Entangled) (x : NodeId) :
    g.view.Functional x := fun n _ => by
  have hsorted := Edges.sorted_mapTargets (h.sorted_currentEdges (n := n)) g.deref
  exact (List.pairwise_map.2 hsorted).imp fun hlt => Nat.ne_of_lt hlt

/-- The count of nodes that are reached by more than one path comes to its end, whatever cycles
there are, and is the number of nodes of the structure of the episode that are reached in two ways,
the way that takes no edge counting for the root. Where no node has two edges for one feature, and
so in every orderly session, that is the number of nodes that are reached by two paths of
features. -/
theorem rigidCount_eq_ways {s : Session} (hs : s.Arises) {root : Nat}
    (hroot : root < s.graph.size) :
    (∃ state, Agenda.run (countTurn 2) (2 * s.graph.weight) (s.graph, 0) [root] = .done state) ∧
    (s.rigidCount root).1 = {n | s.graph.view.TwoWays (s.graph.deref root) n}.ncard ∧
    (s.graph.view.Functional (s.graph.deref root) ∨ (∃ g, s.Orderly g) →
      (s.rigidCount root).1 = {n | s.graph.view.TwoPaths (s.graph.deref root) n}.ncard) := by
  obtain ⟨state, -, hrun, -⟩ := exists_tally hs hroot Nat.two_pos (Nat.le_refl 2)
  have hcount := rigidCount_eq_ncard hs hroot
  refine ⟨⟨state, hrun⟩, hcount, fun hfunctional => ?_⟩
  have hfunctional : s.graph.view.Functional (s.graph.deref root) :=
    hfunctional.elim id fun ⟨_, h⟩ => functional_of_entangled h.entangled _
  rw [hcount]
  exact congrArg Set.ncard (Set.ext fun n => hfunctional.twoPaths_iff.symm)

/-- The node that was unified with its own value is reached by the empty path and round its
cycle. -/
theorem rigidCount_eq_ways_knotted : knotted.Arises ∧ knotted.Orderly (Sample.grammar [] []) ∧
    4 < knotted.graph.size ∧ knotted.graph.deref 4 = 4 ∧ (knotted.rigidCount 4).1 = 1 ∧
    {n | knotted.graph.view.TwoPaths 4 n}.ncard = 1 := by
  have hroot : 4 < knotted.graph.size := by decide +kernel
  have hderef : knotted.graph.deref 4 = 4 := by decide +kernel
  have hcount : (knotted.rigidCount 4).1 = 1 := by decide +kernel
  obtain ⟨-, -, hpaths⟩ := rigidCount_eq_ways arises_knotted hroot
  have hncard := hpaths (.inr ⟨_, orderly_knotted⟩)
  rw [hcount, hderef] at hncard
  exact ⟨arises_knotted, orderly_knotted, hroot, hderef, hcount, hncard.symm⟩

/-! ### One feature twice -/

/-- Two nodes with one value each, for different features, are unified, and then the first is given
for the second one's feature the value that it has got for it already. -/
def doubleEdged : Session :=
  (entangled 20 ((ofGrammar (Sample.grammar [] [])).mapGraph fun g =>
    (((((g.add .top []).add (.of 1) []).add .top []).add (.of 2) []).putEdge 0 1 1).putEdge 2 0 3)
      0 2).mapGraph (·.putEdge 0 0 3)

theorem arises_doubleEdged : doubleEdged.Arises := by
  have hnodes := ((((Arises.start Sample.sound_grammar_nil.rooted).add .top).add (.of 1)).add
    .top).add (.of 2)
  have hfirst := hnodes.move (m := .putEdge 0 1 1) ⟨by decide, trivial⟩ rfl
  have hsecond := hfirst.move (m := .putEdge 2 0 3) ⟨by decide, trivial⟩ rfl
  exact (hsecond.entangled 20 (by decide) (by decide)).move (m := .putEdge 0 0 3)
    ⟨by decide +kernel, trivial⟩ rfl

theorem edges_doubleEdged : doubleEdged.graph.view.edges 0 = [⟨0, 3⟩, ⟨0, 3⟩, ⟨1, 1⟩] ∧
    doubleEdged.graph.view.edges 1 = [] ∧ doubleEdged.graph.view.edges 3 = [] := by
  have hedges : doubleEdged.graph.edges 0 = [⟨0, 3⟩, ⟨1, 1⟩] := by decide +kernel
  have hpending : doubleEdged.graph.pending 0 = [⟨0, 3⟩] := by decide +kernel
  have hderef : doubleEdged.graph.deref 1 = 1 ∧ doubleEdged.graph.deref 3 = 3 := by decide +kernel
  refine ⟨?_, by decide +kernel, by decide +kernel⟩
  simp [Graph.view, Graph.currentEdges, hedges, hpending, Edges.merge, Edges.mapTargets,
    hderef]

theorem track_doubleEdged {places : List Nat} {path : List FeatureId} {n : NodeId}
    (h : doubleEdged.graph.view.Track 0 places path n) :
    (places, path, n) ∈ [([], [], 0), ([0], [0], 3), ([1], [0], 3), ([2], [1], 1)] := by
  obtain ⟨hzero, hone, hthree⟩ := edges_doubleEdged
  induction h with
  | nil => simp
  | @snoc places path n i e _ he ih =>
    simp only [List.mem_cons, Prod.mk.injEq, List.not_mem_nil, or_false] at ih
    rcases ih with ⟨rfl, rfl, rfl⟩ | ⟨rfl, rfl, rfl⟩ | ⟨rfl, rfl, rfl⟩ | ⟨rfl, rfl, rfl⟩
    · rw [hzero] at he
      match i, he with
      | 0, rfl | 1, rfl | 2, rfl => simp
    · simp [hthree] at he
    · simp [hthree] at he
    · simp [hone] at he

/-- The value with two edges to it for one feature is counted, though only one path leads to it. -/
theorem not_rigidCount_eq_paths : doubleEdged.Arises ∧ 0 < doubleEdged.graph.size ∧
    doubleEdged.graph.deref 0 = 0 ∧ (doubleEdged.rigidCount 0).1 = 1 ∧
    {n | doubleEdged.graph.view.TwoPaths 0 n}.ncard = 0 := by
  have hroot : 0 < doubleEdged.graph.size := by decide +kernel
  have hderef : doubleEdged.graph.deref 0 = 0 := by decide +kernel
  have hways : {n | doubleEdged.graph.view.TwoWays 0 n} = {3} := by
    ext n
    constructor
    · rintro ⟨places, path, places', path', h, h', hne⟩
      have := track_doubleEdged h
      have := track_doubleEdged h'
      grind
    · rintro rfl
      obtain ⟨hzero, -⟩ := edges_doubleEdged
      have hfirst : (doubleEdged.graph.view.edges 0)[0]? = some ⟨0, 3⟩ := by rw [hzero]; rfl
      have hsecond : (doubleEdged.graph.view.edges 0)[1]? = some ⟨0, 3⟩ := by rw [hzero]; rfl
      exact ⟨_, _, _, _, .snoc .nil hfirst, .snoc .nil hsecond, by decide⟩
  have hpaths : {n | doubleEdged.graph.view.TwoPaths 0 n} = ∅ := by
    refine Set.eq_empty_iff_forall_notMem.2 ?_
    rintro n ⟨path, path', ⟨places, h⟩, ⟨places', h'⟩, hne⟩
    have := track_doubleEdged h
    have := track_doubleEdged h'
    grind
  have hcount := rigidCount_eq_ncard arises_doubleEdged hroot
  rw [hderef, hways, Set.ncard_singleton] at hcount
  exact ⟨arises_doubleEdged, hroot, hderef, hcount, by rw [hpaths, Set.ncard_empty]⟩

end FeatureLogic.Session
