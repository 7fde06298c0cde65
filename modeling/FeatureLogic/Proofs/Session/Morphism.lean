import FeatureLogic.Proofs.Session.Relating

/-!
Subsumption as morphism. A morphism takes the nodes below one root to those below another, keeps the
edges with their features and makes types at most more specific; there is at most one. The check
decides whether there is one (`Session.subsumes_iff_morphism`).
-/

open Relation

namespace FeatureLogic

namespace Graph

/-- The nodes below a root, the root among them. -/
abbrev Dag (g : Graph) (root : NodeId) : Type := {n : NodeId // g.Below root n}

/-- The root of a dag. -/
def Dag.root (g : Graph) (root : NodeId) : g.Dag root := ⟨root, ReflTransGen.refl⟩

/-- A map of the dag of `a` to the dag of `b`, root to root, edge to edge. -/
structure Morphism (h : Hierarchy) (g : Graph) (a b : NodeId) where
  map : g.Dag a → g.Dag b
  map_root : map (Dag.root g a) = Dag.root g b
  type_le : ∀ n : g.Dag a, h.Le (g.type (map n)) (g.type n)
  edge : ∀ {n m : g.Dag a} {f : FeatureId}, ⟨f, m⟩ ∈ g.edges n → ⟨f, map m⟩ ∈ g.edges (map n)

namespace Morphism

/-- Where edges are in order, a feature leads from a node to one other node at most, and so all
morphisms agree from the root down. -/
theorem subsingleton {h : Hierarchy} {g : Graph} (hg : g.Sound) {a b : NodeId} :
    Subsingleton (g.Morphism h a b) := by
  refine ⟨fun μ ν => ?_⟩
  suffices hmap : ∀ n (hn : g.Below a n), μ.map ⟨n, hn⟩ = ν.map ⟨n, hn⟩ by
    cases μ
    cases ν
    congr
    exact funext fun n => hmap n.1 n.2
  intro n hn
  induction hn with
  | refl => exact μ.map_root.trans ν.map_root.symm
  | tail hn hstep ih =>
    obtain ⟨⟨f, m⟩, he, rfl⟩ := hstep
    have hm : g.Below a m := Below.edge hn he
    have hμ := hg.value_eq_some_iff.2 (μ.edge (n := ⟨_, hn⟩) (m := ⟨m, hm⟩) he)
    have hν := hg.value_eq_some_iff.2 (ν.edge (n := ⟨_, hn⟩) (m := ⟨m, hm⟩) he)
    rw [ih, hν] at hμ
    exact Subtype.ext (Option.some.inj hμ).symm

end Morphism

/-- Where edges are in order, the morphisms are the maps of the structure. -/
theorem Sound.nonempty_morphism_iff {g : Graph} (hg : g.Sound) (h : Hierarchy) (a b : NodeId) :
    Nonempty (g.Morphism h a b) ↔ g.shape.Subsumes h a g.shape b := by
  classical
  constructor
  · rintro ⟨μ⟩
    have hmap : ∀ {n} (hn : g.Below a n),
        (if hn : g.Below a n then (μ.map ⟨n, hn⟩ : NodeId) else b) = μ.map ⟨n, hn⟩ :=
      fun hn => dif_pos hn
    refine ⟨fun n => if hn : g.Below a n then μ.map ⟨n, hn⟩ else b, ?_, fun hn => ?_,
      fun {n f m} hn hf => ?_⟩
    · exact (hmap ReflTransGen.refl).trans (congrArg Subtype.val μ.map_root)
    · have hn := below_of_reach hn
      rw [hmap hn]
      exact μ.type_le ⟨_, hn⟩
    · have hn := below_of_reach hn
      have he := hg.value_eq_some_iff.1 hf
      rw [hmap hn, hmap (hn.edge he)]
      exact hg.value_eq_some_iff.2 (μ.edge (n := ⟨n, hn⟩) (m := ⟨m, hn.edge he⟩) he)
  · rintro ⟨μ, rfl, hμ⟩
    have hreach : ∀ n : g.Dag a, g.shape.Reach a n := fun n => hg.reach_of_below n.2
    exact ⟨{
      map n := ⟨μ n, below_of_reach (hμ.reach (hreach n))⟩
      map_root := rfl
      type_le n := hμ.type_le (hreach n)
      edge he := hg.value_eq_some_iff.1 (hμ.value (hreach _) (hg.value_eq_some_iff.2 he)) }⟩

end Graph

namespace Session

/-- The check comes to its end within its bound and holds just when there is a morphism from the
general dag to the specific one, also where the dags have cycles or nodes in common. -/
theorem subsumes_iff_morphism {s : Session} (hs : s.Sound) (hr : s.AtRest) {a b : Nat}
    (ha : a < s.graph.size) (hb : b < s.graph.size) :
    (∀ s' waiting, Agenda.run subsumeTurn s.graph.weight s [.compare a b] ≠ .spent s' waiting) ∧
    ((s.subsumes a b).1 = true ↔ Nonempty (s.graph.Morphism s.hierarchy a b)) :=
  ⟨run_subsumeTurn_ne_spent hs.grammar hs.graph.edgesLead ha hb,
    (subsumes_iff hs hr ha hb).trans (hs.graph.nonempty_morphism_iff s.hierarchy a b).symm⟩

/-- The second node of `loop` has the first as its value, which is its own value; so the dags have a
cycle in common, and folding the one onto the other is a morphism. -/
theorem subsumes_iff_morphism_loop :
    loop.Sound ∧ loop.AtRest ∧ 1 < loop.graph.size ∧ 0 < loop.graph.size ∧
    (∀ s' waiting, Agenda.run subsumeTurn loop.graph.weight loop [.compare 1 0] ≠
      .spent s' waiting) ∧
    (loop.subsumes 1 0).1 = true ∧ Nonempty (loop.graph.Morphism loop.hierarchy 1 0) ∧
    (loop.subsumes 0 1).1 = false ∧ IsEmpty (loop.graph.Morphism loop.hierarchy 0 1) := by
  obtain ⟨hends, hfold⟩ :=
    subsumes_iff_morphism sound_loop.1 sound_loop.2 (a := 1) (b := 0) (by decide) (by decide)
  obtain ⟨-, hback⟩ :=
    subsumes_iff_morphism sound_loop.1 sound_loop.2 (a := 0) (b := 1) (by decide) (by decide)
  have hholds : (loop.subsumes 1 0).1 = true := by decide +kernel
  have hfails : (loop.subsumes 0 1).1 = false := by decide +kernel
  refine ⟨sound_loop.1, sound_loop.2, by decide, by decide, hends, hholds, hfold.1 hholds, hfails,
    not_nonempty_iff.1 fun hne => ?_⟩
  rw [hback.2 hne] at hfails
  cases hfails

end Session

end FeatureLogic
