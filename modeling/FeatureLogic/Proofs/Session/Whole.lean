import FeatureLogic.Proofs.Session.Arising
import FeatureLogic.Proofs.Session.Copies

/-!
Copying out whole. In every session the structure of the episode below a node is copied out just
when it has no cycle, and then the copy is laid out like it and made of new nodes only
(`Session.copiesWhole_extract`).
-/

namespace FeatureLogic.Session

/-- What there is when the structure of the episode below `root` has been copied out of `s` whole:
an answer, and the session `s'`. -/
structure CopiesWhole (s : Session) (root : NodeId) (answer : Except CycleError NodeId)
    (s' : Session) : Prop where
  ok_iff : (∃ k, answer = .ok k) ↔ s.graph.view.Acyclic (s.graph.deref root)
  isomorphic : ∀ {k}, answer = .ok k →
    s.graph.view.Isomorphic (s.graph.deref root) s'.graph.layout k
  below_iff : ∀ {k}, answer = .ok k → ∀ n : Nat,
    s'.graph.Below k n ↔ s.graph.size ≤ n ∧ n < s'.graph.size
  size_eq : ∀ {e}, answer = .error e → s'.graph.size = s.graph.size
  graph_extends : s.graph.Extends s'.graph

/-- The structure of the episode is copied out just when it has no cycle; the copy is the same
structure, coreferences included, and has all the new nodes and no others. Without a copy there are
no new nodes. Nodes that were there keep what is committed of them. -/
theorem copiesWhole_extract {s : Session} (hs : s.Arises) {root : Nat}
    (hroot : root < s.graph.size) :
    s.CopiesWhole root (s.extract root unrestricted).1 (s.extract root unrestricted).2 := by
  have hlinked := hs.closed.graph
  rcases extract_cases hlinked hroot unrestricted with
    ⟨s₁, h, heq⟩ | ⟨s₁, n, cursor, waiting, e, h, hn, heq⟩
  · rw [heq]
    have hiso := h.isomorphic hlinked
    rw [← Graph.layout_invalidate] at hiso
    exact {
      ok_iff := iff_of_true ⟨_, rfl⟩ h.acyclic
      isomorphic := fun hk => by
        cases hk
        exact hiso
      below_iff := fun hk n => by
        cases hk
        simp only [invalidate, mapGraph, Graph.Below, Graph.edges_invalidate, Graph.size_invalidate]
        exact h.below_iff hlinked
      size_eq := fun hk => by cases hk
      graph_extends := h.beside.extends_start.trans (Graph.extends_invalidate _) }
  · rw [heq]
    have hext := h.beside.extends_start
    exact {
      ok_iff := iff_of_false (fun hok => by cases hok.choose_spec) (not_acyclic_of_underway h hn)
      isomorphic := fun hk => by cases hk
      below_iff := fun hk => by cases hk
      size_eq := fun _ => (Graph.size_invalidate _).trans
        ((Graph.size_truncate ..).trans (Nat.min_eq_left hext.size_le))
      graph_extends := hext.truncate.trans (Graph.extends_invalidate _) }

/-- The session after two nodes have been unified in it, or the same one if that does not end. -/
def entangled (budget : Nat) (s : Session) (left right : NodeId) : Session :=
  (s.entangle budget left right).elim s Prod.snd

theorem entangled_cases (budget : Nat) (s : Session) (left right : NodeId) :
    s.entangled budget left right = s ∨
      ∃ unified, s.entangle budget left right = some (unified, s.entangled budget left right) := by
  unfold entangled
  cases s.entangle budget left right with
  | none => exact .inl rfl
  | some p => exact .inr ⟨p.1, rfl⟩

theorem Arises.entangled {s : Session} (h : s.Arises) (budget : Nat) {left right : Nat}
    (hleft : left < s.graph.size) (hright : right < s.graph.size) :
    (s.entangled budget left right).Arises := by
  obtain heq | ⟨unified, hanswer⟩ := entangled_cases budget s left right
  · rwa [heq]
  · exact h.move (m := .entangle budget left right)
      ⟨by simp [Move.operands, hleft, hright], trivial⟩ (congrArg (Option.map Prod.snd) hanswer)

theorem Arises.learned_entangled {s : Session} (h : s.Arises) (budget : Nat) {left right : Nat}
    (hleft : left < s.graph.size) (hright : right < s.graph.size) :
    s.grammar.Learned (s.entangled budget left right).grammar := by
  obtain heq | ⟨unified, hanswer⟩ := entangled_cases budget s left right
  · rw [heq]
    exact .refl _
  · exact (linking_entangle h.closed hleft hright hanswer).1

/-- A node with one value, one with two features for one value, and one whose value has none. -/
def knots : Session :=
  (ofGrammar (Sample.grammar [] [])).mapGraph fun g =>
    (((((((((g.add (.of 1) []).add .top []).add (.of 2) []).add .top []).add .top []).add .top
      []).putEdge 0 0 1).putEdge 2 0 3).putEdge 2 1 3).putEdge 4 0 5

theorem arises_knots : knots.Arises := by
  have hnodes := ((((((Arises.start Sample.sound_grammar_nil.rooted).add (.of 1)).add .top).add
    (.of 2)).add .top).add .top).add .top
  have hfirst := hnodes.move (m := .putEdge 0 0 1) ⟨by decide, trivial⟩ rfl
  have hsecond := hfirst.move (m := .putEdge 2 0 3) ⟨by decide, trivial⟩ rfl
  have hthird := hsecond.move (m := .putEdge 2 1 3) ⟨by decide, trivial⟩ rfl
  exact hthird.move (m := .putEdge 4 0 5) ⟨by decide, trivial⟩ rfl

/-- The first two are unified, and the third with its own value. -/
def knotted : Session := (knots.entangled 20 0 2).entangled 20 4 5

theorem arises_knotted : knotted.Arises :=
  (arises_knots.entangled 20 (by decide) (by decide)).entangled 20 (by decide +kernel)
    (by decide +kernel)

/-- The value of the first node has two features, and it has none itself. -/
theorem acyclic_knotted : knotted.graph.view.Acyclic (knotted.graph.deref 0) := by
  have hedges : ∀ n ∈ [0, 1], ∀ e ∈ knotted.graph.edges n ++ knotted.graph.pending n,
      knotted.graph.deref e.target ∈ [0, 1] ∧ n < knotted.graph.deref e.target := by
    decide +kernel
  have hroot : knotted.graph.deref 0 = 0 := by decide +kernel
  refine Layout.acyclic_of_lt [0, 1] (by rw [hroot]; decide) fun n hn e he => ?_
  obtain ⟨d, hd, -, htarget⟩ := Edges.mem_mapTargets.1 he
  exact htarget ▸ hedges n hn d (List.mem_append.2 (Graph.mem_currentEdges_iff.1 hd))

/-- While an episode is open, in which a node was absorbed and another gained a type and an edge,
what has a coreference is copied out and what has a cycle is not. -/
theorem copiesWhole_extract_knotted : knotted.Arises ∧ 0 < knotted.graph.size ∧
    4 < knotted.graph.size ∧ knotted.graph.deref 2 = 0 ∧ knotted.graph.currentType 0 = .of 3 ∧
    knotted.graph.pending 0 = [⟨1, 3⟩] ∧ (∃ k, (knotted.extract 0 unrestricted).1 = .ok k) ∧
    knotted.CopiesWhole 0 (knotted.extract 0 unrestricted).1 (knotted.extract 0 unrestricted).2 ∧
    (knotted.extract 4 unrestricted).1 = .error ⟨4⟩ ∧
    knotted.CopiesWhole 4 (knotted.extract 4 unrestricted).1
      (knotted.extract 4 unrestricted).2 := by
  have hfirst : 0 < knotted.graph.size := by decide +kernel
  have hthird : 4 < knotted.graph.size := by decide +kernel
  have hwhole := copiesWhole_extract arises_knotted hfirst
  exact ⟨arises_knotted, hfirst, hthird, by decide +kernel, by decide +kernel, by decide +kernel,
    hwhole.ok_iff.2 acyclic_knotted, hwhole, by decide +kernel,
    copiesWhole_extract arises_knotted hthird⟩

end FeatureLogic.Session
