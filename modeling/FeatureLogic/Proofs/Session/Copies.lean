import FeatureLogic.Proofs.Graph.Dropping
import FeatureLogic.Proofs.Session.Extraction
import FeatureLogic.Proofs.Unify.Web

/-!
What is copied out. The new nodes are those below the copy of the root and no others
(`Session.Extracting.below_iff`), and a structure that is copied whole has no cycle and stays the
same structure (`Session.Extracting.isomorphic`).
-/

open Relation

namespace FeatureLogic.Session

/-! ## The new nodes -/

section Linked

variable {r : Restrictor} {s₀ s : Session} {root : Nat} {tasks : List CopyTask}

theorem Extracting.copyMark_copyOf (h : Extracting r s₀ root s tasks) (h₀ : s₀.graph.Linked)
    {n : NodeId} (hn : s.graph.HasCopy (s₀.graph.deref n)) :
    s.graph.copyMark (s₀.graph.deref n) = .copied (copyOf s.graph n) := by
  obtain ⟨k, hk⟩ := hn
  rw [hk, copyOf_of_copied (k := k)]
  rwa [h.beside.deref_eq h₀]

/-- The edges of copies lead to copies. -/
theorem Extracting.edge (h : Extracting r s₀ root s tasks) {n k : NodeId} {e : Edge}
    (hn : s.graph.copyMark n = .copied k) (he : e ∈ s.graph.edges k) :
    ∃ m, s.graph.copyMark m = .copied e.target := by
  obtain ⟨kept, κ, -, hedges, hall⟩ := h.node hn
  rw [hedges] at he
  obtain ⟨d, hd, -, heq⟩ := Edges.mem_mapTargets.1 he
  exact ⟨_, heq ▸ (hall d hd).2⟩

theorem Extracting.new_target (h : Extracting r s₀ root s tasks) {n : Nat}
    (hn : s₀.graph.size ≤ n) {e : Edge} (he : e ∈ s.graph.edges n) :
    s₀.graph.size ≤ e.target ∧ e.target < s.graph.size := by
  rcases Nat.lt_or_ge n s.graph.size with hlt | hge
  · obtain ⟨m, hm⟩ := h.surj hn hlt
    obtain ⟨m', hm'⟩ := h.edge hm he
    exact h.copied hm'
  · rw [Graph.edges, Graph.node_of_le hge] at he
    cases he

/-- When the episode has ended, copies are still what is new, and lead to copies. -/
theorem Extracting.invalidated (h : Extracting r s₀ root s tasks) :
    s₀.graph.Extends s.graph.invalidate ∧ ∀ {n : Nat} {e : Edge}, s₀.graph.size ≤ n →
      e ∈ s.graph.invalidate.edges n → s₀.graph.size ≤ e.target := by
  refine ⟨h.beside.extends_start.trans (Graph.extends_invalidate s.graph), fun hn he => ?_⟩
  rw [Graph.edges_invalidate] at he
  exact (h.new_target hn he).1

/-- At the end all that is visited has a copy. -/
theorem Extracting.hasCopy (h : Extracting r s₀ root s []) {n : NodeId}
    (hn : Visited s₀ s [] n) : s.graph.HasCopy n := by
  rcases hn with hn | ⟨task, ht, -⟩
  · cases hm : s.graph.copyMark n with
    | blank => exact absurd hm hn
    | underway =>
      obtain ⟨type, kept, ht⟩ := h.underway hm
      cases ht
    | copied k => exact ⟨k, hm⟩
  · cases ht

theorem Extracting.hasCopy_root (h : Extracting r s₀ root s []) :
    s.graph.HasCopy (s₀.graph.deref root) :=
  h.hasCopy h.visited_root

/-- The new nodes are those below the copy of the root. -/
theorem Extracting.below_iff (h : Extracting r s₀ root s []) (h₀ : s₀.graph.Linked) {n : Nat} :
    s.graph.Below (copyOf s.graph root) n ↔ s₀.graph.size ≤ n ∧ n < s.graph.size := by
  have hroot := h.copyMark_copyOf h₀ h.hasCopy_root
  constructor
  · intro hn
    suffices hcopy : ∃ m, s.graph.copyMark m = .copied n from
      let ⟨m, hm⟩ := hcopy
      h.copied hm
    induction hn with
    | refl => exact ⟨_, hroot⟩
    | tail _ hstep ih =>
      obtain ⟨m, hm⟩ := ih
      obtain ⟨e, he, rfl⟩ := hstep
      exact h.edge hm he
  · rintro ⟨hle, hlt⟩
    obtain ⟨m, hm⟩ := h.surj hle hlt
    have hled := h.led (.inl (by simp [hm]) : Visited s₀ s [] m)
    -- along the way from the root every copy has an edge to the next
    induction hled generalizing n with
    | refl =>
      rw [hroot] at hm
      cases hm
      exact ReflTransGen.refl
    | tail _ hstep ih =>
      cases hstep with
      | copied hn he hk =>
        rw [hk] at hm
        cases hm
        exact (ih (h.copied hn).1 (h.copied hn).2 hn).edge he
      | kept ht he => cases ht

end Linked

/-! ## Cycles -/

theorem step_view_iff {g : Graph} {n m : NodeId} : g.view.Step n m ↔ g.Leads n m := by
  constructor
  · rintro ⟨e, he, rfl⟩
    obtain ⟨d, hd, -, htarget⟩ := Edges.mem_mapTargets.1 he
    exact ⟨d, hd, htarget⟩
  · rintro ⟨e, he, rfl⟩
    exact ⟨⟨e.feature, g.deref e.target⟩, Edges.mem_mapTargets.2 ⟨e, he, rfl, rfl⟩, rfl⟩

/-- A node that is met while its copy is under way lies on a cycle. -/
theorem not_acyclic_of_underway {r : Restrictor} {s₀ s : Session} {root : Nat}
    {waiting : List CopyTask} {n : NodeId} {cursor : RestrictCursor}
    (h : Extracting r s₀ root s (.enter n cursor :: waiting))
    (hn : s.graph.copyMark (s₀.graph.deref n) = .underway) :
    ¬ s₀.graph.view.Acyclic (s₀.graph.deref root) := by
  intro hacyclic
  have hreach := ReflTransGen.mono (fun i j hij => step_view_iff.2 (h.leads hij)) _ _
    (h.led (.inr ⟨_, List.mem_cons_self .., rfl⟩))
  obtain ⟨type, kept, hmem⟩ := h.underway hn
  rcases List.mem_cons.1 hmem with heq | hmem
  · cases heq
  · have hcycle := ((List.pairwise_cons.1 h.nested).1 _ hmem _ rfl).1
    exact hacyclic hreach (TransGen.mono (fun i j hij => step_view_iff.2 hij) _ _ hcycle)

/-! ## Whole copies -/

section Unrestricted

variable {s₀ s : Session} {root : Nat} (h : Extracting unrestricted s₀ root s [])
include h

/-- A whole copy has the type of its node, and the copies of the values, which come before it. -/
theorem Extracting.whole {n k : NodeId} (hk : s.graph.copyMark n = .copied k) :
    s.graph.type k = s₀.graph.currentType n ∧ ∃ κ,
      s.graph.edges k = Edges.mapTargets κ (s₀.graph.currentEdges n) ∧
      ∀ e ∈ s₀.graph.currentEdges n, κ e.target < k ∧
        s.graph.copyMark (s₀.graph.deref e.target) = .copied (κ e.target) := by
  obtain ⟨kept, κ, hkept, hedges, hall⟩ := h.node hk
  obtain ⟨htype, rfl⟩ := hkept.whole rfl
  exact ⟨htype, κ, hedges, hall⟩

/-- What a node with a copy leads to has a copy, made before. -/
theorem Extracting.copied_step {n m k : NodeId} (hk : s.graph.copyMark n = .copied k)
    (hstep : s₀.graph.view.Step n m) : ∃ j < k, s.graph.copyMark m = .copied j := by
  obtain ⟨e, he, rfl⟩ := step_view_iff.1 hstep
  obtain ⟨-, κ, -, hall⟩ := h.whole hk
  exact ⟨_, hall e he⟩

theorem Extracting.hasCopy_of_reach {n : NodeId}
    (hn : s₀.graph.view.Reach (s₀.graph.deref root) n) : s.graph.HasCopy n := by
  induction hn with
  | refl => exact h.hasCopy_root
  | tail _ hstep ih =>
    obtain ⟨k, hk⟩ := ih
    obtain ⟨j, -, hj⟩ := h.copied_step hk hstep
    exact ⟨j, hj⟩

/-- Numbers of copies fall on the way down. -/
theorem Extracting.acyclic : s₀.graph.view.Acyclic (s₀.graph.deref root) := by
  have hless : ∀ {n m}, TransGen s₀.graph.view.Step n m →
      ∀ {k}, s.graph.copyMark n = .copied k → ∃ j < k, s.graph.copyMark m = .copied j := by
    intro n m hnm
    induction hnm with
    | single hs => exact fun hk => h.copied_step hk hs
    | tail _ hs ih =>
      intro k hk
      obtain ⟨i, hi, hmark⟩ := ih hk
      obtain ⟨j, hj, hmark'⟩ := h.copied_step hmark hs
      exact ⟨j, Nat.lt_trans hj hi, hmark'⟩
  intro n hn hcycle
  obtain ⟨k, hk⟩ := h.hasCopy_of_reach hn
  obtain ⟨j, hlt, hj⟩ := hless hcycle hk
  rw [hk] at hj
  cases hj
  exact Nat.lt_irrefl _ hlt

/-- A whole copy is the same structure. -/
theorem Extracting.isomorphic (h₀ : s₀.graph.Linked) :
    s₀.graph.view.Isomorphic (s₀.graph.deref root) s.graph.layout (copyOf s.graph root) := by
  have hmark : ∀ {n}, s₀.graph.view.Reach (s₀.graph.deref root) n →
      s.graph.copyMark n = .copied (copyOf s.graph n) := by
    intro n hn
    have := h.copyMark_copyOf h₀ (n := n)
    rw [h₀.deref_of_reach hn] at this
    exact this (h.hasCopy_of_reach hn)
  have hsame : ∀ {n k}, s.graph.copyMark (s₀.graph.deref n) = .copied k →
      copyOf s.graph (s₀.graph.deref n) = k := by
    intro n k hk
    refine copyOf_of_copied ?_
    rwa [h.beside.deref_eq h₀, h₀.deref_deref]
  refine ⟨copyOf s.graph, hsame (h.copyMark_copyOf h₀ h.hasCopy_root), fun n hn m hm heq => ?_,
    fun n hn => ?_⟩
  · have heq : copyOf s.graph n = copyOf s.graph m := heq
    exact h.inj (hmark hn) (heq ▸ hmark hm)
  · obtain ⟨htype, κ, hedges, hall⟩ := h.whole (hmark hn)
    refine ⟨htype, hedges.trans ?_⟩
    rw [Graph.view, Edges.mapTargets_mapTargets]
    exact Edges.mapTargets_congr fun e he => (hsame (hall e he).2).symm

end Unrestricted

/-- What has no cycle is copied out whole and stays the same structure, and what has one is not
copied out. -/
theorem extract_unrestricted {s₀ : Session} {root : Nat} (h₀ : s₀.graph.Linked)
    (hroot : root < s₀.graph.size) : ∃ answer s', s₀.extract root unrestricted = (answer, s') ∧
      ((∃ k, answer = .ok k ∧ s₀.graph.view.Acyclic (s₀.graph.deref root) ∧
        s₀.graph.view.Isomorphic (s₀.graph.deref root) s'.graph.layout k) ∨
      ∃ e, answer = .error e ∧ ¬ s₀.graph.view.Acyclic (s₀.graph.deref root)) := by
  rcases extract_cases h₀ hroot unrestricted with
    ⟨s, h, heq⟩ | ⟨s, n, cursor, waiting, e, h, hn, heq⟩
  · have hiso := h.isomorphic h₀
    rw [← Graph.layout_invalidate] at hiso
    exact ⟨_, _, heq, .inl ⟨_, rfl, h.acyclic, hiso⟩⟩
  · exact ⟨_, _, heq, .inr ⟨e, rfl, not_acyclic_of_underway h hn⟩⟩

/-! ## Structures of an episode -/

section Entangled

variable {r : Restrictor} {s₀ s : Session} {root : Nat} {tasks : List CopyTask}

/-- What is copied out of an episode has its edges in order. -/
theorem Extracting.sound (h : Extracting r s₀ root s tasks) (h₀ : s₀.graph.Entangled) :
    s.graph.Sound where
  generation_pos := h.beside.stamped.generation_pos
  stamp_le := h.beside.stamped.stamp_le
  target_lt := @(h.beside.extends_start.edgesLead h₀.sound.edgesLead
    fun hn _ he => (h.new_target hn he).2)
  sorted n := by
    rcases Nat.lt_or_ge n s₀.graph.size with hn | hn
    · rw [h.beside.extends_start.edges_eq hn]
      exact h₀.sound.sorted n
    · rcases Nat.lt_or_ge n s.graph.size with hlt | hge
      · obtain ⟨m, hm⟩ := h.surj hn hlt
        obtain ⟨kept, κ, hkept, hedges, -⟩ := h.node hm
        rw [hedges]
        exact Edges.sorted_mapTargets (h₀.sorted_currentEdges.sublist hkept.sublist) _
      · rw [Graph.edges, Graph.node_of_le hge]
        exact Edges.sorted_nil

/-- A whole copy is made of a structure without cycles, which stays the same structure. -/
theorem extract_whole (h₀ : s₀.graph.Entangled) (hroot : root < s₀.graph.size) :
    ∃ answer s', s₀.extract root unrestricted = (answer, s') ∧
      ((∃ k, answer = .ok k ∧ s₀.graph.web.view.Acyclic (s₀.graph.deref root) ∧
        s₀.graph.web.view.Isomorphic (s₀.graph.deref root) s'.shape k) ∨
      ∃ e, answer = .error e ∧ ¬ s₀.graph.web.view.Acyclic (s₀.graph.deref root)) := by
  obtain ⟨answer, s', heq, ⟨k, rfl, hacyclic, hiso⟩ | ⟨e, rfl, hcyclic⟩⟩ :=
    extract_unrestricted h₀.linked hroot
  · refine ⟨_, _, heq, .inl ⟨k, rfl, h₀.acyclic_view_iff.1 hacyclic, ?_⟩⟩
    rw [← h₀.shape_view]
    exact hiso.shape
  · exact ⟨_, _, heq, .inr ⟨e, rfl, mt h₀.acyclic_view_iff.2 hcyclic⟩⟩

/-- What comes of copying a structure out: a copy, if it has no cycle, in a session without an
episode. -/
theorem extractOver_spec {s₁ : Session} (hs₁ : s₁.Sound) (hgrammar : s₀.grammar.Sound)
    (hsame : s₁.grammar.Same s₀.grammar) (h₀ : s₀.graph.Entangled)
    (hext : s₁.graph.Extends s₀.graph) (hroot : root < s₀.graph.size) (r : Restrictor) :
    ∃ answer s', s₀.extractOver s₁.graph.size root r = (answer, s') ∧
      s'.Sound ∧ s'.AtRest ∧ s₁.Later s' ∧
      (∀ k, answer = some k → k < s'.graph.size ∧ (r = unrestricted →
        s₀.graph.web.view.Acyclic (s₀.graph.deref root) ∧
          s₀.graph.web.view.Isomorphic (s₀.graph.deref root) s'.shape k) ∧
        ∀ {n : Nat}, s'.shape.Reach k n → s₁.graph.size ≤ n) ∧
      (answer = none → ¬ s₀.graph.web.view.Acyclic (s₀.graph.deref root)) := by
  unfold extractOver
  rcases extract_cases h₀.linked hroot r with ⟨s, h, heq⟩ | ⟨s, n, cursor, waiting, e, h, hn, heq⟩
  · rw [heq]
    have hlearned := h.beside.learned
    obtain ⟨hvoid, hnew⟩ := h.invalidated
    have hext' := hext.trans hvoid
    have hfirst := hext.size_le
    have hstart := hvoid.size_le
    obtain ⟨hsound, hrest⟩ := (h.sound h₀).invalidate
    obtain ⟨hsound', hrest'⟩ := hext'.sound_compact hfirst hstart hs₁.graph hsound hnew hrest
    have hk := h.copied (h.copyMark_copyOf h₀.linked h.hasCopy_root)
    refine ⟨_, _, rfl, ⟨hgrammar.learned hlearned, hsound'⟩, hrest',
      ⟨hsame.trans (hlearned.same hgrammar), hext'.compact hfirst hstart⟩, fun k hanswer => ?_,
      fun hanswer => by cases hanswer⟩
    cases hanswer
    refine ⟨?_, ?_, fun hn => ?_⟩
    · show _ < (s.graph.invalidate.compact s₁.graph.size s₀.graph.size).size
      rw [Graph.size_compact _ hfirst hstart, Graph.size_invalidate, Graph.shifted_of_le hk.1]
      exact Nat.sub_lt_sub_right (Nat.le_trans (Nat.sub_le _ _) hk.1) hk.2
    · rintro rfl
      have hiso := h.isomorphic h₀.linked
      rw [← Graph.layout_invalidate] at hiso
      refine ⟨h₀.acyclic_view_iff.1 h.acyclic, ?_⟩
      rw [← h₀.shape_view]
      exact (hiso.trans (Graph.isomorphic_compact hfirst hstart hnew hk.1)).shape
    · exact Graph.le_of_reach_compact hfirst hstart hnew hk.1 (Layout.reach_of_shape hn)
  · rw [heq]
    have hlearned := h.beside.learned
    have hext' := h.beside.extends_start.truncate.trans (Graph.extends_invalidate _)
    obtain ⟨hsound, hrest⟩ :=
      (h.beside.extends_start.sound_truncate h₀.sound (h.sound h₀)).invalidate
    have hext'' := hext.trans hext'
    exact ⟨_, _, rfl, ⟨hgrammar.learned hlearned, hext''.sound_truncate hs₁.graph hsound⟩,
      hrest.truncate hsound.stamped _, ⟨hsame.trans (hlearned.same hgrammar), hext''.truncate⟩,
      nofun, fun _ => mt h₀.acyclic_view_iff.2 (not_acyclic_of_underway h hn)⟩

end Entangled

end FeatureLogic.Session
