import FeatureLogic.Proofs.Graph.Refilling
import FeatureLogic.Proofs.Graph.Sharing
import FeatureLogic.Proofs.Notation.Printing
import FeatureLogic.Proofs.Sample
import FeatureLogic.Proofs.Session.Editing
import FeatureLogic.Session.Unfill

/-!
What unfilling drops. An edge that is dropped leads to a node without edges to which nothing else
leads, and this stays so while the walk goes on (`Unfilling.Trims`). So what is left is the
structure with trees taken from it, and with the greatest types put back it is the structure that
it was (`Session.recoverable_unfill`).
-/

open Relation

namespace FeatureLogic

/-! ## Edges that lead to a node -/

namespace Graph

/-- Before anything is dropped a node is come to once as the root, and once for each edge. -/
theorem EdgesLead.getD_committedArrivals {g : Graph} (hg : g.EdgesLead) {root m : Nat}
    (hroot : root < g.size) (hm : m < g.size) : (g.committedArrivals root).getD m 0 =
      (if m = root then 1 else 0) + (g.layout.incoming root m).ncard := by
  obtain ⟨hnodup, hmem⟩ := hg.trail_spec hroot
  have hsize : ∀ ⦃n : Nat⦄, g.layout.Reach root n → n < g.size := fun _ hn => Below.lt hg hroot hn
  have hsum := Agenda.sum_map_eq_leftOver (fun n => ((g.edges n).map Edge.target).count m) hnodup
    hmem hsize
  rw [Layout.ncard_incoming hsize]
  refine Eq.trans ?_ (congrArg _ hsum)
  simp only [committedArrivals, ← Array.foldl_toList]
  have hmap : ∀ (counts : Array Nat) (n : NodeId),
      (g.edges n).foldl (fun counts e => counts.modify e.target (· + 1)) counts =
        ((g.edges n).map Edge.target).foldl (fun counts m => counts.modify m (· + 1)) counts := by
    intro counts n
    rw [List.foldl_map]
  simp only [hmap]
  rw [Notation.getD_foldl_foldl _ _ (by simpa using hm)]
  congr 1
  simp only [Array.getD_eq_getD_getElem?, Array.getElem?_modify, Array.getElem?_replicate, hm,
    if_true, eq_comm (a := root)]
  split <;> simp

/-- A node that is come to no more than once, along an edge, has that edge only. -/
theorem Sound.lone_of_arrivals {g : Graph} (hg : g.Sound) {root n : Nat} (hroot : root < g.size)
    (hn : g.Below root n) {e : Edge} (he : e ∈ g.edges n)
    (honce : (g.committedArrivals root).getD e.target 0 ≤ 1) : g.shape.Lone root e.target := by
  have hsize : ∀ ⦃n : Nat⦄, g.layout.Reach root n → n < g.size :=
    fun _ hn => Below.lt hg.edgesLead hroot hn
  have hfinite := Layout.finite_incoming hsize e.target
  have hplace : ∀ {n d}, g.Below root n → d ∈ g.edges n → d.target = e.target →
      ∃ i, (g.edges n)[i]? = some d ∧ (n, i) ∈ g.layout.incoming root e.target := by
    intro n d hn hd htarget
    obtain ⟨i, hi⟩ := List.getElem?_of_mem hd
    exact ⟨i, hi, hn, by simp [layout, hi, htarget]⟩
  obtain ⟨i, hi, hmem⟩ := hplace hn he rfl
  have hpos := (Set.ncard_pos hfinite).2 ⟨_, hmem⟩
  rw [hg.edgesLead.getD_committedArrivals hroot (hg.target_lt he)] at honce
  have hne : e.target ≠ root := fun heq => by
    rw [if_pos heq] at honce
    omega
  have hle : (g.layout.incoming root e.target).ncard ≤ 1 := by omega
  refine ⟨hne, (n, e.feature), ⟨hg.reach_of_below hn, hg.value_eq_some_iff.2 he⟩, ?_⟩
  rintro ⟨n', f'⟩ ⟨hn', hf'⟩
  obtain ⟨j, hj, hmem'⟩ := hplace (below_of_reach hn') (hg.value_eq_some_iff.1 hf') rfl
  obtain ⟨rfl, rfl⟩ := Prod.mk.inj ((Set.ncard_le_one hfinite).1 hle _ hmem' _ hmem)
  have heq : Edge.mk f' e.target = e := Option.some.inj (hj.symm.trans hi)
  exact congrArg (Prod.mk n') (congrArg Edge.feature heq)

end Graph

/-! ## The walk -/

namespace Unfilling

variable {u : Unfilling} {g g' : Graph} {root n : NodeId} {e : Edge}

theorem canGo_iff : u.canGo g n e = true ↔ ∃ a, u.grammar.appropriateness? e.feature = some a ∧
    g.edges e.target = [] ∧ u.arrivals.getD e.target 0 ≤ 1 ∧
    (u.sloppy = true ∨ g.type n = a.introducer) ∧ g.type e.target = a.maximal := by
  unfold canGo
  cases u.grammar.appropriateness? e.feature with
  | none => simp
  | some a => simp [and_assoc]

/-- The second graph is the first one without edges below the root that can still go. -/
structure Trims (u : Unfilling) (g : Graph) (root : NodeId) (g' : Graph) : Prop where
  type_eq : ∀ n, g'.type n = g.type n
  sublist : ∀ n, (g'.edges n).Sublist (g.edges n)
  dropped : ∀ {n e}, e ∈ g.edges n → e ∉ g'.edges n → g.Below root n ∧ u.canGo g' n e = true

theorem Trims.refl (u : Unfilling) (g : Graph) (root : NodeId) : u.Trims g root g :=
  ⟨fun _ => rfl, fun _ => .refl _, fun he hnot => absurd he hnot⟩

/-- What can go can go as long as types stay and edges only go. -/
theorem canGo_of_sublist (htype : ∀ n, g'.type n = g.type n)
    (hsublist : ∀ n, (g'.edges n).Sublist (g.edges n)) (h : u.canGo g n e = true) :
    u.canGo g' n e = true := by
  obtain ⟨a, ha, hedges, harrivals, hcarrier, hmaximal⟩ := canGo_iff.1 h
  refine canGo_iff.2 ⟨a, ha, ?_, harrivals, ?_, ?_⟩
  · exact List.sublist_nil.1 (hedges ▸ hsublist e.target)
  · rwa [htype]
  · rwa [htype]

/-- The edges of a node that can go are dropped. -/
theorem Trims.finish (h : u.Trims g root g') (hn : g.Below root n) :
    u.Trims g root (g'.setEdges n ((g'.edges n).filter fun e => !u.canGo g' n e)) := by
  have htype : ∀ m, (g'.setEdges n ((g'.edges n).filter fun e => !u.canGo g' n e)).type m =
      g'.type m := fun m => Graph.type_setEdges ..
  have hsublist : ∀ m, ((g'.setEdges n ((g'.edges n).filter fun e => !u.canGo g' n e)).edges
      m).Sublist (g'.edges m) := by
    intro m
    rw [Graph.edges_setEdges]
    split
    · rename_i hm
      rw [← hm.1]
      exact List.filter_sublist
    · exact .refl _
  refine ⟨fun m => (htype m).trans (h.type_eq m), fun m => (hsublist m).trans (h.sublist m),
    fun {m e} he hnot => ?_⟩
  by_cases hleft : e ∈ g'.edges m
  · rw [Graph.edges_setEdges] at hnot
    split at hnot
    · rename_i hm
      obtain ⟨rfl, -⟩ := hm
      have hgo : u.canGo g' n e = true := by simpa [hleft] using hnot
      exact ⟨hn, canGo_of_sublist htype hsublist hgo⟩
    · exact absurd hleft hnot
  · obtain ⟨hm, hgo⟩ := h.dropped he hleft
    exact ⟨hm, canGo_of_sublist htype hsublist hgo⟩

theorem Trims.invalidate (h : u.Trims g root g') : u.Trims g root g'.invalidate where
  type_eq n := (g'.type_invalidate n).trans (h.type_eq n)
  sublist n := by
    rw [Graph.edges_invalidate]
    exact h.sublist n
  dropped {n e} he hnot := by
    rw [Graph.edges_invalidate] at hnot
    obtain ⟨hn, hgo⟩ := h.dropped he hnot
    refine ⟨hn, canGo_of_sublist g'.type_invalidate (fun m => ?_) hgo⟩
    rw [Graph.edges_invalidate]

end Unfilling

namespace Session

theorem keeps_trims (u : Unfilling) (g : Graph) (root : NodeId) :
    Agenda.Keeps (unfillTurn u) fun state tasks => u.Trims g root state.1 ∧
      g.Pruned root state.1 ∧ ∀ task ∈ tasks, g.Below root task.node := by
  refine ⟨fun {state task waiting state' tasks} ⟨h, hpruned⟩ ht => ?_⟩
  refine ⟨?_, (keeps_pruned_unfill u g root).next hpruned ht⟩
  have htask := hpruned.2 task (List.mem_cons_self ..)
  obtain ⟨g', seen⟩ := state
  cases task with
  | enter n =>
    simp only [unfillTurn] at ht
    split at ht <;> cases ht <;> exact h
  | finish n =>
    cases ht
    exact h.finish htask

theorem trims_unfill (s : Session) (root : NodeId) (sloppy : Bool) :
    Unfilling.Trims ⟨s.grammar, s.graph.committedArrivals root, sloppy⟩ s.graph root
      (s.unfill root sloppy).graph := by
  have hstart : Unfilling.Trims ⟨s.grammar, s.graph.committedArrivals root, sloppy⟩ s.graph root
      (s.graph, Array.replicate s.graph.size false).1 ∧ s.graph.Pruned root s.graph ∧
        ∀ task ∈ [UnfillTask.enter root], s.graph.Below root task.node :=
    ⟨.refl .., .refl .., List.forall_mem_singleton.2 ReflTransGen.refl⟩
  obtain ⟨_, h, -⟩ := (keeps_trims _ s.graph root).state s.graph.weight hstart
  exact h.invalidate

end Session

/-! ## What can be had back -/

/-- The second graph is the first one without edges below the root, and what went with them is what
appropriateness gives back. -/
structure Graph.Recoverable (grammar : Grammar) (g : Graph) (root : NodeId) (g' : Graph) :
    Prop where
  type_eq : ∀ n, g'.type n = g.type n
  /-- No edge is added, and none leads elsewhere. -/
  sublist : ∀ n, (g'.edges n).Sublist (g.edges n)
  /-- An edge that is dropped led from a node of the type that introduces its feature to a node of
  the greatest type that the feature allows. -/
  dropped : ∀ {n e}, e ∈ g.edges n → e ∉ g'.edges n → g.Below root n ∧
    ∃ a, grammar.appropriateness? e.feature = some a ∧ g.type n = a.introducer ∧
      g.type e.target = a.maximal
  /-- From where it leaves what is left, a path that is gone led through nodes with one edge to
  each. -/
  lost : ∀ {path n}, g.follow? root path = some n → g'.follow? root path = none →
    ∃ stem rest, path = stem ++ rest ∧ rest ≠ [] ∧ (g'.follow? root stem).isSome ∧
      ∀ front, front <+: rest → front ≠ [] → g'.follow? root (stem ++ front) = none ∧
        ∃ m, g.follow? root (stem ++ front) = some m ∧ g.shape.Lone root m
  /-- The root, and a node with more than one edge to it, keeps all paths to it. -/
  kept : ∀ {path n}, g.follow? root path = some n → ¬ g.shape.Lone root n →
    g'.follow? root path = some n
  /-- Of two paths that led to one node both are left and lead to it, or both are gone and leave
  what is left at one node, to go on with the same features. -/
  coreferent : ∀ {path path' n}, g.follow? root path = some n → g.follow? root path' = some n →
    g'.follow? root path = some n ∧ g'.follow? root path' = some n ∨
      g'.follow? root path = none ∧ g'.follow? root path' = none ∧
        ∃ stem stem' rest m, path = stem ++ rest ∧ path' = stem' ++ rest ∧
          g'.follow? root stem = some m ∧ g'.follow? root stem' = some m
  /-- Edges can be put back with fresh nodes of the greatest types until all paths are back. -/
  refillable : ∃ k, Graph.Refills grammar g root g' k ∧ g.PathsIn root k
  /-- However that is done, it gives the structure that there was. -/
  restored : ∀ {k}, Graph.Refills grammar g root g' k → g.PathsIn root k →
    g.layout.Isomorphic root k.layout root

section Trims

variable {u : Unfilling} {g g' : Graph} {root : Nat} (hg : g.Sound) (hroot : root < g.size)
  (harrivals : u.arrivals = g.committedArrivals root) (h : u.Trims g root g')
include hg h

theorem Unfilling.Trims.dropped_value {n m : NodeId} {f : FeatureId} (hv : g.value? n f = some m)
    (hnone : g'.value? n f = none) : g.Below root n ∧ u.canGo g' n ⟨f, m⟩ = true :=
  h.dropped (hg.value_eq_some_iff.1 hv) fun hmem => Edges.target?_eq_none_iff.1 hnone _ hmem rfl

include hroot harrivals

theorem Unfilling.Trims.thins : g.shape.Thins root g'.shape where
  type_eq := h.type_eq
  value hv := hg.value_eq_some_iff.2 ((h.sublist _).subset (Edges.mem_of_target? hv))
  dropped {n f m} hv hnone := by
    obtain ⟨hn, hgo⟩ := h.dropped_value hg hv hnone
    obtain ⟨a, -, hedges, honce, -⟩ := Unfilling.canGo_iff.1 hgo
    refine ⟨hg.lone_of_arrivals hroot hn (hg.value_eq_some_iff.1 hv) (harrivals ▸ honce), ?_⟩
    intro k
    show Edges.target? k (g'.edges m) = none
    rw [hedges]
    rfl

theorem Unfilling.Trims.recoverable (hsloppy : u.sloppy = false) (hg' : g'.Sound)
    (hroot' : root < g'.size) : g.Recoverable u.grammar root g' := by
  have hthin := h.thins hg hroot harrivals
  have hdropped : ∀ {n e}, u.canGo g' n e = true → ∃ a,
      u.grammar.appropriateness? e.feature = some a ∧ g.type n = a.introducer ∧
        g.type e.target = a.maximal := by
    intro n e hgo
    obtain ⟨a, ha, -, -, hcarrier, hmaximal⟩ := Unfilling.canGo_iff.1 hgo
    rw [h.type_eq] at hcarrier hmaximal
    exact ⟨a, ha, hcarrier.resolve_left (by simp [hsloppy]), hmaximal⟩
  have hgreatest : ∀ {n f v}, g.value? n f = some v → g'.value? n f = none → ∃ a,
      u.grammar.appropriateness? f = some a ∧ g.type v = a.maximal := by
    intro n f v hv hnone
    obtain ⟨a, ha, -, hmaximal⟩ := hdropped (h.dropped_value hg hv hnone).2
    exact ⟨a, ha, hmaximal⟩
  exact {
    type_eq := h.type_eq
    sublist := h.sublist
    dropped := fun he hnot => (h.dropped he hnot).imp_right hdropped
    lost := hthin.exists_stem
    kept := hthin.follow_of_not_lone
    coreferent := hthin.coreferent
    refillable := Graph.exists_refilled hg hg' hroot' hthin hgreatest
    restored := fun hk hall => hk.isomorphic hg hg' hroot' hthin hgreatest hall }

end Trims

namespace Session

/-- Unfilling loses nothing that appropriateness does not give back. -/
theorem recoverable_unfill {s : Session} (hg : s.graph.Sound) {root : Nat}
    (hroot : root < s.graph.size) :
    s.graph.Recoverable s.grammar root (s.unfill root false).graph := by
  obtain ⟨g', hpruned, hg'⟩ := (s.edits_unfill root false).graph
  have hsound : (s.unfill root false).graph.Sound :=
    hg' ▸ (hpruned.sound hg hroot).invalidate.1
  have hlt : root < (s.unfill root false).graph.size := by
    rwa [hg', Graph.size_invalidate, hpruned.size_eq]
  exact (s.trims_unfill root false).recoverable hg hroot rfl rfl hsound hlt

/-- A structure with a cycle, over a grammar in which each of two features is introduced by the
greatest type of the other one. -/
def ringed : Session :=
  Sample.session { Sample.grammar [] [] with
    appropriate := .ofList [(0, ⟨.of 1, .of 2⟩), (1, ⟨.of 2, .of 1⟩)] _ }
    [(.of 1, [⟨0, 1⟩, ⟨1, 2⟩]), (.of 2, [⟨1, 3⟩]), (.of 2, [⟨0, 0⟩, ⟨1, 4⟩]), (.of 1, []),
      (.of 1, [])]

theorem sound_ringed : ringed.graph.Sound := (Graph.sound_ofNodes (by decide)).1

/-- Two levels vanish on one branch, and one on the other, in which the cycle stays. -/
theorem recoverable_unfill_ringed : ringed.graph.Sound ∧ 0 < ringed.graph.size ∧
    [0, 1, 2, 3, 4].map (ringed.unfill 0 false).graph.edges =
      [[⟨1, 2⟩], [], [⟨0, 0⟩], [], []] ∧
    ringed.graph.Recoverable ringed.grammar 0 (ringed.unfill 0 false).graph :=
  ⟨sound_ringed, by decide +kernel, by decide +kernel,
    recoverable_unfill sound_ringed (by decide +kernel)⟩

/-- Two paths to one node can be gone together: one leads to it past the root once more. -/
theorem not_paths_survive_unfill : ¬ ∀ (s : Session) (root : Nat), s.graph.Sound →
    root < s.graph.size → ∀ path path' n, path ≠ path' → s.graph.follow? root path = some n →
      s.graph.follow? root path' = some n →
      ∃ m, (s.unfill root false).graph.follow? root path = some m ∧
        (s.unfill root false).graph.follow? root path' = some m := by
  intro hall
  obtain ⟨m, hm, -⟩ := hall ringed 0 sound_ringed (by decide +kernel) [0] [1, 0, 0] 1
    (by decide) (by decide +kernel) (by decide +kernel)
  have hnone : (ringed.unfill 0 false).graph.follow? 0 [0] = none := by decide +kernel
  rw [hnone] at hm
  cases hm

end Session

end FeatureLogic
