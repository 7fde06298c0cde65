import FeatureLogic.Proofs.Graph.Committed

/-!
Layouts: typed nodes with their lists of edges. A layout says more than a shape, as the edges of a
node are in order and a feature may be twice among them, which it is where an edge was added by hand
to a node that had gained one in an episode. Graphs have two: what is committed (`Graph.layout`) and
the structure of the episode (`Graph.view`).
-/

open Relation

namespace FeatureLogic

/-- Typed nodes with their edges. -/
structure Layout where
  type : NodeId → TypeId
  edges : NodeId → List Edge

namespace Layout

/-- An edge leads from the first node to the second. -/
def Step (L : Layout) (n m : NodeId) : Prop := ∃ e ∈ L.edges n, e.target = m

/-- The second node is below the first. -/
def Reach (L : Layout) : NodeId → NodeId → Prop := ReflTransGen L.Step

/-- No way down from a node below `x` leads back to that node. -/
def Acyclic (L : Layout) (x : NodeId) : Prop := ∀ ⦃n⦄, L.Reach x n → ¬ TransGen L.Step n n

/-- The layouts below `x` and `y` differ in the numbers of their nodes only. -/
def Isomorphic (L : Layout) (x : NodeId) (M : Layout) (y : NodeId) : Prop :=
  ∃ μ : NodeId → NodeId, μ x = y ∧ Set.InjOn μ {n | L.Reach x n} ∧
    ∀ n, L.Reach x n → M.type (μ n) = L.type n ∧ M.edges (μ n) = Edges.mapTargets μ (L.edges n)

theorem Reach.edge {L : Layout} {x n : NodeId} (h : L.Reach x n) {e : Edge} (he : e ∈ L.edges n) :
    L.Reach x e.target :=
  h.tail ⟨e, he, rfl⟩

/-- A list that has whatever its nodes lead to has all that is below them. -/
theorem mem_of_reach {L : Layout} {x n : NodeId} {below : List NodeId} (hx : x ∈ below)
    (hclosed : ∀ n ∈ below, ∀ e ∈ L.edges n, e.target ∈ below) (hn : L.Reach x n) : n ∈ below := by
  induction hn with
  | refl => exact hx
  | tail _ hstep ih =>
    obtain ⟨e, he, rfl⟩ := hstep
    exact hclosed _ ih e he

/-- There is no cycle where a list has whatever its nodes lead to, and edges lead to greater numbers
only. -/
theorem acyclic_of_lt {L : Layout} {x : NodeId} (below : List NodeId) (hx : x ∈ below)
    (h : ∀ n ∈ below, ∀ e ∈ L.edges n, e.target ∈ below ∧ n < e.target) : L.Acyclic x := by
  have hmem : ∀ {n}, L.Reach x n → n ∈ below := mem_of_reach hx fun n hn e he => (h n hn e he).1
  have hlt : ∀ {n m}, n ∈ below → TransGen L.Step n m → n < m ∧ m ∈ below := by
    intro n m hn hnm
    induction hnm with
    | single hstep =>
      obtain ⟨e, he, rfl⟩ := hstep
      exact (h n hn e he).symm
    | tail _ hstep ih =>
      obtain ⟨e, he, rfl⟩ := hstep
      exact ⟨Nat.lt_trans ih.1 (h _ ih.2 e he).2, (h _ ih.2 e he).1⟩
  exact fun n hn hcycle => Nat.lt_irrefl n (hlt (hmem hn) hcycle).1

/-! ## Isomorphy -/

section Isomorphic

variable {L M N : Layout} {x y z : NodeId} {μ : NodeId → NodeId}

theorem reach_of_edges (hμ : ∀ n, L.Reach x n → M.edges (μ n) = Edges.mapTargets μ (L.edges n))
    {n : NodeId} (hn : L.Reach x n) : M.Reach (μ x) (μ n) := by
  induction hn with
  | refl => exact ReflTransGen.refl
  | tail hn hstep ih =>
    obtain ⟨e, he, rfl⟩ := hstep
    refine ih.edge (e := ⟨e.feature, μ e.target⟩) ?_
    rw [hμ _ hn]
    exact Edges.mem_mapTargets.2 ⟨e, he, rfl, rfl⟩

/-- Every node below the second root is the image of one below the first. -/
theorem exists_of_reach (hμ : ∀ n, L.Reach x n → M.edges (μ n) = Edges.mapTargets μ (L.edges n))
    {m : NodeId} (hm : M.Reach (μ x) m) : ∃ n, L.Reach x n ∧ μ n = m := by
  induction hm with
  | refl => exact ⟨x, ReflTransGen.refl, rfl⟩
  | tail _ hstep ih =>
    obtain ⟨n, hn, rfl⟩ := ih
    obtain ⟨e, he, rfl⟩ := hstep
    rw [hμ n hn] at he
    obtain ⟨d, hd, -, htarget⟩ := Edges.mem_mapTargets.1 he
    exact ⟨d.target, hn.edge hd, htarget⟩

theorem Isomorphic.symm (hi : L.Isomorphic x M y) : M.Isomorphic y L x := by
  obtain ⟨μ, rfl, hinj, hμ⟩ := hi
  have hedges := fun n hn => (hμ n hn).2
  classical
  have hback : ∀ m, M.Reach (μ x) m → ∃ n, L.Reach x n ∧ μ n = m := fun m => exists_of_reach hedges
  choose! ν hν using hback
  have hinv : ∀ n, L.Reach x n → ν (μ n) = n := fun n hn =>
    have hreach := reach_of_edges hedges hn
    hinj (hν _ hreach).1 hn (hν _ hreach).2
  refine ⟨ν, hinv x ReflTransGen.refl, fun m hm m' hm' heq => ?_, fun m hm => ?_⟩
  · rw [← (hν m hm).2, ← (hν m' hm').2, heq]
  · obtain ⟨hn, heq⟩ := hν m hm
    obtain ⟨htype, hedge⟩ := hμ _ hn
    rw [heq] at htype hedge
    refine ⟨htype.symm, ?_⟩
    rw [hedge, Edges.mapTargets_mapTargets]
    exact (Edges.mapTargets_id fun e he => hinv _ (hn.edge he)).symm

theorem Isomorphic.trans (hlm : L.Isomorphic x M y) (hmn : M.Isomorphic y N z) :
    L.Isomorphic x N z := by
  obtain ⟨μ, rfl, hinj, hμ⟩ := hlm
  obtain ⟨ν, rfl, hinj', hν⟩ := hmn
  have hreach : ∀ n, L.Reach x n → M.Reach (μ x) (μ n) :=
    fun n hn => reach_of_edges (fun n hn => (hμ n hn).2) hn
  refine ⟨ν ∘ μ, rfl, fun n hn m hm heq => ?_, fun n hn => ⟨?_, ?_⟩⟩
  · exact hinj hn hm (hinj' (hreach n hn) (hreach m hm) heq)
  · exact ((hν _ (hreach n hn)).1).trans (hμ n hn).1
  · rw [Function.comp_apply, (hν _ (hreach n hn)).2, (hμ n hn).2, Edges.mapTargets_mapTargets]

end Isomorphic

/-! ## The shape of a layout -/

/-- The values of the features, which are the targets of the first edges for them. -/
def shape (L : Layout) : Shape := ⟨L.type, fun n f => Edges.target? f (L.edges n)⟩

section Shape

variable {L M : Layout} {x y : NodeId}

theorem step_of_shape {n m : NodeId} (h : L.shape.Step n m) : L.Step n m := by
  obtain ⟨f, hf⟩ := h
  exact ⟨⟨f, m⟩, Edges.mem_of_target? hf, rfl⟩

theorem reach_of_shape {n : NodeId} (h : L.shape.Reach x n) : L.Reach x n :=
  ReflTransGen.mono (fun _ _ => step_of_shape) _ _ h

/-- Layouts that differ in their numbers only have such shapes. -/
theorem Isomorphic.shape (hi : L.Isomorphic x M y) : L.shape.Isomorphic x M.shape y := by
  obtain ⟨μ, hx, hinj, hμ⟩ := hi
  refine ⟨μ, hx, hinj.mono fun n hn => reach_of_shape hn, fun n hn => ?_⟩
  obtain ⟨htype, hedges⟩ := hμ n (reach_of_shape hn)
  refine ⟨htype, fun f => ?_⟩
  show Edges.target? f (M.edges (μ n)) = _
  rw [hedges, Edges.target?_mapTargets]
  rfl

/-- Where edges are in order all of them are values. -/
theorem step_shape (hsorted : ∀ n, Edges.Sorted (L.edges n)) : L.shape.Step = L.Step := by
  funext n m
  refine propext ⟨step_of_shape, ?_⟩
  rintro ⟨e, he, rfl⟩
  exact ⟨e.feature, (Edges.target?_eq_some_iff (hsorted n)).2 he⟩

theorem acyclic_shape_iff (hsorted : ∀ n, Edges.Sorted (L.edges n)) :
    L.shape.Acyclic x ↔ L.Acyclic x := by
  unfold Shape.Acyclic Acyclic Shape.Reach Reach
  rw [step_shape hsorted]

/-- Where edges are in order the values tell the edges. -/
theorem isomorphic_of_shape (hL : ∀ n, Edges.Sorted (L.edges n))
    (hM : ∀ n, Edges.Sorted (M.edges n)) (hi : L.shape.Isomorphic x M.shape y) :
    L.Isomorphic x M y := by
  have hreach : ∀ {n}, L.Reach x n → L.shape.Reach x n := by
    intro n hn
    unfold Shape.Reach
    rwa [step_shape hL]
  obtain ⟨μ, hx, hinj, hμ⟩ := hi
  refine ⟨μ, hx, hinj.mono fun n hn => hreach hn, fun n hn => ?_⟩
  obtain ⟨htype, hvalue⟩ := hμ n (hreach hn)
  refine ⟨htype, Edges.eq_of_target?_eq (hM _) (Edges.sorted_mapTargets (hL n) μ) fun f => ?_⟩
  rw [Edges.target?_mapTargets]
  exact hvalue f

end Shape

end Layout

/-! ## The layouts of a graph -/

namespace Graph

/-- The committed structure. -/
def layout (g : Graph) : Layout := ⟨g.type, g.edges⟩

/-- The structure of the episode, seen at the nodes that stand for others: the types that they were
given, and committed and pending edges to the nodes that stand for their targets. -/
def view (g : Graph) : Layout :=
  ⟨g.currentType, fun n => Edges.mapTargets g.deref (g.currentEdges n)⟩

theorem mem_currentEdges_iff {g : Graph} {n : NodeId} {e : Edge} :
    e ∈ g.currentEdges n ↔ e ∈ g.edges n ∨ e ∈ g.pending n := by
  unfold currentEdges
  split
  · rename_i hp
    simp [hp]
  · exact List.mem_merge

theorem layout_invalidate (g : Graph) : g.invalidate.layout = g.layout := by
  unfold layout
  congr 1
  · funext n
    exact type_invalidate ..
  · funext n
    exact edges_invalidate ..

/-- When no episode is open there is nothing but what is committed. -/
theorem AtRest.view_eq_layout {g : Graph} (h : g.AtRest) : g.view = g.layout := by
  have hderef : g.deref = id := funext h.deref_eq
  unfold view layout
  congr 1
  · exact funext h.currentType_eq
  · funext n
    rw [currentEdges, h.pending_eq, hderef]
    exact Edges.mapTargets_id fun _ _ => rfl

end Graph

end FeatureLogic
