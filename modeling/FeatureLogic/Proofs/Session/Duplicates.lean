import Mathlib.Data.Set.Card
import Mathlib.Order.Interval.Finset.Nat
import FeatureLogic.Proofs.Session.Whole

/-!
Copies of committed structure, out of another graph and within a graph. As many nodes are added as
are below the root, and they are the structure again with its edges in their order, whatever
episodes are open (`Session.gainsExactly_importFrom_clone`).
-/

open Relation

namespace FeatureLogic

namespace Copying

/-- The walk that copies comes to its end within its bound. -/
def Completes (source : Graph → Graph) (rounds : Nat) (g : Graph) (root : NodeId) : Prop :=
  ∃ c, Agenda.runRounds (turn source) (2 * (source g).weight) rounds
    ⟨g, .replicate (source g).size none⟩ [.enter root] = .done c

variable {source : Graph} {root : NodeId}

theorem exists_run_eq_done (hwhole : source.Whole root) (g : Graph) {fuel : Nat}
    (hfuel : 2 * source.weight ≤ fuel) : ∃ c,
      Agenda.run (turn fun _ => source) fuel ⟨g, .replicate source.size none⟩ [.enter root] =
        .done c := by
  have hne := run_turn_ne_spent (g := g) hwhole
  obtain ⟨extra, rfl⟩ := Nat.exists_eq_add_of_le hfuel
  rw [Agenda.run_add hne]
  cases hrun : Agenda.run (turn fun _ => source) (2 * source.weight)
      ⟨g, .replicate source.size none⟩ [.enter root] with
  | spent c waiting => exact absurd hrun (hne c waiting)
  | halted c answer waiting => cases answer
  | done c => exact ⟨c, rfl⟩

theorem completes_from (hwhole : source.Whole root) (g : Graph) :
    Completes (fun _ => source) 1 g root := by
  rw [Completes, Agenda.runRounds_eq_run]
  exact exists_run_eq_done hwhole g (Nat.le_of_eq (Nat.mul_one _).symm)

theorem completes_within (hwhole : source.Whole root) :
    Completes id source.copyRounds source root := by
  rw [Completes, Agenda.runRounds_eq_run]
  simp only [id, run_turn_id hwhole]
  exact exists_run_eq_done hwhole source (Nat.le_mul_of_pos_right _ source.copyRounds_pos)

end Copying

namespace Graph

/-- The second graph is the first one and an exact copy of the committed structure of `source` below
`root`, with `copy` as its root. -/
structure GainsExactly (g source : Graph) (root copy : NodeId) (g' : Graph) : Prop where
  generation_eq : g'.generation = g.generation
  old : ∀ n : Nat, n < g.size → g'.node n = g.node n
  size_eq : g'.size = g.size + {n | source.Below root n}.ncard
  /-- Nothing is noted of new nodes. -/
  fresh : ∀ n : Nat, g.size ≤ n → ∃ type edges, g'.node n = .fresh type edges
  isomorphic : source.layout.Isomorphic root g'.layout copy
  new : ∀ n : Nat, g'.Below copy n → g.size ≤ n ∧ n < g'.size

section Duplicates

variable {g source g' : Graph} {root : NodeId} {κ : NodeId → NodeId}
  (h : g.Duplicates source root g' κ)
include h

theorem Duplicates.type_eq {n : NodeId} (hn : source.Below root n) :
    g'.type (κ n) = source.type n := by
  rw [type, h.node hn]
  rfl

theorem Duplicates.edges_eq {n : NodeId} (hn : source.Below root n) :
    g'.edges (κ n) = Edges.mapTargets κ (source.edges n) := by
  rw [edges, h.node hn]
  rfl

theorem Duplicates.layout_isomorphic : source.layout.Isomorphic root g'.layout g.size :=
  ⟨κ, h.root_eq, h.bijOn.injOn, fun _ hn => ⟨h.type_eq hn, h.edges_eq hn⟩⟩

/-- The nodes that are added are as many as those below the root. -/
theorem Duplicates.size_eq : g'.size = g.size + {n | source.Below root n}.ncard := by
  have hcard := h.bijOn.injOn.ncard_image
  rw [h.bijOn.image_eq, ← Finset.coe_Ico, Set.ncard_coe_finset, Nat.card_Ico] at hcard
  have := h.size_le
  omega

theorem Duplicates.fresh {n : Nat} (hn : g.size ≤ n) :
    ∃ type edges, g'.node n = .fresh type edges := by
  rcases Nat.lt_or_ge n g'.size with hlt | hge
  · obtain ⟨m, hm, rfl⟩ := h.bijOn.surjOn ⟨hn, hlt⟩
    exact ⟨_, _, h.node hm⟩
  · exact ⟨_, _, node_of_le hge⟩

theorem Duplicates.gainsExactly : g.GainsExactly source root g.size g' where
  generation_eq := h.generation_eq
  old _ := h.old
  size_eq := h.size_eq
  fresh _ := h.fresh
  isomorphic := h.layout_isomorphic
  new n hn := by
    -- what is below the copy is the copy of something
    have hedges : ∀ m, source.layout.Reach root m →
        g'.layout.edges (κ m) = Edges.mapTargets κ (source.layout.edges m) :=
      fun m hm => h.edges_eq hm
    rw [← h.root_eq] at hn
    obtain ⟨m, hm, rfl⟩ := Layout.exists_of_reach hedges hn
    exact h.bijOn.mapsTo hm

end Duplicates

section SameLayout

variable {source source' : Graph} (hlayout : source'.layout = source.layout)
  (hsize : source'.size = source.size)
include hlayout hsize

theorem Whole.of_layout {root : NodeId} (hwhole : source.Whole root) : source'.Whole root := by
  intro n hn
  rw [hsize]
  refine hwhole ?_
  have hedges : source'.edges = source.edges := congrArg Layout.edges hlayout
  unfold Below at hn ⊢
  rwa [hedges] at hn

/-- Only what is committed is copied. -/
theorem copyFrom_of_layout {root : NodeId} (hwhole : source.Whole root) (g : Graph) :
    g.copyFrom source' root = g.copyFrom source root := by
  have htype : source'.type = source.type := congrArg Layout.type hlayout
  have hedges : source'.edges = source.edges := congrArg Layout.edges hlayout
  have hturn : Copying.turn (fun _ => source') = Copying.turn fun _ => source := by
    funext c task
    cases task with
    | connect copy list => rfl
    | enter n => simp only [Copying.turn, htype, hedges]
  have hne := Copying.run_turn_ne_spent (g := g) (hwhole.of_layout hlayout hsize)
  rw [hturn, hsize] at hne
  simp only [copyFrom, Copying.walk, Agenda.runRounds_eq_run, Nat.mul_one, hturn, hsize]
  rw [Agenda.run_eq_run hne (Copying.run_turn_ne_spent hwhole)]

end SameLayout

end Graph

namespace Session

open FeatureLogic.Graph

/-- Copying out of another graph and within the session's own comes to its end and adds an exact
copy, whose root is what it answers. Nothing but committed structure counts: from a graph where the
same is committed and other notes are made, if any, the same is copied. -/
theorem gainsExactly_importFrom_clone {source : Graph} {root : NodeId}
    (hwhole : source.Whole root) :
    (∀ s : Session, Copying.Completes (fun _ => source) 1 s.graph root ∧
      s.graph.GainsExactly source root (s.importFrom source root).1
        (s.importFrom source root).2.graph ∧
      ∀ source' : Graph, source'.layout = source.layout → source'.size = source.size →
        s.importFrom source' root = s.importFrom source root) ∧
    ∀ s : Session, s.graph = source → Copying.Completes id source.copyRounds source root ∧
      s.graph.GainsExactly source root (s.clone root).1 (s.clone root).2.graph ∧
      ∀ source' : Graph, source'.layout = source.layout → source'.size = source.size →
        s.clone root = s.importFrom source' root := by
  refine ⟨fun s => ⟨Copying.completes_from hwhole s.graph, ?_, ?_⟩, ?_⟩
  · obtain ⟨κ, hκ⟩ := hwhole.exists_duplicates s.graph
    exact hκ.gainsExactly
  · intro source' hlayout hsize
    simp only [importFrom, mapGraph, copyFrom_of_layout hlayout hsize hwhole]
  · rintro s rfl
    refine ⟨Copying.completes_within hwhole, ?_, ?_⟩
    · obtain ⟨κ, hκ⟩ := hwhole.exists_duplicates s.graph
      rw [← copyWithin_eq hwhole] at hκ
      exact hκ.gainsExactly
    · intro source' hlayout hsize
      simp only [importFrom, clone, mapGraph, copyFrom_of_layout hlayout hsize hwhole,
        copyWithin_eq hwhole]

/-- A node with a shared value that leads back to it, in an episode in which another node stands for
it. -/
def delegated : Session := knotted.mapGraph (·.putEdge 3 1 2)

theorem gainsExactly_importFrom_clone_delegated :
    delegated.graph.Whole 2 ∧ delegated.graph.deref 2 = 0 ∧
    delegated.graph.edges 2 = [⟨0, 3⟩, ⟨1, 3⟩] ∧ delegated.graph.edges 3 = [⟨1, 2⟩] ∧
    knotted.graph.GainsExactly delegated.graph 2 (knotted.importFrom delegated.graph 2).1
      (knotted.importFrom delegated.graph 2).2.graph ∧
    delegated.graph.GainsExactly delegated.graph 2 (delegated.clone 2).1
      (delegated.clone 2).2.graph ∧
    (delegated.clone 2).2.graph.size = 8 := by
  have hclosed : ∀ n ∈ [2, 3], ∀ e ∈ delegated.graph.edges n, e.target ∈ [2, 3] := by
    decide +kernel
  have hlt : ∀ n ∈ [2, 3], n < delegated.graph.size := by decide +kernel
  have hwhole : delegated.graph.Whole 2 := fun n hn =>
    hlt n (Graph.mem_of_below hclosed (by decide) hn)
  obtain ⟨himport, hclone⟩ := gainsExactly_importFrom_clone hwhole
  exact ⟨hwhole, by decide +kernel, by decide +kernel, by decide +kernel, (himport knotted).2.1,
    (hclone delegated rfl).2.1, by decide +kernel⟩

end Session

end FeatureLogic
