import FeatureLogic.Proofs.Session.Whole

/-!
Sessions whose edges are always in order (`Session.Orderly`). Whatever an operation does and however
it ends, committed edges rise by feature and lead to nodes, and the edges that a node gains in an
episode are for features that it does not have (`Session.edges_of_orderly`), so that the walks that
go through two lists of edges side by side never see a feature twice.
-/

open Relation

namespace FeatureLogic

namespace Graph

variable {g g' : Graph}

/-! ## Order at rest -/

/-- The structure that an episode began with is sound once the episode has ended. -/
theorem Sound.entangled_invalidate (hg : g.Sound) : g.invalidate.Entangled :=
  entangled_of_atRest hg.invalidate.1 hg.invalidate.2

/-- Only the notes of nodes that there are can count. -/
theorem atRest_of_forall_lt (hg : 0 < g.generation)
    (h : ∀ n < g.size, (g.node n).slots.stamp ≠ g.generation) : g.AtRest := by
  intro n
  rcases Nat.lt_or_ge n g.size with hn | hn
  · exact h n hn
  · rw [node_of_le hn]
    exact Nat.ne_of_lt hg

/-- A change of one node by hand, when no node has gained edges. -/
theorem AtRest.ordered_modify (hr : g.AtRest) (hg : g.Ordered) (n : NodeId) {f : Node → Node}
    (hslots : ∀ node, (f node).slots = node.slots)
    (hsorted : ∀ node, Edges.Sorted node.edges → Edges.Sorted (f node).edges) :
    ({ g with nodes := g.nodes.modify n f } : Graph).Ordered := by
  have hpending : ∀ m : Nat, ({ g with nodes := g.nodes.modify n f } : Graph).pending m = [] := by
    intro m
    have hnode : (({ g with nodes := g.nodes.modify n f } : Graph).node m).slots =
        (g.node m).slots := by
      rw [node_modify]
      split
      · exact hslots _
      · rfl
    obtain ⟨-, -, heq⟩ := reads_congr (by rfl) hnode
    exact heq.trans (hr.pending_eq m)
  refine ⟨fun m => ?_, fun m => ?_, fun he => ?_⟩
  · rw [edges, node_modify]
    split
    · exact hsorted _ (hg.sorted m)
    · exact hg.sorted m
  · rw [hpending]
    exact Edges.sorted_nil
  · rw [hpending] at he
    cases he

end Graph

namespace Session

/-! ## Unification -/

section Unify

variable {s s' : Session}

/-- What a turn of a unification keeps. -/
def InOrder (s : Session) : Prop := s.graph.Ordered ∧ s.graph.Stamped ∧ s.grammar.Rooted

theorem InOrder.absorbs (h : s.InOrder) {left right first second : NodeId} {type : TypeId}
    {tasks : List UnifyTask} (habsorbs : s.Absorbs left right first second type s' tasks) :
    s'.InOrder := by
  obtain ⟨ho, hst, hg⟩ := h
  cases habsorbs with
  | bare | both => exact ⟨ho.setForward .., hst.setForward .., hg⟩
  | turned =>
    exact ⟨(ho.setCurrentType ..).setForward .., (hst.setCurrentType ..).setForward .., hg⟩

theorem InOrder.typed (h : s.InOrder) (first second : NodeId) : (s.typed first second).InOrder :=
  ⟨h.1.setCurrentType .., h.2.1.setCurrentType .., h.2.2.learned (s.learned_typed first second)⟩

/-- A copy of a prototype has its edges in the order of the prototype. -/
theorem InOrder.imported (h : s.InOrder) {type : TypeId} {root : NodeId}
    (hroot : s.grammar.featuredPrototype? type = some root) :
    (s.mapGraph (·.copyFrom s.grammar.prototypes root)).InOrder := by
  obtain ⟨ho, hst, hg⟩ := h
  obtain ⟨κ, hκ⟩ := s.graph.copyFrom_spec hg.prototypes
    (hg.root_lt (Grammar.roots_of_featuredPrototype? hroot).1)
  have hadded := hκ.added hg.prototypes
  exact ⟨ho.added hst hadded, hadded.grown.stamped hst, hg⟩

theorem InOrder.turn (h : s.InOrder) (task : UnifyTask) : (s.unifyTurn task).state.InOrder := by
  have hturned := s.unifyTurned task
  generalize s.unifyTurn task = turn at hturned ⊢
  cases hturned with
  | met | merged | shared | resumed => exact h
  | clashed => exact ⟨h.1, h.2.1, h.2.2.learned (s.learned_ask_unify _ _)⟩
  | absorbed _ _ _ _ _ habsorbs => exact (h.typed ..).absorbs habsorbs
  | completed _ _ _ _ _ hroot => exact (h.typed ..).imported hroot
  | gained hnone => exact ⟨h.1.addPending hnone, h.2.1.addPending .., h.2.2⟩

theorem ordered_unifyNodes (h : s.InOrder) {budget : Nat} {left right : NodeId} {unified : Bool}
    (hrun : s.unifyNodes budget left right = some (unified, s')) : s'.graph.Ordered := by
  have hstate := Agenda.state_run (P := InOrder) (fun task h => h.turn task) budget
    [.pair left right] h
  unfold unifyNodes at hrun
  cases hr : Agenda.run unifyTurn budget s [.pair left right] with
  | done s₁ =>
    rw [hr] at hrun hstate
    cases hrun
    exact hstate.1
  | halted s₁ answer waiting =>
    rw [hr] at hrun hstate
    cases hrun
    rw [(blame_frame waiting s₁).1]
    exact hstate.1
  | spent s₁ waiting =>
    rw [hr] at hrun
    cases hrun

end Unify

/-! ## One operation -/

section Kept

variable {s s' : Session} (he : s.graph.Entangled) (hg : s.grammar.Rooted)

theorem Notes.entangled (h : s.Notes s') (he : s.graph.Entangled) : s'.graph.Entangled := by
  obtain ⟨t, ht, rfl⟩ := h
  exact (ht.graph.sound he.sound).entangled_invalidate

theorem Edits.entangled {root : Nat} (h : s.Edits root s') (he : s.graph.Entangled)
    (hroot : root < s.graph.size) : s'.graph.Entangled := by
  obtain ⟨g, hpruned, heq⟩ := h.graph
  rw [heq]
  exact (hpruned.sound he.sound hroot).entangled_invalidate

include he

theorem closed_of_entangled (hg : s.grammar.Rooted) : s.Closed := ⟨he.linked, hg⟩

theorem entangled_extract {root : Nat} (hroot : root < s.graph.size) (r : Restrictor) :
    (s.extract root r).2.graph.Entangled := by
  rcases extract_cases he.linked hroot r with
    ⟨s₁, h, heq⟩ | ⟨s₁, n, cursor, waiting, e, h, -, heq⟩ <;> rw [heq]
  · exact (h.sound he).entangled_invalidate
  · exact (h.beside.extends_start.sound_truncate he.sound (h.sound he)).entangled_invalidate

/-- Only the copy stays of an episode that began with `g`. -/
theorem entangled_extractOver {g : Graph} (h₀ : g.Sound) (hext : g.Extends s.graph) {root : Nat}
    (hroot : root < s.graph.size) (r : Restrictor) :
    (s.extractOver g.size root r).2.graph.Entangled := by
  unfold extractOver
  rcases extract_cases he.linked hroot r with
    ⟨s₁, h, heq⟩ | ⟨s₁, n, cursor, waiting, e, h, -, heq⟩ <;> rw [heq]
  · obtain ⟨hvoid, hnew⟩ := h.invalidated
    obtain ⟨hsound, hrest⟩ := (h.sound he).invalidate
    obtain ⟨hsound', hrest'⟩ := (hext.trans hvoid).sound_compact hext.size_le hvoid.size_le h₀
      hsound hnew hrest
    exact Graph.entangled_of_atRest hsound' hrest'
  · have hext' := h.beside.extends_start.truncate.trans (Graph.extends_invalidate _)
    obtain ⟨hsound, hrest⟩ :=
      (h.beside.extends_start.sound_truncate he.sound (h.sound he)).invalidate
    exact Graph.entangled_of_atRest ((hext.trans hext').sound_truncate h₀ hsound)
      (hrest.truncate hsound.stamped _)

section Nodes

include hg

variable {left right : Nat} (hleft : left < s.graph.size) (hright : right < s.graph.size)
include hleft hright

theorem entangled_unifyNodes {budget : Nat} {unified : Bool}
    (h : s.unifyNodes budget left right = some (unified, s')) :
    s'.graph.Entangled ∧ s.graph.Extends s'.graph := by
  obtain ⟨-, hext, hlinked⟩ := linking_unifyNodes (closed_of_entangled he hg) hleft hright h
  exact ⟨hlinked.entangled (ordered_unifyNodes ⟨he.ordered, he.sound.stamped, hg⟩ h), hext⟩

/-- Of an episode that is given up nothing stays. -/
theorem entangled_abandon {budget : Nat} {unified : Bool}
    (h : s.unifyNodes budget left right = some (unified, s')) :
    (s'.abandon s.graph.size).graph.Entangled := by
  obtain ⟨he', hext⟩ := entangled_unifyNodes he hg hleft hright h
  obtain ⟨hsound, hrest⟩ := he'.sound.invalidate
  exact Graph.entangled_of_atRest
    ((hext.trans (Graph.extends_invalidate _)).sound_truncate he.sound hsound)
    (hrest.truncate hsound.stamped _)

theorem entangled_entangle {budget : Nat} {unified : Bool}
    (h : s.entangle budget left right = some (unified, s')) :
    s'.graph.Entangled ∧ s.graph.Extends s'.graph := by
  obtain ⟨-, hext, -, -⟩ := linking_entangle (closed_of_entangled he hg) hleft hright h
  obtain ⟨⟨unified', s₁⟩, h₁, heq⟩ := Option.map_eq_some_iff.1 h
  refine ⟨?_, hext⟩
  cases unified' with
  | true =>
    cases heq
    exact (entangled_unifyNodes he hg hleft hright h₁).1
  | false =>
    cases heq
    exact entangled_abandon he hg hleft hright h₁

theorem entangled_unifiable {budget : Nat} {unified : Bool}
    (h : s.unifiable budget left right = some (unified, s')) : s'.graph.Entangled := by
  obtain ⟨⟨unified', s₁⟩, h₁, heq⟩ := Option.map_eq_some_iff.1 h
  cases heq
  exact entangled_abandon he hg hleft hright h₁

/-- A unification whose result is copied out, or not, when there is none. -/
theorem entangled_copied {root : Nat} (hroot : root < s.graph.size) {budget : Nat} {unified : Bool}
    {s₁ : Session} (h : s.entangle budget left right = some (unified, s₁)) (r : Restrictor) :
    (if unified then s₁.extractOver s.graph.size root r else (none, s₁)).2.graph.Entangled := by
  obtain ⟨he₁, hext⟩ := entangled_entangle he hg hleft hright h
  cases unified with
  | true =>
    exact entangled_extractOver he₁ he.sound hext (Nat.lt_of_lt_of_le hroot hext.size_le) r
  | false => exact he₁

end Nodes

/-- After a call edges are in order, whether the call succeeds or fails. -/
theorem Call.entangled (hg : s.grammar.Rooted) {c : Call}
    (hc : ∀ n ∈ c.operands, n < s.graph.size) (h : c.run? s = some s') : s'.graph.Entangled := by
  cases Call.effect h with
  | asks hnotes => exact hnotes.entangled he
  | extracts hroot r => exact entangled_extract he (hc _ hroot) r
  | tries hleft hright htried => exact entangled_unifiable he hg (hc _ hleft) (hc _ hright) htried
  | unifies hleft hright hroot unified hunified r =>
    exact entangled_copied he hg (hleft.lt (closed_of_entangled he hg) hc) (hc _ hright)
      (hc _ hroot) hunified r
  | lacks => exact he

end Kept

/-! ## All sessions -/

/-- Edges are put and dropped by hand and types are set by hand only while no episode is open, and
nodes are not dropped by hand. What is imported is told apart by where it lies. -/
def Move.Timely (s : Session) : Move → Prop
  | setType _ _ | putEdge _ _ _ | dropEdge _ _ => s.AtRest
  | truncate _ | compact _ _ | importFrom _ _ => False
  | _ => True

/-- The sessions on a grammar that come about by operations on nodes that are there, with edits by
hand while no episode is open. -/
inductive Orderly : Grammar → Session → Prop
  /-- The prototypes lie in their graph, as they do in every grammar that can be read. -/
  | start {g : Grammar} (h : g.Rooted) : Orderly g (ofGrammar g)
  | move {g : Grammar} {s s' : Session} (hs : Orderly g s) {m : Move} (hm : m.Allowed s)
    (ht : m.Timely s) (h : m.run? s = some s') : Orderly g s'
  /-- A structure of another session, maybe on another grammar. -/
  | importFrom {g g' : Grammar} {s t : Session} (hs : Orderly g s) (ht : Orderly g' t)
    {root : NodeId} (hroot : root < t.graph.size) : Orderly g (s.importFrom t.graph root).2
  | importPrototype {g : Grammar} {s : Session} (hs : Orderly g s) {type : TypeId} {root : NodeId}
    (hroot : s.grammar.roots[type]? = some root) :
    Orderly g (s.importFrom s.grammar.prototypes root).2
  /-- Failures are recorded or not, and the lattice is asked, maybe on behalf of another session. -/
  | aside {g : Grammar} {s s' : Session} (hs : Orderly g s) (hgraph : s'.graph = s.graph)
    (hgrammar : s.grammar.Learned s'.grammar) : Orderly g s'

section Move

variable {s s' : Session} (he : s.graph.Entangled) (hg : s.grammar.Rooted)
include he hg

/-- An operation keeps edges in order. -/
theorem Move.entangled {m : Move} (hm : m.Allowed s) (ht : m.Timely s)
    (h : m.run? s = some s') : s'.graph.Entangled := by
  have hclosed := closed_of_entangled he hg
  have hlinked := (Move.closed hclosed hm h).graph
  -- edits by hand are timely only while no episode is open, and the last three never are
  cases Move.effect h with
  | call hcall => exact Call.entangled he hg hm.1 hcall
  | unifies hleft hright hunified =>
    exact (entangled_entangle he hg (hleft.lt hclosed hm.1) (hm.1 _ hright) hunified).1
  | lacks => exact he
  | adds hadded => exact he.added hadded
  | clone root =>
    have hroot := hm.1 root (List.mem_singleton_self root)
    obtain ⟨κ, hκ⟩ := s.graph.copyFrom_spec he.sound hroot
    rw [← Graph.copyWithin_eq (he.sound.edgesLead.whole hroot)] at hκ
    exact he.added (hκ.added he.sound)
  | edits hroot hedits => exact hedits.entangled he (hm.1 _ hroot)
  | setType n type =>
    exact hlinked.entangled (Graph.AtRest.ordered_modify ht he.ordered n (fun _ => rfl)
      fun _ hs => hs)
  | putEdge n feature target =>
    exact hlinked.entangled (Graph.AtRest.ordered_modify ht he.ordered n (fun _ => rfl)
      fun _ hs => Edges.sorted_put hs _ _)
  | dropEdge n feature =>
    exact hlinked.entangled (Graph.AtRest.ordered_modify ht he.ordered n (fun _ => rfl)
      fun _ hs => Edges.sorted_drop hs _)
  | clear => exact Graph.entangled_of_atRest Graph.sound_empty Graph.atRest_empty
  | invalidate => exact he.sound.entangled_invalidate
  | importFrom source root => exact ht.elim
  | truncate size => exact ht.elim
  | compact first start => exact ht.elim

/-- An operation may teach the lattice something. -/
theorem Move.learned {m : Move} (hm : m.Allowed s) (h : m.run? s = some s') :
    s.grammar.Learned s'.grammar := by
  have hclosed := closed_of_entangled he hg
  cases Move.effect h with
  | call hcall => exact (Call.leads hclosed hm.1 hcall).1
  | unifies hleft hright hunified =>
    exact (linking_entangle hclosed (hleft.lt hclosed hm.1) (hm.1 _ hright) hunified).1
  | adds _ hlearned => exact hlearned
  | edits _ hedits => exact hedits.grammar
  | _ => exact .refl _

end Move

theorem entangled_importFrom {s : Session} (he : s.graph.Entangled) {source : Graph}
    (hs : source.Sound) {root : Nat} (hroot : root < source.size) :
    (s.importFrom source root).2.graph.Entangled := by
  obtain ⟨κ, hκ⟩ := s.graph.copyFrom_spec hs hroot
  exact hκ.entangled he hs

namespace Orderly

variable {g : Grammar} {s : Session}

/-- Prototypes stay where they are, and edges in order. -/
theorem kept (h : s.Orderly g) :
    s.graph.Entangled ∧ s.grammar.Rooted ∧ g.Learned s.grammar := by
  induction h with
  | start hg => exact ⟨Graph.entangled_of_atRest Graph.sound_empty Graph.atRest_empty, hg, .refl _⟩
  | move _ hm ht h ih =>
    obtain ⟨he, hg, hlearned⟩ := ih
    have hmore := Move.learned he hg hm h
    exact ⟨Move.entangled he hg hm ht h, hg.learned hmore, hlearned.trans hmore⟩
  | importFrom _ _ hroot ih ih' => exact ⟨entangled_importFrom ih.1 ih'.1.sound hroot, ih.2⟩
  | importPrototype _ hroot ih =>
    obtain ⟨he, hg, hlearned⟩ := ih
    exact ⟨entangled_importFrom he hg.prototypes (hg.root_lt hroot), hg, hlearned⟩
  | aside _ hgraph hgrammar ih =>
    obtain ⟨he, hg, hlearned⟩ := ih
    exact ⟨hgraph ▸ he, hg.learned hgrammar, hlearned.trans hgrammar⟩

theorem entangled (h : s.Orderly g) : s.graph.Entangled := h.kept.1

/-- Sessions whose edges are always in order are among those that arise. -/
theorem arises (h : s.Orderly g) : s.Arises := by
  induction h with
  | start hg => exact .start hg
  | move _ hm _ h ih => exact ih.move hm h
  | @importFrom _ _ s t _ ht root hroot ih _ =>
    exact ih.move (m := .importFrom t.graph root)
      ⟨nofun, ht.entangled.sound.edgesLead, hroot⟩ rfl
  | @importPrototype _ s hs _ root hroot ih =>
    obtain ⟨-, hg, -⟩ := hs.kept
    exact ih.move (m := .importFrom s.grammar.prototypes root)
      ⟨nofun, hg.prototypes.edgesLead, hg.root_lt hroot⟩ rfl
  | aside hs hgraph hgrammar ih => exact ih.aside hgraph (hs.kept.2.1.learned hgrammar)

theorem add (h : s.Orderly g) (type : TypeId) : (s.mapGraph (·.add type [])).Orderly g :=
  h.move (m := .add type) ⟨nofun, trivial⟩ trivial rfl

theorem putEdge (h : s.Orderly g) (hr : s.AtRest) (n target : Nat) (hn : n < s.graph.size)
    (ht : target < s.graph.size) (feature : FeatureId) :
    (s.mapGraph (·.putEdge n feature target)).Orderly g :=
  h.move (m := .putEdge n feature target) ⟨by simp [Move.operands, hn, ht], trivial⟩ hr rfl

theorem unify (h : s.Orderly g) (budget : Nat) {left right : Nat} (hleft : left < s.graph.size)
    (hright : right < s.graph.size) : (s.entangled budget left right).Orderly g := by
  obtain heq | ⟨unified, hanswer⟩ := entangled_cases budget s left right
  · rwa [heq]
  · exact h.move (m := .entangle budget left right)
      ⟨by simp [Move.operands, hleft, hright], trivial⟩ trivial
      (congrArg (Option.map Prod.snd) hanswer)

end Orderly

/-- Whatever was done, in whatever order and however it ended, the committed edges of every node are
in strict order of their features and lead to nodes, and so do its edges in the episode that is
open: what it gained is never for a feature that it had. -/
theorem edges_of_orderly {g : Grammar} {s : Session} (h : s.Orderly g) (n : NodeId) :
    Edges.Sorted (s.graph.edges n) ∧ (∀ e ∈ s.graph.edges n, e.target < s.graph.size) ∧
    Edges.Sorted (s.graph.currentEdges n) ∧
    (∀ e ∈ s.graph.currentEdges n, e.target < s.graph.size) ∧
    ∀ e ∈ s.graph.pending n, s.graph.value? n e.feature = none := by
  have he := h.entangled
  exact ⟨he.sound.sorted n, fun _ => he.sound.target_lt, he.sorted_currentEdges,
    fun _ => he.linked.currentEdges_lt, fun _ => he.pending_new⟩

theorem orderly_knotted : knotted.Orderly (Sample.grammar [] []) := by
  have hrest : ∀ {s : Session}, 0 < s.graph.generation →
      (∀ n < s.graph.size, (s.graph.node n).slots.stamp ≠ s.graph.generation) → s.AtRest :=
    Graph.atRest_of_forall_lt
  have hnodes := ((((((Orderly.start Sample.sound_grammar_nil.rooted).add (.of 1)).add .top).add
    (.of 2)).add .top).add .top).add .top
  have hfirst := hnodes.putEdge (hrest (by decide) (by decide)) 0 1 (by decide) (by decide) 0
  have hsecond := hfirst.putEdge (hrest (by decide) (by decide)) 2 3 (by decide) (by decide) 0
  have hthird := hsecond.putEdge (hrest (by decide) (by decide)) 2 3 (by decide) (by decide) 1
  have hknots : knots.Orderly (Sample.grammar [] []) :=
    hthird.putEdge (hrest (by decide) (by decide)) 4 5 (by decide) (by decide) 0
  exact (hknots.unify 20 (by decide) (by decide)).unify 20 (by decide +kernel) (by decide +kernel)

/-- A node that has one feature gains another in the episode. -/
theorem edges_of_orderly_knotted : knotted.Orderly (Sample.grammar [] []) ∧
    knotted.graph.edges 0 = [⟨0, 1⟩] ∧ knotted.graph.pending 0 = [⟨1, 3⟩] ∧
    Edges.Sorted (knotted.graph.edges 0) ∧
    (∀ e ∈ knotted.graph.edges 0, e.target < knotted.graph.size) ∧
    Edges.Sorted (knotted.graph.currentEdges 0) ∧
    (∀ e ∈ knotted.graph.currentEdges 0, e.target < knotted.graph.size) ∧
    ∀ e ∈ knotted.graph.pending 0, knotted.graph.value? 0 e.feature = none :=
  ⟨orderly_knotted, by decide +kernel, by decide +kernel, edges_of_orderly orderly_knotted 0⟩

end Session

end FeatureLogic
