import FeatureLogic.Proofs.Session.Extraction
import FeatureLogic.Session.Restrict

/-!
Edits in place. Restricting and unfilling change the committed structure below one root and nothing
else: what is not below the root keeps its type and its edges (`Graph.Pruned`).
-/

open Relation

namespace FeatureLogic

/-! ## Edits below a root -/

namespace Graph

/-- The second graph is the first one with edits below the root: types are set, edges are dropped,
and an edge that is set leads to a node below the root. -/
structure Pruned (g : Graph) (root : NodeId) (g' : Graph) : Prop where
  generation_eq : g'.generation = g.generation
  size_eq : g'.size = g.size
  slots_eq : ∀ n : Nat, (g'.node n).slots = (g.node n).slots
  sorted : (∀ n, Edges.Sorted (g.edges n)) → ∀ n, Edges.Sorted (g'.edges n)
  edge : ∀ {n e}, g.Below root n → e ∈ g'.edges n → g.Below root e.target
  untouched : ∀ {n}, ¬ g.Below root n → g'.type n = g.type n ∧ g'.edges n = g.edges n

namespace Pruned

theorem refl (g : Graph) (root : NodeId) : g.Pruned root g :=
  ⟨rfl, rfl, fun _ => rfl, id, fun h he => h.edge he, fun _ => ⟨rfl, rfl⟩⟩

variable {g g' : Graph} {root : NodeId} (h : g.Pruned root g')
include h

theorem value {n m : NodeId} (hn : g.Below root n) {f : FeatureId} (hm : g'.value? n f = some m) :
    g.Below root m :=
  h.edge hn (Edges.mem_of_target? hm)

/-- A change of a node below the root. -/
theorem modify {n : NodeId} (hn : g.Below root n) {f : Node → Node}
    (hslots : ∀ node, (f node).slots = node.slots)
    (hsorted : (∀ n, Edges.Sorted (g.edges n)) → ∀ node, Edges.Sorted node.edges →
      Edges.Sorted (f node).edges)
    (hedge : ∀ node, (∀ e ∈ node.edges, g.Below root e.target) →
      ∀ e ∈ (f node).edges, g.Below root e.target) :
    g.Pruned root { g' with nodes := g'.nodes.modify n f } where
  generation_eq := h.generation_eq
  size_eq := Eq.trans (by simp [size]) h.size_eq
  slots_eq m := by
    rw [node_modify]
    split
    · exact (hslots _).trans (h.slots_eq m)
    · exact h.slots_eq m
  sorted hg m := by
    have hm := h.sorted hg m
    rw [edges, node_modify]
    split
    · exact hsorted hg _ hm
    · exact hm
  edge {m e} hm he := by
    rw [edges, node_modify] at he
    split at he
    · exact hedge _ (fun d hd => h.edge hm hd) e he
    · exact h.edge hm he
  untouched {m} hm := by
    have hne : ¬ (n = m ∧ n < g'.size) := fun hc => hm (hc.1 ▸ hn)
    rw [type, edges, node_modify, if_neg hne]
    exact h.untouched hm

theorem setType {n : NodeId} (hn : g.Below root n) (type : TypeId) :
    g.Pruned root (g'.setType n type) :=
  h.modify hn (fun _ => rfl) (fun _ _ hs => hs) fun _ he => he

theorem setEdges {n : NodeId} (hn : g.Below root n) {edges : List Edge}
    (hsorted : (∀ n, Edges.Sorted (g.edges n)) → Edges.Sorted edges)
    (hedge : ∀ e ∈ edges, g.Below root e.target) : g.Pruned root (g'.setEdges n edges) :=
  h.modify hn (fun _ => rfl) (fun hg _ _ => hsorted hg) fun _ _ => hedge

/-- Of the edges of a node some stay. -/
theorem keep {n : NodeId} (hn : g.Below root n) (keeps : Edge → Bool) :
    g.Pruned root (g'.setEdges n ((g'.edges n).filter keeps)) :=
  h.setEdges hn (fun hg => (h.sorted hg n).sublist List.filter_sublist)
    fun _ he => h.edge hn (List.mem_filter.1 he).1

theorem putEdge {n target : NodeId} (hn : g.Below root n) (feature : FeatureId)
    (ht : g.Below root target) : g.Pruned root (g'.putEdge n feature target) := by
  refine h.modify hn (fun _ => rfl) (fun _ _ hs => Edges.sorted_put hs _ _) fun node hnode e he => ?_
  rcases Edges.mem_put he with rfl | he
  · exact ht
  · exact hnode e he

theorem stamped (hg : g.Stamped) : g'.Stamped :=
  hg.of_nodes h.generation_eq fun n => by
    rw [h.slots_eq]
    exact hg.stamp_le n

theorem edgesLead (hg : g.EdgesLead) (hroot : root < g.size) : g'.EdgesLead := by
  intro n e he
  rw [h.size_eq]
  by_cases hn : g.Below root n
  · exact (h.edge hn he).lt hg hroot
  · rw [(h.untouched hn).2] at he
    exact hg he

theorem sound (hg : g.Sound) (hroot : root < g.size) : g'.Sound where
  generation_pos := (h.stamped hg.stamped).generation_pos
  stamp_le := (h.stamped hg.stamped).stamp_le
  sorted := h.sorted hg.sorted
  target_lt he := h.edgesLead hg.edgesLead hroot he

end Pruned

end Graph

/-! ## Restriction -/

namespace Pruning

/-- To empty a closed list the lattice is asked at most, or the value of a feature loses its edges,
too. -/
theorem emptyClosed_cases (p : Pruning) (n : NodeId) :
    ∃ grammar, p.session.grammar.Learned grammar ∧
      (p.emptyClosed n = ⟨{ p.session with grammar }, p.seen⟩ ∨
        ∃ feature front, p.session.graph.value? n feature = some front ∧
          p.emptyClosed n =
            ⟨⟨grammar, p.session.graph.setEdges front [], p.session.failures⟩, p.seen⟩) := by
  obtain ⟨⟨grammar, graph, failures⟩, seen⟩ := p
  have hask : ∀ t u, grammar.Learned { grammar with lattice := (grammar.lattice.subsumes t u).2 } :=
    fun t u => Grammar.learned_of_lattice _ fun hl =>
      ⟨hl.subsumes t u, Lattice.hierarchy_subsumes ..⟩
  unfold emptyClosed
  dsimp only
  split
  · rename_i diffList _ _ _ _ _
    refine ⟨_, hask diffList (graph.type n), ?_⟩
    split
    · split
      · rename_i front tail hfront htail
        split
        · exact .inr ⟨_, front, hfront, rfl⟩
        · exact .inl rfl
      · exact .inl rfl
    · exact .inl rfl
  · exact ⟨grammar, .refl _, .inl rfl⟩

/-- What holds of the session of a restriction that began in `s` at the root. -/
structure Prunes (s : Session) (root : NodeId) (p : Pruning) : Prop where
  grammar : s.grammar.Learned p.session.grammar
  graph : s.graph.Pruned root p.session.graph

/-- The ways in which a special restriction decides on an edge. -/
inductive Decides (u : Unfilling) (r : Restrictor) (p : Pruning) (n : NodeId)
    (cursor : RestrictCursor) (depth : Nat) (e : Edge) (left kept : List Edge) :
    Turn Pruning SpecialTask Empty → Prop
  /-- The edge is not kept. -/
  | dropped (hkeeps : r.keeps cursor e.feature = false) :
    Decides u r p n cursor depth e left kept (.next p [.decide n cursor depth left kept])
  /-- No rule speaks here, so the edge is kept and its value restricted. -/
  | silent (hkeeps : r.keeps cursor e.feature = true) (hrule : speakingRule? r cursor = none) :
    Decides u r p n cursor depth e left kept
      (.next p [.enter e.target (r.descend cursor e.feature) depth,
        .decide n cursor depth left (e :: kept)])
  /-- The rule does not name the feature, so the edge goes if it can. -/
  | unnamed {rule : RestrictRule} (hkeeps : r.keeps cursor e.feature = true)
    (hrule : speakingRule? r cursor = some rule) (hchild : rule.child? e.feature = none) :
    Decides u r p n cursor depth e left kept (.next p [.decide n cursor depth left
      (if u.canGo p.session.graph n e then kept else e :: kept)])
  /-- The rule names the feature of gaps, and the gaps end here. -/
  | cut {rule : RestrictRule} {child : Nat} (hkeeps : r.keeps cursor e.feature = true)
    (hrule : speakingRule? r cursor = some rule) (hchild : rule.child? e.feature = some child)
    (hslash : p.session.grammar.special.slash = some e.feature) (hlimit : depth + 1 = slashLimit) :
    Decides u r p n cursor depth e left kept
      (.next (p.truncateList e.target) [.decide n cursor depth left (e :: kept)])
  /-- The rule names the feature, so the value is restricted before the edge is judged. -/
  | named {rule : RestrictRule} {child below : Nat} (hkeeps : r.keeps cursor e.feature = true)
    (hrule : speakingRule? r cursor = some rule) (hchild : rule.child? e.feature = some child)
    (hbelow : below = depth ∨
      below = depth + 1 ∧ p.session.grammar.special.slash = some e.feature) :
    Decides u r p n cursor depth e left kept
      (.next p [.enter e.target (.at child) below, .judge n cursor depth e left kept])

theorem decides (u : Unfilling) (r : Restrictor) (p : Pruning) (n : NodeId)
    (cursor : RestrictCursor) (depth : Nat) (e : Edge) (left kept : List Edge) :
    Decides u r p n cursor depth e left kept (decide u r p n cursor depth e left kept) := by
  unfold decide
  cases hkeeps : r.keeps cursor e.feature with
  | false => exact .dropped hkeeps
  | true =>
    cases hrule : speakingRule? r cursor with
    | none => exact .silent hkeeps hrule
    | some rule =>
      cases hchild : rule.child? e.feature with
      | none => simpa [hchild] using Decides.unnamed hkeeps hrule hchild
      | some child =>
        by_cases hslash : p.session.grammar.special.slash = some e.feature
        · by_cases hlimit : depth + 1 = slashLimit
          · simpa [hchild, hslash, hlimit] using Decides.cut hkeeps hrule hchild hslash hlimit
          · simpa [hchild, hslash, hlimit] using
              Decides.named hkeeps hrule hchild (.inr ⟨rfl, hslash⟩)
        · simpa [hchild, hslash] using Decides.named hkeeps hrule hchild (.inl rfl)

section Prunes

variable {s : Session} {root : NodeId} {p : Pruning} (h : Prunes s root p) {n : NodeId}
  (hn : s.graph.Below root n)
include h

theorem Prunes.mapGraph {f : Graph → Graph} (hf : s.graph.Pruned root (f p.session.graph)) :
    Prunes s root (p.mapGraph f) :=
  ⟨h.grammar, hf⟩

theorem Prunes.mark (cursor : RestrictCursor) : Prunes s root (p.mark n cursor) :=
  ⟨h.grammar, h.graph⟩

include hn

theorem Prunes.generalize (r : Restrictor) (cursor : RestrictCursor) :
    Prunes s root (p.generalize r n cursor) :=
  ⟨h.grammar.trans (Grammar.learned_of_lattice _ (r.sound_generalize cursor _)),
    h.graph.setType hn _⟩

theorem Prunes.emptyClosed : Prunes s root (p.emptyClosed n) := by
  obtain ⟨grammar, hlearned, heq | ⟨feature, front, hfront, heq⟩⟩ := emptyClosed_cases p n <;>
    rw [heq]
  · exact ⟨h.grammar.trans hlearned, h.graph⟩
  · exact ⟨h.grammar.trans hlearned,
      h.graph.setEdges (h.graph.value hn hfront) (fun _ => Edges.sorted_nil) nofun⟩

theorem Prunes.truncateList : Prunes s root (p.truncateList n) := by
  unfold Pruning.truncateList
  dsimp only
  split
  · split
    · rename_i front hfront
      have hb := h.graph.value hn hfront
      exact h.mapGraph ((h.graph.setEdges hb (fun _ => Edges.sorted_nil) nofun).putEdge hn _ hb)
    · exact h
  · exact h

end Prunes

section Turns

variable {s : Session} {root : NodeId}

/-- Restriction goes on to values of what it restricts. -/
theorem keeps_prunes (r : Restrictor) : Agenda.Keeps (turn r) fun p places =>
    Prunes s root p ∧ ∀ place ∈ places, s.graph.Below root place.1 := by
  refine ⟨fun {p place waiting p' places} ⟨h, hplaces⟩ ht => ?_⟩
  obtain ⟨n, cursor⟩ := place
  have hn : s.graph.Below root n := hplaces _ (List.mem_cons_self ..)
  have hwaiting := fun place hmem => hplaces place (List.mem_cons_of_mem _ hmem)
  simp only [turn] at ht
  split at ht
  · cases ht
    exact ⟨h, hwaiting⟩
  · cases ht
    have h' : Prunes s root ((p.mark n cursor).generalize r n cursor) :=
      (h.mark cursor).generalize hn r cursor
    refine ⟨h'.mapGraph (h'.graph.keep hn _), fun place hmem => ?_⟩
    rcases List.mem_append.1 hmem with hmem | hmem
    · obtain ⟨e, he, rfl⟩ := List.mem_map.1 hmem
      exact h'.graph.edge hn (List.mem_filter.1 he).1
    · exact hwaiting place hmem

/-- What a special restriction has in hand: a node below the root, and edges in order that lead to
nodes below it. -/
def InHand (g : Graph) (root : NodeId) : SpecialTask → Prop
  | .enter n _ _ => g.Below root n
  | .decide n _ _ left kept => g.Below root n ∧
    (∀ e ∈ kept.reverse ++ left, g.Below root e.target) ∧
    ((∀ n, Edges.Sorted (g.edges n)) → Edges.Sorted (kept.reverse ++ left))
  | .judge n _ _ e left kept => g.Below root n ∧
    (∀ d ∈ kept.reverse ++ e :: left, g.Below root d.target) ∧
    ((∀ n, Edges.Sorted (g.edges n)) → Edges.Sorted (kept.reverse ++ e :: left))

/-- An edge that is decided on is kept or not. -/
theorem InHand.decide {g : Graph} {n : NodeId} {cursor : RestrictCursor} {depth : Nat} {e : Edge}
    {left kept : List Edge} (h : InHand g root (.decide n cursor depth (e :: left) kept)) :
    InHand g root (.decide n cursor depth left (e :: kept)) ∧
      InHand g root (.decide n cursor depth left kept) := by
  obtain ⟨hn, hbelow, hsorted⟩ := h
  have hsublist : (kept.reverse ++ left).Sublist (kept.reverse ++ e :: left) :=
    (List.sublist_cons_self e left).append_left _
  refine ⟨⟨hn, ?_, ?_⟩, hn, fun d hd => hbelow d (hsublist.subset hd), fun hg =>
    (hsorted hg).sublist hsublist⟩
  · simpa using hbelow
  · simpa using hsorted

theorem keeps_prunes_special (u : Unfilling) (r : Restrictor) :
    Agenda.Keeps (specialTurn u r) fun p tasks =>
      Prunes s root p ∧ ∀ task ∈ tasks, InHand s.graph root task := by
  refine ⟨fun {p task waiting p' tasks} ⟨h, htasks⟩ ht => ?_⟩
  have htask := htasks task (List.mem_cons_self ..)
  have hwaiting := fun task hmem => htasks task (List.mem_cons_of_mem _ hmem)
  have hmore : ∀ {more : List SpecialTask}, (∀ task ∈ more, InHand s.graph root task) →
      ∀ task ∈ more ++ waiting, InHand s.graph root task := fun hmore task hmem =>
    (List.mem_append.1 hmem).elim (hmore task) (hwaiting task)
  -- whatever comes of a task deals with nodes below the root
  cases task with
  | enter n cursor depth =>
    simp only [specialTurn] at ht
    split at ht
    · cases ht
      exact ⟨h, hwaiting⟩
    · cases ht
      have h' := ((h.mark (n := n) cursor).emptyClosed htask).generalize htask r cursor
      refine ⟨h', hmore fun task hmem => ?_⟩
      rw [List.mem_singleton.1 hmem]
      exact ⟨htask, fun e he => h'.graph.edge htask he, fun hg => h'.graph.sorted hg n⟩
  | judge n cursor depth e left kept =>
    cases ht
    refine ⟨h, hmore fun task hmem => ?_⟩
    rw [List.mem_singleton.1 hmem]
    have hdecide : InHand s.graph root (.decide n cursor depth (e :: left) kept) := htask
    obtain ⟨hkeep, hdrop⟩ := hdecide.decide
    split
    · exact hdrop
    · exact hkeep
  | decide n cursor depth left kept =>
    cases left with
    | nil =>
      cases ht
      obtain ⟨hn, hbelow, hsorted⟩ := htask
      rw [List.append_nil] at hbelow hsorted
      exact ⟨h.mapGraph (h.graph.setEdges hn hsorted hbelow), hwaiting⟩
    | cons e left =>
      obtain ⟨hkeep, hdrop⟩ := htask.decide
      have he : s.graph.Below root e.target := htask.2.1 e (by simp)
      have hdecides := decides u r p n cursor depth e left kept
      rw [show decide u r p n cursor depth e left kept = .next p' tasks from ht] at hdecides
      cases hdecides with
      | dropped => exact ⟨h, hmore (List.forall_mem_singleton.2 hdrop)⟩
      | silent =>
        exact ⟨h, hmore (List.forall_mem_cons.2 ⟨he, List.forall_mem_singleton.2 hkeep⟩)⟩
      | unnamed =>
        refine ⟨h, hmore (List.forall_mem_singleton.2 ?_)⟩
        split
        · exact hdrop
        · exact hkeep
      | cut => exact ⟨h.truncateList he, hmore (List.forall_mem_singleton.2 hkeep)⟩
      | named =>
        exact ⟨h, hmore (List.forall_mem_cons.2 ⟨he, List.forall_mem_singleton.2 htask⟩)⟩

end Turns

end Pruning

/-! ## Unfilling -/

/-- The node of an unfilling task. -/
def UnfillTask.node : UnfillTask → NodeId
  | .enter n | .finish n => n

namespace Session

theorem keeps_pruned_unfill (u : Unfilling) (g : Graph) (root : NodeId) :
    Agenda.Keeps (unfillTurn u) fun state tasks =>
      g.Pruned root state.1 ∧ ∀ task ∈ tasks, g.Below root task.node := by
  refine ⟨fun {state task waiting state' tasks} ⟨h, htasks⟩ ht => ?_⟩
  have htask := htasks task (List.mem_cons_self ..)
  have hwaiting := fun task hmem => htasks task (List.mem_cons_of_mem _ hmem)
  obtain ⟨g', seen⟩ := state
  cases task with
  | finish n =>
    cases ht
    exact ⟨h.keep htask _, hwaiting⟩
  | enter n =>
    simp only [unfillTurn] at ht
    split at ht
    · cases ht
      exact ⟨h, hwaiting⟩
    · cases ht
      refine ⟨h, fun task hmem => ?_⟩
      rw [List.foldr_cons_eq_append] at hmem
      rcases List.mem_append.1 hmem with hmem | hmem
      · rcases List.mem_append.1 hmem with hmem | hmem
        · obtain ⟨e, he, rfl⟩ := List.mem_map.1 hmem
          exact h.edge htask he
        · rw [List.mem_singleton.1 hmem]
          exact htask
      · exact hwaiting task hmem

/-! ## Whole edits -/

/-- What an edit in place below a root does to a session. -/
structure Edits (s : Session) (root : NodeId) (s' : Session) : Prop where
  grammar : s.grammar.Learned s'.grammar
  graph : ∃ g, s.graph.Pruned root g ∧ s'.graph = g.invalidate

theorem edits_restrict (s : Session) (root : NodeId) (r : Restrictor) :
    s.Edits root (s.restrict root r) := by
  have hstart : Pruning.Prunes s root (.start s) ∧
      ∀ place ∈ [(root, r.start)], s.graph.Below root place.1 :=
    ⟨⟨.refl _, .refl _ _⟩, List.forall_mem_singleton.2 ReflTransGen.refl⟩
  obtain ⟨_, h, -⟩ := (Pruning.keeps_prunes r).state (r.cursorBound * s.graph.weight) hstart
  exact ⟨h.grammar, _, h.graph, rfl⟩

theorem edits_restrictSpecial (s : Session) (root : NodeId) (r : Restrictor) :
    s.Edits root (s.restrictSpecial root r) := by
  have hstart : Pruning.Prunes s root (.start s) ∧
      ∀ task ∈ [SpecialTask.enter root r.start 0], Pruning.InHand s.graph root task :=
    ⟨⟨.refl _, .refl _ _⟩, List.forall_mem_singleton.2 ReflTransGen.refl⟩
  obtain ⟨_, h, -⟩ := (Pruning.keeps_prunes_special ⟨s.grammar, s.graph.committedArrivals root, false⟩
    r).state (8 * r.cursorBound * s.graph.weight) hstart
  exact ⟨h.grammar, _, h.graph, rfl⟩

theorem edits_unfill (s : Session) (root : NodeId) (sloppy : Bool) :
    s.Edits root (s.unfill root sloppy) := by
  have hstart : s.graph.Pruned root (s.graph, Array.replicate s.graph.size false).1 ∧
      ∀ task ∈ [UnfillTask.enter root], s.graph.Below root task.node :=
    ⟨.refl _ _, List.forall_mem_singleton.2 ReflTransGen.refl⟩
  obtain ⟨_, h, -⟩ := (keeps_pruned_unfill ⟨s.grammar, s.graph.committedArrivals root, sloppy⟩
    s.graph root).state s.graph.weight hstart
  exact ⟨.refl _, _, h, rfl⟩

end Session

end FeatureLogic
