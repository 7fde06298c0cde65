import FeatureLogic.Proofs.Session.Items
import FeatureLogic.Proofs.Session.Places

/-!
Agreement of the two ways of pruning. A copy through a restrictor is, turn by turn, the whole copy
of what the same restrictor leaves in place (`Session.inStep_copyTurn_unrestricted`). So where each
node is come to at one cursor, the copy is there just when what is kept has no cycle, and then it is
the structure that is left in place, with the same vector (`Session.prunes_alike`).
-/

open Relation

namespace FeatureLogic

/-- No scratch state is live below the root: what an episode sees there is committed. -/
def Graph.SettledBelow (g : Graph) (root : NodeId) : Prop := ∀ ⦃n⦄, g.Below root n →
  g.deref n = n ∧ g.currentType n = g.type n ∧ g.currentEdges n = g.edges n

namespace Session

/-! ## Copies in step -/

/-- The first structure is committed, and the second session has what the restrictor leaves of it in
place. -/
structure Restricted (r : Restrictor) (s₀ : Session) (root : Nat) (t₀ : Session) : Prop where
  linked : s₀.graph.Linked
  linked' : t₀.graph.Linked
  size_eq : t₀.graph.size = s₀.graph.size
  root_lt : root < s₀.graph.size
  settled : s₀.graph.SettledBelow root
  rest : t₀.graph.AtRest
  lattice : s₀.grammar.lattice.Sound
  leaves : r.Leaves s₀.grammar.lattice s₀.graph.layout root t₀.graph.layout

/-- Tasks about the same nodes, where one side keeps everything. -/
inductive SameTasks (r : Restrictor) (L : Layout) (root : NodeId) : CopyTask → CopyTask → Prop
  | enter {n : NodeId} {c : RestrictCursor} (h : r.Reach L root (n, c)) :
    SameTasks r L root (.enter n c) (.enter n .open)
  | finish {n : NodeId} {type : TypeId} {kept : List Edge}
    (h : ∀ e ∈ kept, ∃ c, r.Reach L root (e.target, c)) :
    SameTasks r L root (.finish n type kept) (.finish n type kept)

/-- The same nodes have the same copies, and from `size` on the nodes are the same. -/
structure SameCopies (size : Nat) (s t : Session) : Prop where
  size_eq : t.graph.size = s.graph.size
  mark : ∀ n, t.graph.copyMark n = s.graph.copyMark n
  type_eq : ∀ {k : Nat}, size ≤ k → t.graph.type k = s.graph.type k
  edges_eq : ∀ {k : Nat}, size ≤ k → t.graph.edges k = s.graph.edges k

/-- Turns after which both sides have the same copies and tasks about the same nodes. -/
def SameTurns (r : Restrictor) (s₀ : Session) (root : NodeId) :
    Turn Session CopyTask CycleError → Turn Session CopyTask CycleError → Prop :=
  Agenda.TurnsAlike fun s tasks t tasks' =>
    SameCopies s₀.graph.size s t ∧ List.Forall₂ (SameTasks r s₀.graph.layout root) tasks tasks'

theorem same_asked {r : Restrictor} {L : Layout} {root n : NodeId} {c : RestrictCursor}
    {kept : List Edge} (hkept : ∀ e ∈ kept, r.Reach L root (e.target, r.descend c e.feature))
    (type : TypeId) : List.Forall₂ (SameTasks r L root) (CopyTask.asked r c n type kept)
      (CopyTask.asked unrestricted .open n type kept) := by
  refine List.rel_append ?_ (.cons (.finish fun e he => ⟨_, hkept e he⟩) .nil)
  refine List.forall₂_map_left_iff.2 (List.forall₂_map_right_iff.2 ?_)
  exact List.forall₂_same.2 fun e he => .enter (hkept e he)

/-- What is committed of a node without scratch state is seen besides the copies, too. -/
theorem Beside.settled {s₀ s : Session} (h : Beside s₀ s) (h₀ : s₀.graph.Linked) {n : Nat}
    (hn : n < s₀.graph.size) (hsettled : s₀.graph.deref n = n ∧
      s₀.graph.currentType n = s₀.graph.type n ∧ s₀.graph.currentEdges n = s₀.graph.edges n) :
    s.graph.deref n = n ∧ s.graph.currentType n = s₀.graph.type n ∧
      s.graph.currentEdges n = s₀.graph.edges n := by
  obtain ⟨hderef, htype, hedges⟩ := hsettled
  exact ⟨(h.deref_eq h₀ n).trans hderef, (h.currentType_eq hn).trans htype,
    (h.currentEdges_eq hn).trans hedges⟩

theorem keeps_unrestricted (c : RestrictCursor) (f : FeatureId) : unrestricted.keeps c f = true := by
  cases c <;> rfl

section SameCopies

variable {size : Nat} {s t s' t' : Session} (h : SameCopies size s t)
include h

theorem SameCopies.begins {n : NodeId} (hs : s.graph.Begins n s'.graph)
    (ht : t.graph.Begins n t'.graph) : SameCopies size s' t' where
  size_eq := by rw [hs.size_eq, ht.size_eq, h.size_eq]
  mark m := by rw [hs.mark, ht.mark, h.mark]
  type_eq hk := by rw [hs.type_eq, ht.type_eq, h.type_eq hk]
  edges_eq hk := by rw [hs.edges_eq, ht.edges_eq, h.edges_eq hk]

theorem SameCopies.gainsCopy {n : NodeId} {type : TypeId} {edges edges' : List Edge}
    (hs : s.graph.GainsCopy n type edges s'.graph) (ht : t.graph.GainsCopy n type edges' t'.graph)
    (hedges : edges' = edges) : SameCopies size s' t' where
  size_eq := by rw [hs.size_eq, ht.size_eq, h.size_eq]
  mark m := by rw [hs.mark, ht.mark, h.mark, h.size_eq]
  type_eq hk := by rw [hs.type_eq, ht.type_eq, h.type_eq hk, h.size_eq]
  edges_eq hk := by rw [hs.edges_eq, ht.edges_eq, h.edges_eq hk, h.size_eq, hedges]

end SameCopies

section Restricted

variable {r : Restrictor} {s₀ t₀ s t : Session} {root : Nat} (h : Restricted r s₀ root t₀)
include h

theorem Restricted.sameCopies : SameCopies s₀.graph.size s₀ t₀ where
  size_eq := h.size_eq
  mark n := (h.linked'.copyMark_eq n).trans (h.linked.copyMark_eq n).symm
  type_eq hk := by
    rw [Graph.type, Graph.type, Graph.node_of_le hk, Graph.node_of_le (h.size_eq ▸ hk)]
  edges_eq hk := by rw [Graph.edges_of_le hk, Graph.edges_of_le (h.size_eq ▸ hk)]

variable {waiting waiting' : List CopyTask}

/-- Both sides see at a place what is left there. -/
theorem Restricted.seen {n : NodeId} {c : RestrictCursor} (hn : r.Reach s₀.graph.layout root (n, c))
    (hs : Beside s₀ s) (ht : Beside t₀ t) :
    s.graph.deref n = n ∧ t.graph.deref n = n ∧
    (r.generalize c (s.graph.currentType n) s.grammar.lattice).1 = t.graph.currentType n ∧
    ((s.graph.currentEdges n).filter fun e => r.keeps c e.feature) = t.graph.currentEdges n ∧
    t.graph.currentEdges n = t₀.graph.edges n := by
  have hlt : n < s₀.graph.size := Graph.Below.lt h.linked.edgesLead h.root_lt hn.reach
  obtain ⟨hderef, htype, hedges⟩ := hs.settled h.linked hlt (h.settled hn.reach)
  obtain ⟨hderef', htype', hedges'⟩ := ht.settled h.linked' (h.size_eq ▸ hlt) (h.rest.settled n)
  have hlattice := hs.learned.sound h.lattice
  have hakin : s.grammar.lattice.Akin s₀.grammar.lattice :=
    Lattice.akin_of_sound hlattice.1 h.lattice hlattice.2.symm
  refine ⟨hderef, hderef', ?_, ?_, hedges'⟩
  · rw [htype, htype', (Restrictor.akin_generalize hakin r c _).1]
    exact (h.leaves.type_eq hn).symm
  · rw [hedges, hedges']
    exact (h.leaves.edges_eq hn).symm

/-- A copy is begun on both sides, of one type and for the same values. -/
theorem Restricted.begin {n : NodeId} {c : RestrictCursor}
    (hn : r.Reach s₀.graph.layout root (n, c)) (hsame : SameCopies s₀.graph.size s t)
    (hleft : Extracting r s₀ root s (.enter n c :: waiting))
    (hright : Extracting unrestricted t₀ root t (.enter n .open :: waiting'))
    (hs : s.graph.copyMark n = .blank) :
    SameTurns r s₀ root (copyTurn r s (.enter n c)) (copyTurn unrestricted t (.enter n .open)) := by
  obtain ⟨hderef, hderef', htype, hkept, hedges'⟩ := h.seen hn hleft.beside hright.beside
  have ht : t.graph.copyMark n = .blank := (hsame.mark n).trans hs
  have hderef₀ := (h.settled hn.reach).1
  have hderef₀' := (h.rest.settled n).1
  have hbegins := hleft.begins h.linked h.root_lt (hderef₀.symm ▸ hs)
  have hbegins' := hright.begins h.linked' (h.size_eq ▸ h.root_lt) (hderef₀'.symm ▸ ht)
  rw [hderef₀] at hbegins
  rw [hderef₀'] at hbegins'
  -- what was pruned beforehand is copied whole
  have hwhole : ((t.graph.currentEdges n).filter fun e => unrestricted.keeps .open e.feature) =
      t.graph.currentEdges n :=
    List.filter_eq_self.2 fun e _ => keeps_unrestricted .open e.feature
  have hvalues : ∀ e ∈ t.graph.currentEdges n,
      r.Reach s₀.graph.layout root (e.target, r.descend c e.feature) := by
    intro e he
    rw [hedges'] at he
    obtain ⟨he, hk⟩ := (h.leaves.mem_edges_iff hn).1 he
    exact hn.keep he hk
  rw [copyTurn_blank (hderef.symm ▸ hs), copyTurn_blank (hderef'.symm ▸ ht), hderef, hderef', hwhole,
    htype, hkept]
  exact .next ⟨hsame.begins hbegins hbegins', same_asked hvalues _⟩

/-- Both sides get the same copy. -/
theorem Restricted.finish {n : NodeId} {type : TypeId} {kept : List Edge}
    (hvalues : ∀ e ∈ kept, ∃ c, r.Reach s₀.graph.layout root (e.target, c))
    (hsame : SameCopies s₀.graph.size s t)
    (hleft : Extracting r s₀ root s (.finish n type kept :: waiting))
    (hright : Extracting unrestricted t₀ root t (.finish n type kept :: waiting')) :
    SameTurns r s₀ root (copyTurn r s (.finish n type kept))
      (copyTurn unrestricted t (.finish n type kept)) := by
  have hcopies : Edges.mapTargets (copyOf t.graph) kept = Edges.mapTargets (copyOf s.graph) kept := by
    refine Edges.mapTargets_congr fun e he => copyOf_of_copied ?_
    obtain ⟨c, hc⟩ := hvalues e he
    have hvalue := hleft.values h.linked he
    rw [(h.settled hc.reach).1] at hvalue
    rw [(h.seen hc hleft.beside hright.beside).2.1, hsame.mark, hvalue]
  exact .next ⟨hsame.gainsCopy (hleft.gainsCopy h.linked h.root_lt)
    (hright.gainsCopy h.linked' (h.size_eq ▸ h.root_lt)) hcopies, .nil⟩

theorem Restricted.turns {task task' : CopyTask}
    (htask : SameTasks r s₀.graph.layout root task task') (hsame : SameCopies s₀.graph.size s t)
    (hleft : Extracting r s₀ root s (task :: waiting))
    (hright : Extracting unrestricted t₀ root t (task' :: waiting')) :
    SameTurns r s₀ root (copyTurn r s task) (copyTurn unrestricted t task') := by
  cases htask with
  | finish hvalues => exact h.finish hvalues hsame hleft hright
  | @enter n c hn =>
    obtain ⟨hderef, hderef', -⟩ := h.seen hn hleft.beside hright.beside
    cases hs : s.graph.copyMark n with
    | blank => exact h.begin hn hsame hleft hright hs
    | underway =>
      have ht := (hsame.mark n).trans hs
      rw [copyTurn_underway (hderef.symm ▸ hs), copyTurn_underway (hderef'.symm ▸ ht)]
      exact .halt
    | copied k =>
      have ht := (hsame.mark n).trans hs
      rw [copyTurn_copied (hderef.symm ▸ hs), copyTurn_copied (hderef'.symm ▸ ht)]
      exact .next ⟨hsame, .nil⟩

/-- To copy through the restrictor is to copy what is left whole. -/
theorem inStep_copyTurn_unrestricted : Agenda.InStep (copyTurn r) (copyTurn unrestricted)
    fun s tasks t tasks' => Extracting r s₀ root s tasks ∧ Extracting unrestricted t₀ root t tasks' ∧
      SameCopies s₀.graph.size s t ∧
      List.Forall₂ (SameTasks r s₀.graph.layout root) tasks tasks' := by
  refine (keeps_extracting h.linked h.root_lt).inStep
    (keeps_extracting h.linked' (h.size_eq ▸ h.root_lt)) ?_ ?_
  · rintro s tasks t tasks' ⟨-, htasks⟩
    cases htasks <;> simp
  · rintro s task waiting t task' waiting' ⟨hsame, htasks⟩ hleft hright
    obtain ⟨htask, hwaiting⟩ := List.forall₂_cons.1 htasks
    exact (h.turns htask hsame hleft hright).imp fun ⟨hsame', hnew⟩ =>
      ⟨hsame', List.rel_append hnew hwaiting⟩

omit h in
/-- The same copies are the same structure. -/
theorem SameCopies.isomorphic (hsame : SameCopies s₀.graph.size s t)
    (hleft : Extracting r s₀ root s []) (h₀ : s₀.graph.Linked) :
    s.graph.layout.Isomorphic (copyOf s.graph root) t.graph.layout (copyOf s.graph root) := by
  refine ⟨id, rfl, Set.injOn_id _, fun n hn => ?_⟩
  have hnew : s₀.graph.size ≤ n := ((hleft.below_iff h₀).1 hn).1
  exact ⟨hsame.type_eq hnew, (hsame.edges_eq hnew).trans (Edges.mapTargets_id fun _ _ => rfl).symm⟩

/-- What is copied through the restrictor is what is left in place and copied whole, or neither is
copied. -/
theorem Restricted.extract : (∃ k s' l t', s₀.extract root r = (.ok k, s') ∧
      t₀.extract root unrestricted = (.ok l, t') ∧ s'.graph.layout.Isomorphic k t'.graph.layout l) ∨
    ∃ e s' e' t', s₀.extract root r = (.error e, s') ∧
      t₀.extract root unrestricted = (.error e', t') := by
  have hroot : r.Reach s₀.graph.layout root (root, r.start) := ReflTransGen.refl
  have hlt' : root < t₀.graph.size := h.size_eq ▸ h.root_lt
  rcases extract_of_inStep h.linked h.linked' h.root_lt hlt' (inStep_copyTurn_unrestricted h)
    ⟨extracting_start h.linked r root r.start,
      extracting_start h.linked' unrestricted root unrestricted.start, h.sameCopies,
      .cons (.enter hroot) .nil⟩ with ⟨s, t, ⟨hleft, hright, hsame, -⟩, hs, ht⟩ | hcyclic
  · obtain ⟨hderef, hderef', -⟩ := h.seen hroot hleft.beside hright.beside
    have hcopy : copyOf t.graph root = copyOf s.graph root := by
      rw [copyOf, copyOf, hderef, hderef', hsame.mark]
    refine .inl ⟨_, _, _, _, hs, ht, ?_⟩
    rw [hcopy]
    simp only [invalidate, mapGraph, Graph.layout_invalidate]
    exact hsame.isomorphic hleft h.linked
  · exact .inr hcyclic

/-- The copy is there just when the edges that are kept make no cycle, and then it is what is left in
place. -/
theorem Restricted.copied : ((∃ e, (s₀.extract root r).1 = .error e) ↔
      r.KeepsCycle s₀.graph.layout root) ∧ ∀ k, (s₀.extract root r).1 = .ok k →
    (s₀.extract root r).2.graph.layout.Isomorphic k t₀.graph.layout root := by
  obtain ⟨answer, t₁, hwhole, hanswer⟩ :=
    extract_unrestricted h.linked' (h.size_eq ▸ h.root_lt : root < t₀.graph.size)
  rw [h.rest.view_eq_layout, h.rest.deref_eq, h.leaves.acyclic_iff] at hanswer
  rcases h.extract with ⟨k, s', l, t', hs, ht, hiso⟩ | ⟨e, s', e', t', hs, ht⟩ <;> rw [hs] <;>
    rw [hwhole] at ht <;> cases ht
  · obtain ⟨l', heq, hacyclic, hiso'⟩ | ⟨e, heq, -⟩ := hanswer
    · cases heq
      refine ⟨iff_of_false (fun ⟨_, hk⟩ => by cases hk) hacyclic, fun k' hk' => ?_⟩
      cases hk'
      exact hiso.trans hiso'.symm
    · cases heq
  · obtain ⟨l', heq, -⟩ | ⟨e, heq, hcyclic⟩ := hanswer
    · cases heq
    · exact ⟨iff_of_true ⟨_, rfl⟩ (not_not.1 hcyclic), fun k hk => by cases hk⟩

end Restricted

/-! ## Items -/

theorem restricted_restrict {s : Session} (hs : s.Closed) (hg : s.grammar.Sound)
    {root : Nat} (hroot : root < s.graph.size) (hsettled : s.graph.SettledBelow root)
    {r : Restrictor} (hone : r.OneCursor s.graph.layout root) :
    Restricted r s root (s.restrict root r) where
  linked := hs.graph
  linked' := ((edits_restrict s root r).closed hs hroot).graph
  size_eq := by
    obtain ⟨g, hg, heq⟩ := (edits_restrict s root r).graph
    rw [heq, Graph.size_invalidate, hg.size_eq]
  root_lt := hroot
  settled := hsettled
  rest := (Edits.stamped hs.graph.stamped (edits_restrict s root r)).2
  lattice := hg.lattice
  leaves := leaves_restrict hg hs.graph.edgesLead hroot hone

/-- What a copy of an item through the restrictor and the item restricted in place have in common. -/
structure PrunesAlike (s : Session) (a : Item) (r : Restrictor) : Prop where
  none_iff : (s.extractItem a r).1 = none ↔ r.KeepsCycle s.graph.layout a.root
  isomorphic : ∀ {b}, (s.extractItem a r).1 = some b →
    (s.extractItem a r).2.graph.layout.Isomorphic b.root
      (s.restrictItem a r).2.graph.layout (s.restrictItem a r).1.root
  vector_eq : ∀ {b}, (s.extractItem a r).1 = some b → b.vector = (s.restrictItem a r).1.vector

/-- The two ways of pruning agree on every committed structure, where edges that are kept come to no
node at two different cursors. So it is without rules, and where there are no coreferences. -/
theorem prunes_alike {s : Session} (hs : s.Arises) (hg : s.grammar.Sound) {a : Item}
    (ha : a.root < s.graph.size) (hsettled : s.graph.SettledBelow a.root) (r : Restrictor) :
    (r.rules? = none → r.OneCursor s.graph.layout a.root) ∧
    (s.graph.layout.Unshared a.root → r.OneCursor s.graph.layout a.root) ∧
    (r.OneCursor s.graph.layout a.root → s.PrunesAlike a r) := by
  refine ⟨fun hnone => Restrictor.oneCursor_of_rules?_eq_none hnone _ _,
    fun hunshared => Restrictor.oneCursor_of_unshared hunshared r, fun hone => ?_⟩
  have hrestricted := restricted_restrict hs.closed hg ha hsettled hone
  obtain ⟨hnone, hiso⟩ := hrestricted.copied
  have hlearned := (edits_restrict s a.root r).grammar
  obtain ⟨hlearned', -⟩ := leads_extract hs.closed ha r
  have hrest := (stamped_extract hs.closed.graph.stamped a.root r).2
  have hcopy : ∀ {b}, (s.extractItem a r).1 = some b → (s.extract a.root r).1 = .ok b.root ∧
      b = (s.extract a.root r).2.item b.root := by
    intro b hb
    obtain ⟨k, hk, rfl⟩ := Option.map_eq_some_iff.1 hb
    exact ⟨eq_ok_of_toOption hk, rfl⟩
  refine ⟨?_, fun hb => hiso _ (hcopy hb).1, fun {b} hb => ?_⟩
  · rw [← hnone]
    show (s.extract a.root r).1.toOption.map _ = none ↔ _
    cases (s.extract a.root r).1 <;> simp [Except.toOption]
  · obtain ⟨hok, hitem⟩ := hcopy hb
    rw [hitem]
    show (s.extract a.root r).2.grammar.quickCheck.vector _ _ =
      (s.restrict a.root r).grammar.quickCheck.vector _ _
    rw [hlearned'.quickCheck_eq, hlearned.quickCheck_eq]
    exact QuickCheck.vector_eq_of_follow _ hrest hrestricted.rest fun path =>
      ((hiso _ hok).shape.follow path path).1.symm

/-- A node with one value for two features, which has one value for them, too; a node that is its
own value; and two more nodes. -/
def crossed : Session :=
  (ofGrammar (listed [] [] [[0, 0], [1, 1]])).mapGraph fun g =>
    ((((((((((g.add (.of 3) []).add (.of 2) []).add (.of 1) []).add .top []).add .top []).add .top
      []).putEdge 0 0 1).putEdge 0 1 1).putEdge 1 0 2).putEdge 1 1 2).putEdge 3 0 3

theorem arises_crossed : crossed.Arises := by
  have hgrammar := (sound_listed Sample.sound_grammar_nil [[0, 0], [1, 1]]).rooted
  have hnodes := ((((((Arises.start hgrammar).add (.of 3)).add (.of 2)).add (.of 1)).add .top).add
    .top).add .top
  have hfirst := hnodes.move (m := .putEdge 0 0 1) ⟨by decide, trivial⟩ rfl
  have hsecond := hfirst.move (m := .putEdge 0 1 1) ⟨by decide, trivial⟩ rfl
  have hthird := hsecond.move (m := .putEdge 1 0 2) ⟨by decide, trivial⟩ rfl
  have hfourth := hthird.move (m := .putEdge 1 1 2) ⟨by decide, trivial⟩ rfl
  exact hfourth.move (m := .putEdge 3 0 3) ⟨by decide, trivial⟩ rfl

/-- The two more nodes are unified. -/
def crossedOpen : Session := crossed.entangled 20 4 5

/-- Types of the first node become more general, and its value loses the second feature. -/
def crossing : Restrictor := .tree .empty ⟨#[⟨.leave, [.of 1], [⟨0, 1⟩, ⟨1, 1⟩]⟩,
  ⟨.leave, [], [⟨1, 2⟩]⟩, .plain .delete], 0⟩

theorem oneCursor_crossing : crossing.OneCursor crossedOpen.graph.layout 0 :=
  Restrictor.oneCursor_of_mem [(0, .at 0), (1, .at 1), (2, .open)] (by decide) (by decide +kernel)
    (by decide)

theorem settledBelow_crossedOpen (root : NodeId) (hroot : root ∈ [0, 1, 2, 3]) :
    crossedOpen.graph.SettledBelow root := by
  have hclosed : ∀ n ∈ [0, 1, 2, 3], ∀ e ∈ crossedOpen.graph.edges n, e.target ∈ [0, 1, 2, 3] := by
    decide +kernel
  have hsettled : ∀ n ∈ [0, 1, 2, 3], crossedOpen.graph.deref n = n ∧
      crossedOpen.graph.currentType n = crossedOpen.graph.type n ∧
      crossedOpen.graph.currentEdges n = crossedOpen.graph.edges n := by
    decide +kernel
  exact fun n hn => hsettled n (Graph.mem_of_below hclosed hroot hn)

/-- While an episode is open elsewhere, an item with coreferences is pruned in both ways, and one
with a cycle is not copied out. -/
theorem prunes_alike_crossedOpen : crossedOpen.Arises ∧ crossedOpen.grammar.Sound ∧
    crossedOpen.graph.deref 5 = 4 ∧ 0 < crossedOpen.graph.size ∧
    crossedOpen.graph.SettledBelow 0 ∧ crossing.OneCursor crossedOpen.graph.layout 0 ∧
    (crossedOpen.extractItem ⟨0, []⟩ crossing).1 = some ⟨8, [.of 1, .bottom]⟩ ∧
    crossedOpen.PrunesAlike ⟨0, []⟩ crossing ∧
    3 < crossedOpen.graph.size ∧ crossedOpen.graph.SettledBelow 3 ∧
    (crossedOpen.extractItem ⟨3, []⟩ (.simple .empty)).1 = none ∧
    (Restrictor.simple .empty).KeepsCycle crossedOpen.graph.layout 3 := by
  have hs : crossedOpen.Arises := arises_crossed.entangled 20 (by decide) (by decide)
  have hg : crossedOpen.grammar.Sound := (sound_listed Sample.sound_grammar_nil _).learned
    (arises_crossed.learned_entangled 20 (by decide) (by decide))
  have hfirst : 0 < crossedOpen.graph.size := by decide +kernel
  have hfourth : 3 < crossedOpen.graph.size := by decide +kernel
  have hsettled := settledBelow_crossedOpen 0 (by decide)
  have hsettled' := settledBelow_crossedOpen 3 (by decide)
  have hnone : (crossedOpen.extractItem ⟨3, []⟩ (.simple .empty)).1 = none := by decide +kernel
  obtain ⟨-, -, halike⟩ := prunes_alike hs hg (a := ⟨0, []⟩) hfirst hsettled crossing
  obtain ⟨hone, -, halike'⟩ := prunes_alike hs hg (a := ⟨3, []⟩) hfourth hsettled' (.simple .empty)
  exact ⟨hs, hg, by decide +kernel, hfirst, hsettled, oneCursor_crossing, by decide +kernel,
    halike oneCursor_crossing, hfourth, hsettled', hnone, (halike' (hone rfl)).none_iff.1 hnone⟩

end Session

end FeatureLogic
