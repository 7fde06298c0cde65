import FeatureLogic.Proofs.Graph.Episodes
import FeatureLogic.Proofs.Session.Arising
import FeatureLogic.Proofs.Session.Walks

/-!
Moments of a run. A session stands between two operations or in the middle of a walk
(`Session.Moment`), and an episode is over when its number has changed (`Session.Moment.Episode`).
At every moment the pointers form a forest, and until the episode is over nodes with one
representative keep one (`Session.forest_of_occurs`).
-/

namespace FeatureLogic.Session

/-! ## The end of an episode -/

section Ends

variable {s s' : Session}

theorem Notes.generation_eq (h : s.Notes s') :
    s'.graph.generation = s.graph.invalidate.generation := by
  obtain ⟨t, ht, rfl⟩ := h
  exact Graph.generation_invalidate_congr ht.graph.generation_eq

theorem Edits.generation_eq {root : NodeId} (h : s.Edits root s') :
    s'.graph.generation = s.graph.invalidate.generation := by
  obtain ⟨g, hg, heq⟩ := h.graph
  rw [heq]
  exact Graph.generation_invalidate_congr hg.generation_eq

variable (hpos : 0 < s.graph.generation)
include hpos

theorem generation_unifyNodes {budget : Nat} {left right : NodeId} {unified : Bool}
    (h : s.unifyNodes budget left right = some (unified, s')) :
    s'.graph.generation = s.graph.generation :=
  (lasting_generation hpos).unifyNodes rfl h

/-- A unification that succeeds leaves the episode open. -/
theorem generation_entangle {budget : Nat} {left right : NodeId} {unified : Bool}
    (h : s.entangle budget left right = some (unified, s')) : s'.graph.generation =
      if unified then s.graph.generation else s.graph.invalidate.generation := by
  obtain ⟨⟨unified', s₁⟩, h₁, heq⟩ := Option.map_eq_some_iff.1 h
  have hgeneration := generation_unifyNodes hpos h₁
  cases unified' with
  | true =>
    cases heq
    exact hgeneration
  | false =>
    cases heq
    exact Graph.generation_invalidate_congr hgeneration

theorem generation_extract (root : NodeId) (r : Restrictor) :
    (s.extract root r).2.graph.generation = s.graph.invalidate.generation := by
  have hrun := Agenda.state_run (P := fun t : Session => s.graph.SamePointers t.graph)
    (fun task h => samePointers_copyTurn hpos h r task)
    (2 * s.graph.weight * s.graph.copyRounds) [.enter root r.start] (.refl _)
  simp only [extract, Agenda.runRounds_eq_run]
  split <;> rename_i hr <;> rw [hr] at hrun <;>
    exact Graph.generation_invalidate_congr hrun.generation_eq

theorem generation_extractOver (size : Nat) (root : NodeId) (r : Restrictor) :
    (s.extractOver size root r).2.graph.generation = s.graph.invalidate.generation := by
  have h := generation_extract hpos root r
  unfold extractOver
  dsimp only
  split <;> rename_i heq <;> rw [heq] at h
  · exact (Graph.generation_compact ..).trans h
  · exact h

/-- A call leads to the next episode, unless it is about an argument that is not there. -/
theorem Call.generation_eq {c : Call} (hc : ¬ c.LacksArgument s) (h : c.run? s = some s') :
    s'.graph.generation = s.graph.invalidate.generation := by
  cases Call.effect h with
  | asks hnotes => exact hnotes.generation_eq
  | extracts _ r => exact generation_extract hpos _ r
  | tries _ _ htried =>
    obtain ⟨⟨unified, s₁⟩, h₁, heq⟩ := Option.map_eq_some_iff.1 htried
    cases heq
    exact Graph.generation_invalidate_congr (generation_unifyNodes hpos h₁)
  | @unifies _ _ _ _ _ _ _ unified s₁ hunified r =>
    have h₁ := generation_entangle hpos hunified
    cases unified with
    | true =>
      have hpos₁ : 0 < s₁.graph.generation := by rwa [h₁]
      exact (generation_extractOver hpos₁ ..).trans (Graph.generation_invalidate_congr h₁)
    | false => exact h₁
  | lacks hlacks => exact absurd hlacks hc

end Ends

/-! ## Operations -/

section Operations

variable {s s' : Session} (hs : s.Closed)
include hs

/-- An operation that leaves the episode open separates none of the nodes that stay. -/
theorem Move.gathers {m : Move} (hm : m.Allowed s) (h : m.run? s = some s')
    (hopen : s'.graph.generation = s.graph.generation) {size : Nat}
    (hsize : size ≤ s'.graph.size) : Graph.Gathers size s.graph s'.graph := by
  obtain ⟨hnodes, hcareful⟩ := hm
  have hpos := hs.graph.stamped.generation_pos
  -- what ends the episode is no case of this
  have hover : s'.graph.generation = s.graph.invalidate.generation →
      Graph.Gathers size s.graph s'.graph := fun heq =>
    absurd (heq.symm.trans hopen) (Graph.generation_invalidate_ne _)
  have hentangle : ∀ {left right : Nat}, left < s.graph.size → right < s.graph.size →
      ∀ {budget : Nat} {unified : Bool}, s.entangle budget left right = some (unified, s') →
        Graph.Gathers size s.graph s'.graph := by
    intro left right hleft hright budget unified h
    cases unified with
    | true =>
      have hgathers := Walk.gathers hs (w := .unify left right) ⟨hleft, hright⟩ budget size
      rwa [Walk.after_of_entangle h] at hgathers
    | false => exact hover (generation_entangle hpos h)
  have hsame : s.graph.SamePointers s'.graph → Graph.Gathers size s.graph s'.graph :=
    fun h => h.gathers hs.graph size
  cases Move.effect h with
  | @call c _ hcall =>
    by_cases hlacks : c.LacksArgument s
    · rw [Call.eq_of_lacksArgument hlacks hcall]
      exact .refl ..
    · exact hover (Call.generation_eq hpos hlacks hcall)
  | unifies hleft hright hunified =>
    exact hentangle (hleft.lt hs hnodes) (hnodes _ hright) hunified
  | lacks => exact .refl ..
  | adds hadded => exact hsame hadded.grown.samePointers
  | importFrom source root => exact hsame (Graph.samePointers_copyWalk hpos ..)
  | clone root => exact hsame (Graph.samePointers_copyWalk hpos ..)
  | edits _ hedits => exact hover hedits.generation_eq
  | setType n type => exact hsame ((Graph.SamePointers.refl _).modify n fun _ => rfl)
  | putEdge n feature target => exact hsame ((Graph.SamePointers.refl _).modify n fun _ => rfl)
  | dropEdge n feature => exact hsame ((Graph.SamePointers.refl _).modify n fun _ => rfl)
  | truncate size' =>
    have hle : size ≤ size' := hsize.trans ((Graph.size_truncate ..).le.trans (Nat.min_le_left ..))
    exact (hs.graph.gathers_truncate fun hlink hn => hcareful hlink hn).mono hle
  | compact first start =>
    -- with no episode open every node stands for itself
    exact .of_atRest hcareful.1
  | clear =>
    intro n _ hn
    exact absurd (Nat.lt_of_lt_of_le hn hsize) (Nat.not_lt_zero n)
  | invalidate => exact hover rfl

end Operations

/-! ## Moments -/

/-- Where a run stands. -/
inductive Moment
  /-- Between two operations. -/
  | between (s : Session)
  /-- After some turns of a walk that began in `s`. -/
  | during (s : Session) (w : Walk) (turns : Nat)

namespace Moment

/-- The graph as it is at that moment. -/
def graph : Moment → Graph
  | between s => s.graph
  | during s w turns => (w.after s turns).graph

/-- The moments of all runs whose operations are given nodes that are there. -/
inductive Occurs : Moment → Prop
  | between {s : Session} (hs : s.Arises) : Occurs (.between s)
  | during {s : Session} (hs : s.Arises) {w : Walk} (hw : w.Within s.graph.size) (turns : Nat) :
    Occurs (.during s w turns)

/-- What can come next. A walk that copies or finds out about a structure ends the episode, and so
does a unification that fails. -/
inductive Next : Moment → Moment → Prop
  | move {s s' : Session} {m : Move} (hm : m.Allowed s) (h : m.run? s = some s') :
    Next (.between s) (.between s')
  | aside {s s' : Session} (hgraph : s'.graph = s.graph) (hgrammar : s'.grammar.Rooted) :
    Next (.between s) (.between s')
  | enter {s : Session} {w : Walk} (hw : w.Within s.graph.size) :
    Next (.between s) (.during s w 0)
  | turn {s : Session} {w : Walk} {turns : Nat} :
    Next (.during s w turns) (.during s w (turns + 1))
  | unified {s s' : Session} {turns : Nat} {left right : NodeId}
    (h : s.entangle turns left right = some (true, s')) :
    Next (.during s (.unify left right) turns) (.between s')
  | looked {s : Session} {turns : Nat} : Next (.during s .look turns) (.between s)

/-- A later moment of the episode, in which the first `size` nodes have been there all the while.
Numbers begin anew after the last one, so it is from moment to moment that they are compared. -/
inductive Episode (size : Nat) (m : Moment) : Moment → Prop
  | start (hsize : size ≤ m.graph.size) : Episode size m m
  | next {a b : Moment} (h : Episode size m a) (hn : a.Next b)
    (hopen : b.graph.generation = a.graph.generation) (hsize : size ≤ b.graph.size) :
    Episode size m b

theorem Occurs.next {a b : Moment} (ha : a.Occurs) (h : a.Next b) : b.Occurs := by
  cases h with
  | move hm h =>
    cases ha with
    | between hs => exact .between (hs.move hm h)
  | aside hgraph hgrammar =>
    cases ha with
    | between hs => exact .between (hs.aside hgraph hgrammar)
  | enter hw =>
    cases ha with
    | between hs => exact .during hs hw 0
  | turn =>
    cases ha with
    | during hs hw => exact .during hs hw _
  | @unified s s' turns left right h =>
    cases ha with
    | during hs hw =>
      refine .between (hs.move (m := .entangle turns left right) ⟨?_, trivial⟩
        (congrArg (Option.map Prod.snd) h))
      simpa [Move.operands] using (show left < s.graph.size ∧ right < s.graph.size from hw)
  | looked =>
    cases ha with
    | during hs => exact .between hs

theorem Occurs.forest {m : Moment} (h : m.Occurs) : m.graph.Forest := by
  cases h with
  | between hs => exact hs.closed.graph.forest
  | during hs hw turns => exact Walk.forest hs.closed hw turns

/-- What comes next in the episode separates no nodes. -/
theorem Next.gathers {a b : Moment} (h : a.Next b) (ha : a.Occurs)
    (hopen : b.graph.generation = a.graph.generation) {size : Nat} (hsize : size ≤ b.graph.size) :
    Graph.Gathers size a.graph b.graph := by
  cases h with
  | move hm h =>
    cases ha with
    | between hs => exact Move.gathers hs.closed hm h hopen hsize
  | aside hgraph _ =>
    rw [graph, graph, hgraph]
    exact .refl ..
  | enter hw =>
    cases ha with
    | between hs => exact Walk.gathers hs.closed hw 0 size
  | turn =>
    cases ha with
    | during hs hw => exact Walk.gathers_turn hs.closed hw _ size
  | unified h =>
    rw [graph, graph, Walk.after_of_entangle h]
    exact .refl ..
  | looked => exact .refl ..

theorem Episode.occurs {size : Nat} {m m' : Moment} (h : m.Episode size m') (hm : m.Occurs) :
    m'.Occurs := by
  induction h with
  | start => exact hm
  | next _ hn _ _ ih => exact ih.next hn

theorem Episode.gathers {size : Nat} {m m' : Moment} (h : m.Episode size m') (hm : m.Occurs) :
    Graph.Gathers size m.graph m'.graph := by
  induction h with
  | start => exact .refl ..
  | next h hn hopen hsize ih => exact ih.trans (hn.gathers (h.occurs hm) hopen hsize)

theorem Episode.size_le {size : Nat} {m m' : Moment} (h : m.Episode size m') :
    size ≤ m'.graph.size := by
  cases h with
  | start hsize => exact hsize
  | next _ _ _ hsize => exact hsize

/-- All of a walk is in one episode. -/
theorem Episode.turns {size : Nat} {m : Moment} {s : Session} {w : Walk} {turns : Nat}
    (h : m.Episode size (.during s w turns)) (hs : s.Arises) (hw : w.Within s.graph.size)
    (hsize : size ≤ s.graph.size) (more : Nat) : m.Episode size (.during s w (turns + more)) := by
  induction more with
  | zero => exact h
  | succ more ih =>
    have hbefore := Walk.stays hs.closed hw (turns + more)
    have hafter := Walk.stays hs.closed hw (turns + more + 1)
    exact ih.next .turn (hafter.1.trans hbefore.1.symm) (hsize.trans hafter.2)

theorem Episode.unified {size : Nat} {m : Moment} {s s' : Session} {turns : Nat}
    {left right : NodeId} (h : m.Episode size (.during s (.unify left right) turns))
    (he : s.entangle turns left right = some (true, s')) : m.Episode size (.between s') := by
  have hgraph : (during s (.unify left right) turns).graph = s'.graph :=
    congrArg Session.graph (Walk.after_of_entangle he)
  have hsize : size ≤ s'.graph.size := hgraph ▸ h.size_le
  exact h.next (.unified he) (congrArg Graph.generation hgraph).symm hsize

end Moment

/-- Whatever has happened and whatever walk is under way, pointers form a forest: following them
comes to an end at a node without a pointer, which stands for itself. Two nodes that one node stands
for at one moment are so at every later moment of the episode. -/
theorem forest_of_occurs {m : Moment} (hm : m.Occurs) : m.graph.Forest ∧
    ∀ (size : Nat) (m' : Moment), m.Episode size m' → m'.graph.Forest ∧
      ∀ a b : Nat, a < size → b < size → m.graph.deref a = m.graph.deref b →
        m'.graph.deref a = m'.graph.deref b :=
  ⟨hm.forest, fun _ _ h => ⟨(h.occurs hm).forest, fun _ _ ha hb heq => h.gathers hm ha hb heq⟩⟩

/-- Two nodes are put together, and a walk that meets a prototype puts them together with a third
one. -/
theorem forest_of_occurs_pairs : ∃ s s', (Moment.during s (.unify 0 3) 1).Occurs ∧
    (Moment.during s (.unify 0 3) 1).Episode 4 (.between s') ∧
    (Moment.during s (.unify 0 3) 1).graph.deref 2 =
      (Moment.during s (.unify 0 3) 1).graph.deref 3 ∧
    (Moment.during s (.unify 0 3) 1).graph.Forest ∧ s'.graph.Forest ∧
    s'.graph.deref 2 = s'.graph.deref 3 ∧
    s'.graph.deref 3 ≠ (Moment.during s (.unify 0 3) 1).graph.deref 3 := by
  have hanswer : (pairs.entangle 20 2 3).map (fun p => (p.2.graph.size,
      [2, 3].map (Moment.during p.2 (.unify 0 3) 1).graph.deref,
      (p.2.entangle 20 0 3).map fun q => (q.1, q.2.graph.deref 3))) =
        some (4, [2, 2], some (true, 0)) := by
    decide +kernel
  obtain ⟨⟨unified, s⟩, h, heq⟩ := Option.map_eq_some_iff.1 hanswer
  simp only [List.map_cons, List.map_nil, Prod.mk.injEq, List.cons.injEq, and_true] at heq
  obtain ⟨hsize, ⟨hfirst, hsecond⟩, hrest⟩ := heq
  obtain ⟨⟨unified', s'⟩, h', heq'⟩ := Option.map_eq_some_iff.1 hrest
  simp only [Prod.mk.injEq] at heq'
  obtain ⟨rfl, hlast⟩ := heq'
  have hs : s.Arises := arises_pairs.move (m := .entangle 20 2 3) ⟨by decide, trivial⟩
    (congrArg (Option.map Prod.snd) h)
  have hw : (Walk.unify 0 3).Within s.graph.size := by
    rw [hsize]
    exact ⟨by decide, by decide⟩
  have hm : (Moment.during s (.unify 0 3) 1).Occurs := .during hs hw 1
  have hstart : (Moment.during s (.unify 0 3) 1).Episode 4 (.during s (.unify 0 3) 1) :=
    .start (hsize ▸ (Walk.stays hs.closed hw 1).2)
  have hepisode : (Moment.during s (.unify 0 3) 1).Episode 4 (.between s') :=
    (hstart.turns hs hw (Nat.le_of_eq hsize.symm) 19).unified h'
  have hsame : (Moment.during s (.unify 0 3) 1).graph.deref 2 =
      (Moment.during s (.unify 0 3) 1).graph.deref 3 := hfirst.trans hsecond.symm
  obtain ⟨hforest, hlater⟩ := forest_of_occurs hm
  obtain ⟨hforest', hkept⟩ := hlater 4 _ hepisode
  refine ⟨s, s', hm, hepisode, hsame, hforest, hforest',
    hkept 2 3 (by decide) (by decide) hsame, ?_⟩
  rw [hlast, hsecond]
  decide

end FeatureLogic.Session
