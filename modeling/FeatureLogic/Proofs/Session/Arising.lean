import FeatureLogic.Proofs.Sample
import FeatureLogic.Proofs.Session.Footprint

/-!
Sessions whose operations were given nodes that were there (`Session.Arises`). Nothing leads out of
their graph (`Session.Arises.closed`), so that a unification leaves its result and no node besides,
whatever edits and open episodes there were before it.
-/

namespace FeatureLogic.Session

/-! ## Operations on what is there -/

/-- An operation that imports is given a node that is there, and one that drops nodes drops none
that something still leads to. -/
def Move.Careful (s : Session) : Move → Prop
  | importFrom source root => source.EdgesLead ∧ root < source.size
  | truncate size => ∀ ⦃n m : Nat⦄, s.graph.Link n m → n < size → m < size
  | compact first start => s.AtRest ∧ first ≤ start ∧ start ≤ s.graph.size ∧
    ∀ ⦃n : Nat⦄ ⦃e : Edge⦄, e ∈ s.graph.edges n →
      (n < first → e.target < first) ∧ (start ≤ n → e.target < first ∨ start ≤ e.target)
  | _ => True

/-- The operands are nodes, and nothing that is needed is dropped. -/
def Move.Allowed (s : Session) (m : Move) : Prop :=
  (∀ n ∈ m.operands, n < s.graph.size) ∧ m.Careful s

/-- The sessions that come about by allowed operations. -/
inductive Arises : Session → Prop
  /-- The prototypes lie in their graph, as they do in every grammar that can be read. -/
  | start {grammar : Grammar} (h : grammar.Rooted) : Arises (ofGrammar grammar)
  | move {s s' : Session} (hs : Arises s) {m : Move} (hm : m.Allowed s) (h : m.run? s = some s') :
    Arises s'
  /-- Failures are recorded or not, and the lattice is asked, maybe on behalf of another session. -/
  | aside {s s' : Session} (hs : Arises s) (hgraph : s'.graph = s.graph)
    (hgrammar : s'.grammar.Rooted) : Arises s'

/-! ## One operation -/

section Closed

variable {s s' : Session} (hs : s.Closed)
include hs

theorem Notes.leads (h : s.Notes s') : s.grammar.Learned s'.grammar ∧ s'.graph.EdgesLead := by
  obtain ⟨t, ht, rfl⟩ := h
  exact ⟨ht.grammar, (ht.graph.edgesLead hs.graph.edgesLead).invalidate⟩

theorem leads_extract {root : Nat} (hroot : root < s.graph.size) (r : Restrictor) :
    s.grammar.Learned (s.extract root r).2.grammar ∧ (s.extract root r).2.graph.EdgesLead := by
  have hlead := hs.graph.edgesLead
  rcases extract_cases hs.graph hroot r with
    ⟨s₁, h, heq⟩ | ⟨s₁, n, cursor, waiting, e, h, -, heq⟩ <;> rw [heq]
  · exact ⟨h.beside.learned, (h.beside.extends_start.edgesLead hlead
      fun hn _ he => (h.new_target hn he).2).invalidate⟩
  · have hext := h.beside.extends_start
    have hsize : (s₁.graph.truncate s.graph.size).size = s.graph.size :=
      (Graph.size_truncate ..).trans (Nat.min_eq_left hext.size_le)
    exact ⟨h.beside.learned, (hext.truncate.edgesLead_of_size_eq hsize hlead).invalidate⟩

theorem leads_unifiable {left right : Nat} (hleft : left < s.graph.size)
    (hright : right < s.graph.size) {budget : Nat} {unified : Bool}
    (h : s.unifiable budget left right = some (unified, s')) :
    s.grammar.Learned s'.grammar ∧ s'.graph.EdgesLead := by
  obtain ⟨⟨unified', s₁⟩, h₁, heq⟩ := Option.map_eq_some_iff.1 h
  obtain ⟨hlearned, hext, hlinked⟩ := linking_unifyNodes hs hleft hright h₁
  cases heq
  exact ⟨hlearned, (hlinked.abandon hs.graph.edgesLead hext).edgesLead⟩

/-- What is unified is a node of the graph. -/
theorem Takes.lt {operands : List NodeId} (hoperands : ∀ n ∈ operands, n < s.graph.size) {n : NodeId}
    (h : s.Takes operands n) : n < s.graph.size := by
  rcases h with h | ⟨active, i, hargument⟩
  · exact hoperands n h
  · exact argument_lt hs.graph hargument

/-- After a call all edges lead to nodes. -/
theorem Call.leads {c : Call} (hc : ∀ n ∈ c.operands, n < s.graph.size) (h : c.run? s = some s') :
    s.grammar.Learned s'.grammar ∧ s'.graph.EdgesLead := by
  cases Call.effect h with
  | asks hnotes => exact hnotes.leads hs
  | extracts hroot r => exact leads_extract hs (hc _ hroot) r
  | tries hleft hright htried => exact leads_unifiable hs (hc _ hleft) (hc _ hright) htried
  | unifies hleft hright hroot unified hunified r =>
    have hleaves := leaves_copied hs (hleft.lt hs hc) (hc _ hright) (hc _ hroot) hunified
      (r := r) rfl
    exact ⟨hleaves.learned, hleaves.edgesLead hs.graph.edgesLead⟩
  | lacks => exact ⟨.refl _, hs.graph.edgesLead⟩

theorem Call.closed {c : Call} (hc : ∀ n ∈ c.operands, n < s.graph.size)
    (h : c.run? s = some s') : s'.Closed := by
  by_cases hlacks : c.LacksArgument s
  · rw [Call.eq_of_lacksArgument hlacks h]
    exact hs
  · obtain ⟨hstamped, hrest⟩ := Call.stamped hs.graph.stamped h
    obtain ⟨hlearned, hlead⟩ := Call.leads hs hc h
    exact ⟨Graph.linked_of_atRest hstamped (hrest hlacks) hlead, hs.grammar.learned hlearned⟩

theorem closed_entangle {left right : Nat} (hleft : left < s.graph.size)
    (hright : right < s.graph.size) {budget : Nat} {unified : Bool}
    (h : s.entangle budget left right = some (unified, s')) : s'.Closed := by
  obtain ⟨hlearned, -, hlinked, -⟩ := linking_entangle hs hleft hright h
  exact ⟨hlinked, hs.grammar.learned hlearned⟩

theorem Edits.closed {root : Nat} (h : s.Edits root s') (hroot : root < s.graph.size) :
    s'.Closed := by
  obtain ⟨g, hg, heq⟩ := h.graph
  obtain ⟨hstamped, hrest⟩ := (hg.stamped hs.graph.stamped).invalidate
  refine ⟨?_, hs.grammar.learned h.grammar⟩
  rw [heq]
  exact Graph.linked_of_atRest hstamped hrest (hg.edgesLead hs.graph.edgesLead hroot).invalidate

/-- An allowed operation leaves nothing that leads out of the graph. -/
theorem Move.closed {m : Move} (hm : m.Allowed s) (h : m.run? s = some s') : s'.Closed := by
  obtain ⟨hnodes, hcareful⟩ := hm
  have hgraph : ∀ f : Graph → Graph, (f s.graph).Linked → (s.mapGraph f).Closed :=
    fun _ hf => ⟨hf, hs.grammar⟩
  cases Move.effect h with
  | call hcall => exact Call.closed hs hnodes hcall
  | unifies hleft hright hunified =>
    exact closed_entangle hs (hleft.lt hs hnodes) (hnodes _ hright) hunified
  | lacks => exact hs
  | adds hadded hlearned => exact ⟨hs.graph.added hadded, hs.grammar.learned hlearned⟩
  | importFrom source root =>
    exact hgraph (·.copyFrom source root) (hs.graph.copyFrom hcareful.1 hcareful.2)
  | clone root =>
    have hroot := hnodes root (List.mem_singleton_self root)
    refine hgraph (·.copyWithin root) ?_
    rw [Graph.copyWithin_eq (hs.graph.edgesLead.whole hroot)]
    exact hs.graph.copyFrom hs.graph.edgesLead hroot
  | edits hroot hedits => exact hedits.closed hs (hnodes _ hroot)
  | setType n type => exact hgraph _ (hs.graph.setType n type)
  | putEdge n feature target =>
    exact hgraph _ (hs.graph.putEdge n feature (hnodes target (by simp [operands])))
  | dropEdge n feature => exact hgraph _ (hs.graph.dropEdge n feature)
  | truncate size => exact hgraph _ (hs.graph.truncate fun hlink hn => hcareful hlink hn)
  | compact first start =>
    obtain ⟨hrest, hfirst, hstart, hedges⟩ := hcareful
    exact hgraph _ (hs.graph.compact hrest hfirst hstart (fun hn he => (hedges he).1 hn)
      fun hn he => (hedges he).2 hn)
  | clear => exact hgraph _ Graph.linked_empty
  | invalidate => exact hgraph _ hs.graph.invalidate

end Closed

/-! ## All sessions -/

/-- Nothing ever leads out of the graph, whether an episode is open or not. -/
theorem Arises.closed {s : Session} (h : s.Arises) : s.Closed := by
  induction h with
  | start h => exact ⟨Graph.linked_empty, h⟩
  | move _ hm h ih => exact Move.closed ih hm h
  | aside _ hgraph hgrammar ih =>
    refine ⟨?_, hgrammar⟩
    rw [hgraph]
    exact ih.graph

theorem Arises.add {s : Session} (h : s.Arises) (type : TypeId) :
    (s.mapGraph (·.add type [])).Arises :=
  h.move (m := .add type) ⟨nofun, trivial⟩ rfl

/-! ## What a unification leaves -/

/-- Whatever episode is open and whatever the grammar, a unification leaves all nodes that there
were with their types and edges. Without a result it leaves no other node, and with one it leaves
just the nodes of the result besides, all of them new. -/
theorem grows_by_result {s s' : Session} (hs : s.Arises) {c : Unification}
    (hc : c.Within s.graph.size) {budget : Nat} {answer : Option NodeId}
    (h : c.run budget s = some (answer, s')) :
    s.graph.Extends s'.graph ∧ (answer = none → s'.graph.size = s.graph.size) ∧
    ∀ k, answer = some k →
      (∀ n : Nat, s'.graph.Below k n ↔ s.graph.size ≤ n ∧ n < s'.graph.size) ∧
      s'.graph.size = s.graph.size + {n : Nat | s'.graph.Below k n}.ncard := by
  have hleaves := leaves_of_unification hs.closed hc h
  refine ⟨hleaves.extends_start, hleaves.size_eq, fun k hk => ?_⟩
  subst hk
  exact ⟨fun n => hleaves.below_iff rfl, hleaves.size_add_ncard⟩

/-- A grammar in which one type has a prototype with a feature. -/
def featured : Grammar := Sample.grammar [(.of 3, [⟨0, 1⟩]), (.of 2, [])] [(.of 3, 0)]

theorem rooted_featured : featured.Rooted :=
  (Sample.sound_grammar (by decide) (by decide) (by decide)).rooted

/-- Two nodes to leave entangled, and two whose types have a prototype with features below them. -/
def pairs : Session :=
  (ofGrammar featured).mapGraph fun g =>
    ((((g.add (.of 1) []).add .top []).putEdge 0 0 1).add (.of 2) []).add (.of 2) []

theorem arises_pairs : pairs.Arises := by
  have hedge := (((Arises.start rooted_featured).add (.of 1)).add .top).move (m := .putEdge 0 0 1)
    ⟨by decide, trivial⟩ rfl
  exact (hedge.add (.of 2)).add (.of 2)

/-- A prototype is met while an episode is open, and only the result stays. -/
theorem grows_by_result_pairs : ∃ s s', s.Arises ∧ s.graph.deref 3 = 2 ∧
    (Unification.nodes 0 3 unrestricted).Within s.graph.size ∧
    (Unification.nodes 0 3 unrestricted).run 20 s = some (some 5, s') ∧
    (s.graph.Extends s'.graph ∧ (some 5 = none → s'.graph.size = s.graph.size) ∧
    ∀ k, some 5 = some k →
      (∀ n : Nat, s'.graph.Below k n ↔ s.graph.size ≤ n ∧ n < s'.graph.size) ∧
      s'.graph.size = s.graph.size + {n : Nat | s'.graph.Below k n}.ncard) := by
  have hanswer : (pairs.entangle 20 2 3).map (fun p => (p.1, p.2.graph.deref 3, p.2.graph.size,
      ((Unification.nodes 0 3 unrestricted).run 20 p.2).map Prod.fst)) =
        some (true, 2, 4, some (some 5)) := by
    decide +kernel
  obtain ⟨⟨unified, s⟩, h, heq⟩ := Option.map_eq_some_iff.1 hanswer
  simp only [Prod.mk.injEq] at heq
  obtain ⟨-, hderef, hsize, hrun⟩ := heq
  obtain ⟨⟨answer, s'⟩, hs', hfst⟩ := Option.map_eq_some_iff.1 hrun
  cases hfst
  have hs : s.Arises := arises_pairs.move (m := .entangle 20 2 3) ⟨by decide, trivial⟩
    (congrArg (Option.map Prod.snd) h)
  have hwithin : (Unification.nodes 0 3 unrestricted).Within s.graph.size := by
    rw [hsize]
    exact ⟨by decide, by decide⟩
  exact ⟨s, s', hs, hderef, hwithin, hs', grows_by_result hs hwithin hs'⟩

end FeatureLogic.Session
