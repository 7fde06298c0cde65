import Mathlib.Data.Set.Card
import Mathlib.Order.Interval.Finset.Nat
import FeatureLogic.Proofs.Session.QuickCheck
import FeatureLogic.Proofs.Session.Reached

/-!
What a unification leaves in the graph. Nodes that were there keep their numbers, types and edges;
a unification that fails leaves nothing else, and one that succeeds leaves its result and no node
besides. For this it is enough that links lead to nodes (`Graph.Linked`), whatever edits and open
episodes there were before.
-/

open Relation

namespace FeatureLogic

/-- Prototypes lie in their graph. -/
structure Grammar.Rooted (g : Grammar) : Prop where
  prototypes : g.prototypes.Sound
  root_lt : ∀ {t : TypeId} {root : NodeId}, g.roots[t]? = some root → root < g.prototypes.size

theorem Grammar.Sound.rooted {g : Grammar} (h : g.Sound) : g.Rooted := ⟨h.prototypes, h.root_lt⟩

theorem Grammar.Rooted.learned {g g' : Grammar} (h : g.Rooted) (hl : g.Learned g') : g'.Rooted := by
  rw [hl.eq]
  exact ⟨h.prototypes, h.root_lt⟩

namespace Session

/-- Nothing leads out of the graph or out of the graph of the prototypes. -/
structure Closed (s : Session) : Prop where
  graph : s.graph.Linked
  grammar : s.grammar.Rooted

/-! ## Unifying -/

/-- What holds of the session while a unification is under way that began in `s₀`. -/
structure Linking (s₀ s : Session) (tasks : List UnifyTask) : Prop where
  learned : s₀.grammar.Learned s.grammar
  graph : s.graph.Linked
  extends_start : s₀.graph.Extends s.graph
  within : ∀ task ∈ tasks, task.Within s.graph.size

theorem linking_start {s : Session} (hg : s.graph.Linked) {left right : Nat}
    (h : left < s.graph.size ∧ right < s.graph.size) : Linking s s [.pair left right] :=
  ⟨.refl _, hg, .refl _, List.forall_mem_singleton.2 h⟩

section Linking

variable {s₀ s s' : Session} {task : UnifyTask} {waiting tasks : List UnifyTask}

theorem Linking.turn (h : Linking s₀ s (task :: waiting)) (hlearned : s.grammar.Learned s'.grammar)
    (hgraph : s'.graph.Linked) (hext : s.graph.Extends s'.graph)
    (hwithin : ∀ t ∈ tasks, t.Within s'.graph.size) : Linking s₀ s' (tasks ++ waiting) where
  learned := h.learned.trans hlearned
  graph := hgraph
  extends_start := h.extends_start.trans hext
  within t ht := by
    rcases List.mem_append.1 ht with ht | ht
    · exact hwithin t ht
    · exact (h.within t (List.mem_cons_of_mem _ ht)).mono hext.size_le

/-- One of two nodes that stand for themselves is absorbed. -/
theorem Linking.absorbs {left right first second : Nat} {type : TypeId}
    (h : Linking s₀ s (.pair left right :: waiting)) (hd : s.graph.Distinct first second)
    (habsorbs : s.Absorbs left right first second type s' tasks) :
    Linking s₀ s' (tasks ++ waiting) := by
  have hg := h.graph
  have hforward := hg.setForward hd.symm
  have hext := Graph.extends_setForward s.graph second first
  cases habsorbs with
  | bare => exact h.turn (.refl _) hforward hext (List.forall_mem_nil _)
  | turned =>
    have htype := (hg.setCurrentType second type).setForward (hd.setCurrentType second type)
    exact h.turn (.refl _) htype ((Graph.extends_setCurrentType ..).trans
      (Graph.extends_setForward ..)) (List.forall_mem_nil _)
  | both =>
    refine h.turn (.refl _) hforward hext (List.forall_mem_singleton.2 ⟨?_, fun e he => ?_⟩)
    · show first < (s.graph.setForward second first).size
      rw [Graph.size_setForward]
      exact hd.first_lt
    · show e.target < (s.graph.setForward second first).size
      rw [Graph.size_setForward]
      exact hg.currentEdges_lt he

/-- A node gets the type of two. -/
theorem Linking.typed (h : Linking s₀ s tasks) (first second : NodeId) :
    Linking s₀ (s.typed first second) tasks where
  learned := h.learned.trans (s.learned_typed first second)
  graph := h.graph.setCurrentType ..
  extends_start := h.extends_start.trans (Graph.extends_setCurrentType ..)
  within t ht := (h.within t ht).mono (Nat.le_of_eq (s.size_typed first second).symm)

/-- A node is unified with a copy of a prototype first. -/
theorem Linking.complete {left right first second : Nat} {type : TypeId} {proto : NodeId}
    (h : Linking s₀ s (.pair left right :: waiting)) (hgrammar : s₀.grammar.Rooted)
    (hproto : s.grammar.featuredPrototype? type = some proto) (hfirst : first < s.graph.size)
    (hsecond : second < s.graph.size) :
    Linking s₀ (s.mapGraph (·.copyFrom s.grammar.prototypes proto))
      ([UnifyTask.pair first s.graph.size, .resume left right first second] ++ waiting) := by
  have hrooted := hgrammar.learned h.learned
  have hlt := hrooted.root_lt (Grammar.roots_of_featuredPrototype? hproto).1
  obtain ⟨κ, hκ⟩ := s.graph.copyFrom_spec hrooted.prototypes hlt
  have hadded := hκ.added hrooted.prototypes
  have hcopy : s.graph.size < (s.graph.copyFrom s.grammar.prototypes proto).size :=
    hκ.root_eq ▸ hκ.copy_lt ReflTransGen.refl
  have hold := hadded.grown.size_le
  refine h.turn (.refl _) (h.graph.added hadded)
    hadded.grown.graph_extends (List.forall_mem_cons.2 ⟨⟨Nat.lt_of_lt_of_le hfirst hold, hcopy⟩,
      List.forall_mem_singleton.2 ?_⟩)
  exact ⟨Nat.lt_of_lt_of_le hfirst hold, Nat.lt_of_lt_of_le hsecond hold⟩

theorem keeps_linking (hgrammar : s₀.grammar.Rooted) :
    Agenda.Keeps unifyTurn (Linking s₀) := by
  refine ⟨fun {s task waiting s' tasks} h ht => ?_⟩
  have hg := h.graph
  have htask := h.within task (List.mem_cons_self ..)
  have hturned := s.unifyTurned task
  rw [ht] at hturned
  cases hturned with
  | met | merged => exact h.turn (.refl _) hg (.refl _) (List.forall_mem_nil _)
  | resumed => exact h.turn (.refl _) hg (.refl _) (List.forall_mem_singleton.2 htask)
  | shared hexisting =>
    obtain ⟨hsurvivor, hincoming⟩ := htask
    obtain ⟨he, hrest⟩ := List.forall_mem_cons.1 hincoming
    exact h.turn (.refl _) hg (.refl _) (List.forall_mem_cons.2
      ⟨⟨hg.currentEdge_lt hexisting, he⟩, List.forall_mem_singleton.2 ⟨hsurvivor, hrest⟩⟩)
  | @gained _ _ survivor e rest =>
    obtain ⟨hsurvivor, hincoming⟩ := htask
    obtain ⟨he, hrest⟩ := List.forall_mem_cons.1 hincoming
    refine h.turn (.refl _) (hg.addPending (hg.deref_lt hsurvivor) he)
      (Graph.extends_addPending ..) (List.forall_mem_singleton.2 ?_)
    show UnifyTask.Within (s.graph.addPending (s.graph.deref survivor) e).size _
    rw [Graph.size_addPending]
    exact ⟨hsurvivor, hrest⟩
  | absorbed hfirst hsecond hne _ _ habsorbs =>
    subst hfirst hsecond
    exact (h.typed ..).absorbs ((hg.distinct_deref htask.1 htask.2 hne).setCurrentType ..) habsorbs
  | completed hfirst hsecond _ _ _ hroot =>
    subst hfirst hsecond
    refine (h.typed ..).complete hgrammar hroot ?_ ?_
    · exact s.size_typed .. ▸ hg.deref_lt htask.1
    · exact s.size_typed .. ▸ hg.deref_lt htask.2

/-- A turn that ends a unification notes the clash of the pair that it is about. -/
theorem unifyTurn_halt_eq (ht : s.unifyTurn task = .halt s' ()) :
    ∃ left right t u kind, task = .pair left right ∧
      s' = (s.ask fun l => l.unify t u).2.record left right kind := by
  have hturned := s.unifyTurned task
  rw [ht] at hturned
  cases hturned with
  | clashed _ _ _ _ kind => exact ⟨_, _, _, _, kind, rfl, rfl⟩

/-- Where types clash the graph is as before. -/
theorem unifyTurn_halt_frame (ht : s.unifyTurn task = .halt s' ()) :
    s'.graph = s.graph ∧ s.grammar.Learned s'.grammar := by
  obtain ⟨left, right, t, u, kind, -, rfl⟩ := unifyTurn_halt_eq ht
  exact ⟨rfl, s.learned_ask_unify t u⟩

end Linking

/-! ## Whole operations -/

/-- Nothing of what was there is changed, and what is new is the result. -/
structure Leaves (s : Session) (answer : Option NodeId) (s' : Session) : Prop where
  learned : s.grammar.Learned s'.grammar
  extends_start : s.graph.Extends s'.graph
  size_eq : answer = none → s'.graph.size = s.graph.size
  below_iff : ∀ {k}, answer = some k → ∀ {n : Nat},
    s'.graph.Below k n ↔ s.graph.size ≤ n ∧ n < s'.graph.size

/-- The graph grows by the nodes of the result. -/
theorem Leaves.size_add_ncard {s s' : Session} {k : NodeId} (h : s.Leaves (some k) s') :
    s'.graph.size = s.graph.size + {n : Nat | s'.graph.Below k n}.ncard := by
  have hset : {n : Nat | s'.graph.Below k n} = Set.Ico s.graph.size s'.graph.size := by
    ext n
    exact h.below_iff rfl
  have := h.extends_start.size_le
  rw [hset, Set.ncard_eq_toFinset_card', Set.toFinset_Ico, Nat.card_Ico]
  omega

theorem Leaves.edgesLead {s s' : Session} {answer : Option NodeId} (h : s.Leaves answer s')
    (hs : s.graph.EdgesLead) : s'.graph.EdgesLead := by
  cases answer with
  | none => exact h.extends_start.edgesLead_of_size_eq (h.size_eq rfl) hs
  | some k =>
    exact h.extends_start.edgesLead hs fun hn hlt he =>
      ((h.below_iff rfl).1 (((h.below_iff rfl).2 ⟨hn, hlt⟩).edge he)).2

section Operations

variable {s s₁ s' : Session}

/-- Only the copy stays of what the episode made. -/
theorem leaves_extractOver (hlearned : s.grammar.Learned s₁.grammar) (h₁ : s₁.graph.Linked)
    (hext : s.graph.Extends s₁.graph) {root : Nat}
    (hroot : root < s₁.graph.size) (r : Restrictor) :
    s.Leaves (s₁.extractOver s.graph.size root r).1 (s₁.extractOver s.graph.size root r).2 := by
  have hfirst := hext.size_le
  unfold extractOver
  rcases extract_cases h₁ hroot r with ⟨s₂, h, heq⟩ | ⟨s₂, n, cursor, waiting, e, h, -, heq⟩
  · rw [heq]
    obtain ⟨hvoid, hnew⟩ := h.invalidated
    have hext' := hext.trans hvoid
    have hstart := hvoid.size_le
    have hbelow : ∀ {n : Nat}, s₂.graph.invalidate.Below (copyOf s₂.graph root) n ↔
        s₁.graph.size ≤ n ∧ n < s₂.graph.size := by
      intro n
      simp only [Graph.Below, Graph.edges_invalidate]
      exact h.below_iff h₁
    have hroot := hbelow.1 ReflTransGen.refl
    refine ⟨hlearned.trans h.beside.learned, hext'.compact hfirst hstart,
      fun hnone => absurd hnone (Option.some_ne_none _), fun {k} hk {n} => ?_⟩
    cases hk
    have hsize := Graph.size_compact s₂.graph.invalidate hfirst hstart
    rw [Graph.size_invalidate] at hsize
    refine (Graph.below_compact hfirst hstart hnew hroot.1).trans ?_
    simp only [mapGraph, invalidate, hsize, hbelow]
    constructor
    · rintro ⟨m, hm, ⟨-, hlt⟩, rfl⟩
      rw [Graph.shifted_of_le hm]
      omega
    · rintro ⟨hle, hlt⟩
      obtain ⟨m, hm, rfl, hsum⟩ := Graph.exists_shifted_of_le hfirst hle
      exact ⟨m, hm, ⟨hm, by omega⟩, rfl⟩
  · rw [heq]
    have hext' := hext.trans (h.beside.extends_start.truncate.trans (Graph.extends_invalidate _))
    refine ⟨hlearned.trans h.beside.learned, hext'.truncate, fun _ => ?_,
      fun hsome => absurd hsome.symm (Option.some_ne_none _)⟩
    refine (Graph.size_truncate ..).trans (Nat.min_eq_left ?_)
    exact hext'.size_le

section Unified

variable (hs : s.Closed) {a b : Nat} (ha : a < s.graph.size) (hb : b < s.graph.size)
include hs ha hb

/-- To unify two nodes adds nodes, whether it succeeds or fails. -/
theorem linking_unifyNodes {budget : Nat} {unified : Bool}
    (h : s.unifyNodes budget a b = some (unified, s')) :
    s.grammar.Learned s'.grammar ∧ s.graph.Extends s'.graph ∧ s'.graph.Linked := by
  have hstart : Linking s s [.pair a b] := linking_start hs.graph ⟨ha, hb⟩
  unfold unifyNodes at h
  cases hrun : Agenda.run unifyTurn budget s [.pair a b] with
  | spent s₁ waiting =>
    rw [hrun] at h
    cases h
  | done s₁ =>
    rw [hrun] at h
    cases h
    have hdone := (keeps_linking hs.grammar).done hstart hrun
    exact ⟨hdone.learned, hdone.extends_start, hdone.graph⟩
  | halted s₁ answer waiting =>
    rw [hrun] at h
    cases h
    obtain ⟨s₂, task, hlast, ht⟩ := (keeps_linking hs.grammar).halted hstart hrun
    obtain ⟨hgraph, hlearned⟩ := unifyTurn_halt_frame ht
    obtain ⟨hblame, hblame'⟩ := blame_frame waiting s₁
    rw [hblame, hblame', hgraph]
    exact ⟨hlast.learned.trans hlearned, hlast.extends_start, hlast.graph⟩

/-- Of a unification that fails no node is left. -/
theorem linking_entangle {budget : Nat} {unified : Bool}
    (h : s.entangle budget a b = some (unified, s')) :
    s.grammar.Learned s'.grammar ∧ s.graph.Extends s'.graph ∧ s'.graph.Linked ∧
      (unified = false → s'.graph.size = s.graph.size) := by
  obtain ⟨⟨unified', s₁⟩, h₁, heq⟩ := Option.map_eq_some_iff.1 h
  obtain ⟨hlearned, hext, hlinked⟩ := linking_unifyNodes hs ha hb h₁
  cases unified' with
  | true =>
    cases heq
    exact ⟨hlearned, hext, hlinked, nofun⟩
  | false =>
    cases heq
    have hext' := hext.trans (Graph.extends_invalidate _)
    exact ⟨hlearned, hext'.truncate, hlinked.abandon hs.graph.edgesLead hext,
      fun _ => (Graph.size_truncate ..).trans (Nat.min_eq_left hext'.size_le)⟩

/-- What comes of a unification of two nodes after which a node is copied out. -/
theorem leaves_copied {root : Nat} (hroot : root < s.graph.size) {budget : Nat}
    {unified : Bool} (h : s.entangle budget a b = some (unified, s₁)) {r : Restrictor}
    {answer : Option NodeId}
    (heq : (if unified then s₁.extractOver s.graph.size root r else (none, s₁)) = (answer, s')) :
    s.Leaves answer s' := by
  obtain ⟨hlearned, hext, hlinked, hsize⟩ := linking_entangle hs ha hb h
  cases unified with
  | true =>
    have hleaves := leaves_extractOver hlearned hlinked hext
      (Nat.lt_of_lt_of_le hroot hext.size_le) r
    rw [if_pos rfl] at heq
    rwa [heq] at hleaves
  | false =>
    cases heq
    exact ⟨hlearned, hext, fun _ => hsize rfl, nofun⟩

end Unified

end Operations

/-! ## Results -/

/-- The unifications whose result is copied out, through a restrictor. -/
inductive Unification
  | nodes (left right : NodeId) (r : Restrictor)
  | argument (active passive : Item) (n : Nat) (r : Restrictor)

namespace Unification

/-- The root of the result, if there is one, and the session afterwards. -/
def run (budget : Nat) (s : Session) : Unification → Option (Option NodeId × Session)
  | nodes left right r => s.unifyInto budget left right r
  | argument active passive n r =>
    (s.unifyArgument budget active passive n r).map fun (item, s) => (item.map Item.root, s)

/-- The operands are nodes of the graph. -/
def Within (size : Nat) : Unification → Prop
  | nodes left right _ => left < size ∧ right < size
  | argument active passive _ _ => active.root < size ∧ passive.root < size

end Unification

/-- What comes of a unification whose result is copied out. -/
theorem leaves_of_unification {s s' : Session} (hs : s.Closed)
    {c : Unification} (hc : c.Within s.graph.size) {budget : Nat} {answer : Option NodeId}
    (h : c.run budget s = some (answer, s')) : s.Leaves answer s' := by
  cases c with
  | nodes left right r =>
    obtain ⟨⟨unified, s₁⟩, h₁, heq⟩ := Option.map_eq_some_iff.1 h
    exact leaves_copied hs hc.1 hc.2 hc.1 h₁ heq
  | argument active passive n r =>
    obtain ⟨⟨item, s₂⟩, h₂, heq₂⟩ := Option.map_eq_some_iff.1 h
    obtain ⟨⟨unified, s₁⟩, h₁, heq₁⟩ := Option.map_eq_some_iff.1 h₂
    rcases entangleArgument_cases hs.graph h₁ with ⟨argument, hargument, h₁⟩ | ⟨rfl, rfl⟩
    · refine leaves_copied (r := r) hs hargument hc.2 hc.1 h₁ ?_
      cases unified with
      | true =>
        simp only [if_true] at heq₁ ⊢
        generalize s₁.extractOver s.graph.size active.root r = out at heq₁ ⊢
        obtain ⟨root, s₃⟩ := out
        cases heq₁
        cases root <;> exact heq₂
      | false =>
        cases heq₁
        cases heq₂
        rfl
    · cases heq₁
      cases heq₂
      exact ⟨.refl _, .refl _, fun _ => rfl, nofun⟩

end Session

end FeatureLogic
