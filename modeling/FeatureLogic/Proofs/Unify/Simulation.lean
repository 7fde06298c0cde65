import FeatureLogic.Proofs.Agenda
import FeatureLogic.Proofs.Session.Turns
import FeatureLogic.Proofs.Unify.Web

/-!
Turns as steps. Every turn of a unification that goes on is a step between the webs of its graphs
(`Session.unifyTurn_next`), and it ends only where two classes have no type in common
(`Session.unifyTurn_halt`). So what steps keep holds at the end of a unification.
-/

namespace FeatureLogic

namespace Session

/-- What holds of the session while a unification is under way that began in `s₀`. -/
structure Unifying (s₀ s : Session) (tasks : List UnifyTask) : Prop where
  grammar : s.grammar.Sound
  same : s₀.grammar.Same s.grammar
  graph : s.graph.Entangled
  extends_start : s₀.graph.Extends s.graph
  within : ∀ task ∈ tasks, task.Within s.graph.size

theorem unifying_start {s : Session} (hs : s.Sound) (he : s.graph.Entangled) {left right : Nat}
    (hl : left < s.graph.size) (hr : right < s.graph.size) :
    Unifying s s [.pair left right] where
  grammar := hs.grammar
  same := .refl _
  graph := he
  extends_start := .refl _
  within := by
    intro task ht
    rw [List.mem_singleton.1 ht]
    exact ⟨hl, hr⟩

/-- A turn that notes something and asks for tasks about nodes that exist. -/
theorem Unifying.turn {s₀ s s' : Session} {task : UnifyTask} {waiting tasks : List UnifyTask}
    (h : Unifying s₀ s (task :: waiting)) (hgrammar : s'.grammar.Sound)
    (hsame : s.grammar.Same s'.grammar) (hgraph : s'.graph.Entangled)
    (hext : s.graph.Extends s'.graph) (hwithin : ∀ t ∈ tasks, t.Within s'.graph.size) :
    Unifying s₀ s' (tasks ++ waiting) where
  grammar := hgrammar
  same := h.same.trans hsame
  graph := hgraph
  extends_start := h.extends_start.trans hext
  within := by
    intro t ht
    rcases List.mem_append.1 ht with ht | ht
    · exact hwithin t ht
    · exact (h.within t (List.mem_cons_of_mem _ ht)).mono hext.size_le

/-! ## Pairs -/

/-- What it is to absorb one of two classes: the other one survives with the type of both, and the
edges of the absorbed one, if it has any, are to be handed over. -/
structure Absorbed (s : Session) (left right first second : NodeId) (type : TypeId) (s' : Session)
    (tasks : List UnifyTask) (survivor absorbed : NodeId) : Prop where
  grammar_eq : s'.grammar = s.grammar
  graph : s'.graph.Entangled
  extends_graph : s.graph.Extends s'.graph
  nodes : (survivor = first ∧ absorbed = second) ∨ (survivor = second ∧ absorbed = first)
  union : s.graph.web.Union survivor absorbed type s'.graph.web
  tasks_eq : (tasks = [] ∧ ¬ s.graph.web.HasEdges absorbed) ∨
    ∃ incoming, tasks = [.merge left right survivor incoming] ∧ s.graph.web.HasEdges survivor ∧
      ∀ f m, s.graph.web.edge? absorbed f = some m ↔ ⟨f, m⟩ ∈ incoming

/-- The type that was set for a class before it is absorbed does not count. -/
theorem union_of_setCurrentType {g : Graph} (h : g.Entangled) {first second : Nat}
    (hfirst : first < g.size) {type : TypeId} {W : Web}
    (hunion : (g.setCurrentType first type).web.Union second first type W) :
    g.web.Union second first type W where
  size_eq := hunion.size_eq.trans (Graph.size_setCurrentType ..)
  shape_eq := hunion.shape_eq.trans (Graph.shape_note ..)
  rep_eq n := by
    have hrep := hunion.rep_eq n
    rwa [show (g.setCurrentType first type).web.rep n = g.web.rep n from
      h.deref_setCurrentType ..] at hrep
  type_self := hunion.type_self
  type_eq hn hn' := by
    refine (hunion.type_eq hn hn').trans ?_
    show Graph.currentType _ _ = g.currentType _
    rw [Graph.currentType_setCurrentType _ hfirst, if_neg (Ne.symm hn')]
  edge_eq := by
    refine hunion.edge_eq.trans ?_
    funext n f
    exact Graph.currentEdge?_setCurrentType ..

/-- Whichever of two nodes absorbs the other, their classes are united. -/
theorem Absorbs.absorbed {s s' : Session} (h : s.graph.Entangled) {first second : Nat}
    (hd : s.graph.Distinct first second) {left right : NodeId} {type : TypeId}
    {tasks : List UnifyTask} (habsorbs : (s.mapGraph (·.setCurrentType first type)).Absorbs left
      right first second type s' tasks) :
    ∃ survivor absorbed, Absorbed s left right first second type s' tasks survivor absorbed := by
  have htyped := h.setCurrentType first type
  have hedges : ∀ n, (s.graph.setCurrentType first type).hasCurrentEdges n = true ↔
      s.graph.web.HasEdges n := by
    intro n
    rw [htyped.hasCurrentEdges_iff]
    simp only [Graph.currentEdge?_setCurrentType]
    rfl
  have hnone : ∀ {n}, (s.graph.setCurrentType first type).hasCurrentEdges n = false →
      ¬ s.graph.web.HasEdges n := fun hn => mt (hedges _).2 (Bool.eq_false_iff.1 hn)
  obtain ⟨hgraph, hunion⟩ := h.web_union hd.symm type
  have hext : s.graph.Extends ((s.graph.setCurrentType first type).setForward second first) :=
    (Graph.extends_setCurrentType ..).trans (Graph.extends_setForward ..)
  cases habsorbs with
  | bare hbare =>
    exact ⟨first, second, rfl, hgraph, hext, .inl ⟨rfl, rfl⟩, hunion, .inl ⟨rfl, hnone hbare⟩⟩
  | both _ hhas =>
    refine ⟨first, second, rfl, hgraph, hext, .inl ⟨rfl, rfl⟩, hunion,
      .inr ⟨_, rfl, (hedges first).1 hhas, fun f m => ?_⟩⟩
    exact Iff.trans (by rw [Graph.currentEdge?_setCurrentType]; rfl) htyped.mem_currentEdges.symm
  | turned _ hbare =>
    obtain ⟨hgraph', hunion'⟩ := htyped.web_union (hd.setCurrentType first type) type
    exact ⟨second, first, rfl, hgraph', (Graph.extends_setCurrentType ..).trans
      ((Graph.extends_setCurrentType ..).trans (Graph.extends_setForward ..)), .inr ⟨rfl, rfl⟩,
      union_of_setCurrentType h hd.first_lt hunion', .inl ⟨rfl, hnone hbare⟩⟩

/-! ## Turns -/

/-- No completion is needed where the prototype of the type is met already. -/
theorem needed_eq_false_iff {s : Session} (h : s.graph.Entangled) {first second : NodeId} :
    s.needed first second = false ↔
      s.graph.web.Covered first second (s.common first second) := by
  have hedges : ∀ n, s.graph.web.HasEdges n ↔
      (s.typed first second).graph.hasCurrentEdges n = true := by
    intro n
    show _ ↔ (s.graph.setCurrentType first (s.common first second)).hasCurrentEdges n = true
    rw [(h.setCurrentType first (s.common first second)).hasCurrentEdges_iff]
    simp only [Graph.currentEdge?_setCurrentType]
    rfl
  have htype : ∀ n, s.graph.web.type n = s.graph.currentType n := fun _ => rfl
  simp only [Web.Covered, or_and_right, exists_or, exists_eq_left, hedges, htype, needed,
    needsCompletion]
  generalize (s.typed first second).graph.hasCurrentEdges first = edges₁
  generalize (s.typed first second).graph.hasCurrentEdges second = edges₂
  by_cases h₁ : s.graph.currentType first = s.common first second <;>
    by_cases h₂ : s.graph.currentType second = s.common first second <;>
    cases edges₁ <;> cases edges₂ <;> simp [h₁, h₂]

section Turn

variable {s₀ s s' : Session} {task : UnifyTask} {waiting tasks : List UnifyTask}

/-- What the lattice answers is the greatest lower bound in the order that the walk began with. -/
theorem Unifying.common_eq (h : Unifying s₀ s (task :: waiting)) (first second : NodeId) :
    s.common first second =
      s₀.grammar.lattice.glb (s.graph.currentType first) (s.graph.currentType second) :=
  (s.common_eq_glb h.grammar ..).trans (Lattice.glb_congr h.same.hierarchy_eq _ _)

/-- A turn in which a class is absorbed is a step. -/
theorem Unifying.absorbed {left right first second : NodeId}
    (h : Unifying s₀ s (.pair left right :: waiting))
    (hfirst : first = s.graph.deref left) (hsecond : second = s.graph.deref right)
    (hne : first ≠ second) (hbottom : s.common first second ≠ .bottom)
    (hneeded : s.needed first second = false ∨
      s.grammar.featuredPrototype? (s.common first second) = none)
    (habsorbs : (s.typed first second).Absorbs left right first second (s.common first second)
      s' tasks) :
    UnifyStep s₀.grammar s.graph.web (.pair left right) s'.graph.web tasks ∧
      Unifying s₀ s' (tasks ++ waiting) := by
  obtain ⟨hl, hr⟩ := h.within _ (List.mem_cons_self ..)
  have hcommon := h.common_eq first second
  subst hfirst hsecond
  have hd := h.graph.linked.distinct_deref hl hr hne
  obtain ⟨survivor, absorbed, habs⟩ := Absorbs.absorbed
    (s := s.asked (s.graph.deref left) (s.graph.deref right)) h.graph hd habsorbs
  obtain ⟨hsurvivor, -⟩ := Web.sides (P := fun z : Nat => z < s.graph.size) habs.nodes
    hd.first_lt hd.second_lt
  refine ⟨.absorb habs.nodes ?_ hcommon hbottom ?_ habs.union habs.tasks_eq, h.turn ?_ ?_ habs.graph
    habs.extends_graph fun t ht => ?_⟩
  · rcases habs.nodes with ⟨rfl, rfl⟩ | ⟨rfl, rfl⟩
    · exact hne
    · exact Ne.symm hne
  · exact hneeded.symm.imp (h.same.featuredPrototype? _).symm.trans (needed_eq_false_iff h.graph).1
  · rw [habs.grammar_eq]
    exact sound_ask_unify h.grammar _ _
  · rw [habs.grammar_eq]
    exact same_ask_unify s _ _
  · -- what is handed over are edges of the absorbed class, which lead to nodes
    rcases habs.tasks_eq with ⟨rfl, -⟩ | ⟨incoming, rfl, -, hincoming⟩
    · cases ht
    · rw [List.mem_singleton.1 ht]
      refine ⟨Nat.lt_of_lt_of_le hsurvivor habs.extends_graph.size_le, fun e he => ?_⟩
      have hedge := (hincoming e.feature e.target).2 he
      exact Nat.lt_of_lt_of_le (h.graph.web_sound.edge_lt hedge) habs.extends_graph.size_le

/-- A turn that asks for the prototype of the type is a step. -/
theorem Unifying.completed {left right first second : NodeId} {root : NodeId}
    (h : Unifying s₀ s (.pair left right :: waiting))
    (hfirst : first = s.graph.deref left) (hsecond : second = s.graph.deref right)
    (hne : first ≠ second) (hbottom : s.common first second ≠ .bottom)
    (hneeded : s.needed first second = true)
    (hroot : s.grammar.featuredPrototype? (s.common first second) = some root) :
    let s' := (s.typed first second).mapGraph (·.copyFrom s.grammar.prototypes root)
    let tasks := [.pair first (s.typed first second).graph.size, .resume left right first second]
    UnifyStep s₀.grammar s.graph.web (.pair left right) s'.graph.web tasks ∧
      Unifying s₀ s' (tasks ++ waiting) := by
  intro s' tasks
  obtain ⟨hl, hr⟩ := h.within _ (List.mem_cons_self ..)
  have hcommon := h.common_eq first second
  have hmissed : ¬ s.graph.web.Covered first second (s.common first second) := fun hmet =>
    Bool.noConfusion (hneeded.symm.trans ((needed_eq_false_iff h.graph).2 hmet))
  subst hfirst hsecond
  have hfirst := h.graph.deref_lt hl
  have hsecond := h.graph.deref_lt hr
  have hprotos := h.grammar.prototypes
  obtain ⟨κ, hκ⟩ := (s.typed (s.graph.deref left) (s.graph.deref right)).graph.copyFrom_spec hprotos
    (h.grammar.root_lt (Grammar.roots_of_featuredPrototype? hroot).1)
  obtain ⟨hgraph, himport⟩ := h.graph.web_import hprotos hfirst _ hκ
  have hext := (Graph.extends_setCurrentType s.graph (s.graph.deref left) (s.common _ _)).trans
    hκ.graph_extends
  refine ⟨?_, h.turn (sound_ask_unify h.grammar _ _) (same_ask_unify s _ _) hgraph hext
    fun t ht => ?_⟩
  · have hstep : UnifyStep s₀.grammar s.graph.web (.pair left right) _
        [.pair (s.graph.deref left) (κ root), .resume left right (s.graph.deref left)
          (s.graph.deref right)] :=
      .complete hne hcommon hbottom ((h.same.featuredPrototype? _).symm.trans hroot) hmissed (by
        rw [← h.same.prototypes_eq]
        exact himport)
    -- the copy of the prototype begins where the graph ended
    rw [hκ.root_eq] at hstep
    exact hstep
  · rcases List.mem_cons.1 ht with rfl | ht
    · refine ⟨Nat.lt_of_lt_of_le hfirst hext.size_le, ?_⟩
      have := hκ.copy_lt (n := root) Relation.ReflTransGen.refl
      rwa [hκ.root_eq] at this
    · rw [List.mem_singleton.1 ht]
      exact ⟨Nat.lt_of_lt_of_le hfirst hext.size_le, Nat.lt_of_lt_of_le hsecond hext.size_le⟩

/-- A turn that goes on is a step. -/
theorem unifyTurn_next (h : Unifying s₀ s (task :: waiting))
    (ht : s.unifyTurn task = .next s' tasks) :
    UnifyStep s₀.grammar s.graph.web task s'.graph.web tasks ∧
      Unifying s₀ s' (tasks ++ waiting) := by
  have hwithin := h.within _ (List.mem_cons_self ..)
  have hturned := s.unifyTurned task
  rw [ht] at hturned
  cases hturned with
  | met heq => exact ⟨.met heq, h.turn h.grammar (.refl _) h.graph (.refl _) (by simp)⟩
  | absorbed hfirst hsecond hne hbottom hneeded habsorbs =>
    exact h.absorbed hfirst hsecond hne hbottom hneeded habsorbs
  | completed hfirst hsecond hne hbottom hneeded hroot =>
    exact h.completed hfirst hsecond hne hbottom hneeded hroot
  | resumed =>
    exact ⟨.resume, h.turn h.grammar (.refl _) h.graph (.refl _)
      (List.forall_mem_singleton.2 hwithin)⟩
  | merged => exact ⟨.merged, h.turn h.grammar (.refl _) h.graph (.refl _) (by simp)⟩
  | shared hexisting =>
    obtain ⟨hsurvivor, hincoming⟩ := hwithin
    obtain ⟨he, hrest⟩ := List.forall_mem_cons.1 hincoming
    exact ⟨.shared hexisting, h.turn h.grammar (.refl _) h.graph (.refl _) (List.forall_mem_cons.2
      ⟨⟨h.graph.currentEdge_lt hexisting, he⟩, List.forall_mem_singleton.2 ⟨hsurvivor, hrest⟩⟩)⟩
  | @gained left right survivor e rest hnone =>
    obtain ⟨hsurvivor, hincoming⟩ := hwithin
    obtain ⟨he, hrest⟩ := List.forall_mem_cons.1 hincoming
    obtain ⟨hgraph, hgain⟩ := h.graph.web_gain (h.graph.deref_lt hsurvivor) he hnone
    have hleft : UnifyTask.Within s.graph.size (.merge left right survivor rest) :=
      ⟨hsurvivor, hrest⟩
    exact ⟨.gained hnone hgain, h.turn h.grammar (.refl _) hgraph (Graph.extends_addPending ..)
      (List.forall_mem_singleton.2 (hleft.mono (Graph.extends_addPending ..).size_le))⟩

/-- A turn that ends the unification has met two classes whose types have nothing in common. -/
theorem unifyTurn_halt (h : Unifying s₀ s (task :: waiting)) (ht : s.unifyTurn task = .halt s' ()) :
    ∃ left right, task = .pair left right ∧
      s.graph.web.rep left ≠ s.graph.web.rep right ∧
      s₀.grammar.lattice.glb (s.graph.web.type (s.graph.web.rep left))
        (s.graph.web.type (s.graph.web.rep right)) = .bottom ∧
      s'.graph = s.graph ∧ s'.grammar.Sound ∧ s₀.grammar.Same s'.grammar := by
  have hturned := s.unifyTurned task
  rw [ht] at hturned
  cases hturned with
  | clashed hfirst hsecond hne hbottom kind =>
    subst hfirst hsecond
    exact ⟨_, _, rfl, hne, (h.common_eq ..).symm.trans hbottom, rfl,
      sound_ask_unify h.grammar _ _, h.same.trans (same_ask_unify s _ _)⟩

end Turn

/-- A web of the classes of a session, in which `S` stands in the place of the committed structure
and the nodes of `s₀` have the structure `S₀`. -/
structure Standing (S₀ : Shape) (s₀ s : Session) (S : Shape) : Prop where
  agrees : S₀.Agrees S s₀.graph.size
  value_lt : ∀ {n f m}, S.value? n f = some m → m < s.graph.size

/-- What steps keep, a unification keeps, whatever structure stands in the place of the committed
one. -/
theorem keeps_unifying {s₀ : Session} (S₀ : Shape) {Inv : Web → List UnifyTask → Prop}
    (hstep : ∀ {W task W' tasks waiting}, W.Sound → (∀ t ∈ task :: waiting, t.Within W.size) →
      Inv W (task :: waiting) → UnifyStep s₀.grammar W task W' tasks → Inv W' (tasks ++ waiting)) :
    Agenda.Keeps unifyTurn fun s tasks => Unifying s₀ s tasks ∧
      ∃ S, Standing S₀ s₀ s S ∧ Inv (s.graph.web.withShape S) tasks := by
  refine ⟨fun {s task waiting s' tasks} ⟨h, S, hS, hinv⟩ ht => ?_⟩
  obtain ⟨hs, h'⟩ := unifyTurn_next h ht
  obtain ⟨S', hs', hagrees, hlt⟩ := hs.withShape h'.graph.web_sound hS.value_lt
  refine ⟨h', S', ⟨hS.agrees.trans hagrees h.extends_start.size_le, hlt⟩, ?_⟩
  exact hstep (h.graph.web_sound.withShape hS.value_lt) h.within hinv hs'

end Session

end FeatureLogic
