import FeatureLogic.Proofs.Notation.Printing
import FeatureLogic.Proofs.Session.Orderly
import FeatureLogic.Proofs.Session.Restricting

/-!
Texts of structures that are laid out alike. The printer counts how often each node is come to, and
numbers and prints nodes as it comes to them; none of this depends on the numbers of nodes
(`Session.Twins.print_eq`). So the structure of an episode prints the same text as its copy, and so
do structures at rest that differ in the numbers of their nodes only (`Session.prints_alike`).
-/

open Relation

namespace FeatureLogic

namespace Graph

theorem currentTargets_eq (g : Graph) (n : NodeId) :
    g.currentTargets n = (g.view.edges n).map Edge.target := by
  simp [currentTargets, view, Edges.mapTargets]

end Graph

/-- Nodes that a map tells apart come up as often after it as before. -/
theorem count_map_of_injOn {μ : NodeId → NodeId} {D : Set NodeId} (hμ : Set.InjOn μ D)
    {list : List NodeId} (hlist : ∀ n ∈ list, n ∈ D) {m : NodeId} (hm : m ∈ D) :
    (list.map μ).count (μ m) = list.count m := by
  induction list with
  | nil => rfl
  | cons n rest ih =>
    have hn := hlist n (List.mem_cons_self ..)
    rw [List.map_cons, List.count_cons, List.count_cons,
      ih fun k hk => hlist k (List.mem_cons_of_mem _ hk)]
    simp only [beq_iff_eq, hμ.eq_iff hn hm]

/-- The same task for another node. -/
def Notation.PrintTask.map (μ : NodeId → NodeId) : PrintTask → PrintTask
  | .text words => .text words
  | .node n => .node (μ n)

namespace Session

open Notation

/-- What the printer knows of a session's structure below a node. -/
def scene (s : Session) (root : NodeId) : Scene :=
  ⟨s.graph, s.grammar.lattice, s.grammar.features, arrivals s.graph root⟩

theorem sound_scene {s : Session} {root : Nat} (h : s.graph.Linked) (hroot : root < s.graph.size) :
    (s.scene root).Sound root where
  graph := h
  root_lt := hroot
  arrivals_eq := by rw [scene]

/-- A larger bound makes no difference to the text. -/
theorem print_eq_run {s : Session} {root fuel : Nat} (h : (s.scene root).Sound root)
    (hfuel : 2 * s.graph.weight ≤ fuel) : s.print root = (Agenda.run (s.scene root).turn fuel
      ⟨"", .replicate s.graph.size none, 0⟩ [.node (s.graph.deref root)]).state.text :=
  congrArg (·.state.text) (Agenda.run_eq_run (Printing.run_ne_spent h (Nat.le_refl _))
    (Printing.run_ne_spent h hfuel))

/-! ## Nodes that correspond -/

section Twins

variable {s t : Session} {x y : Nat} {μ : NodeId → NodeId} (h : Twins s x t y μ)
include h

theorem Twins.sound : (s.scene x).Sound x ∧ (t.scene y).Sound y :=
  ⟨sound_scene h.linked h.root_lt, sound_scene h.linked' h.root_lt'⟩

theorem Twins.reach {n : NodeId} (hn : s.graph.view.Reach (s.graph.deref x) n) :
    t.graph.view.Reach (t.graph.deref y) (μ n) :=
  h.root_eq ▸ Layout.reach_of_edges (fun _ => h.edges_eq) hn

theorem Twins.exists_of_reach {m : NodeId} (hm : t.graph.view.Reach (t.graph.deref y) m) :
    ∃ n, s.graph.view.Reach (s.graph.deref x) n ∧ μ n = m :=
  Layout.exists_of_reach (fun _ => h.edges_eq) (h.root_eq ▸ hm)

variable {n : NodeId} (hn : s.graph.view.Reach (s.graph.deref x) n)
include hn

theorem Twins.lt_size : n < s.graph.size ∧ μ n < t.graph.size :=
  ⟨h.linked.reach_lt h.root_lt hn, h.linked'.reach_lt h.root_lt' (h.reach hn)⟩

theorem Twins.currentTargets_eq :
    t.graph.currentTargets (μ n) = (s.graph.currentTargets n).map μ := by
  rw [Graph.currentTargets_eq, Graph.currentTargets_eq, h.edges_eq hn]
  simp [Edges.mapTargets]

/-- A walk comes to nodes that correspond equally often. -/
theorem Twins.arrivals_eq :
    (arrivals t.graph y).getD (μ n) 0 = (arrivals s.graph x).getD n 0 := by
  classical
  obtain ⟨hlt, hlt'⟩ := h.lt_size hn
  rw [getD_arrivals h.linked h.root_lt hlt, getD_arrivals h.linked' h.root_lt' hlt', ← h.root_eq]
  congr 1
  · simp only [h.inj.eq_iff ReflTransGen.refl hn]
  · unfold Agenda.leftOver
    refine (Finset.sum_nbij μ (fun m hm => ?_) (fun m hm k hk => ?_) (fun m hm => ?_)
      fun m hm => ?_).symm
    · simp only [Classical.not_not, Finset.mem_filter, Finset.mem_range] at hm ⊢
      rw [h.root_eq]
      exact ⟨(h.lt_size hm.2).2, h.reach hm.2⟩
    · simp only [Classical.not_not, Finset.coe_filter, Set.mem_ofPred_eq] at hm hk
      exact h.inj hm.2 hk.2
    · simp only [Classical.not_not, Finset.coe_filter, Set.mem_ofPred_eq, h.root_eq] at hm
      obtain ⟨k, hk, rfl⟩ := h.exists_of_reach hm.2
      refine ⟨k, ?_, rfl⟩
      simpa using ⟨(h.lt_size hk).1, hk⟩
    · simp only [Classical.not_not, Finset.mem_filter] at hm
      rw [h.currentTargets_eq hm.2]
      exact (count_map_of_injOn h.inj (fun k hk => hm.2.tail (Graph.mem_currentTargets.1 hk))
        hn).symm

theorem Twins.isShared_eq : (t.scene y).isShared (μ n) = (s.scene x).isShared n := by
  rw [Scene.isShared, Scene.isShared, decide_eq_decide]
  simp only [scene, h.arrivals_eq hn]

/-- The edges of nodes that correspond are printed by the same tasks. -/
theorem Twins.body_eq (hfeatures : t.grammar.features = s.grammar.features) :
    (t.scene y).body (μ n) = ((s.scene x).body n).map (.map μ) := by
  have hedges := h.currentEdges hn
  show (t.scene y).bodyFrom (t.graph.currentEdges (μ n)) =
    ((s.scene x).bodyFrom (s.graph.currentEdges n)).map (.map μ)
  generalize s.graph.currentEdges n = edges, t.graph.currentEdges (μ n) = edges' at hedges
  induction hedges with
  | nil => rfl
  | @cons d e _ _ hde _ ih =>
    obtain ⟨hreach, hfeature, htarget⟩ := hde
    rw [Scene.bodyFrom_cons, Scene.bodyFrom_cons, List.map_cons, List.map_cons, ih]
    have hshared : (t.scene y).isShared (t.graph.deref e.target) =
        (s.scene x).isShared (s.graph.deref d.target) := htarget ▸ h.isShared_eq hreach
    have hlead : (t.scene y).lead e = (s.scene x).lead d := by
      simp only [Scene.lead, ← hfeature]
      rw [show (t.scene y).names = (s.scene x).names from hfeatures]
      change (if (t.scene y).isShared (t.graph.deref e.target) = true then _ else _) = _
      rw [hshared]
      rfl
    rw [hlead]
    simp only [PrintTask.map, scene, htarget]

end Twins

/-! ## Printing in step -/

/-- What holds between two turns of printing structures that are laid out alike. -/
structure PrintedAlike (s : Session) (x : Nat) (t : Session) (μ : NodeId → NodeId) (p : Printed)
    (tasks : List PrintTask) (q : Printed) (tasks' : List PrintTask) : Prop where
  tasks_eq : tasks' = tasks.map (.map μ)
  reach : ∀ n ∈ nodesOf tasks, s.graph.view.Reach (s.graph.deref x) n
  text_eq : q.text = p.text
  count_eq : q.count = p.count
  size_eq : p.numbers.size = s.graph.size ∧ q.numbers.size = t.graph.size
  number_eq : ∀ {n}, s.graph.view.Reach (s.graph.deref x) n →
    q.numbers.getD (μ n) none = p.numbers.getD n none

section Alike

variable {s t : Session} {x y : Nat} {μ : NodeId → NodeId} (h : Twins s x t y μ)
  {p q : Printed} {waiting waiting' : List PrintTask} {task : PrintTask}

/-- A task is done by adding the same text on both sides. -/
theorem PrintedAlike.drop {task' : PrintTask}
    (ha : PrintedAlike s x t μ p (task :: waiting) q (task' :: waiting'))
    {text text' : String} (htext : text' = text) :
    PrintedAlike s x t μ { p with text } waiting { q with text := text' } waiting' where
  tasks_eq := (List.cons.inj ha.tasks_eq).2
  reach n hn := ha.reach n (by cases task <;> simp [hn])
  text_eq := htext
  count_eq := ha.count_eq
  size_eq := ha.size_eq
  number_eq := ha.number_eq

include h

/-- The same number goes to nodes that correspond. -/
theorem PrintedAlike.number {tasks tasks' : List PrintTask}
    (ha : PrintedAlike s x t μ p tasks q tasks') {n : NodeId}
    (hn : s.graph.view.Reach (s.graph.deref x) n) (number : Nat) :
    PrintedAlike s x t μ ⟨p.text, p.numbers.setIfInBounds n (some number), number⟩ tasks
      ⟨q.text, q.numbers.setIfInBounds (μ n) (some number), number⟩ tasks' where
  tasks_eq := ha.tasks_eq
  reach := ha.reach
  text_eq := ha.text_eq
  count_eq := rfl
  size_eq := by
    rw [Array.size_setIfInBounds, Array.size_setIfInBounds]
    exact ha.size_eq
  number_eq {m} hm := by
    obtain ⟨hlt, hlt'⟩ := h.lt_size hn
    rw [getD_setIfInBounds, getD_setIfInBounds, ha.size_eq.1, ha.size_eq.2, ha.number_eq hm]
    simp only [hlt, hlt', and_true, h.inj.eq_iff hn hm]

/-- A node is printed on both sides. -/
theorem PrintedAlike.visit (hfeatures : t.grammar.features = s.grammar.features) {n : NodeId}
    (ha : PrintedAlike s x t μ p (.node n :: waiting) q (.node (μ n) :: waiting'))
    (text : String) :
    PrintedAlike s x t μ { p with text } ((s.scene x).body n ++ waiting)
      { q with text } ((t.scene y).body (μ n) ++ waiting') := by
  have hn := ha.reach n (List.mem_cons_self ..)
  have hdrop := ha.drop (rfl : text = text)
  refine ⟨?_, fun m hm => ?_, rfl, ha.count_eq, ha.size_eq, ha.number_eq⟩
  · rw [h.body_eq hn hfeatures, hdrop.tasks_eq, List.map_append]
  · rw [nodesOf_append, Scene.nodesOf_body] at hm
    rcases List.mem_append.1 hm with hm | hm
    · exact hn.tail (Graph.mem_currentTargets.1 hm)
    · exact hdrop.reach m hm

/-- The two walks are in step, where types have the same texts. -/
theorem inStep_printTurn (hfeatures : t.grammar.features = s.grammar.features)
    (htypes : ∀ n, s.graph.view.Reach (s.graph.deref x) n →
      typeText t.grammar.lattice (s.graph.currentType n) =
        typeText s.grammar.lattice (s.graph.currentType n)) :
    Agenda.InStep (s.scene x).turn (t.scene y).turn (PrintedAlike s x t μ) := by
  refine ⟨fun ha => by simp [ha.tasks_eq], fun {p task waiting q task' waiting'} ha => ?_⟩
  obtain ⟨rfl, -⟩ := List.cons.inj ha.tasks_eq
  cases task with
  | text words =>
    refine .next (ha.drop ?_)
    rw [ha.text_eq]
  | node n =>
    have hn := ha.reach n (List.mem_cons_self ..)
    have hopening : (t.scene y).opening (μ n) = (s.scene x).opening n := by
      simp only [Scene.opening, scene, h.type_eq hn]
      rw [htypes n hn]
    simp only [PrintTask.map, Scene.turn, h.isShared_eq hn]
    split
    · rw [ha.number_eq hn]
      split
      · refine .next (ha.drop ?_)
        rw [ha.text_eq]
      · rw [hopening, ha.text_eq, ha.count_eq]
        exact .next ((ha.visit h hfeatures _).number h hn _)
    · rw [hopening, ha.text_eq]
      exact .next (ha.visit h hfeatures _)

/-- Structures that are laid out alike print the same text, where their types have the same
texts. -/
theorem Twins.print_eq (hfeatures : t.grammar.features = s.grammar.features)
    (htypes : ∀ n, s.graph.view.Reach (s.graph.deref x) n →
      typeText t.grammar.lattice (s.graph.currentType n) =
        typeText s.grammar.lattice (s.graph.currentType n)) : t.print y = s.print x := by
  obtain ⟨hs, ht⟩ := h.sound
  have hfuel : 2 * s.graph.weight ≤ 2 * s.graph.weight + 2 * t.graph.weight := Nat.le_add_right ..
  have hstart : PrintedAlike s x t μ ⟨"", .replicate s.graph.size none, 0⟩
      [.node (s.graph.deref x)] ⟨"", .replicate t.graph.size none, 0⟩
      [.node (t.graph.deref y)] := by
    refine ⟨by simp [PrintTask.map, h.root_eq], fun n hn => ?_, rfl, rfl, by simp, fun _ => ?_⟩
    · rw [List.mem_singleton.1 hn]
      exact ReflTransGen.refl
    · simp only [Array.getD_eq_getD_getElem?, Array.getElem?_replicate]
      split <;> split <;> rfl
  have hends := (inStep_printTurn h hfeatures htypes).run
    (2 * s.graph.weight + 2 * t.graph.weight) hstart
  rw [print_eq_run hs hfuel, print_eq_run ht (Nat.le_add_left ..)]
  exact (hends.state (Printing.run_ne_spent hs hfuel)).text_eq

end Alike

/-! ## Copies and isomorphic structures -/

theorem print_eq_of_view {s t : Session} (hs : s.graph.Linked) (ht : t.graph.Linked)
    (hgrammar : t.grammar = s.grammar) {x y : Nat} (hx : x < s.graph.size) (hy : y < t.graph.size)
    (hiso : s.graph.view.Isomorphic (s.graph.deref x) t.graph.view (t.graph.deref y)) :
    t.print y = s.print x := by
  obtain ⟨μ, h⟩ := exists_twins hs ht hx hy hiso
  exact h.print_eq (congrArg Grammar.features hgrammar) fun _ _ => by rw [hgrammar]

/-- The structure of the episode, whatever has come about in it, prints the same text as its copy
afterwards. And when no episode is open, structures that differ in the numbers of their nodes only
print the same text, in one session or in two on one grammar. -/
theorem prints_alike {s : Session} (hs : s.Arises) {root : Nat} (hroot : root < s.graph.size) :
    (∀ c, (s.extract root unrestricted).1 = .ok c →
      (s.extract root unrestricted).2.print c = s.print root) ∧
    ∀ {t : Session} {root' : Nat}, t.Arises → root' < t.graph.size → s.AtRest → t.AtRest →
      t.grammar = s.grammar → s.graph.layout.Isomorphic root t.graph.layout root' →
      t.print root' = s.print root := by
  have hlinked := hs.closed.graph
  refine ⟨fun c hc => ?_, fun {t root'} ht hroot' hr hr' hgrammar hiso => ?_⟩
  · have hwhole := copiesWhole_extract hs hroot
    have hcopy : (s.extract root unrestricted).2.Arises :=
      hs.move (m := .call (.extract root unrestricted))
        ⟨by simpa [Move.operands, Call.operands] using hroot, trivial⟩ rfl
    have hrest : (s.extract root unrestricted).2.AtRest := (stamped_extract hlinked.stamped ..).2
    have hiso := hwhole.isomorphic hc
    rw [← Graph.AtRest.view_eq_layout hrest, ← Graph.AtRest.deref_eq hrest c] at hiso
    exact print_eq_of_view hlinked hcopy.closed.graph (grammar_extract_unrestricted hlinked hroot)
      hroot ((hwhole.below_iff hc c).1 ReflTransGen.refl).2 hiso
  · rw [← Graph.AtRest.view_eq_layout hr, ← Graph.AtRest.view_eq_layout hr',
      ← Graph.AtRest.deref_eq hr root, ← Graph.AtRest.deref_eq hr' root'] at hiso
    exact print_eq_of_view hlinked ht.closed.graph hgrammar hroot hroot' hiso

/-- A node with two features for one value, made in another order than among the knots. -/
def doubled : Session :=
  (ofGrammar (Sample.grammar [] [])).mapGraph fun g =>
    (((g.add .top []).add (.of 2) []).putEdge 1 0 0).putEdge 1 1 0

theorem arises_doubled : doubled.Arises := by
  have hnodes := ((Arises.start Sample.sound_grammar_nil.rooted).add .top).add (.of 2)
  have hfirst := hnodes.move (m := .putEdge 1 0 0) ⟨by decide, trivial⟩ rfl
  exact hfirst.move (m := .putEdge 1 1 0) ⟨by decide, trivial⟩ rfl

theorem isomorphic_doubled : knots.graph.layout.Isomorphic 2 doubled.graph.layout 1 := by
  have hedges : ∀ n ∈ [2, 3], ∀ e ∈ knots.graph.edges n, e.target ∈ [2, 3] := by
    decide +kernel
  have hmem : ∀ {n}, knots.graph.layout.Reach 2 n → n ∈ [2, 3] :=
    Layout.mem_of_reach (by decide) hedges
  have hnodes : ∀ n ∈ [2, 3], doubled.graph.type (3 - n) = knots.graph.type n ∧
      doubled.graph.edges (3 - n) = Edges.mapTargets (3 - ·) (knots.graph.edges n) := by
    decide +kernel
  have hinj : ∀ n ∈ [2, 3], ∀ m ∈ [2, 3], 3 - n = 3 - m → n = m := by decide
  exact ⟨(3 - ·), rfl, fun n hn m hm => hinj n (hmem hn) m (hmem hm),
    fun n hn => hnodes n (hmem hn)⟩

/-- A node that has absorbed another one is printed like its copy, and a node at rest like one of
another session. -/
theorem prints_alike_knotted : (∃ c, (knotted.extract 0 unrestricted).1 = .ok c ∧
      knotted.graph.deref 2 = 0 ∧
      (knotted.extract 0 unrestricted).2.print c = knotted.print 0) ∧
    doubled.print 1 = knots.print 2 := by
  obtain ⟨c, hc⟩ :=
    (copiesWhole_extract arises_knotted (by decide +kernel)).ok_iff.2 acyclic_knotted
  have hrest : knots.AtRest ∧ doubled.AtRest :=
    ⟨Graph.atRest_of_forall_lt (by decide) (by decide),
      Graph.atRest_of_forall_lt (by decide) (by decide)⟩
  have hgrammar : doubled.grammar = knots.grammar := by simp only [doubled, knots, mapGraph]
  have hcopy := (@prints_alike _ arises_knotted 0 (by decide +kernel)).1 c hc
  have htwo := (@prints_alike _ arises_knots 2 (by decide)).2 arises_doubled (by decide)
    hrest.1 hrest.2 hgrammar isomorphic_doubled
  exact ⟨⟨c, hc, by decide +kernel, hcopy⟩, htwo⟩

example : [knots.print 2, doubled.print 1] = ["[b F #1[*top*] G #1]", "[b F #1[*top*] G #1]"] := by
  decide +kernel

end Session

end FeatureLogic
