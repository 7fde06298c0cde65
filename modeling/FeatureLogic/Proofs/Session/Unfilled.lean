import FeatureLogic.Proofs.Session.Unfilling

/-!
What unfilling leaves. A node's edges are looked at once, when the nodes that they lead to are
finished, and by what led to each node before anything was dropped. No such decision becomes
outdated: a node that more than one edge led to keeps them all, and one that a single edge led to is
finished before the edge is looked at. So no edge that is left could go (`Session.unfill_complete`).
-/

open Relation

namespace FeatureLogic

/-! ## One edge to a node -/

namespace Graph

/-- A node to which one edge leads, and which is not the root, was come to once. -/
theorem Sound.arrivals_le_one {g : Graph} (hg : g.Sound) {root m : Nat} (hroot : root < g.size)
    (hm : m < g.size) (h : g.shape.Lone root m) : (g.committedArrivals root).getD m 0 ≤ 1 := by
  have hsize : ∀ ⦃n : Nat⦄, g.layout.Reach root n → n < g.size :=
    fun _ hn => Below.lt hg.edgesLead hroot hn
  have hvalue : ∀ {n i}, (n, i) ∈ g.layout.incoming root m → ∃ f, (g.edges n)[i]? = some ⟨f, m⟩ ∧
      g.shape.Reach root n ∧ g.shape.value? n f = some m := by
    rintro n i ⟨hn, hi⟩
    rw [List.getElem?_map, Option.map_eq_some_iff] at hi
    obtain ⟨⟨f, m⟩, he, rfl⟩ := hi
    exact ⟨f, he, hg.reach_of_below hn, hg.value_eq_some_iff.2 (List.mem_of_getElem? he)⟩
  have hone : (g.layout.incoming root m).ncard ≤ 1 := by
    refine (Set.ncard_le_one (Layout.finite_incoming hsize m)).2 ?_
    rintro ⟨n, i⟩ hp ⟨n', j⟩ hq
    obtain ⟨f, hi, hn, hf⟩ := hvalue hp
    obtain ⟨f', hj, hn', hf'⟩ := hvalue hq
    obtain ⟨rfl, rfl⟩ := h.unique hn hf hn' hf'
    rw [(List.getElem?_inj (List.getElem?_eq_some_iff.1 hi).1 (hg.sorted n').nodup).1
      (hi.trans hj.symm)]
  rw [hg.edgesLead.getD_committedArrivals hroot hm, if_neg h.1]
  omega

theorem setEdges_self (g : Graph) (n : NodeId) : g.setEdges n (g.edges n) = g := by
  have hnodes : g.nodes.modify n (fun node => { node with edges := g.edges n }) = g.nodes := by
    refine Array.ext_getElem? fun m => ?_
    rw [Array.getElem?_modify]
    split
    · rename_i heq
      subst heq
      rw [edges, node, Array.getD_eq_getD_getElem?]
      cases g.nodes[n]? <;> rfl
    · rfl
  rw [setEdges, hnodes]

/-- What a filter leaves of the edges of a node. -/
theorem edges_setEdges_filter (g : Graph) (n m : Nat) (keeps : Edge → Bool) :
    (g.setEdges n ((g.edges n).filter keeps)).edges m =
      if n = m then (g.edges n).filter keeps else g.edges m := by
  rw [edges_setEdges]
  by_cases hn : n < g.size
  · simp [hn]
  · have hnil : g.edges n = [] := edges_of_le (Nat.le_of_not_lt hn)
    by_cases hm : n = m
    · subst hm
      simp [hn, hnil]
    · simp [hm]

end Graph

namespace Unfilling

/-! ## Nodes on the way -/

/-- The nodes that wait to be finished, the last one that was entered first. -/
def closing : List UnfillTask → List NodeId
  | [] => []
  | .enter _ :: rest => closing rest
  | .finish n :: rest => n :: closing rest

/-- Every task is about the root, or about a node that is led to from one which waits behind it. -/
def Within (g : Graph) (root : NodeId) : List UnfillTask → Prop
  | [] => True
  | task :: rest => (task.node = root ∨ ∃ m ∈ closing rest, ∃ e ∈ g.edges m, e.target = task.node) ∧
    Within g root rest

/-- The node that a task enters. -/
def enters : UnfillTask → Option NodeId
  | .enter n => some n
  | .finish _ => none

/-- The nodes that are entered before a task is taken up. -/
def needs (g : Graph) : UnfillTask → List NodeId
  | .enter _ => []
  | .finish n => (g.edges n).map Edge.target

/-- The tasks that entering a node leads to. -/
def children (g : Graph) (n : NodeId) : List UnfillTask :=
  (g.edges n).map (fun e => .enter e.target) ++ [.finish n]

theorem closing_append (first rest : List UnfillTask) :
    closing (first ++ rest) = closing first ++ closing rest := by
  induction first with
  | nil => rfl
  | cons task first ih => cases task <;> simp [closing, ih]

theorem mem_closing_iff {n : NodeId} {tasks : List UnfillTask} :
    n ∈ closing tasks ↔ .finish n ∈ tasks := by
  induction tasks with
  | nil => exact iff_of_false List.not_mem_nil List.not_mem_nil
  | cons task rest ih => cases task <;> simp [closing, ih]

theorem closing_children (g : Graph) (n : NodeId) (rest : List UnfillTask) :
    closing (children g n ++ rest) = n :: closing rest := by
  have henters : closing ((g.edges n).map fun e => .enter e.target) = [] := by
    induction g.edges n with
    | nil => rfl
    | cons e edges ih => exact ih
  rw [closing_append, children, closing_append, henters]
  rfl

section Within

variable {g : Graph} {root n : NodeId} {tasks : List UnfillTask}

theorem Within.of_closing (h : Within g root tasks) (hn : n ∈ closing tasks) :
    n = root ∨ ∃ m ∈ closing tasks, ∃ e ∈ g.edges m, e.target = n := by
  induction tasks with
  | nil => cases hn
  | cons task rest ih =>
    obtain ⟨hhead, hrest⟩ := h
    cases task with
    | enter k => exact ih hrest hn
    | finish k =>
      rcases List.mem_cons.1 hn with rfl | hn
      · exact hhead.imp_right fun ⟨m, hm, he⟩ => ⟨m, List.mem_cons_of_mem _ hm, he⟩
      · exact (ih hrest hn).imp_right fun ⟨m, hm, he⟩ => ⟨m, List.mem_cons_of_mem _ hm, he⟩

theorem Within.children (h : Within g root (.enter n :: tasks)) :
    Within g root (children g n ++ tasks) := by
  have hfinish : Within g root (.finish n :: tasks) := h
  have hall : ∀ edges : List Edge, (∀ e ∈ edges, e ∈ g.edges n) →
      Within g root (edges.map (fun e => .enter e.target) ++ .finish n :: tasks) := by
    intro edges hedges
    induction edges with
    | nil => exact hfinish
    | cons e edges ih =>
      refine ⟨.inr ⟨n, ?_, e, hedges e (List.mem_cons_self ..), rfl⟩,
        ih fun d hd => hedges d (List.mem_cons_of_mem _ hd)⟩
      show n ∈ closing (edges.map (fun e => .enter e.target) ++ .finish n :: tasks)
      rw [closing_append]
      exact List.mem_append_right _ (List.mem_cons_self ..)
  rw [Unfilling.children, List.append_assoc]
  exact hall (g.edges n) fun _ he => he

end Within

/-! ## The walk -/

/-- The walk has come to the node. -/
def Met (seen : Array Bool) (n : NodeId) : Prop := seen.getD n false = true

/-- The walk has come to the node and finished it. -/
def Done (seen : Array Bool) (tasks : List UnfillTask) (n : NodeId) : Prop :=
  Met seen n ∧ n ∉ closing tasks

/-- How far unfilling the structure of `g` has come. -/
structure Unfills (u : Unfilling) (g : Graph) (root : NodeId) (state : Graph × Array Bool)
    (tasks : List UnfillTask) : Prop where
  size_seen : state.2.size = g.size
  below : ∀ task ∈ tasks, g.Below root task.node
  begun : Met state.2 root ∨ .enter root ∈ tasks
  met : ∀ n ∈ closing tasks, Met state.2 n
  nodup : (closing tasks).Nodup
  inside : Within g root tasks
  ready : Agenda.Ready enters (needs g) (Met state.2) tasks
  /-- A node has all its edges until it is finished. -/
  unfinished : ∀ {n}, ¬ Done state.2 tasks n → state.1.edges n = g.edges n
  /-- The edges that a finished node has left cannot go any more. They lead to nodes that were
  finished before, unless more than one edge led there. -/
  settled : ∀ {n e}, Done state.2 tasks n → e ∈ g.edges n → Met state.2 e.target ∧
    (u.arrivals.getD e.target 0 ≤ 1 → Done state.2 tasks e.target) ∧
      (e ∈ state.1.edges n → u.canGo state.1 n e = false)

theorem unfills_start (u : Unfilling) (g : Graph) (root : NodeId) :
    Unfills u g root (g, .replicate g.size false) [.enter root] := by
  have hnot : ∀ n, ¬ Met (.replicate g.size false) n := by
    intro n
    simp only [Met, Array.getD_eq_getD_getElem?, Array.getElem?_replicate]
    split <;> simp
  exact {
    size_seen := Array.size_replicate
    below := List.forall_mem_singleton.2 ReflTransGen.refl
    begun := .inr (List.mem_singleton_self _)
    met := fun _ hn => absurd hn List.not_mem_nil
    nodup := List.nodup_nil
    inside := ⟨.inl rfl, trivial⟩
    ready := ⟨fun _ hn => absurd hn List.not_mem_nil, trivial⟩
    unfinished := fun _ => rfl
    settled := fun hn => absurd hn.1 (hnot _) }

section Turns

variable {u : Unfilling} {g g' : Graph} {root n : NodeId} {seen : Array Bool}
  {waiting : List UnfillTask}

/-- A node that was come to before is not entered again. -/
theorem Unfills.pass (h : Unfills u g root (g', seen) (.enter n :: waiting)) (hn : Met seen n) :
    Unfills u g root (g', seen) waiting where
  size_seen := h.size_seen
  below := fun task ht => h.below task (List.mem_cons_of_mem _ ht)
  begun := h.begun.elim .inl fun hmem => by
    rcases List.mem_cons.1 hmem with heq | hmem
    · cases heq
      exact .inl hn
    · exact .inr hmem
  met := h.met
  nodup := h.nodup
  inside := h.inside.2
  ready := h.ready.2.mono fun m hm => hm.elim id fun heq => by
    cases heq
    exact hn
  unfinished := h.unfinished
  settled := h.settled

theorem met_enter (hn : n < seen.size) {m : NodeId} :
    Met (seen.setIfInBounds n true) m ↔ m = n ∨ Met seen m := by
  rw [Met, Notation.getD_setIfInBounds]
  by_cases hm : n = m
  · simp [hm, hm ▸ hn]
  · simp [hm, Ne.symm hm, Met]

/-- A node that is entered is open until its children are finished. -/
theorem Unfills.enter (h : Unfills u g root (g', seen) (.enter n :: waiting)) (hn : n < g.size)
    (hnew : ¬ Met seen n) :
    Unfills u g root (g', seen.setIfInBounds n true) (children g n ++ waiting) := by
  have hmet : ∀ {m}, Met (seen.setIfInBounds n true) m ↔ m = n ∨ Met seen m :=
    met_enter (h.size_seen.symm ▸ hn)
  have hclosing : closing (children g n ++ waiting) = n :: closing waiting :=
    closing_children g n waiting
  have hdone : ∀ {m}, Done (seen.setIfInBounds n true) (children g n ++ waiting) m ↔
      Done seen (.enter n :: waiting) m := by
    intro m
    rw [Done, hclosing, hmet, List.mem_cons, not_or]
    constructor
    · rintro ⟨hm, hne, hnot⟩
      exact ⟨hm.resolve_left hne, hnot⟩
    · rintro ⟨hm, hnot⟩
      exact ⟨.inr hm, fun heq => hnew (heq ▸ hm), hnot⟩
  exact {
    size_seen := (Array.size_setIfInBounds ..).trans h.size_seen
    below := fun task ht => by
      rcases List.mem_append.1 ht with ht | ht
      · have hbelow : g.Below root n := h.below _ (List.mem_cons_self ..)
        rcases List.mem_append.1 ht with ht | ht
        · obtain ⟨e, he, rfl⟩ := List.mem_map.1 ht
          exact hbelow.edge he
        · rw [List.mem_singleton.1 ht]
          exact hbelow
      · exact h.below task (List.mem_cons_of_mem _ ht)
    begun := h.begun.elim (fun hroot => .inl (hmet.2 (.inr hroot))) fun hmem => by
      rcases List.mem_cons.1 hmem with heq | hmem
      · cases heq
        exact .inl (hmet.2 (.inl rfl))
      · exact .inr (List.mem_append_right _ hmem)
    met := fun m hm => by
      rw [hclosing] at hm
      exact hmet.2 ((List.mem_cons.1 hm).imp_right (h.met m))
    nodup := by
      rw [hclosing]
      exact List.nodup_cons.2 ⟨fun hmem => hnew (h.met n hmem), h.nodup⟩
    inside := h.inside.children
    ready := by
      rw [children, List.append_assoc]
      refine Agenda.ready_append (fun task ht => ?_) ⟨fun m hm => ?_, ?_⟩
      · obtain ⟨e, -, rfl⟩ := List.mem_map.1 ht
        rfl
      · obtain ⟨e, he, rfl⟩ := List.mem_map.1 hm
        exact .inr ⟨_, List.mem_map.2 ⟨e, he, rfl⟩, rfl⟩
      · refine h.ready.2.mono fun m hm => .inl (.inl (hmet.2 ?_))
        exact hm.elim .inr fun heq => .inl (Option.some.inj heq).symm
    unfinished := fun hm => h.unfinished fun hd => hm (hdone.2 hd)
    settled := fun hm he => by
      obtain ⟨htarget, honce, hgo⟩ := h.settled (hdone.1 hm) he
      exact ⟨hmet.2 (.inr htarget), fun hle => hdone.2 (honce hle), hgo⟩ }

/-- A node to which one edge leads is finished before the node that it leads from. -/
theorem Unfills.not_closing (hg : g.Sound) (hroot : root < g.size)
    (harrivals : u.arrivals = g.committedArrivals root)
    (h : Unfills u g root (g', seen) (.finish n :: waiting)) {e : Edge} (he : e ∈ g.edges n)
    (honce : u.arrivals.getD e.target 0 ≤ 1) : e.target ∉ closing waiting := by
  intro hmem
  have hn : g.Below root n := h.below _ (List.mem_cons_self ..)
  have hlone : g.shape.Lone root e.target := hg.lone_of_arrivals hroot hn he (harrivals ▸ honce)
  rcases h.inside.2.of_closing hmem with heq | ⟨m, hm, d, hd, htarget⟩
  · exact hlone.1 heq
  · have hbelow : g.Below root m :=
      h.below (.finish m) (List.mem_cons_of_mem _ (mem_closing_iff.1 hm))
    have hvalue : g.value? m d.feature = some e.target :=
      htarget ▸ hg.value_eq_some_iff.2 hd
    obtain ⟨heq, -⟩ := hlone.unique (hg.reach_of_below hn) (hg.value_eq_some_iff.2 he)
      (hg.reach_of_below hbelow) hvalue
    exact (List.nodup_cons.1 h.nodup).1 (heq ▸ hm)

/-- To finish a node lets no edge go that could not go before, unless the edge alone leads to the
node and the node has no edges left. -/
theorem canGo_finish_eq_false {m : NodeId} {e : Edge} {keeps : Edge → Bool}
    (hgo : u.canGo g' m e = false)
    (hn : e.target = n → u.arrivals.getD e.target 0 ≤ 1 → (g'.edges n).filter keeps ≠ []) :
    u.canGo (g'.setEdges n ((g'.edges n).filter keeps)) m e = false := by
  rw [Bool.eq_false_iff] at hgo ⊢
  intro hgone
  obtain ⟨a, ha, hedges, honce, hcarrier, hmaximal⟩ := canGo_iff.1 hgone
  rw [Graph.type_setEdges] at hcarrier hmaximal
  rw [Graph.edges_setEdges_filter] at hedges
  split at hedges
  · rename_i heq
    exact hn heq.symm honce hedges
  · exact hgo (canGo_iff.2 ⟨a, ha, hedges, honce, hcarrier, hmaximal⟩)

/-- What is left of a node's edges when it is finished stays, whatever is finished later. -/
theorem Unfills.finish (hg : g.Sound) (hroot : root < g.size)
    (harrivals : u.arrivals = g.committedArrivals root)
    (h : Unfills u g root (g', seen) (.finish n :: waiting)) :
    Unfills u g root
      (g'.setEdges n ((g'.edges n).filter fun e => !u.canGo g' n e), seen) waiting := by
  obtain ⟨hopen, hnodup⟩ := List.nodup_cons.1 h.nodup
  have hdone : ∀ {m}, Done seen waiting m ↔ m = n ∨ Done seen (.finish n :: waiting) m := by
    intro m
    simp only [Done, closing, List.mem_cons, not_or]
    constructor
    · rintro ⟨hm, hnot⟩
      exact or_iff_not_imp_left.2 fun hne => ⟨hm, hne, hnot⟩
    · rintro (rfl | ⟨hm, -, hnot⟩)
      · exact ⟨h.met m (List.mem_cons_self ..), hopen⟩
      · exact ⟨hm, hnot⟩
  have hnot : ¬ Done seen (.finish n :: waiting) n := fun hd => hd.2 (List.mem_cons_self ..)
  exact {
    size_seen := h.size_seen
    below := fun task ht => h.below task (List.mem_cons_of_mem _ ht)
    begun := h.begun.imp_right fun hmem => by
      rcases List.mem_cons.1 hmem with heq | hmem
      · cases heq
      · exact hmem
    met := fun m hm => h.met m (List.mem_cons_of_mem _ hm)
    nodup := hnodup
    inside := h.inside.2
    ready := h.ready.2.mono fun m hm => hm.elim id fun heq => by cases heq
    unfinished := fun {m} hm => by
      rw [Graph.edges_setEdges_filter, if_neg fun heq => hm (hdone.2 (.inl heq.symm))]
      exact h.unfinished fun hd => hm (hdone.2 (.inr hd))
    settled := fun {m e} hm he => by
      rw [Graph.edges_setEdges_filter]
      rcases hdone.1 hm with rfl | hm
      · have htarget : Met seen e.target := h.ready.1 _ (List.mem_map.2 ⟨e, he, rfl⟩)
        refine ⟨htarget, fun honce => ⟨htarget, h.not_closing hg hroot harrivals he honce⟩, ?_⟩
        rw [if_pos rfl]
        intro hkept
        exact canGo_finish_eq_false (by simpa using (List.mem_filter.1 hkept).2)
          fun _ _ => List.ne_nil_of_mem hkept
      · obtain ⟨htarget, honce, hgo⟩ := h.settled hm he
        have hne : n ≠ m := fun heq => hnot (heq ▸ hm)
        refine ⟨htarget, fun hle => hdone.2 (.inr (honce hle)), ?_⟩
        rw [if_neg hne]
        -- an edge that alone leads to the open node is not looked at before that is finished
        exact fun hleft => canGo_finish_eq_false (hgo hleft)
          fun heq hle => absurd (heq ▸ honce hle) hnot }

end Turns

section Run

variable {u : Unfilling} {g : Graph} {root : Nat}

/-- What a turn that enters a node does. -/
theorem Unfills.enter_cases {n : NodeId} {state state' : Graph × Array Bool}
    {tasks waiting : List UnfillTask} (h : Unfills u g root state (.enter n :: waiting))
    (ht : Session.unfillTurn u state (.enter n) = .next state' tasks) :
    (Met state.2 n ∧ state' = state ∧ tasks = []) ∨
      (¬ Met state.2 n ∧ state' = (state.1, state.2.setIfInBounds n true) ∧
        tasks = children g n) := by
  obtain ⟨g', seen⟩ := state
  simp only [Session.unfillTurn] at ht
  split at ht
  · rename_i hmet
    cases ht
    exact .inl ⟨hmet, rfl, rfl⟩
  · rename_i hnew
    cases ht
    have hedges : g'.edges n = g.edges n := h.unfinished fun hd => hnew hd.1
    refine .inr ⟨hnew, rfl, ?_⟩
    rw [List.foldr_cons_eq_append, hedges]
    rfl

variable (hg : g.Sound) (hroot : root < g.size) (harrivals : u.arrivals = g.committedArrivals root)
include hg hroot harrivals

theorem keeps_unfills : Agenda.Keeps (Session.unfillTurn u) (Unfills u g root) := by
  refine ⟨fun {state task waiting state' tasks} h ht => ?_⟩
  cases task with
  | enter n =>
    rcases h.enter_cases ht with ⟨hmet, rfl, rfl⟩ | ⟨hnew, rfl, rfl⟩
    · exact h.pass hmet
    · exact h.enter (Graph.Below.lt hg.edgesLead hroot (h.below _ (List.mem_cons_self ..))) hnew
  | finish n =>
    cases ht
    exact h.finish hg hroot harrivals

theorem run_unfillTurn_ne_spent (state : Graph × Array Bool) (waiting : List UnfillTask) :
    Agenda.run (Session.unfillTurn u) g.weight (g, .replicate g.size false) [.enter root] ≠
      .spent state waiting := by
  have hfuel : 1 + Agenda.leftOver g.size (fun n => (g.edges n).length + 1)
      (Met (.replicate g.size false)) ≤ g.weight := by
    refine g.leftOver_lt_weight _ _ fun n => ?_
    omega
  refine (keeps_unfills hg hroot harrivals).run_ne_spent_of_marks g.size
    (fun n => (g.edges n).length + 1) (fun state => Met state.2) ?_ (unfills_start u g root) hfuel
    state waiting
  intro state task waiting state' tasks h ht
  cases task with
  | enter n =>
    rcases h.enter_cases ht with ⟨-, rfl, rfl⟩ | ⟨hnew, rfl, rfl⟩
    · exact .inl ⟨rfl, fun _ => Iff.rfl⟩
    · have hn : n < g.size :=
        Graph.Below.lt hg.edgesLead hroot (h.below _ (List.mem_cons_self ..))
      refine .inr ⟨n, hn, hnew, fun m => met_enter (h.size_seen.symm ▸ hn), ?_⟩
      simp [children]
  | finish n =>
    cases ht
    exact .inl ⟨rfl, fun _ => Iff.rfl⟩

/-- The walk comes to its end. -/
theorem exists_unfills : ∃ state, Agenda.run (Session.unfillTurn u) g.weight
    (g, .replicate g.size false) [.enter root] = .done state ∧ Unfills u g root state [] := by
  have hspent := run_unfillTurn_ne_spent hg hroot harrivals
  cases hrun : Agenda.run (Session.unfillTurn u) g.weight (g, .replicate g.size false)
      [.enter root] with
  | done state =>
    exact ⟨state, rfl, (keeps_unfills hg hroot harrivals).done (unfills_start u g root) hrun⟩
  | halted state answer waiting => exact answer.elim
  | spent state waiting => exact absurd hrun (hspent state waiting)

end Run

/-- At the end no edge that is left below the root can go. -/
theorem Unfills.canGo_eq_false {u : Unfilling} {g : Graph} {root n : NodeId}
    {state : Graph × Array Bool} (h : Unfills u g root state []) (hn : g.Below root n) {e : Edge}
    (he : e ∈ g.edges n) (hleft : e ∈ state.1.edges n) : u.canGo state.1 n e = false := by
  have hdone : ∀ {n}, Met state.2 n → Done state.2 [] n := fun hm => ⟨hm, List.not_mem_nil⟩
  have hmet : ∀ {n}, g.Below root n → Met state.2 n := by
    intro n hn
    induction hn with
    | refl => exact h.begun.resolve_right List.not_mem_nil
    | tail _ hstep ih =>
      obtain ⟨d, hd, rfl⟩ := hstep
      exact (h.settled (hdone ih) hd).1
  exact (h.settled (hdone (hmet hn)) he).2.2 hleft

theorem canGo_invalidate (u : Unfilling) (g : Graph) (n : NodeId) (e : Edge) :
    u.canGo g.invalidate n e = u.canGo g n e := by
  simp only [canGo, Graph.edges_invalidate, Graph.type_invalidate]

end Unfilling

/-! ## What is left -/

/-- The edge could go if unfilling began now: it alone, of the edges below the root, leads to a node
without edges of the greatest type that the feature allows, and it leads from a node of the type
that introduces the feature, or from any node if that is not asked for. -/
def Graph.Unfillable (grammar : Grammar) (sloppy : Bool) (g : Graph) (root n : NodeId) (e : Edge) :
    Prop :=
  ∃ a, grammar.appropriateness? e.feature = some a ∧ g.edges e.target = [] ∧
    g.type e.target = a.maximal ∧ (sloppy = true ∨ g.type n = a.introducer) ∧
    ∃! p : NodeId × FeatureId, g.Below root p.1 ∧ g.value? p.1 p.2 = some e.target

theorem Graph.Unfillable.lone {grammar : Grammar} {sloppy : Bool} {g : Graph} (hg : g.Sound)
    {root n : NodeId} {e : Edge} (h : g.Unfillable grammar sloppy root n e) (hn : g.Below root n)
    (he : e ∈ g.edges n) : g.shape.Lone root e.target := by
  obtain ⟨a, -, hnone, -, -, p, ⟨hp, hvalue⟩, hunique⟩ := h
  refine ⟨fun heq => ?_, p, ⟨hg.reach_of_below hp, hvalue⟩, fun q hq => ?_⟩
  · -- the root leads on to the node, or is the node
    rw [heq] at hnone
    rcases hn.cases_head with rfl | ⟨m, ⟨d, hd, -⟩, -⟩
    · exact absurd (hnone ▸ he) List.not_mem_nil
    · exact absurd (hnone ▸ hd) List.not_mem_nil
  · exact hunique q ⟨below_of_reach hq.1, hq.2⟩

namespace Session

section Unfill

variable {s : Session} (hg : s.graph.Sound) {root : Nat} (hroot : root < s.graph.size)
  (sloppy : Bool)
include hg hroot

theorem exists_unfill : ∃ state,
    s.unfill root sloppy = ⟨s.grammar, state.1.invalidate, s.failures⟩ ∧
      Unfilling.Unfills ⟨s.grammar, s.graph.committedArrivals root, sloppy⟩ s.graph root
        state [] := by
  obtain ⟨state, hrun, h⟩ := Unfilling.exists_unfills
    (u := ⟨s.grammar, s.graph.committedArrivals root, sloppy⟩) hg hroot rfl
  refine ⟨state, ?_, h⟩
  rw [unfill, hrun]
  rfl

theorem sound_unfill : (s.unfill root sloppy).graph.Sound ∧
    (s.unfill root sloppy).graph.size = s.graph.size := by
  obtain ⟨g', hpruned, hg'⟩ := (s.edits_unfill root sloppy).graph
  rw [hg', Graph.size_invalidate, hpruned.size_eq]
  exact ⟨(hpruned.sound hg hroot).invalidate.1, rfl⟩

/-- No edge that unfilling leaves could go if it began anew. -/
theorem not_unfillable_unfill {n : NodeId} {e : Edge}
    (hn : (s.unfill root sloppy).graph.Below root n)
    (he : e ∈ (s.unfill root sloppy).graph.edges n) :
    ¬ (s.unfill root sloppy).graph.Unfillable s.grammar sloppy root n e := by
  intro hun
  obtain ⟨state, hunfill, h⟩ := exists_unfill hg hroot sloppy
  have htrims := s.trims_unfill root sloppy
  have hthin := htrims.thins hg hroot rfl
  obtain ⟨hsound, -⟩ := sound_unfill hg hroot sloppy
  have hbefore : e ∈ s.graph.edges n := (htrims.sublist n).subset he
  have hbelow : s.graph.Below root n :=
    Graph.below_of_reach (hthin.reach (hsound.reach_of_below hn))
  -- a node that one edge leads to now is one that one edge led to at first
  have honce := hg.arrivals_le_one hroot (hg.target_lt hbefore)
    (hthin.lone (hun.lone hsound hn he))
  obtain ⟨a, ha, hnone, hmaximal, hcarrier, -⟩ := hun
  have hgo : Unfilling.canGo ⟨s.grammar, s.graph.committedArrivals root, sloppy⟩
      (s.unfill root sloppy).graph n e = true :=
    Unfilling.canGo_iff.2 ⟨a, ha, hnone, honce, hcarrier, hmaximal⟩
  rw [hunfill] at he hgo
  rw [Unfilling.canGo_invalidate] at hgo
  rw [Graph.edges_invalidate] at he
  exact absurd hgo (by simp [h.canGo_eq_false hbelow hbefore he])

/-- Unfilling changes nothing where no edge could go. -/
theorem unfill_eq_invalidate
    (hkept : ∀ {n e}, s.graph.Below root n → e ∈ s.graph.edges n →
      ¬ s.graph.Unfillable s.grammar sloppy root n e) : s.unfill root sloppy = s.invalidate := by
  let u : Unfilling := ⟨s.grammar, s.graph.committedArrivals root, sloppy⟩
  have hgo : ∀ {n e}, s.graph.Below root n → e ∈ s.graph.edges n → u.canGo s.graph n e = false := by
    intro n e hn he
    rw [Bool.eq_false_iff]
    intro hgo
    obtain ⟨a, ha, hnone, honce, hcarrier, hmaximal⟩ := Unfilling.canGo_iff.1 hgo
    obtain ⟨-, p, ⟨hp, hvalue⟩, hunique⟩ := hg.lone_of_arrivals hroot hn he honce
    exact hkept hn he ⟨a, ha, hnone, hmaximal, hcarrier, p,
      ⟨Graph.below_of_reach hp, hvalue⟩, fun q hq => hunique q ⟨hg.reach_of_below hq.1, hq.2⟩⟩
  have hkeeps : Agenda.Keeps (unfillTurn u) fun state tasks => state.1 = s.graph ∧
      s.graph.Pruned root state.1 ∧ ∀ task ∈ tasks, s.graph.Below root task.node := by
    refine ⟨fun {state task waiting state' tasks} ⟨heq, h⟩ ht => ?_⟩
    refine ⟨?_, (keeps_pruned_unfill u s.graph root).next h ht⟩
    obtain ⟨g, seen⟩ := state
    obtain rfl : g = s.graph := heq
    cases task with
    | enter n =>
      simp only [unfillTurn] at ht
      split at ht <;> cases ht <;> rfl
    | finish n =>
      cases ht
      have hn : s.graph.Below root n := h.2 _ (List.mem_cons_self ..)
      have hall : (s.graph.edges n).filter (fun e => !u.canGo s.graph n e) = s.graph.edges n :=
        List.filter_eq_self.2 fun e he => by rw [hgo hn he, Bool.not_false]
      show s.graph.setEdges n _ = s.graph
      rw [hall, Graph.setEdges_self]
  have hstart : (s.graph, Array.replicate s.graph.size false).1 = s.graph ∧
      s.graph.Pruned root s.graph ∧
        ∀ task ∈ [UnfillTask.enter root], s.graph.Below root task.node :=
    ⟨rfl, .refl .., List.forall_mem_singleton.2 ReflTransGen.refl⟩
  obtain ⟨_, heq, -⟩ := hkeeps.state s.graph.weight hstart
  exact congrArg (fun g => (⟨s.grammar, g.invalidate, s.failures⟩ : Session)) heq

/-- Unfilling is complete in one pass: no edge that it leaves could go if it began anew, so that
unfilling once more changes nothing. -/
theorem unfill_complete : (∀ {n e}, (s.unfill root sloppy).graph.Below root n →
      e ∈ (s.unfill root sloppy).graph.edges n →
        ¬ (s.unfill root sloppy).graph.Unfillable s.grammar sloppy root n e) ∧
    (s.unfill root sloppy).unfill root sloppy = (s.unfill root sloppy).invalidate := by
  obtain ⟨hsound, hsize⟩ := sound_unfill hg hroot sloppy
  have hnone := fun {n e} => not_unfillable_unfill hg hroot sloppy (n := n) (e := e)
  exact ⟨hnone, unfill_eq_invalidate hsound (hsize.symm ▸ hroot) sloppy hnone⟩

end Unfill

/-- On one branch an edge can go only after another one has gone. -/
theorem unfill_complete_ringed : ringed.graph.Sound ∧ 0 < ringed.graph.size ∧
    [0, 1, 2, 3, 4].map (ringed.unfill 0 false).graph.edges =
      [[⟨1, 2⟩], [], [⟨0, 0⟩], [], []] ∧
    (∀ {n e}, (ringed.unfill 0 false).graph.Below 0 n →
      e ∈ (ringed.unfill 0 false).graph.edges n →
        ¬ (ringed.unfill 0 false).graph.Unfillable ringed.grammar false 0 n e) ∧
    (ringed.unfill 0 false).unfill 0 false = (ringed.unfill 0 false).invalidate :=
  ⟨sound_ringed, by decide +kernel, by decide +kernel,
    unfill_complete sound_ringed (by decide +kernel) false⟩

end Session

end FeatureLogic
