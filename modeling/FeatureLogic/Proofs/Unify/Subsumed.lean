import FeatureLogic.Proofs.Unify.Laws

/-!
Unification with a structure that the other operand subsumes. All nodes are mapped to those of that
structure, and every class that the unification works on holds the node that it is mapped to
(`Homing`). Such a class has the type of that node and, where the node has features, edges: so the
prototype of its type is met already, nothing comes in, and the result is the structure itself.
-/

open Relation

namespace FeatureLogic

/-- The node whose class a task works on. -/
def UnifyTask.subject : UnifyTask → NodeId
  | .pair left _ => left
  | .merge _ _ survivor _ => survivor
  | .resume _ _ first _ => first

namespace Web

/-- The class of a node holds the node that it is mapped to. -/
def Home (W : Web) (μ : NodeId → NodeId) (n : NodeId) : Prop := W.rep n = W.rep (μ n)

/-- A task about classes of which one holds the node that both are mapped to. The edges that are
handed over lead to one node for each feature. -/
def Settles (W : Web) (μ : NodeId → NodeId) : UnifyTask → Prop
  | .pair left right => W.Home μ left ∨ W.Home μ right
  | .merge _ _ survivor incoming => W.Home μ survivor ∧ W.HasEdges (W.rep survivor) ∧
    ∀ f m m', ⟨f, m⟩ ∈ incoming → ⟨f, m'⟩ ∈ incoming → m = m'
  | .resume _ _ _ _ => False

/-- A structure without cycles among the operands, whose nodes the map keeps. -/
structure Target (W₀ : Web) (a b : NodeId) (T : Shape) (t : NodeId) (μ : NodeId → NodeId) :
    Prop where
  acyclic : T.Acyclic t
  fixed : ∀ {n}, T.Reach t n → μ n = n
  region : ∀ {n}, T.Reach t n → Region W₀ a b W₀ n

/-- Nothing is lost and nothing made up while all nodes are mapped to those of `T` below `t`, every
task works on a class that holds the node it is mapped to, and tasks that wait hand edges over to
classes mapped above those of the tasks before them. -/
structure Homing (h : Hierarchy) (W₀ : Web) (a b : NodeId) (T : Shape) (t : NodeId)
    (μ : NodeId → NodeId) (W : Web) (tasks : List UnifyTask) : Prop where
  guided : Guided h W₀ a b T t μ W tasks
  lossless : Lossless h a b W tasks
  agrees : T.Agrees W.shape W₀.size
  size_eq : W.size = W₀.size
  settles : ∀ task ∈ tasks, W.Settles μ task
  first : ∀ left right, .pair left right ∉ tasks.tail
  nested : tasks.Pairwise fun inner outer => TransGen T.Step (μ outer.subject) (μ inner.subject)

section Homing

variable {g : Grammar} {W₀ W W' : Web} {a b t : NodeId} {T : Shape} {μ : NodeId → NodeId}
  {task : UnifyTask} {tasks waiting : List UnifyTask}

/-- The node that a node of the region is mapped to is of the region and mapped to itself. -/
theorem Homing.image {n : NodeId} (h : Homing g.hierarchy W₀ a b T t μ W tasks)
    (hT : Target W₀ a b T t μ) (hn : Region W₀ a b W n) :
    Region W₀ a b W (μ n) ∧ μ n < W₀.size ∧ μ (μ n) = μ n := by
  have hreach := h.guided.reach hn
  have hregion := hT.region hreach
  exact ⟨hregion.mono h.guided.closed.size_le, hregion.start.1, hT.fixed hreach⟩

/-- A class that holds the node it is mapped to has its type: it is no less special, as nothing is
lost, and no more, as nothing is made up. -/
theorem Homing.type_eq {n : NodeId} (h : Homing g.hierarchy W₀ a b T t μ W tasks)
    (hT : Target W₀ a b T t μ) (hg : g.Sound) (hW : W.Sound) (hn : Region W₀ a b W n)
    (hhome : W.Home μ n) : W.type (W.rep n) = T.type (μ n) := by
  obtain ⟨hregion, hlt, -⟩ := h.image hT hn
  have hle := h.lossless.type_le (h.guided.closed.lt hregion)
  rw [← hhome, h.agrees.type_eq hlt] at hle
  have hge := h.guided.type_le (h.guided.closed.rep hn) (hW.rep_rep n)
  rw [h.guided.rep hn] at hge
  exact hg.lattice.hierarchy.le_antisymm hle hge

/-- A class that holds the node it is mapped to has edges if that node has features. -/
theorem Homing.hasEdges {n : NodeId} (h : Homing g.hierarchy W₀ a b T t μ W tasks)
    (hT : Target W₀ a b T t μ) (hn : Region W₀ a b W n) (hhome : W.Home μ n) {f : FeatureId}
    {m : NodeId} (hm : T.value? (μ n) f = some m) : W.HasEdges (W.rep n) := by
  obtain ⟨hregion, hlt, -⟩ := h.image hT hn
  rw [← h.agrees.value_eq hlt] at hm
  obtain ⟨k, hhas, -⟩ := h.lossless.value (h.guided.closed.lt hregion) hm
  rw [hhome]
  rcases hhas with hedge | ⟨_, _, survivor, incoming, hmem, hrep, -⟩
  · exact ⟨f, k, hedge⟩
  · exact hrep ▸ (h.settles _ hmem).2.1

/-- Two classes to be unified have met the prototype of the type that they get: one of them holds
the node they are mapped to, so it has that type already. -/
theorem Homing.covered {left right : NodeId}
    (h : Homing g.hierarchy W₀ a b T t μ W (.pair left right :: waiting))
    (hT : Target W₀ a b T t μ) (hg : g.Sound) (hW : W.Sound) :
    W.Covered (W.rep left) (W.rep right)
      (g.lattice.glb (W.type (W.rep left)) (W.type (W.rep right))) := by
  have hl := h.guided.closed.task (List.mem_cons_self ..) (.inl rfl)
  have hr := h.guided.closed.task (List.mem_cons_self ..) (.inr rfl)
  have heq : μ left = μ right := h.guided.task (List.mem_cons_self ..)
  obtain ⟨-, -, hle⟩ := h.guided.le_glb hg hW
  rw [h.guided.rep hl] at hle
  have hhome : ∃ z, (z = left ∨ z = right) ∧ Region W₀ a b W z ∧ W.Home μ z ∧ μ z = μ left := by
    rcases h.settles _ (List.mem_cons_self ..) with hhome | hhome
    · exact ⟨left, .inl rfl, hl, hhome, rfl⟩
    · exact ⟨right, .inr rfl, hr, hhome, heq.symm⟩
  obtain ⟨z, hz, hregion, hhome, hμ⟩ := hhome
  have htype := h.type_eq hT hg hW hregion hhome
  rw [hμ] at htype
  have hglb : g.lattice.glb (W.type (W.rep left)) (W.type (W.rep right)) = W.type (W.rep z) := by
    refine hg.lattice.hierarchy.le_antisymm ?_ (htype ▸ hle)
    rcases hz with rfl | rfl
    · exact Lattice.glb_le_left hg.lattice.hierarchy _ _
    · exact Lattice.glb_le_right hg.lattice.hierarchy _ _
  by_cases hedges : W.HasEdges (W.rep left) ∨ W.HasEdges (W.rep right)
  · -- an edge of either class is one of the node that both are mapped to
    have hvalue : ∃ f m, T.value? (μ z) f = some m := by
      rw [hμ]
      rcases hedges with ⟨f, m, hm⟩ | ⟨f, m, hm⟩
      · exact ⟨f, _, h.guided.rep hl ▸ h.guided.edge (h.guided.closed.rep hl) (hW.rep_rep _) hm⟩
      · exact ⟨f, _, heq ▸ h.guided.rep hr ▸
          h.guided.edge (h.guided.closed.rep hr) (hW.rep_rep _) hm⟩
    obtain ⟨f, m, hm⟩ := hvalue
    exact .inr ⟨W.rep z, hz.imp (congrArg W.rep) (congrArg W.rep), hglb.symm,
      h.hasEdges hT hregion hhome hm⟩
  · exact .inl (not_or.1 hedges)

/-- So nothing comes in. -/
theorem Homing.size_step (h : Homing g.hierarchy W₀ a b T t μ W (task :: waiting))
    (hT : Target W₀ a b T t μ) (hg : g.Sound) (hW : W.Sound) (hs : UnifyStep g W task W' tasks) :
    W'.size = W.size := by
  rcases hs.size_eq_or with hsize | ⟨left, right, type, root, κ, rfl, -, rfl, -, hmissed, -⟩
  · exact hsize
  · exact absurd (h.covered hT hg hW) hmissed

/-- Where the first task hands an edge over to a class that has the feature, one of the two values
holds the node that both are mapped to: the node of the class has the feature, and no other task
hands edges over to this class, as the structure has no cycle. -/
theorem Homing.home_value {left right survivor existing : NodeId} {e : Edge} {rest : List Edge}
    (h : Homing g.hierarchy W₀ a b T t μ W (.merge left right survivor (e :: rest) :: waiting))
    (hT : Target W₀ a b T t μ) (hW : W.Sound)
    (hexisting : W.edge? (W.rep survivor) e.feature = some existing) :
    W.Home μ existing ∨ W.Home μ e.target := by
  have hregion := h.guided.closed.task (List.mem_cons_self ..) (.inl rfl)
  obtain ⟨hhome, -, hunique⟩ := h.settles _ (List.mem_cons_self ..)
  obtain ⟨himage, hlt, -⟩ := h.image hT hregion
  have hfits : ∀ d ∈ e :: rest, T.value? (μ survivor) d.feature = some (μ d.target) :=
    h.guided.task (List.mem_cons_self ..)
  have hvalue := hfits e (List.mem_cons_self ..)
  have hvalue' := h.guided.edge (h.guided.closed.rep hregion) (hW.rep_rep _) hexisting
  rw [h.guided.rep hregion, hvalue] at hvalue'
  have heq : μ existing = μ e.target := (Option.some.inj hvalue').symm
  rw [← h.agrees.value_eq hlt] at hvalue
  obtain ⟨k, hhas, hjoined⟩ := h.lossless.value (h.guided.closed.lt himage) hvalue
  -- only the first task could be to unify two classes, and it is not
  have hrep : W.rep k = W.rep (μ e.target) := by
    refine hjoined.rep_eq_of_due fun hdue => ?_
    rcases hdue with hrep | hmem | ⟨_, _, hmem⟩
    · exact hrep
    · rcases List.mem_cons.1 hmem with hmem | hmem
      · cases hmem
      · exact absurd hmem (h.first _ _)
    · exact (h.settles _ hmem).elim
  rcases hhas with hedge | ⟨_, _, survivor', incoming, hmem, hsame, he⟩
  · rw [← hhome, hexisting] at hedge
    cases hedge
    exact .inl (hrep.trans (congrArg W.rep heq).symm)
  · rcases List.mem_cons.1 hmem with hmem | hmem
    · cases hmem
      rw [hunique _ _ _ he (List.mem_cons_self ..)] at hrep
      exact .inr hrep
    · -- a task that waits for the same class would have a cycle lead back to it
      have hμ : μ survivor' = μ survivor := by
        have hregion' := h.guided.closed.task (List.mem_cons_of_mem _ hmem) (.inl rfl)
        rw [← h.guided.rep hregion', hsame, h.guided.rep himage, hT.fixed (h.guided.reach hregion)]
      have hcycle := (List.pairwise_cons.1 h.nested).1 _ hmem
      simp only [UnifyTask.subject, hμ] at hcycle
      exact absurd hcycle (hT.acyclic (h.guided.reach hregion))

/-- A task that waits on is about such a class still. -/
theorem Homing.settles_step {task' : UnifyTask}
    (h : Homing g.hierarchy W₀ a b T t μ W (task :: waiting)) (hW : W.Sound)
    (hs : UnifyStep g W task W' tasks) (hmem : task' ∈ task :: waiting) (h' : W.Settles μ task') :
    W'.Settles μ task' := by
  cases task' with
  | pair left right => exact h'.imp (fun hhome => hs.rep_congr hhome) fun hhome => hs.rep_congr hhome
  | merge left right survivor incoming =>
    obtain ⟨hhome, hedges, hunique⟩ := h'
    exact ⟨hs.rep_congr hhome,
      hs.hasEdges hW (h.guided.closed.lt (h.guided.closed.task hmem (.inl rfl))) hedges, hunique⟩
  | resume left right first second => exact h'

/-- What is handed over when one of two classes is taken into the other is handed over to a class
that holds the node it is mapped to. -/
theorem Homing.settles_absorb {left right survivor absorbed : NodeId} {type : TypeId}
    {incoming : List Edge} (h : Homing g.hierarchy W₀ a b T t μ W (.pair left right :: waiting))
    (hW : W.Sound)
    (hreps : (survivor = W.rep left ∧ absorbed = W.rep right) ∨
      (survivor = W.rep right ∧ absorbed = W.rep left))
    (hunion : W.Union survivor absorbed type W') (hedges : W.HasEdges survivor)
    (hincoming : ∀ f m, W.edge? absorbed f = some m ↔ ⟨f, m⟩ ∈ incoming) :
    W'.Settles μ (.merge left right survivor incoming) ∧ μ survivor = μ left := by
  have hl := h.guided.closed.task (List.mem_cons_self ..) (.inl rfl)
  have hr := h.guided.closed.task (List.mem_cons_self ..) (.inr rfl)
  have heq : μ left = μ right := h.guided.task (List.mem_cons_self ..)
  obtain ⟨hself, -⟩ := sides (P := fun z => W.rep z = z ∧ μ z = μ left) hreps
    ⟨hW.rep_rep _, h.guided.rep hl⟩ ⟨hW.rep_rep _, (h.guided.rep hr).trans heq.symm⟩
  -- both classes are that of the survivor now
  have hboth : W'.rep left = survivor ∧ W'.rep right = survivor :=
    ⟨hunion.rep_of_mem (mem_sides hreps).1, hunion.rep_of_mem (mem_sides hreps).2⟩
  have hsurvivor : W'.rep survivor = survivor := hunion.rep_of_mem (.inl hself.1)
  have himage : W'.rep (μ left) = survivor := by
    rcases h.settles _ (List.mem_cons_self ..) with hhome | hhome
    · exact (hunion.rep_congr hhome).symm.trans hboth.1
    · rw [heq]
      exact (hunion.rep_congr hhome).symm.trans hboth.2
  refine ⟨⟨?_, ?_, fun f m m' hm hm' => ?_⟩, hself.2⟩
  · show W'.rep survivor = W'.rep (μ survivor)
    rw [hself.2, himage, hsurvivor]
  · rwa [hsurvivor, HasEdges, hunion.edge_eq]
  · rw [← hincoming] at hm hm'
    exact Option.some.inj (hm.symm.trans hm')

/-- What a step asks for. -/
theorem Homing.asked (h : Homing g.hierarchy W₀ a b T t μ W (task :: waiting))
    (hT : Target W₀ a b T t μ) (hW : W.Sound) (hs : UnifyStep g W task W' tasks)
    (hsize : W'.size = W.size) :
    (∀ task' ∈ tasks, W'.Settles μ task' ∧ T.Reach (μ task.subject) (μ task'.subject)) ∧
      (∀ left right, .pair left right ∉ tasks.tail) ∧
      tasks.Pairwise fun inner outer => TransGen T.Step (μ outer.subject) (μ inner.subject) := by
  have hself := h.settles _ (List.mem_cons_self ..)
  cases hs with
  | met | merged => simp
  | complete hne htype hbottom hproto hmissed himport => exact absurd hsize himport.size_lt.ne'
  | resume => exact hself.elim
  | absorb hreps hne htype hbottom hcovered hunion htasks =>
    rcases htasks with ⟨rfl, -⟩ | ⟨incoming, rfl, hedges, hincoming⟩
    · simp
    · obtain ⟨hsettles, heq⟩ := h.settles_absorb hW hreps hunion hedges hincoming
      refine ⟨fun task' hmem => ?_, by simp, List.pairwise_singleton ..⟩
      rw [List.mem_singleton.1 hmem]
      exact ⟨hsettles, heq ▸ ReflTransGen.refl⟩
  | @shared left right survivor existing e rest hexisting =>
    obtain ⟨hhome, hedges, hunique⟩ := hself
    have hregion := h.guided.closed.task (List.mem_cons_self ..) (.inl rfl)
    have hvalue := h.guided.edge (h.guided.closed.rep hregion) (hW.rep_rep _) hexisting
    rw [h.guided.rep hregion] at hvalue
    have hstep : T.Step (μ survivor) (μ existing) := ⟨_, hvalue⟩
    refine ⟨fun task' hmem => ?_, by simp, ?_⟩
    · rcases List.mem_cons.1 hmem with rfl | hmem
      · exact ⟨h.home_value hT hW hexisting, .single hstep⟩
      · rw [List.mem_singleton.1 hmem]
        exact ⟨⟨hhome, hedges, fun f m m' hm hm' => hunique f m m' (List.mem_cons_of_mem _ hm)
          (List.mem_cons_of_mem _ hm')⟩, ReflTransGen.refl⟩
    · exact List.pairwise_pair.2 (.single hstep)
  | @gained _ left right survivor e rest hnone hgain =>
    obtain ⟨hhome, hedges, hunique⟩ := h.settles_step hW (.gained hnone hgain)
      (List.mem_cons_self ..) hself
    refine ⟨fun task' hmem => ?_, by simp, List.pairwise_singleton ..⟩
    rw [List.mem_singleton.1 hmem]
    exact ⟨⟨hhome, hedges, fun f m m' hm hm' => hunique f m m' (List.mem_cons_of_mem _ hm)
      (List.mem_cons_of_mem _ hm')⟩, ReflTransGen.refl⟩

theorem Homing.step (h : Homing g.hierarchy W₀ a b T t μ W (task :: waiting))
    (hT : Target W₀ a b T t μ) (hg : g.Sound) (hW : W.Sound) (hs : UnifyStep g W task W' tasks) :
    Homing g.hierarchy W₀ a b T t μ W' (tasks ++ waiting) := by
  have hsize := h.size_step hT hg hW hs
  obtain ⟨hasked, hfirst, hnested⟩ := h.asked hT hW hs hsize
  obtain ⟨hhead, hrest⟩ := List.pairwise_cons.1 h.nested
  have hgrows : W.shape.Agrees W'.shape W.size := ⟨hs.grows.shape_type_eq, hs.grows.shape_value_eq⟩
  refine ⟨h.guided.step_of_size_eq hg hW hs hsize, h.lossless.step hg hW hs,
    h.agrees.trans hgrows h.guided.closed.size_le, hsize.trans h.size_eq, fun task' hmem => ?_,
    fun left right => ?_, ?_⟩
  · rcases List.mem_append.1 hmem with hmem | hmem
    · exact (hasked _ hmem).1
    · have hmem := List.mem_cons_of_mem task hmem
      exact h.settles_step hW hs hmem (h.settles _ hmem)
  · cases tasks with
    | nil => exact fun hmem => h.first left right (List.mem_of_mem_tail hmem)
    | cons asked tasks =>
      rw [List.cons_append, List.tail_cons, List.mem_append, not_or]
      exact ⟨hfirst left right, h.first left right⟩
  · refine List.pairwise_append.2 ⟨hnested, hrest, fun inner hinner outer houter => ?_⟩
    exact (hhead outer houter).trans_left (hasked inner hinner).2

end Homing

end Web

/-- Without an episode the structure of the web is all there is. -/
theorem Graph.AtRest.withShape_settled {g : Graph} (h : g.AtRest) :
    g.web.withShape g.web.settled = g.web := by
  have hrep : g.web.rep = id := funext h.web_rep
  have hsettled : g.web.settled = g.web.view := by
    unfold Web.settled Web.view
    rw [hrep]
    rfl
  rw [hsettled, h.view_eq]
  rfl

namespace Session

/-- One of two operands is a structure without cycles and impossible types, and a map of both leaves
it as it is. -/
structure Fitting (s : Session) (a b t : NodeId) (μ : NodeId → NodeId) : Prop where
  left : s.shape.Maps s.hierarchy a s.shape μ
  right : s.shape.Maps s.hierarchy b s.shape μ
  root : μ a = t
  root' : μ b = t
  operand : t = a ∨ t = b
  acyclic : s.shape.Acyclic t
  possible : ∀ {n}, s.shape.Reach t n → s.shape.type n ≠ .bottom

theorem Fitting.symm {s : Session} {a b t : NodeId} {μ : NodeId → NodeId} (h : s.Fitting a b t μ) :
    s.Fitting b a t μ :=
  ⟨h.right, h.left, h.root', h.root, h.operand.symm, h.acyclic, h.possible⟩

/-- From some budget on, the unification of `a` and `b` has a result, isomorphic to the structure
below `c`. -/
def UnifiesTo (s : Session) (a b c : NodeId) : Prop :=
  ∃ fuel r s', (∀ budget ≥ fuel, s.unifyInto budget a b unrestricted = some (some r, s')) ∧
    s.shape.Isomorphic c s'.shape r

/-- The nodes `a` and `b` unify, and no node is made before the result is copied: new nodes are
those of prototypes. -/
def AddsNothing (s : Session) (a b : NodeId) : Prop :=
  ∃ fuel s₁, (∀ budget ≥ fuel, s.entangle budget a b = some (true, s₁)) ∧
    s₁.graph.size = s.graph.size

section Fitting

variable {s : Session} (hs : s.Sound) (hr : s.AtRest) {a b t : Nat} (ha : a < s.graph.size)
  (hb : b < s.graph.size) {μ : NodeId → NodeId} (h : s.Fitting a b t μ)
include hs hr ha hb h

theorem Fitting.target : Web.Target s.graph.web a b s.shape t μ where
  acyclic := h.acyclic
  fixed hn := by
    rcases h.operand with rfl | rfl
    · exact h.left.eq_self h.root hn
    · exact h.right.eq_self h.root' hn
  region {n} hn := by
    have hview : s.graph.web.view = s.shape := hr.view_eq
    refine .inl ?_
    rw [hview, hr.web_rep, hr.web_rep, hr.web_rep]
    have he := Graph.entangled_of_atRest hs.graph hr
    rcases h.operand with rfl | rfl
    · exact ⟨he.web_sound.shape_reach_lt ha hn, .inl hn⟩
    · exact ⟨he.web_sound.shape_reach_lt hb hn, .inr hn⟩

theorem Fitting.homing :
    Web.Homing s.hierarchy s.graph.web a b s.shape t μ s.graph.web [.pair a b] := by
  have he := Graph.entangled_of_atRest hs.graph hr
  have hview : s.graph.web.view = s.shape := hr.view_eq
  have hμ : μ ∘ s.graph.web.rep = μ := by
    rw [show s.graph.web.rep = id from funext hr.web_rep]
    rfl
  have hguided := Web.guided_start (x := t) (μ := μ) (T := s.shape) (h := s.hierarchy)
    he.web_sound ha hb
  rw [hview, hr.web_rep, hr.web_rep, hμ] at hguided
  refine ⟨hguided h.left h.right h.root (h.root.trans h.root'.symm), ?_, .refl _ _, rfl, ?_, by simp,
    List.pairwise_singleton ..⟩
  · have hlossless := lossless_start he.web_sound s.hierarchy
      (Web.joined_of_pair (List.mem_singleton.2 rfl) : s.graph.web.Joined [.pair a b] a b)
    rwa [hr.withShape_settled] at hlossless
  · intro task hmem
    rw [List.mem_singleton.1 hmem]
    rcases h.operand with rfl | rfl
    · exact .inl (congrArg _ h.root.symm)
    · exact .inr (congrArg _ h.root'.symm)

/-- The unification comes to its end, without new nodes, and what comes about is the structure that
both operands fit. -/
theorem Fitting.exists_run : ∃ fuel s₁,
    (∀ budget ≥ fuel, Agenda.run unifyTurn budget s [.pair a b] = .done s₁) ∧
      s₁.graph.size = s.graph.size ∧
      s₁.graph.web.view.Isomorphic (s₁.graph.web.rep a) s.shape t := by
  have he := Graph.entangled_of_atRest hs.graph hr
  have hT := h.target hs hr ha hb
  have hkeeps : Agenda.Keeps unifyTurn fun s' tasks => Unifying s s' tasks ∧
      Web.Homing s.hierarchy s.graph.web a b s.shape t μ s'.graph.web tasks := by
    refine ⟨fun ⟨hu, hh⟩ ht => ?_⟩
    obtain ⟨hstep, hu'⟩ := unifyTurn_next hu ht
    exact ⟨hu', hh.step hT hs.grammar hu.graph.web_sound hstep⟩
  have hstart := h.homing hs hr ha hb
  obtain ⟨fuel, hfuel⟩ := exists_fuel_of_size_eq _ hkeeps
    (fun hW hh hstep => hh.size_step hT hs.grammar hW hstep) (unifying_start hs he ha hb) hstart
  cases hrun : Agenda.run unifyTurn fuel s [.pair a b] with
  | spent s₁ waiting => exact absurd hrun (hfuel s₁ waiting)
  | halted s₁ answer waiting =>
    -- types that fit a possible type do not clash
    obtain ⟨s₂, task, ⟨hu, hh⟩, ht⟩ := hkeeps.halted ⟨unifying_start hs he ha hb, hstart⟩ hrun
    obtain ⟨left, right, rfl, -, hbottom, -⟩ := unifyTurn_halt hu ht
    exact absurd hbottom
      (hh.guided.glb_ne_bottom hs.grammar hu.graph.web_sound h.possible)
  | done s₁ =>
    obtain ⟨hu, hh⟩ := hkeeps.done ⟨unifying_start hs he ha hb, hstart⟩ hrun
    refine ⟨fuel, s₁, fun budget hbudget => ?_, hh.size_eq, ?_⟩
    · obtain ⟨extra, rfl⟩ := Nat.exists_eq_add_of_le hbudget
      rw [Agenda.run_add hfuel, hrun]
    · obtain ⟨hleft, hright, heq⟩ := maps_of_done_atRest hs hr ha hb hrun
      refine Shape.isomorphic_of_subsumes hs.grammar.lattice.hierarchy
        (hh.guided.subsumes hu.graph.web_sound) ?_
      rcases h.operand with rfl | rfl
      · exact ⟨_, rfl, hleft⟩
      · exact ⟨_, heq.symm, hright⟩

theorem Fitting.unifiesTo : s.UnifiesTo a b t := by
  have he := Graph.entangled_of_atRest hs.graph hr
  obtain ⟨fuel, s₁, hrun, -, hiso⟩ := h.exists_run hs hr ha hb
  have hspent : ∀ s' waiting, Agenda.run unifyTurn fuel s [.pair a b] ≠ .spent s' waiting := by
    intro s' waiting
    rw [hrun fuel (Nat.le_refl _)]
    nofun
  obtain ⟨answer, s', hall⟩ := unifyInto_of_ne_spent hspent unrestricted
  obtain ⟨-, -, -, hended⟩ := ended_unifyInto hs he ha hb (hall fuel (Nat.le_refl _))
  cases hended with
  | result hrun' hk hcopy =>
    cases hrun'.symm.trans (hrun fuel (Nat.le_refl _))
    exact ⟨fuel, _, s', hall, hiso.symm.trans (hcopy rfl).2⟩
  | cyclic hrun' hcycle =>
    cases hrun'.symm.trans (hrun fuel (Nat.le_refl _))
    exact absurd ((hiso.subsumes s.hierarchy).acyclic h.acyclic) hcycle
  | clash hrun' => cases hrun'.symm.trans (hrun fuel (Nat.le_refl _))

theorem Fitting.addsNothing : s.AddsNothing a b := by
  obtain ⟨fuel, s₁, hrun, hsize, -⟩ := h.exists_run hs hr ha hb
  refine ⟨fuel, s₁, fun budget hbudget => ?_, hsize⟩
  simp only [entangle, unifyNodes, hrun budget hbudget, Option.map_some, if_true]

end Fitting

section Subsumed

variable {s : Session} (hs : s.Sound) (hr : s.AtRest) {a b t : Nat} (ha : a < s.graph.size)
  (hb : b < s.graph.size)
include hs hr

/-- Where the first of two structures without common nodes subsumes the second, both fit the
second. -/
theorem exists_fitting (ht : t < s.graph.size) (ha : a < s.graph.size)
    (hapart : ∀ n, s.shape.Reach a n → ¬ s.shape.Reach t n) (hacyclic : s.shape.Acyclic t)
    (hpossible : ∀ n, s.shape.Reach t n → s.graph.type n ≠ .bottom)
    (hsub : (s.subsumes a t).1 = true) : ∃ μ, s.Fitting a t t μ := by
  rw [subsumes_iff hs hr ha ht] at hsub
  obtain ⟨μ, hleft, hright, hroot, heq⟩ := Shape.exists_maps_of_apart hapart hsub (.refl _ _ _)
  exact ⟨μ, hleft, hright, hroot, heq ▸ hroot, .inr rfl, hacyclic, fun hn => hpossible _ hn⟩

include ha hb

/-- Both operands subsume what they unify to. -/
theorem UnifiesTo.subsumes (h : s.UnifiesTo a b t) (ht : t < s.graph.size) :
    (s.subsumes a t).1 = true ∧ (s.subsumes b t).1 = true := by
  obtain ⟨fuel, r, s', hall, hiso⟩ := h
  obtain ⟨-, -, -, hended⟩ := ended_unifyInto hs (Graph.entangled_of_atRest hs.graph hr) ha hb
    (hall fuel (Nat.le_refl _))
  cases hended with
  | result hrun hk hcopy =>
    obtain ⟨hleft, hright, heq⟩ := maps_of_done_atRest hs hr ha hb hrun
    have hcopied := ((hcopy rfl).2.trans hiso.symm).subsumes s.hierarchy
    have horder := hs.grammar.lattice.hierarchy
    rw [subsumes_iff hs hr ha ht, subsumes_iff hs hr hb ht]
    exact ⟨.trans horder ⟨_, rfl, hleft⟩ hcopied, .trans horder ⟨_, heq.symm, hright⟩ hcopied⟩

end Subsumed

/-- Unification and subsumption agree, whatever the prototypes: a structure `a` subsumes a structure
`t` that has no node in common with it, no cycle and no impossible type if and only if the result of
their unification, in either order, is isomorphic to `t`; and then no prototype comes in. -/
theorem subsumes_iff_unifiesTo {s : Session} (hs : s.Sound) (hr : s.AtRest) {a t : Nat}
    (ha : a < s.graph.size) (ht : t < s.graph.size)
    (hapart : ∀ n, s.shape.Reach a n → ¬ s.shape.Reach t n) (hacyclic : s.shape.Acyclic t)
    (hpossible : ∀ n, s.shape.Reach t n → s.graph.type n ≠ .bottom) :
    ((s.subsumes a t).1 = true ↔ s.UnifiesTo a t t) ∧
      ((s.subsumes a t).1 = true ↔ s.UnifiesTo t a t) ∧
      ((s.subsumes a t).1 = true → s.AddsNothing a t ∧ s.AddsNothing t a) := by
  have hfitting := exists_fitting hs hr ht ha hapart hacyclic hpossible
  refine ⟨⟨fun hsub => ?_, fun h => (h.subsumes hs hr ha ht ht).1⟩,
    ⟨fun hsub => ?_, fun h => (h.subsumes hs hr ht ha ht).2⟩, fun hsub => ?_⟩
  · obtain ⟨μ, h⟩ := hfitting hsub
    exact h.unifiesTo hs hr ha ht
  · obtain ⟨μ, h⟩ := hfitting hsub
    exact h.symm.unifiesTo hs hr ht ha
  · obtain ⟨μ, h⟩ := hfitting hsub
    exact ⟨h.addsNothing hs hr ha ht, h.symm.addsNothing hs hr ht ha⟩

/-- Two nodes of the first structure are one node of the second, whose type has a prototype with a
feature that is met already. -/
def sharing : Session :=
  Sample.session (Sample.grammar [(.of 3, [⟨0, 1⟩]), (.of 2, [])] [(.of 3, 0)])
    [(.of 1, [⟨0, 1⟩, ⟨1, 2⟩]), (.top, []), (.of 2, []), (.of 3, [⟨0, 4⟩, ⟨1, 4⟩]), (.of 2, [])]

theorem sound_sharing : sharing.Sound ∧ sharing.AtRest :=
  Sample.sound_session (Sample.sound_grammar (by decide) (by decide) (by decide))
    (by decide)

theorem subsumes_iff_unifiesTo_sharing :
    (sharing.subsumes 0 3).1 = true ∧ sharing.UnifiesTo 0 3 3 ∧ sharing.UnifiesTo 3 0 3 ∧
      sharing.AddsNothing 0 3 ∧ sharing.AddsNothing 3 0 := by
  have hgraph := sound_sharing.1.graph
  have hbelow : ∀ n, sharing.shape.Reach 3 n → n ∈ [3, 4] :=
    fun n hn => hgraph.mem_of_reach [3, 4] (by decide) (by decide) hn
  have hsub : (sharing.subsumes 0 3).1 = true := by decide +kernel
  obtain ⟨hleft, hright, hnothing⟩ := subsumes_iff_unifiesTo sound_sharing.1 sound_sharing.2
    (a := 0) (t := 3) (by decide) (by decide)
    (hgraph.apart_of_disjoint [0, 1, 2] (by decide) (by decide) (by decide : 3 ∈ [3, 4])
      (by decide) (by decide))
    (hgraph.acyclic_of_lt [3, 4] (by decide) (by decide))
    fun n hn => by
      have htypes : ∀ n ∈ [3, 4], sharing.graph.type n ≠ .bottom := by decide
      exact htypes n (hbelow n hn)
  exact ⟨hsub, hleft.1 hsub, hright.1 hsub, hnothing hsub⟩

end Session

end FeatureLogic
