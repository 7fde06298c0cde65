import Mathlib.Algebra.Order.Ring.Unbundled.Basic
import Mathlib.Tactic.Linarith
import FeatureLogic.Proofs.Sample
import FeatureLogic.Proofs.Session.Directions
import FeatureLogic.Proofs.Session.Subsumption

/-!
Both directions at once. The one walk of `Session.relate` ends within its bound and agrees with a
check of each direction alone (`Session.relate_iff_subsumes`).
-/

namespace FeatureLogic

namespace Graph

/-- The number of committed edges. -/
def edgeCount (g : Graph) : Nat := ∑ n ∈ Finset.range g.size, (g.edges n).length

theorem length_edges_le (g : Graph) {n : Nat} (hn : n < g.size) :
    (g.edges n).length ≤ g.edgeCount :=
  Finset.single_le_sum (f := fun n => (g.edges n).length) (fun _ _ => Nat.zero_le _)
    (Finset.mem_range.2 hn)

theorem size_add_edgeCount_lt (g : Graph) : g.size + g.edgeCount < g.weight := by
  have hsum : g.size + g.edgeCount = ∑ n ∈ Finset.range g.size, (1 + (g.edges n).length) := by
    simp [edgeCount, Finset.sum_add_distrib]
  rw [hsum, g.weight_eq, Nat.add_comm 1]
  exact Nat.lt_succ_of_le (Finset.sum_le_sum fun n _ => Nat.le_add_right _ _)

end Graph

namespace Session

/-! ## What the walk keeps -/

/-- What holds of a check of both directions with tasks left to do, however edges are ordered. -/
structure Weighs (s₀ : Session) (r : Relating) (tasks : List RelateTask) : Prop where
  further : s₀.Further r.session
  mirrored : r.Mirrored
  task_lt : ∀ {x y : Nat}, .compare x y ∈ tasks → x < s₀.graph.size ∧ y < s₀.graph.size

/-- What holds of a check of the nodes `a` and `b` of `s₀` with tasks left to do. -/
structure Relates (s₀ : Session) (a b : NodeId) (r : Relating) (tasks : List RelateTask) :
    Prop extends Weighs s₀ r tasks where
  pairing : ∀ d : Direction, d.Holds r.relation →
    s₀.shape.Pairing s₀.hierarchy (d.pick a b) s₀.shape (d.pick b a)
      (d.partner? r.session.graph) (fun x y => d.compare x y ∈ tasks)
      (∃ task ∈ tasks, d.Lacking task)

/-- A direction that has a map is not dropped, and its pairs are made along the map. -/
structure Traces (s₀ : Session) (a b : NodeId) (d : Direction) (μ : NodeId → NodeId)
    (r : Relating) (tasks : List RelateTask) : Prop extends Relates s₀ a b r tasks where
  holds : d.Holds r.relation
  following : s₀.shape.Following (d.pick a b) μ (d.partner? r.session.graph)
    (fun x y => d.compare x y ∈ tasks) (∃ task ∈ tasks, d.Lacking task)

/-- A check of both directions before its first turn. -/
def relating (s : Session) : Relating :=
  ⟨{ s with failures := s.failures.map fun _ => .empty }, .equal⟩

theorem relate_eq (s : Session) (a b : NodeId) : s.relate a b =
    let final := (Agenda.run Relating.turn (2 * (s.graph.weight + 1) * (s.graph.weight + 1))
      s.relating [.compare a b]).state
    (final.relation, final.session.invalidate) :=
  rfl

theorem further_relating (s : Session) : s.Further s.relating.session :=
  .of_graph_eq ⟨.refl _, .refl _⟩ rfl

theorem AtRest.partner?_eq {s : Session} (hr : s.AtRest) (d : Direction) (n : NodeId) :
    d.partner? s.graph n = none := by
  cases d with
  | first => exact Graph.AtRest.forward_eq hr n
  | second => exact congrArg CopyMark.node? (Graph.AtRest.copyMark_eq hr n)

section Weighs

variable {s₀ : Session} {a b : Nat}

theorem weighs_start (hr : s₀.AtRest) (ha : a < s₀.graph.size) (hb : b < s₀.graph.size) :
    Weighs s₀ s₀.relating [.compare a b] where
  further := further_relating s₀
  mirrored _ x y := by
    show Direction.first.partner? s₀.graph x = _ ↔ Direction.second.partner? s₀.graph y = _
    simp [hr.partner?_eq]
  task_lt h := by
    cases List.mem_singleton.1 h
    exact ⟨ha, hb⟩

variable (hs : s₀.grammar.Sound) (hr : s₀.AtRest)
include hs hr

theorem Weighs.turned {r : Relating} {task : RelateTask} {waiting : List RelateTask}
    (h : Weighs s₀ r (task :: waiting)) : r.Turned task (r.turn task) := by
  refine Relating.turned (hs.learned h.further.noted.grammar)
    (h.further.clean fun n => ?_) h.mirrored fun heq => ?_
  · rw [Graph.AtRest.copyMark_eq hr]
    exact CopyMark.noConfusion
  · rw [h.further.noted.graph.size_eq]
    exact h.task_lt (heq ▸ List.mem_cons_self ..)

theorem keeps_weighs (hg : s₀.graph.EdgesLead) : Agenda.Keeps Relating.turn (Weighs s₀) := by
  refine ⟨fun {r task waiting r' tasks} h ht => ?_⟩
  have hturned := h.turned hs hr
  rw [ht] at hturned
  have hmirrored := hturned.mirrored h.mirrored
  cases hturned with
  | passed further passes refutes =>
    exact ⟨h.further.trans further, hmirrored, fun hmem => h.task_lt (List.mem_cons_of_mem _ hmem)⟩
  | joined heq further live joins fits refutes =>
    refine ⟨h.further.trans further, hmirrored, fun {v w} hmem => ?_⟩
    rw [h.further.noted.graph.edges_eq, h.further.noted.graph.edges_eq] at hmem
    rcases List.mem_append.1 hmem with hmem | hmem
    · obtain ⟨d, hd, e, he, rfl, rfl⟩ := of_compare_mem_pairEdges hmem
      exact ⟨hg hd, hg he⟩
    · exact h.task_lt (List.mem_cons_of_mem _ hmem)

end Weighs

section Edges

variable {g : Graph} (hg : g.Sound) (d : Direction) {x y : NodeId}
include hg

/-- The values that are to be compared are those of one feature. -/
theorem compare_mem_iff {v w : NodeId} : d.compare v w ∈ pairEdges x (g.edges x) (g.edges y) ↔
    ∃ f, g.value? (d.pick x y) f = some v ∧ g.value? (d.pick y x) f = some w := by
  cases d <;> exact compare_mem_pairEdges _ x (hg.sorted x) (hg.sorted y)

theorem lacking_mem_iff : (∃ task ∈ pairEdges x (g.edges x) (g.edges y), d.Lacking task) ↔
    ∃ f v, g.value? (d.pick x y) f = some v ∧ g.value? (d.pick y x) f = none := by
  cases d <;> exact lacking_mem_pairEdges _ x (hg.sorted x) (hg.sorted y)

end Edges

section Walk

variable {s₀ : Session} (hs : s₀.Sound) (hr : s₀.AtRest) {a b : Nat}

theorem relates_start (hr : s₀.AtRest) (ha : a < s₀.graph.size) (hb : b < s₀.graph.size) :
    Relates s₀ a b s₀.relating [.compare a b] where
  toWeighs := weighs_start hr ha hb
  pairing d _ := .start (hr.partner?_eq d) (List.mem_singleton.2 (d.compare_pick a b))

theorem traces_start {d : Direction} {μ : NodeId → NodeId} (hr : s₀.AtRest)
    (hroot : μ (d.pick a b) = d.pick b a) (ha : a < s₀.graph.size) (hb : b < s₀.graph.size) :
    Traces s₀ a b d μ s₀.relating [.compare a b] := by
  refine ⟨relates_start hr ha hb, by cases d <;> rfl, .start (hr.partner?_eq d) (fun hmem => ?_) ?_⟩
  · obtain ⟨rfl, rfl⟩ := Direction.eq_pick_of_compare (List.mem_singleton.1 hmem).symm
    exact ⟨rfl, hroot.symm⟩
  · rintro ⟨t, hmem, hlacking⟩
    rw [List.mem_singleton.1 hmem] at hlacking
    exact d.not_lacking_compare a b hlacking

include hs hr

theorem fits_iff {r : Relating} (h : s₀.Further r.session) {x y : NodeId} :
    r.session.Fits x y ↔ s₀.hierarchy.Le (s₀.graph.type y) (s₀.graph.type x) := by
  rw [h.fits_iff hs.grammar, Fits, Graph.AtRest.currentType_eq hr, Graph.AtRest.currentType_eq hr]

theorem keeps_relates : Agenda.Keeps Relating.turn (Relates s₀ a b) := by
  refine ⟨fun {r task waiting r' tasks} h ht => ?_⟩
  have hweighs := (keeps_weighs hs.grammar hr hs.graph.edgesLead).next h.toWeighs ht
  have hturned := h.turned hs.grammar hr
  rw [ht] at hturned
  -- the turn passes the task, or pairs two nodes and asks about their edges
  cases hturned with
  | passed further passes refutes =>
    refine ⟨hweighs, fun d hd => ?_⟩
    have hpass := passes d hd
    rw [funext hpass.partner_eq]
    refine (h.pairing d hpass.holds).pop (fun hmem => ?_) ?_
    · rcases List.mem_cons.1 hmem with heq | hmem
      · exact .inl (hpass.met heq.symm)
      · exact .inr hmem
    · rintro ⟨t, hmem, hlacking⟩
      rcases List.mem_cons.1 hmem with rfl | hmem
      · exact absurd hlacking hpass.not_lacking
      · exact ⟨t, hmem, hlacking⟩
  | joined heq further live joins fits refutes =>
    subst heq
    rename_i x y
    rw [h.further.noted.graph.edges_eq, h.further.noted.graph.edges_eq] at hweighs ⊢
    refine ⟨hweighs, fun d hd => ?_⟩
    have hjoins := joins d hd
    refine (h.pairing d hjoins.holds).push hjoins.partner_eq_none hjoins.partner_eq
      ((fits_iff hs hr h.further).1 (fits d hd)) (fun {f v} hv => ?_) (fun hmem => ?_) ?_
    · cases hw : s₀.shape.value? (d.pick y x) f with
      | none =>
        obtain ⟨t, hmem, hlacking⟩ := (lacking_mem_iff hs.graph d).2 ⟨f, v, hv, hw⟩
        exact .inl ⟨t, List.mem_append_left _ hmem, hlacking⟩
      | some w =>
        refine .inr ⟨w, rfl, List.mem_append_left _ ?_⟩
        exact (compare_mem_iff hs.graph d).2 ⟨f, hv, hw⟩
    · rcases List.mem_cons.1 hmem with heq | hmem
      · exact .inl (Direction.eq_pick_of_compare heq.symm)
      · exact .inr (List.mem_append_right _ hmem)
    · rintro ⟨t, hmem, hlacking⟩
      rcases List.mem_cons.1 hmem with rfl | hmem
      · exact absurd hlacking (d.not_lacking_compare x y)
      · exact ⟨t, List.mem_append_right _ hmem, hlacking⟩

/-! ## Where there is a map -/

variable {d : Direction} {μ : NodeId → NodeId}
  (hμ : s₀.shape.Maps s₀.hierarchy (d.pick a b) s₀.shape μ)
include hμ

theorem Traces.not_refutes {r : Relating} {task : RelateTask} {waiting : List RelateTask}
    (h : Traces s₀ a b d μ r (task :: waiting)) : ¬ d.Refutes task r.session := by
  rintro (hlacking | ⟨x, y, rfl, hcase⟩)
  · exact h.following.complete ⟨task, List.mem_cons_self .., hlacking⟩
  · obtain ⟨hpartner, hle⟩ := h.following.fits hμ (List.mem_cons_self ..)
    rcases hcase with ⟨z, hz, hne⟩ | hfits
    · exact hne (hpartner hz)
    · exact hfits ((fits_iff hs hr h.further).2 hle)

theorem keeps_traces : Agenda.Keeps Relating.turn (Traces s₀ a b d μ) := by
  refine ⟨fun {r task waiting r' tasks} h ht => ?_⟩
  have hrelates := (keeps_relates hs hr).next h.toRelates ht
  have hturned := h.turned hs.grammar hr
  rw [ht] at hturned
  have hd := hturned.holds h.holds (h.not_refutes hs hr hμ)
  cases hturned with
  | passed further passes refutes =>
    refine ⟨hrelates, hd, ?_⟩
    rw [funext (passes d hd).partner_eq]
    exact h.following.pop (List.mem_cons_of_mem _)
      fun ⟨t, hmem, hlacking⟩ => ⟨t, List.mem_cons_of_mem _ hmem, hlacking⟩
  | joined heq further live joins fits refutes =>
    subst heq
    rename_i x y
    refine ⟨hrelates, hd, ?_⟩
    rw [h.further.noted.graph.edges_eq, h.further.noted.graph.edges_eq]
    refine h.following.push hμ ?_ (joins d hd).partner_eq (fun {n m} hmem => ?_) ?_
    · exact d.compare_pick x y ▸ List.mem_cons_self ..
    · rcases List.mem_append.1 hmem with hmem | hmem
      · exact .inr ((compare_mem_iff hs.graph d).1 hmem)
      · exact .inl (List.mem_cons_of_mem _ hmem)
    · rintro ⟨t, hmem, hlacking⟩
      rcases List.mem_append.1 hmem with hmem | hmem
      · exact .inr ((lacking_mem_iff hs.graph d).1 ⟨t, hmem, hlacking⟩)
      · exact .inl ⟨t, List.mem_cons_of_mem _ hmem, hlacking⟩

end Walk

/-! ## The whole walk -/

/-- The work that is left in a direction: for every node without a partner as many tasks as the
nodes of a pair may ask for. -/
noncomputable def unpaired (s₀ : Session) (d : Direction) (r : Relating) : Nat :=
  Agenda.leftOver s₀.graph.size (fun _ => 2 * s₀.graph.edgeCount)
    fun n => d.partner? r.session.graph n ≠ none

theorem unpaired_le_of_further (s₀ : Session) {r r' : Relating}
    (h : r.session.Further r'.session) (d : Direction) : unpaired s₀ d r' ≤ unpaired s₀ d r :=
  Agenda.leftOver_mono _ fun _ => h.partner d

theorem unpaired_of_joins {s₀ : Session} {d : Direction} {x : Nat} {y : NodeId} {r r' : Relating}
    (h : d.Joins x y r r') (hx : x < s₀.graph.size) :
    unpaired s₀ d r' + 2 * s₀.graph.edgeCount = unpaired s₀ d r := by
  refine Agenda.leftOver_mark _ hx (by simp [h.partner_eq_none]) fun m => ?_
  rw [h.partner_eq]
  by_cases hm : x = m
  · simp [hm]
  · simp [hm, Ne.symm hm]

/-- A pair is new in a direction that is left. -/
theorem unpaired_of_live {s₀ : Session} {x y : Nat} {r r' : Relating}
    (hx : x < s₀.graph.size) (hy : y < s₀.graph.size) (further : r.session.Further r'.session)
    (live : ∃ d : Direction, d.Holds r'.relation)
    (joins : ∀ d : Direction, d.Holds r'.relation → d.Joins (d.pick x y) (d.pick y x) r r') :
    unpaired s₀ .first r' + unpaired s₀ .second r' + 2 * s₀.graph.edgeCount ≤
      unpaired s₀ .first r + unpaired s₀ .second r := by
  have hfirst := unpaired_le_of_further s₀ further .first
  have hsecond := unpaired_le_of_further s₀ further .second
  obtain ⟨d, hd⟩ := live
  cases d with
  | first =>
    have := unpaired_of_joins (joins .first hd) hx
    omega
  | second =>
    have := unpaired_of_joins (joins .second hd) hy
    omega

theorem unpaired_le (s₀ : Session) (d : Direction) (r : Relating) :
    unpaired s₀ d r ≤ s₀.graph.size * (2 * s₀.graph.edgeCount) := by
  refine (Agenda.leftOver_le_sum ..).trans (Nat.le_of_eq ?_)
  simp

/-- A turn that goes on with something to do pairs a node in a direction that is left. -/
theorem run_relating_ne_spent {s : Session} (hs : s.grammar.Sound) (hg : s.graph.EdgesLead)
    (hr : s.AtRest) {a b : Nat} (ha : a < s.graph.size) (hb : b < s.graph.size) (r : Relating)
    (waiting : List RelateTask) :
    Agenda.run Relating.turn (2 * (s.graph.weight + 1) * (s.graph.weight + 1)) s.relating
      [.compare a b] ≠ .spent r waiting := by
  -- a turn takes a task away, or leaves a node less without a partner in some direction
  refine (keeps_weighs hs hr hg).run_ne_spent
    (fun r tasks => tasks.length + unpaired s .first r + unpaired s .second r) ?_ ?_
    (weighs_start hr ha hb) ?_ r waiting
  · intro r task waiting _
    simp only [List.length_cons]
    omega
  · intro r task waiting r' tasks h ht
    have hturned := h.turned hs hr
    rw [ht] at hturned
    cases hturned with
    | passed further passes refutes =>
      have hfirst := unpaired_le_of_further s further .first
      have hsecond := unpaired_le_of_further s further .second
      simp only [List.nil_append, List.length_cons]
      omega
    | joined heq further live joins fits refutes =>
      subst heq
      rename_i x y
      obtain ⟨hx, hy⟩ := h.task_lt (List.mem_cons_self ..)
      have hlength : (pairEdges x (r.session.graph.edges x) (r.session.graph.edges y)).length ≤
          2 * s.graph.edgeCount := by
        have hlen := length_pairEdges_le x (r.session.graph.edges x) (r.session.graph.edges y)
        rw [h.further.noted.graph.edges_eq, h.further.noted.graph.edges_eq] at hlen ⊢
        have := s.graph.length_edges_le hx
        have := s.graph.length_edges_le hy
        omega
      have hless := unpaired_of_live hx hy further live joins
      simp only [List.length_append, List.length_cons]
      omega
  · have hfirst := unpaired_le s .first s.relating
    have hsecond := unpaired_le s .second s.relating
    have hweight := s.graph.size_add_edgeCount_lt
    have hbound : 4 * s.graph.size * s.graph.edgeCount ≤ s.graph.weight * s.graph.weight :=
      calc 4 * s.graph.size * s.graph.edgeCount
          ≤ (s.graph.size + s.graph.edgeCount) ^ 2 := four_mul_le_sq_add ..
        _ ≤ s.graph.weight ^ 2 := Nat.pow_le_pow_left hweight.le 2
        _ = s.graph.weight * s.graph.weight := Nat.pow_two _
    simp only [List.length_singleton]
    nlinarith

section Walk

variable {s : Session} (hs : s.Sound) (hr : s.AtRest) {a b : Nat} (ha : a < s.graph.size)
  (hb : b < s.graph.size)
include hs hr ha hb

/-- A direction is left just when its general structure can be mapped to the other one. -/
theorem holds_relate_iff (d : Direction) : d.Holds (s.relate a b).1 ↔
    s.shape.Subsumes s.hierarchy (d.pick a b) s.shape (d.pick b a) := by
  rw [relate_eq]
  cases hrun : Agenda.run Relating.turn (2 * (s.graph.weight + 1) * (s.graph.weight + 1)) s.relating
    [.compare a b] with
  | spent r waiting =>
    exact absurd hrun (run_relating_ne_spent hs.grammar hs.graph.edgesLead hr ha hb r waiting)
  -- the pairing at the end is the map; and a map that exists is traced to the end
  | done r =>
    constructor
    · intro hd
      have hdone := (keeps_relates hs hr).done (relates_start hr ha hb) hrun
      exact (hdone.pairing d hd).subsumes (fun _ _ => List.not_mem_nil)
        fun ⟨_, hmem, _⟩ => List.not_mem_nil hmem
    · rintro ⟨μ, hroot, hμ⟩
      exact ((keeps_traces hs hr hμ).done (traces_start hr hroot ha hb) hrun).holds
  | halted r answer waiting =>
    constructor
    · intro hd
      obtain ⟨r₁, task, h₁, ht⟩ := (keeps_relates hs hr).halted (relates_start hr ha hb) hrun
      have hturned := h₁.turned hs.grammar hr
      rw [ht] at hturned
      cases hturned with
      | ended none refutes => exact absurd hd (none d)
    · rintro ⟨μ, hroot, hμ⟩
      obtain ⟨r₁, task, h₁, ht⟩ :=
        (keeps_traces hs hr hμ).halted (traces_start hr hroot ha hb) hrun
      have hturned := h₁.turned hs.grammar hr
      rw [ht] at hturned
      cases hturned with
      | ended none refutes => exact absurd (refutes d h₁.holds) (h₁.not_refutes hs hr hμ)

end Walk

/-- The walk of a check of both directions comes to its end within its bound, and what it finds of
each direction is what a check of that direction alone finds, also where the structures have cycles
or share nodes. -/
theorem relate_iff_subsumes {s : Session} (hs : s.Sound) (hr : s.AtRest) {a b : Nat}
    (ha : a < s.graph.size) (hb : b < s.graph.size) :
    (∀ r waiting, Agenda.run Relating.turn (2 * (s.graph.weight + 1) * (s.graph.weight + 1))
      s.relating [.compare a b] ≠ .spent r waiting) ∧
    ((s.relate a b).1.firstGeneral = true ↔ (s.subsumes a b).1 = true) ∧
    ((s.relate a b).1.secondGeneral = true ↔ (s.subsumes b a).1 = true) := by
  refine ⟨run_relating_ne_spent hs.grammar hs.graph.edgesLead hr ha hb, ?_, ?_⟩
  · exact (holds_relate_iff hs hr ha hb .first).trans (subsumes_iff hs hr ha hb).symm
  · exact (holds_relate_iff hs hr ha hb .second).trans (subsumes_iff hs hr hb ha).symm

/-- A node that is its own value, and another one that has it as its value. -/
def loop : Session := Sample.session (Sample.grammar [] []) [(.of 1, [⟨0, 0⟩]), (.of 1, [⟨0, 0⟩])]

theorem sound_loop : loop.Sound ∧ loop.AtRest :=
  Sample.sound_session (Sample.sound_grammar (by decide) (by decide) (by decide)) (by decide)

/-- The first direction is dropped when the walk comes to the value that both nodes share. -/
theorem relate_iff_subsumes_loop :
    loop.Sound ∧ loop.AtRest ∧ 0 < loop.graph.size ∧ 1 < loop.graph.size ∧
    (∀ r waiting, Agenda.run Relating.turn
      (2 * (loop.graph.weight + 1) * (loop.graph.weight + 1)) loop.relating [.compare 0 1] ≠
        .spent r waiting) ∧
    ((loop.relate 0 1).1.firstGeneral = true ↔ (loop.subsumes 0 1).1 = true) ∧
    ((loop.relate 0 1).1.secondGeneral = true ↔ (loop.subsumes 1 0).1 = true) ∧
    (loop.relate 0 1).1 = ⟨false, true⟩ := by
  obtain ⟨hends, hfirst, hsecond⟩ :=
    relate_iff_subsumes sound_loop.1 sound_loop.2 (a := 0) (b := 1) (by decide) (by decide)
  exact ⟨sound_loop.1, sound_loop.2, by decide, by decide, hends, hfirst, hsecond,
    by decide +kernel⟩

end Session

end FeatureLogic
