import FeatureLogic.Session.Subsume
import FeatureLogic.Proofs.Agenda
import FeatureLogic.Proofs.Pairing
import FeatureLogic.Proofs.Session.Stamps

/-!
Subsumption. The walk that pairs the nodes of two structures comes to its end just when the first
structure can be mapped to the second (`Session.subsumes_iff`).
-/

namespace FeatureLogic

namespace Session

/-! ## Matching edges -/

theorem length_matchEdges_le (specific list : List Edge) :
    (matchEdges specific list).length ≤ list.length := by
  induction list with
  | nil => exact Nat.le_refl _
  | cons e rest ih =>
    unfold matchEdges
    split
    · simpa using ih
    · simp

/-- An edge is matched, or the match breaks off. -/
theorem matched_of_mem (specific : List Edge) {list : List Edge} {e : Edge} (he : e ∈ list) :
    .missing ∈ matchEdges specific list ∨ ∃ m, Edges.target? e.feature specific = some m ∧
      .compare e.target m ∈ matchEdges specific list := by
  induction list with
  | nil => cases he
  | cons d rest ih =>
    unfold matchEdges
    cases ht : Edges.target? d.feature specific with
    | none => exact .inl (by simp)
    | some m =>
      rcases List.mem_cons.1 he with rfl | he
      · exact .inr ⟨m, ht, by simp⟩
      · rcases ih he with hmissing | ⟨k, hk, hmem⟩
        · exact .inl (List.mem_cons_of_mem _ hmissing)
        · exact .inr ⟨k, hk, List.mem_cons_of_mem _ hmem⟩

theorem exists_of_mem_matchEdges {specific list : List Edge} {task : SubsumeTask}
    (h : task ∈ matchEdges specific list) : ∃ e ∈ list,
      (task = .missing ∧ Edges.target? e.feature specific = none) ∨
      ∃ m, task = .compare e.target m ∧ Edges.target? e.feature specific = some m := by
  induction list with
  | nil => cases h
  | cons d rest ih =>
    unfold matchEdges at h
    cases ht : Edges.target? d.feature specific with
    | none =>
      rw [ht] at h
      exact ⟨d, by simp, .inl ⟨List.mem_singleton.1 h, ht⟩⟩
    | some m =>
      rw [ht] at h
      rcases List.mem_cons.1 h with rfl | h
      · exact ⟨d, by simp, .inr ⟨m, rfl, ht⟩⟩
      · obtain ⟨e, he, hcase⟩ := ih h
        exact ⟨e, List.mem_cons_of_mem _ he, hcase⟩

/-! ## What a turn does -/

/-- The two nodes are paired and fit as far as their types go. -/
def paired (s : Session) (x y : NodeId) : Session :=
  ((s.mapGraph (·.setForward x y)).ask fun l =>
    l.subsumes (s.graph.currentType x) (s.graph.currentType y)).2

theorem graph_paired (s : Session) (x y : NodeId) :
    (s.paired x y).graph = s.graph.setForward x y := rfl

/-- A turn that goes on meets a pair again or makes a new one, and then asks for their values. -/
theorem subsumeTurn_next {s s' : Session} (hs : s.grammar.Sound) {task : SubsumeTask}
    {tasks : List SubsumeTask} (h : s.subsumeTurn task = .next s' tasks) :
    ∃ x y, task = .compare x y ∧
      ((s.graph.forward? x = some y ∧ s' = s ∧ tasks = []) ∨
       (s.graph.forward? x = none ∧ s' = s.paired x y ∧
        s.hierarchy.Le (s.graph.currentType y) (s.graph.currentType x) ∧
        tasks = matchEdges (s.graph.edges y) (s.graph.edges x))) := by
  cases task with
  | missing => cases h
  | compare x y =>
    refine ⟨x, y, rfl, ?_⟩
    unfold subsumeTurn at h
    cases hf : s.graph.forward? x with
    | some partner =>
      simp only [hf] at h
      split at h
      · rename_i heq
        cases h
        exact .inl ⟨by rw [heq], rfl, rfl⟩
      · cases h
    | none =>
      simp only [hf, mapGraph, ask, Graph.currentType_setForward] at h
      split at h
      · rename_i hfits
        cases h
        refine .inr ⟨rfl, rfl, (hs.lattice.subsumes_iff _ _).1 hfits, ?_⟩
        simp only [Graph.setForward, Graph.edges_note]
      · cases h

/-- A turn that ends the walk has found a node with two partners, a type that does not fit or a
feature that is missing. -/
theorem subsumeTurn_halt {s s' : Session} (hs : s.grammar.Sound) {task : SubsumeTask}
    (h : s.subsumeTurn task = .halt s' ()) :
    (task = .missing ∧ s' = s) ∨ ∃ x y, task = .compare x y ∧
      ((∃ z, s.graph.forward? x = some z ∧ z ≠ y ∧ s' = s) ∨
       (s.graph.forward? x = none ∧ s' = s.paired x y ∧
        ¬ s.hierarchy.Le (s.graph.currentType y) (s.graph.currentType x))) := by
  cases task with
  | missing =>
    cases h
    exact .inl ⟨rfl, rfl⟩
  | compare x y =>
    refine .inr ⟨x, y, rfl, ?_⟩
    unfold subsumeTurn at h
    cases hf : s.graph.forward? x with
    | some partner =>
      simp only [hf] at h
      split at h
      · cases h
      · rename_i hne
        cases h
        exact .inl ⟨partner, rfl, hne, rfl⟩
    | none =>
      simp only [hf, mapGraph, ask, Graph.currentType_setForward] at h
      split at h
      · cases h
      · rename_i hfits
        cases h
        exact .inr ⟨rfl, rfl, fun hle => hfits ((hs.lattice.subsumes_iff _ _).2 hle)⟩

theorem sound_paired {s : Session} (hs : s.Sound) (x y : NodeId) : (s.paired x y).Sound := by
  refine ⟨sound_ask_subsumes (s := s.mapGraph (·.setForward x y)) hs.grammar _ _, ?_⟩
  rw [graph_paired]
  exact hs.graph.note (by intro _; rfl)

/-! ## The length of the walk -/

/-- What holds of a check with tasks left to do, however edges are ordered. -/
structure Checking (s₀ s : Session) (tasks : List SubsumeTask) : Prop where
  noted : s₀.Noted s
  task_lt : ∀ {x y : Nat}, .compare x y ∈ tasks → x < s₀.graph.size ∧ y < s₀.graph.size

section Checking

variable {s₀ : Session} (hs : s₀.grammar.Sound) (hg : s₀.graph.EdgesLead) {a b : Nat}

theorem checking_start (ha : a < s₀.graph.size) (hb : b < s₀.graph.size) :
    Checking s₀ s₀ [.compare a b] where
  noted := .refl _
  task_lt h := by
    cases List.mem_singleton.1 h
    exact ⟨ha, hb⟩

include hs hg

theorem keeps_checking : Agenda.Keeps subsumeTurn (Checking s₀) := by
  refine ⟨fun {s task waiting s' tasks} h ht => ?_⟩
  have hnoted := noted_subsumeTurn h.noted task
  rw [ht] at hnoted
  have hwaiting : ∀ {x y : Nat}, .compare x y ∈ waiting → x < s₀.graph.size ∧ y < s₀.graph.size :=
    fun hn => h.task_lt (List.mem_cons_of_mem _ hn)
  obtain ⟨x, y, rfl, ⟨-, -, rfl⟩ | ⟨-, -, -, rfl⟩⟩ :=
    subsumeTurn_next (hs.learned h.noted.grammar) ht
  · exact ⟨hnoted, hwaiting⟩
  · refine ⟨hnoted, fun {n m} hn => ?_⟩
    rw [h.noted.graph.edges_eq, h.noted.graph.edges_eq] at hn
    rcases List.mem_append.1 hn with hn | hn
    · obtain ⟨e, he, ⟨heq, -⟩ | ⟨k, heq, hk⟩⟩ := exists_of_mem_matchEdges hn
      · cases heq
      · cases heq
        exact ⟨hg he, hg (Edges.mem_of_target? hk)⟩
    · exact hwaiting hn

/-- A check comes to every node of the first structure at most once with something to do. -/
theorem run_subsumeTurn_ne_spent (ha : a < s₀.graph.size) (hb : b < s₀.graph.size)
    (s : Session) (waiting : List SubsumeTask) :
    Agenda.run subsumeTurn s₀.graph.weight s₀ [.compare a b] ≠ .spent s waiting := by
  refine (keeps_checking hs hg).run_ne_spent_of_marks s₀.graph.size
    (fun n => (s₀.graph.edges n).length) (fun s n => s.graph.forward? n ≠ none) ?_
    (checking_start ha hb) ?_ s waiting
  · intro s₁ task rest s₂ tasks h ht
    obtain ⟨x, y, rfl, ⟨hf, rfl, rfl⟩ | ⟨hf, rfl, hle, rfl⟩⟩ :=
      subsumeTurn_next (hs.learned h.noted.grammar) ht
    · exact .inl ⟨rfl, fun n => Iff.rfl⟩
    · have hx := (h.task_lt (List.mem_cons_self ..)).1
      refine .inr ⟨x, hx, by simp [hf], fun m => ?_, ?_⟩
      · rw [graph_paired, Graph.forward?_setForward _ (h.noted.graph.size_eq ▸ hx)]
        by_cases hm : x = m
        · simp [hm]
        · simp [hm, Ne.symm hm]
      · exact h.noted.graph.edges_eq x ▸
          length_matchEdges_le (s₁.graph.edges y) (s₁.graph.edges x)
  · have := s₀.graph.leftOver_lt_weight (fun n => (s₀.graph.edges n).length)
      (fun n => s₀.graph.forward? n ≠ none) (fun n => by omega)
    simpa using this

end Checking

/-! ## The pairs so far -/

/-- What holds of a check of the nodes `a` and `b` of `s₀` with tasks left to do. -/
structure Comparing (s₀ : Session) (a b : NodeId) (s : Session) (tasks : List SubsumeTask) :
    Prop where
  sound : s.Sound
  same : s₀.grammar.Same s.grammar
  size_eq : s.graph.size = s₀.graph.size
  type_eq : ∀ n, s.graph.type n = s₀.graph.type n
  edges_eq : ∀ n, s.graph.edges n = s₀.graph.edges n
  currentType_eq : ∀ n, s.graph.currentType n = s₀.graph.type n
  task_lt : ∀ {x y : Nat}, .compare x y ∈ tasks → x < s₀.graph.size ∧ y < s₀.graph.size
  pairing : s₀.shape.Pairing s₀.hierarchy a s₀.shape b s.graph.forward?
    (fun x y => .compare x y ∈ tasks) (.missing ∈ tasks)

theorem comparing_start {s : Session} (hs : s.Sound) (hr : s.AtRest) {a b : Nat}
    (ha : a < s.graph.size) (hb : b < s.graph.size) :
    Comparing s a b s [.compare a b] where
  sound := hs
  same := .refl _
  size_eq := rfl
  type_eq _ := rfl
  edges_eq _ := rfl
  currentType_eq n := Graph.AtRest.currentType_eq hr n
  task_lt h := by
    cases List.mem_singleton.1 h
    exact ⟨ha, hb⟩
  pairing := .start (Graph.AtRest.forward_eq hr) (List.mem_singleton.2 rfl)

theorem Comparing.pop {s₀ s : Session} {a b x y : NodeId} {waiting : List SubsumeTask}
    (h : Comparing s₀ a b s (.compare x y :: waiting)) (hf : s.graph.forward? x = some y) :
    Comparing s₀ a b s waiting := by
  refine { h with
    task_lt := fun ht => h.task_lt (List.mem_cons_of_mem _ ht)
    pairing := h.pairing.pop (fun hn => ?_) fun hmissing => ?_ }
  · rcases List.mem_cons.1 hn with heq | hn
    · cases heq
      exact .inl hf
    · exact .inr hn
  · rcases List.mem_cons.1 hmissing with heq | hmissing
    · cases heq
    · exact hmissing

/-- The pointers after two nodes have been paired. -/
theorem Comparing.forward?_paired {s₀ s : Session} {a b : NodeId} {x y : Nat}
    {waiting : List SubsumeTask} (h : Comparing s₀ a b s (.compare x y :: waiting)) (n : NodeId) :
    (s.paired x y).graph.forward? n = if x = n then some y else s.graph.forward? n := by
  rw [graph_paired, Graph.forward?_setForward _ (h.size_eq ▸ (h.task_lt (List.mem_cons_self ..)).1)]

theorem Comparing.push {s₀ s : Session} {a b : NodeId} {x y : Nat} {waiting : List SubsumeTask}
    (h : Comparing s₀ a b s (.compare x y :: waiting)) (hf : s.graph.forward? x = none)
    (hle : s.hierarchy.Le (s.graph.currentType y) (s.graph.currentType x)) :
    Comparing s₀ a b (s.paired x y)
      (matchEdges (s.graph.edges y) (s.graph.edges x) ++ waiting) where
  sound := sound_paired h.sound x y
  same := h.same.trans (same_ask_subsumes (s.mapGraph (·.setForward x y)) _ _)
  size_eq := by
    rw [graph_paired, Graph.setForward, Graph.size_note]
    exact h.size_eq
  type_eq n := by
    rw [graph_paired, Graph.setForward, Graph.type_note]
    exact h.type_eq n
  edges_eq n := by
    rw [graph_paired, Graph.setForward, Graph.edges_note]
    exact h.edges_eq n
  currentType_eq n := by
    rw [graph_paired, Graph.currentType_setForward]
    exact h.currentType_eq n
  task_lt {n m} hn := by
    rcases List.mem_append.1 hn with hn | hn
    · obtain ⟨e, he, ⟨heq, -⟩ | ⟨k, heq, hk⟩⟩ := exists_of_mem_matchEdges hn
      · cases heq
      · cases heq
        rw [← h.size_eq]
        exact ⟨h.sound.graph.target_lt he, h.sound.graph.value_lt hk⟩
    · exact h.task_lt (List.mem_cons_of_mem _ hn)
  pairing := by
    have hsame : s.hierarchy = s₀.hierarchy := h.same.hierarchy_eq
    rw [h.currentType_eq, h.currentType_eq, hsame] at hle
    refine h.pairing.push hf h.forward?_paired hle (fun {f v} hv => ?_) (fun hn => ?_)
      fun hmissing => ?_
    · have he : ⟨f, v⟩ ∈ s.graph.edges x := by
        rw [← h.sound.graph.value_eq_some_iff, Graph.value?, h.edges_eq]
        exact hv
      rcases matched_of_mem (s.graph.edges y) he with hmissing | ⟨k, hk, hmem⟩
      · exact .inl (List.mem_append_left _ hmissing)
      · refine .inr ⟨k, ?_, List.mem_append_left _ hmem⟩
        rw [h.edges_eq] at hk
        exact hk
    · rcases List.mem_cons.1 hn with heq | hn
      · cases heq
        exact .inl ⟨rfl, rfl⟩
      · exact .inr (List.mem_append_right _ hn)
    · rcases List.mem_cons.1 hmissing with heq | hmissing
      · cases heq
      · exact List.mem_append_right _ hmissing

theorem keeps_comparing (s₀ : Session) (a b : NodeId) :
    Agenda.Keeps subsumeTurn (Comparing s₀ a b) := by
  refine ⟨fun {s task waiting s' tasks} h ht => ?_⟩
  obtain ⟨x, y, rfl, ⟨hf, rfl, rfl⟩ | ⟨hf, rfl, hle, rfl⟩⟩ := subsumeTurn_next h.sound.grammar ht
  · exact h.pop hf
  · exact h.push hf hle

/-! ## Pairs along a map -/

/-- The check follows a map. -/
abbrev Follows (s₀ : Session) (a : NodeId) (μ : NodeId → NodeId) (s : Session)
    (tasks : List SubsumeTask) : Prop :=
  s₀.shape.Following a μ s.graph.forward? (fun x y => .compare x y ∈ tasks) (.missing ∈ tasks)

theorem keeps_follows {s₀ : Session} (hs : s₀.Sound) {a b : NodeId} {μ : NodeId → NodeId}
    (hμ : s₀.shape.Maps s₀.hierarchy a s₀.shape μ) : Agenda.Keeps subsumeTurn
      fun s tasks => Comparing s₀ a b s tasks ∧ Follows s₀ a μ s tasks := by
  refine ⟨fun {s task waiting s' tasks} ⟨h, hfollow⟩ ht =>
    ⟨(keeps_comparing s₀ a b).next h ht, ?_⟩⟩
  obtain ⟨x, y, rfl, ⟨hf, rfl, rfl⟩ | ⟨hf, rfl, hle, rfl⟩⟩ := subsumeTurn_next h.sound.grammar ht
  · exact hfollow.pop (List.mem_cons_of_mem _) (List.mem_cons_of_mem _)
  rw [h.edges_eq, h.edges_eq]
  refine hfollow.push hμ (List.mem_cons_self ..) h.forward?_paired (fun {n m} hn => ?_) fun hm => ?_
  · rcases List.mem_append.1 hn with hn | hn
    · obtain ⟨e, he, ⟨heq, -⟩ | ⟨k, heq, hk⟩⟩ := exists_of_mem_matchEdges hn
      · cases heq
      · cases heq
        exact .inr ⟨e.feature, hs.graph.value_eq_some_iff.2 he, hk⟩
    · exact .inl (List.mem_cons_of_mem _ hn)
  · rcases List.mem_append.1 hm with hm | hm
    · obtain ⟨e, he, ⟨-, hnone⟩ | ⟨k, heq, -⟩⟩ := exists_of_mem_matchEdges hm
      · exact .inr ⟨e.feature, e.target, hs.graph.value_eq_some_iff.2 he, hnone⟩
      · cases heq
    · exact .inl (List.mem_cons_of_mem _ hm)

/-! ## The whole walk -/

section Walk

variable {s : Session} (hs : s.Sound) (hr : s.AtRest) {a b : Nat} (ha : a < s.graph.size)
  (hb : b < s.graph.size)
include hs hr ha hb

/-- Subsumption holds just when the first structure can be mapped to the second. -/
theorem subsumes_iff : (s.subsumes a b).1 = true ↔ s.shape.Subsumes s.hierarchy a s.shape b := by
  have hstart := comparing_start hs hr ha hb
  unfold subsumes
  cases hrun : Agenda.run subsumeTurn s.graph.weight s [.compare a b] with
  | spent s' waiting =>
    exact absurd hrun (run_subsumeTurn_ne_spent hs.grammar hs.graph.edgesLead ha hb s' waiting)
  | done s' =>
    have hdone := (keeps_comparing s a b).done hstart hrun
    exact iff_of_true rfl
      (hdone.pairing.subsumes (fun _ _ => List.not_mem_nil) List.not_mem_nil)
  | halted s' answer waiting =>
    refine iff_of_false Bool.false_ne_true ?_
    rintro ⟨μ, rfl, hμ⟩
    have hfollow : Follows s a μ s [.compare a (μ a)] := by
      refine .start (Graph.AtRest.forward_eq hr) (fun hn => ?_) (by simp)
      cases List.mem_singleton.1 hn
      exact ⟨rfl, rfl⟩
    obtain ⟨s₁, task, ⟨h₁, hf₁⟩, ht⟩ := (keeps_follows hs hμ).halted ⟨hstart, hfollow⟩ hrun
    rcases subsumeTurn_halt h₁.sound.grammar ht with ⟨rfl, -⟩ | ⟨x, y, rfl, hcase⟩
    · exact hf₁.complete (List.mem_cons_self ..)
    · obtain ⟨hpartner, hfits⟩ := hf₁.fits hμ (List.mem_cons_self ..)
      rcases hcase with ⟨z, hz, hne, -⟩ | ⟨-, -, hle⟩
      · exact hne (hpartner hz)
      · have hsame : s₁.hierarchy = s.hierarchy := h₁.same.hierarchy_eq
        rw [h₁.currentType_eq, h₁.currentType_eq, hsame] at hle
        exact hle hfits

end Walk

/-- Whether a structure subsumes another one does not change when something is added. -/
theorem subsumes_iff_of_later {s s' : Session} (hs : s.Sound) (h : s.Later s') (hs' : s'.Sound)
    (hr' : s'.AtRest) {a b : Nat} (ha : a < s.graph.size) (hb : b < s'.graph.size) :
    (s'.subsumes a b).1 = true ↔ s.shape.Subsumes s.hierarchy a s'.shape b := by
  have horder : s'.hierarchy = s.hierarchy := h.grammar.hierarchy_eq
  rw [subsumes_iff hs' hr' (Nat.lt_of_lt_of_le ha h.graph.size_le) hb, horder]
  have hiso := h.graph.isomorphic hs.graph ha
  exact ⟨(hiso.subsumes _).trans hs.grammar.lattice.hierarchy,
    (hiso.symm.subsumes _).trans hs.grammar.lattice.hierarchy⟩

end Session

end FeatureLogic
