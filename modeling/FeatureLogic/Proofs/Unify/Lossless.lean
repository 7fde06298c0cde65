import FeatureLogic.Proofs.Unify.Web

/-!
Nothing is lost. Whatever committed structure a unification began with, its classes have it, or
tasks see to it: an edge of a node belongs to its class or is about to be handed over, and it leads
to a class that the value belongs to or is about to belong to (`Lossless`).
-/

open Relation

namespace FeatureLogic

namespace Web

/-- Two nodes are in one class, or a task says that they are to be. -/
def Due (W : Web) (tasks : List UnifyTask) (x y : NodeId) : Prop :=
  W.rep x = W.rep y ∨ .pair x y ∈ tasks ∨ ∃ left right, .resume left right x y ∈ tasks

/-- Two nodes are in one class when all tasks are done. -/
def Joined (W : Web) (tasks : List UnifyTask) : NodeId → NodeId → Prop := EqvGen (W.Due tasks)

/-- A class has an edge, or a task says that it gets the edge. -/
def Has (W : Web) (tasks : List UnifyTask) (x : NodeId) (f : FeatureId) (y : NodeId) : Prop :=
  W.edge? x f = some y ∨ ∃ left right survivor incoming,
    .merge left right survivor incoming ∈ tasks ∧ W.rep survivor = x ∧ ⟨f, y⟩ ∈ incoming

section Joined

variable {W W' : Web} {tasks tasks' : List UnifyTask} {x y : NodeId}

theorem joined_of_rep_eq (h : W.rep x = W.rep y) : W.Joined tasks x y := .rel _ _ (.inl h)

theorem joined_of_pair (h : .pair x y ∈ tasks) : W.Joined tasks x y := .rel _ _ (.inr (.inl h))

theorem Joined.mono (h : W.Joined tasks x y)
    (hdue : ∀ {x y}, W.Due tasks x y → W'.Joined tasks' x y) : W'.Joined tasks' x y := by
  induction h with
  | rel x y hxy => exact hdue hxy
  | refl x => exact .refl _
  | symm x y _ ih => exact .symm _ _ ih
  | trans x y z _ _ hxy hyz => exact .trans _ _ _ hxy hyz

/-- Where no task has two classes to unify, to be joined is to be in one class. -/
theorem Joined.rep_eq_of_due (h : W.Joined tasks x y)
    (hdue : ∀ {x y}, W.Due tasks x y → W.rep x = W.rep y) : W.rep x = W.rep y := by
  induction h with
  | rel x y hxy => exact hdue hxy
  | refl x => rfl
  | symm x y _ ih => exact ih.symm
  | trans x y z _ _ hxy hyz => exact hxy.trans hyz

/-- When no task is left, to be joined is to be in one class. -/
theorem Joined.rep_eq (h : W.Joined [] x y) : W.rep x = W.rep y :=
  h.rep_eq_of_due fun hdue => by
    rcases hdue with heq | hmem | ⟨left, right, hmem⟩
    · exact heq
    · cases hmem
    · cases hmem

end Joined

/-- Nothing is lost from one state of a unification to the next: what was to be one class is or is
to be, and every edge of a class has its place. -/
structure Carries (W : Web) (tasks : List UnifyTask) (W' : Web) (tasks' : List UnifyTask) :
    Prop where
  due : ∀ {x y}, W.Due tasks x y → W'.Joined tasks' x y
  has : ∀ {n : Nat} {f y}, n < W.size → W.Has tasks (W.rep n) f y →
    ∃ z, W'.Has tasks' (W'.rep n) f z ∧ W'.Joined tasks' z y

end Web

open Web

section Carries

variable {g : Grammar} {W W' : Web} {task : UnifyTask} {tasks waiting : List UnifyTask}

/-- A task other than the first one waits on. -/
theorem due_cons {x y : NodeId} (h : W.Due (task :: waiting) x y) :
    W.Due waiting x y ∨ task = .pair x y ∨ ∃ left right, task = .resume left right x y := by
  rcases h with heq | hmem | ⟨left, right, hmem⟩
  · exact .inl (.inl heq)
  · rcases List.mem_cons.1 hmem with heq | hmem
    · exact .inr (.inl heq.symm)
    · exact .inl (.inr (.inl hmem))
  · rcases List.mem_cons.1 hmem with heq | hmem
    · exact .inr (.inr ⟨left, right, heq.symm⟩)
    · exact .inl (.inr (.inr ⟨left, right, hmem⟩))

theorem has_cons {x y : NodeId} {f : FeatureId} (h : W.Has (task :: waiting) x f y) :
    W.Has waiting x f y ∨ ∃ left right survivor incoming,
      task = .merge left right survivor incoming ∧ W.rep survivor = x ∧ ⟨f, y⟩ ∈ incoming := by
  rcases h with hedge | ⟨left, right, survivor, incoming, hmem, hx, he⟩
  · exact .inl (.inl hedge)
  · rcases List.mem_cons.1 hmem with heq | hmem
    · exact .inr ⟨left, right, survivor, incoming, heq.symm, hx, he⟩
    · exact .inl (.inr ⟨left, right, survivor, incoming, hmem, hx, he⟩)

/-- Tasks that wait keep what they see to, when classes only grow. -/
theorem due_append {x y : NodeId} (h : W.Due waiting x y)
    (hrep : ∀ {x y}, W.rep x = W.rep y → W'.rep x = W'.rep y) :
    W'.Joined (tasks ++ waiting) x y := by
  rcases h with heq | hmem | ⟨left, right, hmem⟩
  · exact joined_of_rep_eq (hrep heq)
  · exact joined_of_pair (List.mem_append_right _ hmem)
  · exact .rel _ _ (.inr (.inr ⟨left, right, List.mem_append_right _ hmem⟩))

theorem has_append {n : Nat} {f : FeatureId} {y : NodeId}
    (h : W.Has waiting (W.rep n) f y)
    (hrep : ∀ {x y}, W.rep x = W.rep y → W'.rep x = W'.rep y)
    (hedge : W.edge? (W.rep n) f = some y → W'.Has (tasks ++ waiting) (W'.rep n) f y) :
    W'.Has (tasks ++ waiting) (W'.rep n) f y := by
  rcases h with h | ⟨left, right, survivor, incoming, hmem, hx, he⟩
  · exact hedge h
  · exact .inr ⟨left, right, survivor, incoming, List.mem_append_right _ hmem, hrep hx, he⟩

/-- A pair of classes is done when they are joined, if the edges have their places. -/
theorem carries_pair {left right : NodeId}
    (hrep : ∀ {x y}, W.rep x = W.rep y → W'.rep x = W'.rep y)
    (hedge : ∀ {n : Nat} {f y}, n < W.size → W.edge? (W.rep n) f = some y →
      W'.Has (tasks ++ waiting) (W'.rep n) f y)
    (hjoined : W'.Joined (tasks ++ waiting) left right) :
    W.Carries (.pair left right :: waiting) W' (tasks ++ waiting) where
  due := fun hdue => by
    rcases due_cons hdue with hdue | hpair | ⟨_, _, hresume⟩
    · exact due_append hdue hrep
    · cases hpair
      exact hjoined
    · cases hresume
  has := fun hn hhas => by
    rcases has_cons hhas with hhas | ⟨_, _, _, _, hmerge, -, -⟩
    · exact ⟨_, has_append hhas hrep (hedge hn), .refl _⟩
    · cases hmerge

/-- A merge is done when the edges that came in have their places, as the others have. -/
theorem carries_merge {left right survivor : NodeId} {incoming : List Edge}
    (hrep : ∀ {x y}, W.rep x = W.rep y → W'.rep x = W'.rep y)
    (hedge : ∀ {n : Nat} {f y}, n < W.size → W.edge? (W.rep n) f = some y →
      W'.Has (tasks ++ waiting) (W'.rep n) f y)
    (hincoming : ∀ {n : Nat} {f y}, W.rep survivor = W.rep n → ⟨f, y⟩ ∈ incoming →
      ∃ z, W'.Has (tasks ++ waiting) (W'.rep n) f z ∧ W'.Joined (tasks ++ waiting) z y) :
    W.Carries (.merge left right survivor incoming :: waiting) W' (tasks ++ waiting) where
  due := fun hdue => by
    rcases due_cons hdue with hdue | hpair | ⟨_, _, hresume⟩
    · exact due_append hdue hrep
    · cases hpair
    · cases hresume
  has := fun hn hhas => by
    rcases has_cons hhas with hhas | ⟨_, _, _, _, hmerge, hx, he⟩
    · exact ⟨_, has_append hhas hrep (hedge hn), .refl _⟩
    · cases hmerge
      exact hincoming hx he

/-- What is left of a merge has the edges that are left. -/
theorem has_rest {left right survivor : NodeId} {rest : List Edge} {n : Nat} {f : FeatureId}
    {y : NodeId} (hx : W'.rep survivor = W'.rep n) (he : ⟨f, y⟩ ∈ rest)
    (hmem : .merge left right survivor rest ∈ tasks) :
    ∃ z, W'.Has (tasks ++ waiting) (W'.rep n) f z ∧ W'.Joined (tasks ++ waiting) z y :=
  ⟨y, .inr ⟨left, right, survivor, rest, List.mem_append_left _ hmem, hx, he⟩, .refl _⟩

/-- The edges of the class that is absorbed are handed over to the one that survives. -/
theorem has_absorbed {left right survivor absorbed : NodeId} {type : TypeId}
    (hsurvivor : W.rep survivor = survivor) (hunion : W.Union survivor absorbed type W')
    (htasks : (tasks = [] ∧ ¬W.HasEdges absorbed) ∨
      ∃ incoming, tasks = [.merge left right survivor incoming] ∧ W.HasEdges survivor ∧
        ∀ f m, W.edge? absorbed f = some m ↔ ⟨f, m⟩ ∈ incoming)
    {n : Nat} {f : FeatureId} {y : NodeId} (h : W.edge? (W.rep n) f = some y) :
    W'.Has (tasks ++ waiting) (W'.rep n) f y := by
  by_cases habs : W.rep n = absorbed
  · rcases htasks with ⟨-, hnone⟩ | ⟨incoming, rfl, -, hincoming⟩
    · exact absurd ⟨f, _, habs ▸ h⟩ hnone
    · refine .inr ⟨left, right, survivor, incoming, List.mem_cons_self .., ?_, ?_⟩
      · rw [hunion.rep_of_mem (.inl hsurvivor), hunion.rep_of_mem (.inr habs)]
      · exact (hincoming f _).1 (habs ▸ h)
  · refine .inl ?_
    rw [hunion.rep_of_ne habs, hunion.edge_eq]
    exact h

/-- No step loses anything. -/
theorem carries_step (waiting : List UnifyTask) (hW : W.Sound) (hs : UnifyStep g W task W' tasks) :
    W.Carries (task :: waiting) W' (tasks ++ waiting) := by
  have hrep : ∀ {x y}, W.rep x = W.rep y → W'.rep x = W'.rep y := hs.rep_congr
  cases hs with
  | met heq => exact carries_pair hrep (fun _ hedge => .inl hedge) (joined_of_rep_eq heq)
  | @absorb _ left right survivor absorbed type _ hreps hne htype hbottom hcovered hunion htasks =>
    obtain ⟨hleft, hright⟩ := mem_sides hreps
    obtain ⟨hsurvivor, -⟩ := sides (P := fun z => W.rep z = z) hreps (hW.rep_rep _) (hW.rep_rep _)
    refine carries_pair hrep (fun _ => has_absorbed hsurvivor hunion htasks) (joined_of_rep_eq ?_)
    rw [hunion.rep_of_mem hleft, hunion.rep_of_mem hright]
  | @complete _ left right root type κ hne htype hbottom hproto hmissed himport =>
    have hself : ∀ x, W'.rep x = W'.rep (W.rep x) := by
      intro x
      rw [himport.rep_eq, hW.rep_rep]
    refine carries_pair hrep (fun hn hedge => .inl ?_) ?_
    · rw [himport.rep_eq, himport.edge_eq (hW.rep_lt hn)]
      exact hedge
    · -- the two are taken up again once the prototype has been unified with them
      refine .trans _ _ _ (.trans _ _ _ (joined_of_rep_eq (hself left)) (.rel _ _ ?_))
        (joined_of_rep_eq (hself right).symm)
      exact .inr (.inr ⟨left, right, List.mem_append_left _ (by simp)⟩)
  | merged =>
    exact carries_merge hrep (fun _ hedge => .inl hedge) fun _ he => absurd he List.not_mem_nil
  | @shared left right survivor existing e rest hexisting =>
    refine carries_merge hrep (fun _ hedge => .inl hedge) fun hx he => ?_
    rcases List.mem_cons.1 he with rfl | he
    · -- the edge of the class stays in place of the one handed over
      refine ⟨existing, .inl ?_, joined_of_pair (List.mem_append_left _ (by simp))⟩
      rw [← hx]
      exact hexisting
    · exact has_rest hx he (List.mem_cons_of_mem _ (List.mem_singleton_self _))
  | @gained _ left right survivor e rest hnone hgain =>
    refine carries_merge hrep (fun _ hedge => .inl ?_) fun {n f y} hx he => ?_
    · rw [hgain.rep_eq, hgain.edge_eq, if_neg]
      · exact hedge
      · rintro ⟨hholder, rfl⟩
        rw [hholder, hedge] at hnone
        cases hnone
    · rcases List.mem_cons.1 he with rfl | he
      · refine ⟨y, .inl ?_, .refl _⟩
        rw [hgain.rep_eq, hgain.edge_eq, if_pos ⟨hx, rfl⟩]
      · exact has_rest (hrep hx) he (List.mem_singleton_self _)
  | @resume left right first second =>
    refine ⟨fun hdue => ?_, fun hn hhas => ?_⟩
    · rcases due_cons hdue with hdue | hpair | ⟨_, _, hresume⟩
      · exact due_append hdue id
      · cases hpair
      · cases hresume
        exact joined_of_pair (by simp)
    · rcases has_cons hhas with hhas | ⟨_, _, _, _, hmerge, -, -⟩
      · exact ⟨_, has_append hhas id .inl, .refl _⟩
      · cases hmerge

end Carries

/-! ## The invariant -/

/-- What holds of the classes and tasks of a unification by which `x` and `y` are to be one class:
nothing is lost. -/
structure Lossless (h : Hierarchy) (x y : NodeId) (W : Web) (tasks : List UnifyTask) : Prop where
  type_le : ∀ {n : Nat}, n < W.size → h.Le (W.type (W.rep n)) (W.shape.type n)
  value : ∀ {n : Nat} {f m}, n < W.size → W.shape.value? n f = some m →
    ∃ y, W.Has tasks (W.rep n) f y ∧ W.Joined tasks y m
  joined : W.Joined tasks x y

/-- Before a unification the classes have the structure that has come about by then. -/
theorem lossless_start {W : Web} (hW : W.Sound) (h : Hierarchy) {tasks : List UnifyTask}
    {x y : NodeId} (hjoined : W.Joined tasks x y) :
    Lossless h x y (W.withShape W.settled) tasks where
  type_le _ := Hierarchy.le_refl
  value _ hf := by
    obtain ⟨k, hk, rfl⟩ := Option.map_eq_some_iff.1 hf
    exact ⟨k, .inl hk, joined_of_rep_eq (hW.rep_rep k).symm⟩
  joined := hjoined

theorem Lossless.step {g : Grammar} {x y : NodeId} {W W' : Web} {task : UnifyTask}
    {tasks waiting : List UnifyTask} (h : Lossless g.hierarchy x y W (task :: waiting))
    (hg : g.Sound) (hW : W.Sound) (hs : UnifyStep g W task W' tasks) :
    Lossless g.hierarchy x y W' (tasks ++ waiting) := by
  have hgrows := hs.grows
  have hcarries := carries_step waiting hW hs
  refine ⟨fun {n} hn => ?_, fun {n f m} hn hf => ?_, h.joined.mono hcarries.due⟩
  · rcases Nat.lt_or_ge n W.size with hold | hnew
    · rw [hgrows.shape_type_eq hold]
      exact hg.lattice.hierarchy.le_trans (hs.type_le hg hW hold) (h.type_le hold)
    · rw [hgrows.rep_new hnew hn, hgrows.type_new hnew hn]
      exact Hierarchy.le_refl
  · rcases Nat.lt_or_ge n W.size with hold | hnew
    · rw [hgrows.shape_value_eq hold] at hf
      obtain ⟨y, hhas, hjoined⟩ := h.value hold hf
      obtain ⟨z, hhas', hjoined'⟩ := hcarries.has hold hhas
      exact ⟨z, hhas', hjoined'.trans _ _ _ (hjoined.mono hcarries.due)⟩
    · refine ⟨m, .inl ?_, .refl _⟩
      rw [hgrows.rep_new hnew hn, hgrows.edge_new hnew hn]
      exact hf

section Done

variable {h : Hierarchy} {a b : NodeId} {W : Web} (hl : Lossless h a b W []) (hW : W.Sound)
include hl

/-- At the end both nodes are in one class. -/
theorem Lossless.rep_eq : W.rep a = W.rep b := hl.joined.rep_eq

include hW

/-- At the end the committed structure below any node maps to the classes. -/
theorem Lossless.maps {x : Nat} (hx : x < W.size) : W.shape.Maps h x W.view W.rep := by
  refine ⟨fun hn => hl.type_le (hW.shape_reach_lt hx hn), fun {n f m} hn hf => ?_⟩
  obtain ⟨y, hhas, hjoined⟩ := hl.value (hW.shape_reach_lt hx hn) hf
  rcases hhas with hedge | ⟨_, _, _, _, hmem, -, -⟩
  · show (W.edge? (W.rep n) f).map W.rep = some (W.rep m)
    rw [hedge, Option.map_some, hjoined.rep_eq]
  · cases hmem

end Done

end FeatureLogic
