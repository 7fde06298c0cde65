import FeatureLogic.Proofs.Unify.Region

/-!
Nothing is made up. When both operands of a unification can be mapped to one structure, which meets
the prototypes of its types, every step agrees with the map (`Guided`): so no types clash, and what
comes about can be mapped there as well.
-/

open Relation

namespace FeatureLogic

/-- Where the structure below `x` has features, it meets the prototypes of its types and of all
more general ones. -/
def Shape.Completed (g : Grammar) (T : Shape) (x : NodeId) : Prop :=
  ∀ ⦃n f m t root⦄, T.Reach x n → T.value? n f = some m → g.hierarchy.Le (T.type n) t →
    g.featuredPrototype? t = some root → g.prototypes.shape.Subsumes g.hierarchy root T n

/-- What a task is to bring about agrees with a map to a structure. -/
def UnifyTask.Fits (T : Shape) (μ : NodeId → NodeId) : UnifyTask → Prop
  | .pair left right => μ left = μ right
  | .merge _ _ survivor incoming =>
    ∀ e ∈ incoming, T.value? (μ survivor) e.feature = some (μ e.target)
  | .resume _ _ first second => μ first = μ second

theorem UnifyTask.Fits.congr {T : Shape} {μ ν : NodeId → NodeId} {task : UnifyTask}
    (h : task.Fits T μ) (heq : ∀ {n}, task.Names n → ν n = μ n) : task.Fits T ν := by
  cases task with
  | pair left right => exact (heq (.inl rfl)).trans (h.trans (heq (.inr rfl)).symm)
  | resume left right first second => exact (heq (.inl rfl)).trans (h.trans (heq (.inr rfl)).symm)
  | merge left right survivor incoming =>
    intro e he
    rw [heq (.inl rfl), heq (.inr ⟨e, he, rfl⟩)]
    exact h e he

namespace Web

/-- The classes and tasks of a unification agree with a map of its nodes to those of `T` below
`x`. -/
structure Guided (h : Hierarchy) (W₀ : Web) (a b : NodeId) (T : Shape) (x : NodeId)
    (μ : NodeId → NodeId) (W : Web) (tasks : List UnifyTask) : Prop where
  closed : Closed W₀ a b W tasks
  root : μ a = x
  reach : ∀ {n}, Region W₀ a b W n → T.Reach x (μ n)
  rep : ∀ {n}, Region W₀ a b W n → μ (W.rep n) = μ n
  type_le : ∀ {n}, Region W₀ a b W n → W.rep n = n → h.Le (T.type (μ n)) (W.type n)
  edge : ∀ {n f m}, Region W₀ a b W n → W.rep n = n → W.edge? n f = some m →
    T.value? (μ n) f = some (μ m)
  task : ∀ {task : UnifyTask}, task ∈ tasks → task.Fits T μ

section Guided

variable {g : Grammar} {W₀ W W' : Web} {a b x : NodeId} {T : Shape} {μ : NodeId → NodeId}
  {task : UnifyTask} {tasks waiting : List UnifyTask}

/-- Before a unification, one map of what is below both operands will do. -/
theorem guided_start {h : Hierarchy} (hW : W.Sound) {a b : Nat} (ha : a < W.size) (hb : b < W.size)
    (hleft : W.view.Maps h (W.rep a) T μ) (hright : W.view.Maps h (W.rep b) T μ)
    (hroot : μ (W.rep a) = x) (heq : μ (W.rep a) = μ (W.rep b)) :
    Guided h W a b T x (μ ∘ W.rep) W [.pair a b] := by
  refine ⟨closed_start hW ha hb, hroot, fun {n} hn => ?_, fun {n} _ => ?_, fun {n} hn hself => ?_,
    fun {n f m} hn hself hm => ?_, fun ht => ?_⟩
  · rcases hn.start.2 with hn | hn
    · exact hroot ▸ hleft.reach hn
    · exact hroot ▸ heq ▸ hright.reach hn
  · exact congrArg μ (hW.rep_rep n)
  · have hle : h.Le (T.type (μ (W.rep n))) (W.type (W.rep n)) :=
      hn.start.2.elim hleft.type_le hright.type_le
    rw [hself] at hle
    exact (congrArg (fun k => h.Le (T.type (μ k)) (W.type n)) hself).mpr hle
  · have hvalue : W.view.value? (W.rep n) f = some (W.rep m) := by
      show (W.edge? (W.rep n) f).map W.rep = _
      rw [hself, hm, Option.map_some]
    exact hn.start.2.elim (hleft.value · hvalue) (hright.value · hvalue)
  · rw [List.mem_singleton.1 ht]
    exact heq

/-- The map does not depend on the committed structure. -/
theorem Guided.withShape {h : Hierarchy} (hμ : Guided h W₀ a b T x μ W tasks) (S : Shape) :
    Guided h W₀ a b T x μ (W.withShape S) tasks :=
  ⟨hμ.closed.withShape S, hμ.root, hμ.reach, hμ.rep, hμ.type_le, hμ.edge, hμ.task⟩

/-- The type of the image of two nodes that are to be unified fits the types of both. -/
theorem Guided.le_glb {left right : NodeId}
    (h : Guided g.hierarchy W₀ a b T x μ W (.pair left right :: waiting)) (hg : g.Sound)
    (hW : W.Sound) : μ (W.rep left) = μ (W.rep right) ∧ Region W₀ a b W (W.rep left) ∧
      g.hierarchy.Le (T.type (μ (W.rep left)))
        (g.lattice.glb (W.type (W.rep left)) (W.type (W.rep right))) := by
  have hl := h.closed.task (List.mem_cons_self ..) (.inl rfl)
  have hr := h.closed.task (List.mem_cons_self ..) (.inr rfl)
  have heq : μ left = μ right := h.task (List.mem_cons_self ..)
  have hreps : μ (W.rep left) = μ (W.rep right) := by rw [h.rep hl, h.rep hr, heq]
  have hle := h.type_le (h.closed.rep hl) (hW.rep_rep left)
  have hle' := h.type_le (h.closed.rep hr) (hW.rep_rep right)
  rw [← hreps] at hle'
  exact ⟨hreps, h.closed.rep hl, Lattice.le_glb hg.lattice.hierarchy hle hle'⟩

/-- Types that fit one type do not clash. -/
theorem Guided.glb_ne_bottom {left right : NodeId}
    (h : Guided g.hierarchy W₀ a b T x μ W (.pair left right :: waiting)) (hg : g.Sound)
    (hW : W.Sound) (hT : ∀ {n}, T.Reach x n → T.type n ≠ .bottom) :
    g.lattice.glb (W.type (W.rep left)) (W.type (W.rep right)) ≠ .bottom := by
  obtain ⟨-, hregion, hle⟩ := h.le_glb hg hW
  intro hbottom
  rw [hbottom, Hierarchy.le_bottom_iff] at hle
  exact hT (h.reach hregion) hle

/-- A step between webs of one size agrees with the map when it keeps what holds of classes, types
and edges. -/
theorem Guided.same (h : Guided g.hierarchy W₀ a b T x μ W (task :: waiting)) (hW : W.Sound)
    (hs : UnifyStep g W task W' tasks) (hsize : W'.size = W.size)
    (hrep : ∀ {n}, Region W₀ a b W n → μ (W'.rep n) = μ n)
    (htype : ∀ {n}, Region W₀ a b W n → W'.rep n = n → g.hierarchy.Le (T.type (μ n)) (W'.type n))
    (hedge : ∀ {n f m}, Region W₀ a b W n → W.rep n = n → W'.edge? n f = some m →
      T.value? (μ n) f = some (μ m))
    (htask : ∀ t ∈ tasks, UnifyTask.Fits T μ t) :
    Guided g.hierarchy W₀ a b T x μ W' (tasks ++ waiting) := by
  have hold : ∀ {n : Nat}, Region W₀ a b W' n → Region W₀ a b W n := by
    intro n hn
    rcases hn.cases (W := W) with hn | ⟨h₁, h₂⟩
    · exact hn
    · exact absurd (hsize ▸ h₂) (Nat.not_lt.2 h₁)
  refine ⟨h.closed.step hW hs, h.root, fun hn => h.reach (hold hn), fun hn => hrep (hold hn),
    fun hn => htype (hold hn), fun hn hself => hedge (hold hn) (hs.rep_self hW hself),
    fun ht => ?_⟩
  rcases List.mem_append.1 ht with ht | ht
  · exact htask _ ht
  · exact h.task (List.mem_cons_of_mem _ ht)

theorem Guided.absorb {left right survivor absorbed : NodeId} {type : TypeId}
    (h : Guided g.hierarchy W₀ a b T x μ W (.pair left right :: waiting)) (hg : g.Sound)
    (hW : W.Sound) (hs : UnifyStep g W (.pair left right) W' tasks)
    (hreps : (survivor = W.rep left ∧ absorbed = W.rep right) ∨
      (survivor = W.rep right ∧ absorbed = W.rep left))
    (hne : survivor ≠ absorbed)
    (htype : type = g.lattice.glb (W.type (W.rep left)) (W.type (W.rep right)))
    (hunion : W.Union survivor absorbed type W')
    (htasks : (tasks = [] ∧ ¬ W.HasEdges absorbed) ∨
      ∃ incoming, tasks = [.merge left right survivor incoming] ∧ W.HasEdges survivor ∧
        ∀ f m, W.edge? absorbed f = some m ↔ ⟨f, m⟩ ∈ incoming) :
    Guided g.hierarchy W₀ a b T x μ W' (tasks ++ waiting) := by
  obtain ⟨heq, -, hle⟩ := h.le_glb hg hW
  rw [← htype] at hle
  have hl := h.closed.rep (h.closed.task (List.mem_cons_self ..) (.inl rfl))
  have hr := h.closed.rep (h.closed.task (List.mem_cons_self ..) (.inr rfl))
  have hboth : μ survivor = μ absorbed ∧ Region W₀ a b W absorbed ∧
      g.hierarchy.Le (T.type (μ survivor)) type ∧ W.rep absorbed = absorbed := by
    rcases hreps with ⟨rfl, rfl⟩ | ⟨rfl, rfl⟩
    · exact ⟨heq, hr, hle, hW.rep_rep _⟩
    · exact ⟨heq.symm, hl, heq ▸ hle, hW.rep_rep _⟩
  obtain ⟨heq, habsorbed, hle, hself⟩ := hboth
  refine h.same hW hs hunion.size_eq (fun {n} hn => ?_) (fun {n} hn hrep => ?_)
    (fun hn hself hm => h.edge hn hself (hunion.edge_eq ▸ hm)) fun t ht => ?_
  · rw [hunion.rep_eq]
    split
    · rename_i hrep
      rw [heq, ← hrep, h.rep hn]
    · exact h.rep hn
  · rcases hunion.self_cases hrep with rfl | ⟨-, hrep, htype⟩
    · rw [hunion.type_self]
      exact hle
    · rw [htype]
      exact h.type_le hn hrep
  · rcases htasks with ⟨rfl, -⟩ | ⟨incoming, rfl, -, hincoming⟩
    · cases ht
    · rw [List.mem_singleton.1 ht]
      intro e he
      rw [heq]
      exact h.edge habsorbed hself ((hincoming e.feature e.target).2 he)

/-- A map of old nodes and one of a structure that comes in, as one. -/
theorem Import.exists_map {first root : NodeId} {type : TypeId} {source : Shape}
    {κ : NodeId → NodeId} (h : W.Import first type source root κ W') (μ ν : NodeId → NodeId) :
    ∃ μ' : NodeId → NodeId, (∀ {n : Nat}, n < W.size → μ' n = μ n) ∧
      ∀ {n}, source.Reach root n → μ' (κ n) = ν n := by
  classical
  refine ⟨fun n => if hn : ∃ k, source.Reach root k ∧ κ k = n then ν hn.choose else μ n,
    fun {n} hn => dif_neg ?_, fun {n} hn => ?_⟩
  · rintro ⟨k, hk, rfl⟩
    exact absurd hn (Nat.not_lt.2 (h.le_copy hk))
  · have hex : ∃ k, source.Reach root k ∧ κ k = κ n := ⟨n, hn, rfl⟩
    simp only [dif_pos hex]
    rw [h.inj hex.choose_spec.1 hn hex.choose_spec.2]

/-- A prototype that comes in can be mapped to the structure, which meets it. -/
theorem Guided.complete {left right root : NodeId} {type : TypeId} {κ : NodeId → NodeId}
    (h : Guided g.hierarchy W₀ a b T x μ W (.pair left right :: waiting)) (hg : g.Sound)
    (hW : W.Sound) (hT : T.Completed g x)
    (hs : UnifyStep g W (.pair left right) W' [.pair (W.rep left) (κ root),
      .resume left right (W.rep left) (W.rep right)])
    (htype : type = g.lattice.glb (W.type (W.rep left)) (W.type (W.rep right)))
    (hproto : g.featuredPrototype? type = some root)
    (hedges : W.HasEdges (W.rep left) ∨ W.HasEdges (W.rep right))
    (himport : W.Import (W.rep left) type g.prototypes.shape root κ W') :
    ∃ μ', Guided g.hierarchy W₀ a b T x μ' W' ([UnifyTask.pair (W.rep left) (κ root),
      .resume left right (W.rep left) (W.rep right)] ++ waiting) := by
  obtain ⟨heq, hfirst, hle⟩ := h.le_glb hg hW
  rw [← htype] at hle
  have hsecond := h.closed.rep (h.closed.task (List.mem_cons_self ..) (.inr rfl))
  have hvalue : ∃ f m, T.value? (μ (W.rep left)) f = some m := by
    rcases hedges with ⟨f, m, hm⟩ | ⟨f, m, hm⟩
    · exact ⟨f, _, h.edge hfirst (hW.rep_rep _) hm⟩
    · exact ⟨f, _, heq ▸ h.edge hsecond (hW.rep_rep _) hm⟩
  obtain ⟨f, m, hm⟩ := hvalue
  obtain ⟨ν, hroot, hν⟩ := hT (h.reach hfirst) hm hle hproto
  obtain ⟨μ', hold, hnew⟩ := himport.exists_map μ ν
  have hold : ∀ {n}, Region W₀ a b W n → μ' n = μ n := fun hn => hold (h.closed.lt hn)
  -- what is old is mapped as before, and what comes in as the prototype is
  exact ⟨μ', {
    closed := h.closed.step hW hs
    root := (hold h.closed.left).trans h.root
    reach := fun {n} hn => by
      rcases hn.cases (W := W) with hn | ⟨h₁, h₂⟩
      · rw [hold hn]
        exact h.reach hn
      · obtain ⟨k, hk, rfl⟩ := himport.surj h₁ h₂
        rw [hnew hk]
        exact (h.reach hfirst).trans (hroot ▸ hν.reach hk)
    rep := fun {n} hn => by
      rcases hn.cases (W := W) with hn | ⟨h₁, h₂⟩
      · rw [himport.rep_eq, hold (h.closed.rep hn), hold hn]
        exact h.rep hn
      · rw [hs.grows.rep_new h₁ h₂]
    type_le := fun {n} hn hrep => by
      rcases hn.cases (W := W) with hn | ⟨h₁, h₂⟩
      · rw [hold hn]
        by_cases hfirst : n = W.rep left
        · rw [hfirst, himport.type_self]
          exact hle
        · rw [himport.type_eq (h.closed.lt hn) hfirst]
          exact h.type_le hn (himport.rep_eq ▸ hrep)
      · obtain ⟨k, hk, rfl⟩ := himport.surj h₁ h₂
        rw [hnew hk, himport.type_copy hk]
        exact hν.type_le hk
    edge := fun {n f m} hn hself hm => by
      rcases hn.cases (W := W) with hn | ⟨h₁, h₂⟩
      · rw [himport.edge_eq (h.closed.lt hn)] at hm
        rw [himport.rep_eq] at hself
        rw [hold hn, hold (h.closed.edge hn hself hm)]
        exact h.edge hn hself hm
      · obtain ⟨k, hk, rfl⟩ := himport.surj h₁ h₂
        rw [himport.edge_copy hk] at hm
        obtain ⟨j, hj, rfl⟩ := Option.map_eq_some_iff.1 hm
        rw [hnew hk, hnew (hk.value hj)]
        exact hν.value hk hj
    task := fun {t} ht => by
      rcases List.mem_append.1 ht with ht | ht
      · rcases List.mem_cons.1 ht with rfl | ht
        · show μ' (W.rep left) = μ' (κ root)
          rw [hold hfirst, hnew ReflTransGen.refl, hroot]
        · rw [List.mem_singleton.1 ht]
          show μ' (W.rep left) = μ' (W.rep right)
          rw [hold hfirst, hold hsecond, heq]
      · refine (h.task (List.mem_cons_of_mem _ ht)).congr fun hname => hold ?_
        exact h.closed.task (List.mem_cons_of_mem _ ht) hname }⟩

/-- Every step by which nothing comes in agrees with the map. -/
theorem Guided.step_of_size_eq (h : Guided g.hierarchy W₀ a b T x μ W (task :: waiting))
    (hg : g.Sound) (hW : W.Sound) (hs : UnifyStep g W task W' tasks) (hsize : W'.size = W.size) :
    Guided g.hierarchy W₀ a b T x μ W' (tasks ++ waiting) := by
  cases hs with
  | met heq => exact h.same hW (.met heq) rfl h.rep h.type_le h.edge (by simp)
  | absorb hreps hne htype hbottom hcovered hunion htasks =>
    exact h.absorb hg hW (.absorb hreps hne htype hbottom hcovered hunion htasks) hreps hne
      htype hunion htasks
  | complete hne htype hbottom hproto hmissed himport => exact absurd hsize himport.size_lt.ne'
  | merged => exact h.same hW .merged rfl h.rep h.type_le h.edge (by simp)
  | @shared left right survivor existing e rest hexisting =>
    have hfits : ∀ d ∈ e :: rest, T.value? (μ survivor) d.feature = some (μ d.target) :=
      h.task (List.mem_cons_self ..)
    have hregion := h.closed.task (List.mem_cons_self ..) (.inl rfl)
    refine h.same hW (.shared hexisting) rfl h.rep h.type_le h.edge fun t ht => ?_
    rcases List.mem_cons.1 ht with rfl | ht
    · have hvalue := h.edge (h.closed.rep hregion) (hW.rep_rep _) hexisting
      rw [h.rep hregion, hfits e (List.mem_cons_self ..)] at hvalue
      exact (Option.some.inj hvalue).symm
    · rw [List.mem_singleton.1 ht]
      exact fun d hd => hfits d (List.mem_cons_of_mem _ hd)
  | @gained _ left right survivor e rest hnone hgain =>
    have hfits : ∀ d ∈ e :: rest, T.value? (μ survivor) d.feature = some (μ d.target) :=
      h.task (List.mem_cons_self ..)
    have hregion := h.closed.task (List.mem_cons_self ..) (.inl rfl)
    refine h.same hW (.gained hnone hgain) hgain.size_eq (fun hn => ?_) (fun hn hrep => ?_)
      (fun {n f m} hn hself hm => ?_) fun t ht => ?_
    · rw [hgain.rep_eq]
      exact h.rep hn
    · rw [hgain.type_eq]
      exact h.type_le hn (hgain.rep_eq ▸ hrep)
    · rw [hgain.edge_eq] at hm
      split at hm
      · rename_i heq
        cases hm
        rw [← heq.1, ← heq.2, h.rep hregion]
        exact hfits e (List.mem_cons_self ..)
      · exact h.edge hn hself hm
    · rw [List.mem_singleton.1 ht]
      exact fun d hd => hfits d (List.mem_cons_of_mem _ hd)
  | @resume left right first second =>
    have hfits : UnifyTask.Fits T μ (.resume left right first second) :=
      h.task (List.mem_cons_self ..)
    refine h.same hW .resume rfl h.rep h.type_le h.edge fun t ht => ?_
    rw [List.mem_singleton.1 ht]
    exact hfits

/-- Every step agrees with the map, or with one that maps the new nodes as well. -/
theorem Guided.step (h : Guided g.hierarchy W₀ a b T x μ W (task :: waiting)) (hg : g.Sound)
    (hW : W.Sound) (hT : T.Completed g x) (hs : UnifyStep g W task W' tasks) :
    ∃ μ', Guided g.hierarchy W₀ a b T x μ' W' (tasks ++ waiting) := by
  rcases hs.size_eq_or with hsize | ⟨left, right, type, root, κ, rfl, rfl, htype, hproto, hmissed,
    himport⟩
  · exact ⟨μ, h.step_of_size_eq hg hW hs hsize⟩
  · exact h.complete hg hW hT hs htype hproto (hasEdges_of_not_covered hmissed) himport

/-- At the end the map is one of what has come about. -/
theorem Guided.maps (h : Guided g.hierarchy W₀ a b T x μ W []) (hW : W.Sound) :
    W.view.Maps g.hierarchy (W.rep a) T μ := by
  have hregion : ∀ {n}, W.view.Reach (W.rep a) n → Region W₀ a b W n ∧ W.rep n = n :=
    fun hn => h.closed.of_reach hW h.closed.left hn
  refine ⟨fun hn => ?_, fun {n f m} hn hf => ?_⟩
  · obtain ⟨hn, hrep⟩ := hregion hn
    exact h.type_le hn hrep
  · obtain ⟨hn, hself⟩ := hregion hn
    obtain ⟨k, hk, rfl⟩ := Option.map_eq_some_iff.1 hf
    rw [h.rep (h.closed.edge hn hself hk)]
    exact h.edge hn hself hk

theorem Guided.subsumes (h : Guided g.hierarchy W₀ a b T x μ W []) (hW : W.Sound) :
    W.view.Subsumes g.hierarchy (W.rep a) T x :=
  ⟨μ, (h.rep h.closed.left).trans h.root, h.maps hW⟩

end Guided

end Web

end FeatureLogic
