import FeatureLogic.Proofs.Unify.Web

/-!
The region of a unification: the nodes below its operands and those that came in with prototypes.
Classes, edges and tasks never lead out of it (`Closed`).
-/

open Relation

namespace FeatureLogic

/-- The nodes that a task is about. -/
def UnifyTask.Names (n : NodeId) : UnifyTask → Prop
  | .pair left right => n = left ∨ n = right
  | .merge _ _ survivor incoming => n = survivor ∨ ∃ e ∈ incoming, n = e.target
  | .resume _ _ first second => n = first ∨ n = second

namespace Web

/-- A node of a unification of `a` and `b` that began with the web `W₀`: its class was below one of
the operands then, or it came in later. -/
def Region (W₀ : Web) (a b : NodeId) (W : Web) (n : Nat) : Prop :=
  (n < W₀.size ∧ (W₀.view.Reach (W₀.rep a) (W₀.rep n) ∨ W₀.view.Reach (W₀.rep b) (W₀.rep n))) ∨
    (W₀.size ≤ n ∧ n < W.size)

/-- Nothing leads out of the region. -/
structure Closed (W₀ : Web) (a b : NodeId) (W : Web) (tasks : List UnifyTask) : Prop where
  size_le : W₀.size ≤ W.size
  left : Region W₀ a b W a
  right : Region W₀ a b W b
  lt : ∀ {n : Nat}, Region W₀ a b W n → n < W.size
  rep : ∀ {n}, Region W₀ a b W n → Region W₀ a b W (W.rep n)
  edge : ∀ {n f m}, Region W₀ a b W n → W.rep n = n → W.edge? n f = some m → Region W₀ a b W m
  task : ∀ {task : UnifyTask} {n}, task ∈ tasks → task.Names n → Region W₀ a b W n

variable {W₀ W W' : Web} {a b : NodeId} {task : UnifyTask} {tasks waiting : List UnifyTask}

theorem Region.mono {n : NodeId} (h : Region W₀ a b W n) (hsize : W.size ≤ W'.size) :
    Region W₀ a b W' n :=
  h.imp_right fun ⟨h₁, h₂⟩ => ⟨h₁, Nat.lt_of_lt_of_le h₂ hsize⟩

/-- What is of the region and was there before the last step was of the region then. -/
theorem Region.old {n : Nat} (h : Region W₀ a b W' n) (hn : n < W.size) : Region W₀ a b W n :=
  h.imp_right fun ⟨h₁, _⟩ => ⟨h₁, hn⟩

theorem Region.cases {n : Nat} (h : Region W₀ a b W' n) :
    Region W₀ a b W n ∨ (W.size ≤ n ∧ n < W'.size) := by
  rcases Nat.lt_or_ge n W.size with hn | hn
  · exact .inl (h.old hn)
  · rcases h with h | ⟨h₁, h₂⟩
    · exact .inl (.inl h)
    · exact .inr ⟨hn, h₂⟩

/-- What a unification begins with is below its operands. -/
theorem Region.start {n : Nat} (h : Region W a b W n) :
    n < W.size ∧ (W.view.Reach (W.rep a) (W.rep n) ∨ W.view.Reach (W.rep b) (W.rep n)) := by
  rcases h with h | ⟨h₁, h₂⟩
  · exact h
  · exact absurd h₂ (Nat.not_lt.2 h₁)

theorem closed_start {a b : Nat} (hW : W.Sound) (ha : a < W.size) (hb : b < W.size) :
    Closed W a b W [.pair a b] := by
  have hleft : Region W a b W a := .inl ⟨ha, .inl ReflTransGen.refl⟩
  have hright : Region W a b W b := .inl ⟨hb, .inr ReflTransGen.refl⟩
  refine ⟨Nat.le_refl _, hleft, hright, fun hn => hn.start.1, fun hn => ?_,
    fun {n f m} hn hself hm => ?_, fun hmem hname => ?_⟩
  · obtain ⟨hlt, hn⟩ := hn.start
    exact .inl ⟨hW.rep_lt hlt, by rwa [hW.rep_rep]⟩
  · have hvalue : W.view.value? (W.rep n) f = some (W.rep m) := by
      show (W.edge? (W.rep n) f).map W.rep = _
      rw [hself, hm, Option.map_some]
    exact .inl ⟨hW.edge_lt hm, hn.start.2.imp (·.value hvalue) (·.value hvalue)⟩
  · rw [List.mem_singleton.1 hmem] at hname
    rcases hname with rfl | rfl
    · exact hleft
    · exact hright

/-- What is closed does not depend on the committed structure. -/
theorem Closed.withShape (h : Closed W₀ a b W tasks) (S : Shape) :
    Closed W₀ a b (W.withShape S) tasks :=
  ⟨h.size_le, h.left, h.right, h.lt, h.rep, h.edge, h.task⟩

section Step

variable {g : Grammar} (h : Closed W₀ a b W (task :: waiting)) (hW : W.Sound)
  (hs : UnifyStep g W task W' tasks)
include h hs

theorem Closed.lt_step {n : Nat} (hn : Region W₀ a b W' n) : n < W'.size := by
  rcases hn.cases (W := W) with hn | ⟨-, hn⟩
  · exact Nat.lt_of_lt_of_le (h.lt hn) hs.grows.size_le
  · exact hn

/-- The class of an old node of the region is of the region. -/
theorem Closed.rep_step {n : Nat} (hn : Region W₀ a b W n) :
    Region W₀ a b W' (W'.rep n) := by
  have hmono : ∀ {n}, Region W₀ a b W n → Region W₀ a b W' n := fun hn => hn.mono hs.grows.size_le
  cases hs with
  | @absorb _ left right survivor absorbed type _ hreps hne htype hbottom hcovered hunion htasks =>
    rw [hunion.rep_eq]
    split
    · exact hmono (sides (P := Region W₀ a b W) hreps
        (h.rep (h.task (List.mem_cons_self ..) (.inl rfl)))
        (h.rep (h.task (List.mem_cons_self ..) (.inr rfl)))).1
    · exact hmono (h.rep hn)
  | complete hne htype hbottom hproto hmissed himport =>
    rw [himport.rep_eq]
    exact hmono (h.rep hn)
  | gained hnone hgain =>
    rw [hgain.rep_eq]
    exact hmono (h.rep hn)
  | met | merged | shared | resume => exact h.rep hn

include hW

/-- The tasks that a step asks for are about nodes of the region. -/
theorem Closed.task_step {t : UnifyTask} {n : NodeId} (ht : t ∈ tasks) (hn : t.Names n) :
    Region W₀ a b W' n := by
  have hmono : ∀ {n}, Region W₀ a b W n → Region W₀ a b W' n := fun hn => hn.mono hs.grows.size_le
  have hnames : ∀ {n}, task.Names n → Region W₀ a b W n :=
    fun hn => h.task (List.mem_cons_self ..) hn
  cases hs with
  | met => cases ht
  | merged => cases ht
  | @absorb _ left right survivor absorbed type _ hreps hne htype hbottom hcovered hunion htasks =>
    obtain ⟨⟨hsurvivor, -⟩, habsorbed, hself⟩ :=
      sides (P := fun z => Region W₀ a b W z ∧ W.rep z = z) hreps
        ⟨h.rep (hnames (.inl rfl)), hW.rep_rep _⟩ ⟨h.rep (hnames (.inr rfl)), hW.rep_rep _⟩
    rcases htasks with ⟨rfl, -⟩ | ⟨incoming, rfl, -, hincoming⟩
    · cases ht
    · rw [List.mem_singleton.1 ht] at hn
      rcases hn with rfl | ⟨e, he, rfl⟩
      · exact hmono hsurvivor
      · exact hmono (h.edge habsorbed hself ((hincoming e.feature e.target).2 he))
  | @complete _ left right root type κ hne htype hbottom hproto hmissed himport =>
    have hleft := hmono (h.rep (hnames (.inl rfl)))
    have hright := hmono (h.rep (hnames (.inr rfl)))
    rcases List.mem_cons.1 ht with rfl | ht
    · rcases hn with rfl | rfl
      · exact hleft
      · exact .inr ⟨Nat.le_trans h.size_le (himport.le_copy ReflTransGen.refl),
          himport.copy_lt ReflTransGen.refl⟩
    · rw [List.mem_singleton.1 ht] at hn
      rcases hn with rfl | rfl
      · exact hleft
      · exact hright
  | @shared left right survivor existing e rest hexisting =>
    rcases List.mem_cons.1 ht with rfl | ht
    · rcases hn with rfl | rfl
      · exact h.edge (h.rep (hnames (.inl rfl))) (hW.rep_rep _) hexisting
      · exact hnames (.inr ⟨e, List.mem_cons_self .., rfl⟩)
    · rw [List.mem_singleton.1 ht] at hn
      rcases hn with rfl | ⟨d, hd, rfl⟩
      · exact hnames (.inl rfl)
      · exact hnames (.inr ⟨d, List.mem_cons_of_mem _ hd, rfl⟩)
  | @gained _ left right survivor e rest hnone hgain =>
    rw [List.mem_singleton.1 ht] at hn
    rcases hn with rfl | ⟨d, hd, rfl⟩
    · exact hmono (hnames (.inl rfl))
    · exact hmono (hnames (.inr ⟨d, List.mem_cons_of_mem _ hd, rfl⟩))
  | resume =>
    rw [List.mem_singleton.1 ht] at hn
    exact hnames hn

omit hW in
/-- The edges of an old class of the region lead to the region. -/
theorem Closed.edge_step {n : Nat} {f : FeatureId} {m : NodeId} (hn : Region W₀ a b W n)
    (hself : W.rep n = n) (hm : W'.edge? n f = some m) : Region W₀ a b W' m := by
  have hmono : ∀ {n}, Region W₀ a b W n → Region W₀ a b W' n := fun hn => hn.mono hs.grows.size_le
  cases hs with
  | absorb hreps hne htype hbottom hcovered hunion htasks =>
    rw [hunion.edge_eq] at hm
    exact hmono (h.edge hn hself hm)
  | complete hne htype hbottom hproto hmissed himport =>
    rw [himport.edge_eq (h.lt hn)] at hm
    exact hmono (h.edge hn hself hm)
  | @gained _ left right survivor e rest hnone hgain =>
    rw [hgain.edge_eq] at hm
    split at hm
    · cases hm
      exact hmono (h.task (List.mem_cons_self ..) (.inr ⟨e, List.mem_cons_self .., rfl⟩))
    · exact hmono (h.edge hn hself hm)
  | met | merged | shared | resume => exact h.edge hn hself hm

omit hW in
/-- The edges of a new node lead to new nodes. -/
theorem Closed.edge_new {n : Nat} {f : FeatureId} {m : NodeId} (hn : W.size ≤ n)
    (hlt : n < W'.size) (hm : W'.edge? n f = some m) : Region W₀ a b W' m := by
  cases hs with
  | complete hne htype hbottom hproto hmissed himport =>
    obtain ⟨k, hk, rfl⟩ := himport.surj hn hlt
    rw [himport.edge_copy hk] at hm
    obtain ⟨j, hj, rfl⟩ := Option.map_eq_some_iff.1 hm
    exact .inr ⟨Nat.le_trans h.size_le (himport.le_copy (hk.value hj)),
      himport.copy_lt (hk.value hj)⟩
  | absorb hreps hne htype hbottom hcovered hunion htasks =>
    exact absurd (hunion.size_eq ▸ hlt) (Nat.not_lt.2 hn)
  | gained hnone hgain => exact absurd (hgain.size_eq ▸ hlt) (Nat.not_lt.2 hn)
  | met | merged | shared | resume => exact absurd hlt (Nat.not_lt.2 hn)

/-- Steps do not leave the region. -/
theorem Closed.step : Closed W₀ a b W' (tasks ++ waiting) where
  size_le := Nat.le_trans h.size_le hs.grows.size_le
  left := h.left.mono hs.grows.size_le
  right := h.right.mono hs.grows.size_le
  lt := h.lt_step hs
  rep {n} hn := by
    rcases hn.cases (W := W) with hold | ⟨h₁, h₂⟩
    · exact h.rep_step hs hold
    · rwa [hs.grows.rep_new h₁ h₂]
  edge {n f m} hn hself hm := by
    rcases hn.cases (W := W) with hold | ⟨h₁, h₂⟩
    · exact h.edge_step hs hold (hs.rep_self hW hself) hm
    · exact h.edge_new hs h₁ h₂ hm
  task {t n} ht hn := by
    rcases List.mem_append.1 ht with ht | ht
    · exact h.task_step hW hs ht hn
    · exact (h.task (List.mem_cons_of_mem _ ht) hn).mono hs.grows.size_le

end Step

/-- What has come about below an operand is of the region. -/
theorem Closed.of_reach (h : Closed W₀ a b W tasks) (hW : W.Sound) {x n : NodeId}
    (hx : Region W₀ a b W x) (hn : W.view.Reach (W.rep x) n) :
    Region W₀ a b W n ∧ W.rep n = n := by
  induction hn with
  | refl => exact ⟨h.rep hx, hW.rep_rep x⟩
  | tail _ hs ih =>
    obtain ⟨f, hf⟩ := hs
    obtain ⟨k, hk, rfl⟩ := Option.map_eq_some_iff.1 hf
    exact ⟨h.rep (h.edge ih.1 ih.2 hk), hW.rep_rep k⟩

end Web

end FeatureLogic
