import Mathlib.Algebra.BigOperators.Group.Finset.Basic
import Mathlib.Algebra.BigOperators.Ring.Finset
import Mathlib.Algebra.Order.BigOperators.Group.Finset
import Mathlib.Order.CompletePartialOrder
import FeatureLogic.Agenda
import FeatureLogic.Graph.Basic

/-!
Walks. What every turn keeps holds at the end of a walk, and a walk that marks nodes as it comes to
them ends within its bound.
-/

namespace FeatureLogic

/-- The state after a turn. -/
def Turn.state {σ τ ε : Type} : Turn σ τ ε → σ
  | .next state _ | .halt state _ => state

/-- The ending when more tasks wait behind; it tells nothing of them where no task was left. -/
def Ending.before {σ τ ε : Type} (behind : List τ) : Ending σ τ ε → Ending σ τ ε
  | .done s => .done s
  | .halted s answer waiting => .halted s answer (waiting ++ behind)
  | .spent s waiting => .spent s (waiting ++ behind)

namespace Agenda

variable {σ τ ε : Type} {turn : σ → τ → Turn σ τ ε} {Inv : σ → List τ → Prop}

/-! ## Invariants -/

/-- Every turn that goes on keeps the invariant. -/
structure Keeps (turn : σ → τ → Turn σ τ ε) (Inv : σ → List τ → Prop) : Prop where
  next : ∀ {s task waiting s' tasks}, Inv s (task :: waiting) → turn s task = .next s' tasks →
    Inv s' (tasks ++ waiting)

theorem Keeps.done (hk : Keeps turn Inv) {fuel : Nat} {s s' : σ} {tasks : List τ}
    (h : Inv s tasks) (hr : run turn fuel s tasks = .done s') : Inv s' [] := by
  induction fuel generalizing s tasks with
  | zero =>
    cases tasks with
    | nil =>
      cases hr
      exact h
    | cons task waiting => cases hr
  | succ fuel ih =>
    cases tasks with
    | nil =>
      cases hr
      exact h
    | cons task waiting =>
      cases ht : turn s task with
      | next s₁ more =>
        rw [run_cons_next ht] at hr
        exact ih (hk.next h ht) hr
      | halt s₁ answer =>
        rw [run_cons_halt ht] at hr
        cases hr

theorem Keeps.halted (hk : Keeps turn Inv) {fuel : Nat} {s s' : σ} {answer : ε}
    {tasks waiting : List τ} (h : Inv s tasks)
    (hr : run turn fuel s tasks = .halted s' answer waiting) :
    ∃ s₁ task, Inv s₁ (task :: waiting) ∧ turn s₁ task = .halt s' answer := by
  induction fuel generalizing s tasks with
  | zero => cases tasks <;> cases hr
  | succ fuel ih =>
    cases tasks with
    | nil => cases hr
    | cons task rest =>
      cases ht : turn s task with
      | next s₁ more =>
        rw [run_cons_next ht] at hr
        exact ih (hk.next h ht) hr
      | halt s₁ answer' =>
        rw [run_cons_halt ht] at hr
        cases hr
        exact ⟨s, task, h, ht⟩

theorem Keeps.spent (hk : Keeps turn Inv) {fuel : Nat} {s s' : σ} {tasks waiting : List τ}
    (h : Inv s tasks) (hr : run turn fuel s tasks = .spent s' waiting) : Inv s' waiting := by
  induction fuel generalizing s tasks with
  | zero =>
    cases tasks with
    | nil => cases hr
    | cons task rest =>
      cases hr
      exact h
  | succ fuel ih =>
    cases tasks with
    | nil => cases hr
    | cons task rest =>
      cases ht : turn s task with
      | next s₁ more =>
        rw [run_cons_next ht] at hr
        exact ih (hk.next h ht) hr
      | halt s₁ answer =>
        rw [run_cons_halt ht] at hr
        cases hr

/-- A walk whose turns are those of another as long as the invariant holds is that walk. -/
theorem Keeps.run_congr (hk : Keeps turn Inv) {turn' : σ → τ → Turn σ τ ε}
    (heq : ∀ {s task waiting}, Inv s (task :: waiting) → turn' s task = turn s task) (fuel : Nat)
    {s : σ} {tasks : List τ} (h : Inv s tasks) :
    run turn' fuel s tasks = run turn fuel s tasks := by
  induction fuel generalizing s tasks with
  | zero => cases tasks <;> rfl
  | succ fuel ih =>
    cases tasks with
    | nil => rfl
    | cons task waiting =>
      have hsame := heq h
      cases ht : turn s task with
      | next s₁ more =>
        rw [ht] at hsame
        rw [run_cons_next ht, run_cons_next hsame]
        exact ih (hk.next h ht)
      | halt s₁ answer =>
        rw [ht] at hsame
        rw [run_cons_halt ht, run_cons_halt hsame]

/-- A walk that no turn ends keeps its invariant, whether all tasks are done or not. -/
theorem Keeps.state {turn : σ → τ → Turn σ τ Empty} (hk : Keeps turn Inv) (fuel : Nat) {s : σ}
    {tasks : List τ} (h : Inv s tasks) : ∃ waiting, Inv (run turn fuel s tasks).state waiting := by
  cases hr : run turn fuel s tasks with
  | done s' => exact ⟨[], hk.done h hr⟩
  | halted s' answer waiting => cases answer
  | spent s' waiting => exact ⟨waiting, hk.spent h hr⟩

/-- What every turn keeps of the state, whatever its task, holds however the walk ends. -/
theorem state_run {P : σ → Prop} (h : ∀ {s} (task), P s → P (turn s task).state) (fuel : Nat)
    {s : σ} (tasks : List τ) (hs : P s) : P (run turn fuel s tasks).state := by
  induction fuel generalizing s tasks with
  | zero => cases tasks <;> exact hs
  | succ fuel ih =>
    cases tasks with
    | nil => exact hs
    | cons task waiting =>
      have hturn := h task hs
      cases ht : turn s task with
      | next s₁ more =>
        rw [run_cons_next ht]
        rw [ht] at hturn
        exact ih _ hturn
      | halt s₁ answer =>
        rw [run_cons_halt ht]
        rwa [ht] at hturn

/-- What follows from the invariant, and holds where a turn ends the walk, holds however it ends. -/
theorem Keeps.state_of (hk : Keeps turn Inv) {P : σ → Prop} (hP : ∀ {s tasks}, Inv s tasks → P s)
    (hhalt : ∀ {s task waiting s' answer}, Inv s (task :: waiting) →
      turn s task = .halt s' answer → P s') (fuel : Nat) {s : σ} {tasks : List τ}
    (h : Inv s tasks) : P (run turn fuel s tasks).state := by
  cases hr : run turn fuel s tasks with
  | done s' => exact hP (hk.done h hr)
  | halted s' answer waiting =>
    obtain ⟨s₁, task, h₁, ht⟩ := hk.halted h hr
    exact hhalt h₁ ht
  | spent s' waiting => exact hP (hk.spent h hr)

/-- One turn more leads on by what a turn may do, if it leads on at all. -/
theorem Keeps.state_succ (hk : Keeps turn Inv) {R : σ → σ → Prop} (hrefl : ∀ s, R s s)
    (hturn : ∀ {s task waiting}, Inv s (task :: waiting) → R s (turn s task).state) (fuel : Nat)
    {s : σ} {tasks : List τ} (h : Inv s tasks) :
    R (run turn fuel s tasks).state (run turn (fuel + 1) s tasks).state := by
  cases hr : run turn fuel s tasks with
  | done s' =>
    rw [run_add (by simp [hr]), hr]
    exact hrefl s'
  | halted s' answer waiting =>
    rw [run_add (by simp [hr]), hr]
    exact hrefl s'
  | spent s' waiting =>
    -- only a walk that was cut short goes on with one turn more
    have h' := hk.spent h hr
    rw [run_add_of_spent hr]
    cases waiting with
    | nil => exact hrefl s'
    | cons task rest =>
      have hstep := hturn h'
      cases ht : turn s' task with
      | next s₁ more =>
        rw [ht] at hstep
        rw [run_cons_next ht]
        cases more ++ rest <;> exact hstep
      | halt s₁ answer =>
        rw [ht] at hstep
        rw [run_cons_halt ht]
        exact hstep

/-- Walks that come to an end come to the same one, whatever their bounds. -/
theorem run_eq_run {fuel fuel' : Nat} {s : σ} {tasks : List τ}
    (h : ∀ s' waiting, run turn fuel s tasks ≠ .spent s' waiting)
    (h' : ∀ s' waiting, run turn fuel' s tasks ≠ .spent s' waiting) :
    run turn fuel s tasks = run turn fuel' s tasks := by
  rcases Nat.le_total fuel fuel' with hle | hle <;>
    obtain ⟨extra, rfl⟩ := Nat.exists_eq_add_of_le hle
  · exact (run_add h extra).symm
  · exact run_add h' extra

/-! ## Walks in step -/

section InStep

variable {σ' τ' ε' : Type}

/-- Two turns go on and come to related states and tasks, or both end their walks. -/
inductive TurnsAlike (R : σ → List τ → σ' → List τ' → Prop) :
    Turn σ τ ε → Turn σ' τ' ε' → Prop
  | next {s tasks s' tasks'} (h : R s tasks s' tasks') :
    TurnsAlike R (.next s tasks) (.next s' tasks')
  | halt {s answer s' answer'} : TurnsAlike R (.halt s answer) (.halt s' answer')

theorem TurnsAlike.imp {R R' : σ → List τ → σ' → List τ' → Prop} {t : Turn σ τ ε}
    {t' : Turn σ' τ' ε'} (h : TurnsAlike R t t')
    (himp : ∀ {s tasks s' tasks'}, R s tasks s' tasks' → R' s tasks s' tasks') :
    TurnsAlike R' t t' := by
  cases h with
  | next h => exact .next (himp h)
  | halt => exact .halt

/-- Two walks end in the same way, in related states if they are done. -/
inductive EndsAlike (R : σ → List τ → σ' → List τ' → Prop) :
    Ending σ τ ε → Ending σ' τ' ε' → Prop
  | done {s s'} (h : R s [] s' []) : EndsAlike R (.done s) (.done s')
  | halted {s answer waiting s' answer' waiting'} :
    EndsAlike R (.halted s answer waiting) (.halted s' answer' waiting')
  | spent {s waiting s' waiting'} : EndsAlike R (.spent s waiting) (.spent s' waiting')

/-- Two walks are in step: related states have as many tasks, and take turns that are alike. -/
structure InStep (turn : σ → τ → Turn σ τ ε) (turn' : σ' → τ' → Turn σ' τ' ε')
    (R : σ → List τ → σ' → List τ' → Prop) : Prop where
  nil_iff : ∀ {s tasks s' tasks'}, R s tasks s' tasks' → (tasks = [] ↔ tasks' = [])
  turns : ∀ {s task waiting s' task' waiting'}, R s (task :: waiting) s' (task' :: waiting') →
    TurnsAlike (fun s₁ tasks s₁' tasks' => R s₁ (tasks ++ waiting) s₁' (tasks' ++ waiting'))
      (turn s task) (turn' s' task')

theorem InStep.run {turn' : σ' → τ' → Turn σ' τ' ε'} {R : σ → List τ → σ' → List τ' → Prop}
    (h : InStep turn turn' R) (fuel : Nat) {s : σ} {tasks : List τ} {s' : σ'} {tasks' : List τ'}
    (hR : R s tasks s' tasks') :
    EndsAlike R (run turn fuel s tasks) (run turn' fuel s' tasks') := by
  induction fuel generalizing s tasks s' tasks' with
  | zero =>
    cases tasks with
    | nil =>
      obtain rfl := (h.nil_iff hR).1 rfl
      exact .done hR
    | cons task waiting =>
      cases tasks' with
      | nil => exact absurd ((h.nil_iff hR).2 rfl) (List.cons_ne_nil _ _)
      | cons task' waiting' => exact .spent
  | succ fuel ih =>
    cases tasks with
    | nil =>
      obtain rfl := (h.nil_iff hR).1 rfl
      exact .done hR
    | cons task waiting =>
      cases tasks' with
      | nil => exact absurd ((h.nil_iff hR).2 rfl) (List.cons_ne_nil _ _)
      | cons task' waiting' =>
        -- neither list of tasks is empty, so both walks take a turn
        have hturns := h.turns hR
        unfold Agenda.run
        revert hturns
        generalize turn s task = t
        generalize turn' s' task' = t'
        intro hturns
        cases hturns with
        | next hR' => exact ih hR'
        | halt => exact .halted

/-- Walks in step that no turn ends are done in related states, unless turns are lacking. -/
theorem EndsAlike.state {τ' : Type} {R : σ → List τ → σ' → List τ' → Prop}
    {ending : Ending σ τ Empty} {ending' : Ending σ' τ' ε'} (h : EndsAlike R ending ending')
    (hne : ∀ s waiting, ending ≠ .spent s waiting) : R ending.state [] ending'.state [] := by
  cases h with
  | done h => exact h
  | @halted s answer => exact answer.elim
  | spent => exact absurd rfl (hne _ _)

/-- Walks in step that come to their ends end in the same way, whatever their bounds. -/
theorem InStep.run_of_ne_spent {turn' : σ' → τ' → Turn σ' τ' ε'}
    {R : σ → List τ → σ' → List τ' → Prop} (h : InStep turn turn' R) {fuel fuel' : Nat} {s : σ}
    {tasks : List τ} {s' : σ'} {tasks' : List τ'} (hR : R s tasks s' tasks')
    (hne : ∀ r waiting, Agenda.run turn fuel s tasks ≠ .spent r waiting)
    (hne' : ∀ r waiting, Agenda.run turn' fuel' s' tasks' ≠ .spent r waiting) :
    EndsAlike R (Agenda.run turn fuel s tasks) (Agenda.run turn' fuel' s' tasks') := by
  have hends := h.run (fuel + fuel') hR
  rwa [run_add hne, Nat.add_comm, run_add hne'] at hends

/-- Walks are in step when they are so as long as each of them keeps what it keeps by itself. -/
theorem Keeps.inStep {turn' : σ' → τ' → Turn σ' τ' ε'} {Inv' : σ' → List τ' → Prop}
    {R : σ → List τ → σ' → List τ' → Prop} (hk : Keeps turn Inv) (hk' : Keeps turn' Inv')
    (hnil : ∀ {s tasks s' tasks'}, R s tasks s' tasks' → (tasks = [] ↔ tasks' = []))
    (hturns : ∀ {s task waiting s' task' waiting'}, R s (task :: waiting) s' (task' :: waiting') →
      Inv s (task :: waiting) → Inv' s' (task' :: waiting') →
      TurnsAlike (fun s₁ tasks s₁' tasks' => R s₁ (tasks ++ waiting) s₁' (tasks' ++ waiting'))
        (turn s task) (turn' s' task')) :
    InStep turn turn' fun s tasks s' tasks' =>
      Inv s tasks ∧ Inv' s' tasks' ∧ R s tasks s' tasks' where
  nil_iff h := hnil h.2.2
  turns := by
    rintro s task waiting s' task' waiting' ⟨hinv, hinv', hR⟩
    have halike := hturns hR hinv hinv'
    cases ht : turn s task with
    | next s₁ tasks =>
      cases ht' : turn' s' task' with
      | next s₁' tasks' =>
        rw [ht, ht'] at halike
        cases halike with
        | next h => exact .next ⟨hk.next hinv ht, hk'.next hinv' ht', h⟩
      | halt s₁' answer' =>
        rw [ht, ht'] at halike
        cases halike
    | halt s₁ answer =>
      cases ht' : turn' s' task' with
      | next s₁' tasks' =>
        rw [ht, ht'] at halike
        cases halike
      | halt s₁' answer' => exact .halt

section Worlds

variable {W : Type} [Preorder W] {turn' : σ' → τ' → Turn σ' τ' ε'} {Inv' : σ' → List τ' → Prop}
  {R : W → σ → σ' → Prop} {T : W → τ → τ' → Prop}

/-- Two walks stand at the same point: their states and their tasks correspond in a way that may
have changed since `w₀`, and each walk keeps what it keeps by itself. -/
def Abreast (Inv : σ → List τ → Prop) (Inv' : σ' → List τ' → Prop) (R : W → σ → σ' → Prop)
    (T : W → τ → τ' → Prop) (w₀ : W) (s : σ) (tasks : List τ) (s' : σ') (tasks' : List τ') : Prop :=
  Inv s tasks ∧ Inv' s' tasks' ∧ ∃ w, w₀ ≤ w ∧ R w s s' ∧ List.Forall₂ (T w) tasks tasks'

/-- Walks are in step when tasks that correspond lead to tasks that correspond; those that wait do
so still, as what corresponds only grows. -/
theorem inStep_of_abreast (hk : Keeps turn Inv) (hk' : Keeps turn' Inv')
    (hmono : ∀ {w w' t t'}, w ≤ w' → T w t t' → T w' t t') (w₀ : W)
    (hturns : ∀ {w s task waiting s' task' waiting'}, R w s s' → T w task task' →
      Inv s (task :: waiting) → Inv' s' (task' :: waiting') →
      TurnsAlike (fun s₁ tasks s₁' tasks' => ∃ w', w ≤ w' ∧ R w' s₁ s₁' ∧
        List.Forall₂ (T w') tasks tasks') (turn s task) (turn' s' task')) :
    InStep turn turn' (Abreast Inv Inv' R T w₀) := by
  refine hk.inStep hk' ?_ ?_
  · rintro s tasks s' tasks' ⟨w, -, -, htasks⟩
    cases htasks <;> simp
  · rintro s task waiting s' task' waiting' ⟨w, hw, hR, htasks⟩ hinv hinv'
    obtain ⟨htask, hwaiting⟩ := List.forall₂_cons.1 htasks
    refine (hturns hR htask hinv hinv').imp ?_
    rintro s₁ tasks s₁' tasks' ⟨w', hw', hR', hnew⟩
    exact ⟨w', hw.trans hw', hR', List.rel_append hnew (hwaiting.imp fun _ _ => hmono hw')⟩

end Worlds

end InStep

/-! ## Bounds -/

/-- A walk whose turns make something smaller ends. -/
theorem Keeps.run_ne_spent (hk : Keeps turn Inv) (measure : σ → List τ → Nat)
    (hpos : ∀ {s task waiting}, Inv s (task :: waiting) → 0 < measure s (task :: waiting))
    (hless : ∀ {s task waiting s' tasks}, Inv s (task :: waiting) →
      turn s task = .next s' tasks → measure s' (tasks ++ waiting) < measure s (task :: waiting))
    {fuel : Nat} {s : σ} {tasks : List τ} (h : Inv s tasks) (hfuel : measure s tasks ≤ fuel)
    (s' : σ) (waiting : List τ) : run turn fuel s tasks ≠ .spent s' waiting := by
  induction fuel generalizing s tasks with
  | zero =>
    cases tasks with
    | nil => exact fun hr => by cases hr
    | cons task rest =>
      have := hpos h
      omega
  | succ fuel ih =>
    cases tasks with
    | nil => exact fun hr => by cases hr
    | cons task rest =>
      cases ht : turn s task with
      | next s₁ more =>
        rw [run_cons_next ht]
        have := hless h ht
        exact ih (hk.next h ht) (by omega)
      | halt s₁ answer =>
        rw [run_cons_halt ht]
        exact fun hr => by cases hr

/-- A walk whose turns go down in a well-founded order ends, if enough turns are allowed. -/
theorem Keeps.exists_fuel {α : Type} [WellFoundedRelation α] (hk : Keeps turn Inv)
    (measure : σ → List τ → α)
    (hless : ∀ {s task waiting s' tasks}, Inv s (task :: waiting) → turn s task = .next s' tasks →
      WellFoundedRelation.rel (measure s' (tasks ++ waiting)) (measure s (task :: waiting)))
    {s : σ} {tasks : List τ} (h : Inv s tasks) :
    ∃ fuel, ∀ s' waiting, run turn fuel s tasks ≠ .spent s' waiting := by
  have hwf : WellFounded (@WellFoundedRelation.rel α _) := WellFoundedRelation.wf
  generalize hm : measure s tasks = m
  induction m using hwf.induction generalizing s tasks with
  | _ m ih =>
    cases tasks with
    | nil => exact ⟨0, by simp⟩
    | cons task waiting =>
      cases ht : turn s task with
      | next s₁ more =>
        obtain ⟨fuel, hfuel⟩ := ih _ (hm ▸ hless h ht) (hk.next h ht) rfl
        refine ⟨fuel + 1, ?_⟩
        rw [run_cons_next ht]
        exact hfuel
      | halt s₁ answer =>
        refine ⟨1, ?_⟩
        rw [run_cons_halt ht]
        simp

/-- What is left to be done for nodes that are not marked. -/
noncomputable def leftOver (size : Nat) (work : NodeId → Nat) (marked : NodeId → Prop) : Nat :=
  open Classical in ∑ n ∈ Finset.range size with ¬ marked n, work n

theorem leftOver_mark {size : Nat} (work : NodeId → Nat) {marked marked' : NodeId → Prop}
    {n : NodeId} (hn : n < size) (hnew : ¬ marked n)
    (hmarked : ∀ m, marked' m ↔ m = n ∨ marked m) :
    leftOver size work marked' + work n = leftOver size work marked := by
  classical
  have hinsert : (Finset.range size).filter (fun m => ¬ marked m) =
      insert n ((Finset.range size).filter fun m => ¬ marked' m) := by
    ext m
    simp only [Finset.mem_filter, Finset.mem_range, Finset.mem_insert, hmarked]
    by_cases hm : m = n
    · subst hm
      simp [hn, hnew]
    · simp [hm]
  have hnot : n ∉ (Finset.range size).filter fun m => ¬ marked' m := by simp [hmarked]
  unfold leftOver
  convert (Finset.sum_insert (f := work) hnot).symm using 1
  · rw [Nat.add_comm]
  · rw [hinsert]

open Classical in
/-- What is left when all nodes but some are marked is the work of these. -/
theorem leftOver_not (size : Nat) (work : NodeId → Nat) (P : NodeId → Prop) :
    leftOver size work (fun n => ¬ P n) = ∑ n ∈ Finset.range size, if P n then work n else 0 := by
  unfold leftOver
  rw [← Finset.sum_filter]
  refine Finset.sum_congr ?_ fun _ _ => rfl
  ext n
  simp only [Finset.mem_filter, not_not]

/-- The same, when these are listed once each. -/
theorem sum_map_eq_leftOver {size : Nat} (work : NodeId → Nat) {P : NodeId → Prop}
    {order : List NodeId} (hnodup : order.Nodup) (hmem : ∀ n, n ∈ order ↔ P n)
    (hlt : ∀ n, P n → n < size) :
    (order.map work).sum = leftOver size work (fun n => ¬ P n) := by
  classical
  rw [← List.sum_toFinset _ hnodup]
  unfold leftOver
  refine Finset.sum_congr ?_ fun _ _ => rfl
  ext n
  simp only [List.mem_toFinset, Finset.mem_filter, Finset.mem_range, Classical.not_not, hmem]
  exact ⟨fun hn => ⟨hlt n hn, hn⟩, fun hn => hn.2⟩

/-- The more nodes are marked, the less is left. -/
theorem leftOver_mono {size : Nat} (work : NodeId → Nat) {marked marked' : NodeId → Prop}
    (h : ∀ n, marked n → marked' n) : leftOver size work marked' ≤ leftOver size work marked := by
  classical
  unfold leftOver
  exact Finset.sum_le_sum_of_subset (Finset.monotone_filter_right _ fun n _ => mt (h n))

theorem leftOver_le_sum (size : Nat) (work : NodeId → Nat) (marked : NodeId → Prop) :
    leftOver size work marked ≤ ∑ n ∈ Finset.range size, work n := by
  classical
  unfold leftOver
  exact Finset.sum_le_sum_of_subset (Finset.filter_subset _ _)

theorem leftOver_le_mul {size k : Nat} {work work' : NodeId → Nat}
    (h : ∀ n, work n ≤ k * work' n) (marked : NodeId → Prop) :
    leftOver size work marked ≤ k * leftOver size work' marked := by
  classical
  unfold leftOver
  rw [Finset.mul_sum]
  exact Finset.sum_le_sum fun n _ => h n

/-- A walk ends when every turn takes up its task alone or marks a node and asks for no more tasks
than the node has work. -/
theorem Keeps.run_ne_spent_of_marks (hk : Keeps turn Inv) (size : Nat) (work : NodeId → Nat)
    (marked : σ → NodeId → Prop)
    (hturn : ∀ {s task waiting s' tasks}, Inv s (task :: waiting) →
      turn s task = .next s' tasks → (tasks = [] ∧ ∀ n, marked s' n ↔ marked s n) ∨
        ∃ n < size, ¬ marked s n ∧ (∀ m, marked s' m ↔ m = n ∨ marked s m) ∧
          tasks.length ≤ work n)
    {fuel : Nat} {s : σ} {tasks : List τ} (h : Inv s tasks)
    (hfuel : tasks.length + leftOver size work (marked s) ≤ fuel) (s' : σ) (waiting : List τ) :
    run turn fuel s tasks ≠ .spent s' waiting := by
  refine hk.run_ne_spent (fun s tasks => tasks.length + leftOver size work (marked s)) ?_ ?_ h
    hfuel s' waiting
  · intro s task waiting _
    simp only [List.length_cons]
    omega
  · intro s task waiting s' tasks hinv ht
    rcases hturn hinv ht with ⟨rfl, hsame⟩ | ⟨n, hn, hnew, hmarked, hlen⟩
    · have : marked s' = marked s := funext fun n => propext (hsame n)
      simp only [this, List.nil_append, List.length_cons]
      omega
    · have := leftOver_mark work hn hnew hmarked
      simp only [List.length_append, List.length_cons]
      omega

/-- A walk ends when every turn takes from what is left at least the tasks that it asks for, where
what is left need not be told by the state. -/
theorem run_ne_spent_of_left {α : Type} (Inv : α → σ → List τ → Prop) (left : α → Nat)
    (hturn : ∀ {a s task waiting s' tasks}, Inv a s (task :: waiting) →
      turn s task = .next s' tasks →
      ∃ a', Inv a' s' (tasks ++ waiting) ∧ tasks.length + left a' ≤ left a)
    {fuel : Nat} {a : α} {s : σ} {tasks : List τ} (h : Inv a s tasks)
    (hfuel : tasks.length + left a ≤ fuel) (s' : σ) (waiting : List τ) :
    run turn fuel s tasks ≠ .spent s' waiting := by
  induction fuel generalizing a s tasks with
  | zero =>
    cases tasks with
    | nil => exact fun hr => by cases hr
    | cons task rest =>
      rw [List.length_cons] at hfuel
      omega
  | succ fuel ih =>
    cases tasks with
    | nil => exact fun hr => by cases hr
    | cons task rest =>
      cases ht : turn s task with
      | next s₁ more =>
        obtain ⟨a', h', hleft⟩ := hturn h ht
        rw [run_cons_next ht]
        refine ih h' ?_
        simp only [List.length_append, List.length_cons] at hfuel ⊢
        omega
      | halt s₁ answer =>
        rw [run_cons_halt ht]
        exact fun hr => by cases hr

/-! ## Walks in parts -/

/-- The walk from `s` comes through `tasks` to `s'` in so many turns, whatever waits behind. -/
def Leads (turn : σ → τ → Turn σ τ ε) (s : σ) (tasks : List τ) (turns : Nat) (s' : σ) : Prop :=
  ∀ waiting extra, run turn (turns + extra) s (tasks ++ waiting) = run turn extra s' waiting

section Leads

variable {s s₁ s₂ : σ} {task : τ} {tasks tasks' : List τ} {turns turns' : Nat}

theorem leads_nil (s : σ) : Leads turn s [] 0 s := fun waiting extra => by
  rw [Nat.zero_add, List.nil_append]

theorem Leads.append (h : Leads turn s tasks turns s₁) (h' : Leads turn s₁ tasks' turns' s₂) :
    Leads turn s (tasks ++ tasks') (turns + turns') s₂ := fun waiting extra => by
  rw [List.append_assoc, Nat.add_assoc, h, h']

theorem Leads.cons (h : Leads turn s [task] turns s₁) (h' : Leads turn s₁ tasks turns' s₂) :
    Leads turn s (task :: tasks) (turns + turns') s₂ :=
  h.append h'

theorem leads_of_next (ht : turn s task = .next s₁ tasks) (h : Leads turn s₁ tasks turns s₂) :
    Leads turn s [task] (turns + 1) s₂ := fun waiting extra => by
  rw [Nat.add_right_comm, List.singleton_append, run_cons_next ht, h]

/-- A walk whose parts are within the bound comes to its end. -/
theorem Leads.run_eq_done (h : Leads turn s tasks turns s₁) {fuel : Nat} (hfuel : turns ≤ fuel) :
    run turn fuel s tasks = .done s₁ := by
  obtain ⟨extra, rfl⟩ := Nat.exists_eq_add_of_le hfuel
  simpa using h [] extra

/-- A walk that comes to its end is a part of any walk with more tasks. -/
theorem exists_leads_of_done {fuel : Nat} (h : run turn fuel s tasks = .done s₁) :
    ∃ turns ≤ fuel, Leads turn s tasks turns s₁ := by
  induction fuel generalizing s tasks with
  | zero =>
    cases tasks with
    | nil =>
      cases h
      exact ⟨0, Nat.le_refl 0, leads_nil _⟩
    | cons task rest => cases h
  | succ fuel ih =>
    cases tasks with
    | nil =>
      cases h
      exact ⟨0, Nat.zero_le _, leads_nil _⟩
    | cons task rest =>
      cases ht : turn s task with
      | next s₂ more =>
        rw [run_cons_next ht] at h
        obtain ⟨turns, hle, hleads⟩ := ih h
        refine ⟨turns + 1, Nat.succ_le_succ hle, fun waiting extra => ?_⟩
        rw [Nat.add_right_comm, List.cons_append, run_cons_next ht, ← List.append_assoc, hleads]
      | halt s₂ answer =>
        rw [run_cons_halt ht] at h
        cases h

/-- The walk from `s` comes to `s'` in so many turns and has `tasks'` to do in place of `tasks`,
whatever waits behind. -/
def Reaches (turn : σ → τ → Turn σ τ ε) (s : σ) (tasks : List τ) (turns : Nat) (s' : σ)
    (tasks' : List τ) : Prop :=
  ∀ waiting extra, run turn (turns + extra) s (tasks ++ waiting) =
    run turn extra s' (tasks' ++ waiting)

theorem reaches_refl (s : σ) (tasks : List τ) : Reaches turn s tasks 0 s tasks :=
  fun waiting extra => by rw [Nat.zero_add]

theorem reaches_of_next (ht : turn s task = .next s₁ tasks) (waiting : List τ) :
    Reaches turn s (task :: waiting) 1 s₁ (tasks ++ waiting) := fun behind extra => by
  rw [Nat.add_comm, List.cons_append, run_cons_next ht, List.append_assoc]

theorem Reaches.trans {tasks'' : List τ} (h : Reaches turn s tasks turns s₁ tasks')
    (h' : Reaches turn s₁ tasks' turns' s₂ tasks'') :
    Reaches turn s tasks (turns + turns') s₂ tasks'' := fun waiting extra => by
  rw [Nat.add_assoc, h, h']

theorem Reaches.append (h : Reaches turn s tasks turns s₁ tasks') (behind : List τ) :
    Reaches turn s (tasks ++ behind) turns s₁ (tasks' ++ behind) := fun waiting extra => by
  rw [List.append_assoc, h, List.append_assoc]

theorem Reaches.run_eq (h : Reaches turn s tasks turns s₁ tasks') (extra : Nat) :
    run turn (turns + extra) s tasks = run turn extra s₁ tasks' := by
  simpa using h [] extra

end Leads

/-- What waits behind a walk is not come to before its own tasks are done. -/
theorem run_append {s : σ} {tasks : List τ} {fuel : Nat}
    (h : ∀ s', run turn fuel s tasks ≠ .done s') (behind : List τ) :
    run turn fuel s (tasks ++ behind) = (run turn fuel s tasks).before behind := by
  induction fuel generalizing s tasks with
  | zero =>
    cases tasks with
    | nil => exact absurd rfl (h s)
    | cons task rest => rfl
  | succ fuel ih =>
    cases tasks with
    | nil => exact absurd rfl (h s)
    | cons task rest =>
      cases ht : turn s task with
      | next s₁ more =>
        rw [run_cons_next ht] at h ⊢
        rw [List.cons_append, run_cons_next ht, ← List.append_assoc]
        exact ih h
      | halt s₁ answer =>
        rw [List.cons_append, run_cons_halt ht, run_cons_halt ht]
        rfl

/-! ## Traces -/

/-- The state and the task of each turn that a walk takes. -/
def trace (turn : σ → τ → Turn σ τ ε) : Nat → σ → List τ → List (σ × τ)
  | 0, _, _ | _ + 1, _, [] => []
  | fuel + 1, state, task :: waiting =>
    (state, task) :: match turn state task with
      | .next state' tasks => trace turn fuel state' (tasks ++ waiting)
      | .halt _ _ => []

theorem trace_cons_next {fuel : Nat} {s s' : σ} {task : τ} {tasks : List τ}
    (ht : turn s task = .next s' tasks) (waiting : List τ) :
    trace turn (fuel + 1) s (task :: waiting) =
      (s, task) :: trace turn fuel s' (tasks ++ waiting) := by
  rw [trace, ht]

/-- What is put together from turn to turn is so over a whole walk that no turn ends. -/
theorem trace_induct {α : Type} {turn : σ → τ → Turn σ τ Empty} {R : σ → List α → σ → Prop}
    (piece : σ × τ → List α) (hnil : ∀ s, R s [] s)
    (hturn : ∀ {s task s' tasks rest s''}, turn s task = .next s' tasks → R s' rest s'' →
      R s (piece (s, task) ++ rest) s'')
    (fuel : Nat) (s : σ) (tasks : List τ) :
    R s ((trace turn fuel s tasks).flatMap piece) (run turn fuel s tasks).state := by
  induction fuel generalizing s tasks with
  | zero => cases tasks <;> exact hnil s
  | succ fuel ih =>
    cases tasks with
    | nil => exact hnil s
    | cons task waiting =>
      cases ht : turn s task with
      | next s₁ more =>
        rw [run_cons_next ht, trace_cons_next ht, List.flatMap_cons]
        exact hturn ht (ih s₁ _)
      | halt s₁ answer => exact answer.elim

/-! ## Endless walks -/

/-- The walk uses up every number of turns allowed. -/
def Endless (turn : σ → τ → Turn σ τ ε) (s : σ) (tasks : List τ) : Prop :=
  ∀ fuel, ∃ s' waiting, run turn fuel s tasks = .spent s' waiting

section Endless

variable {s s' : σ} {task : τ} {tasks : List τ}

/-- What waits behind an endless walk is never come to. -/
theorem Endless.append (h : Endless turn s tasks) (behind : List τ) :
    Endless turn s (tasks ++ behind) := by
  intro fuel
  obtain ⟨s', waiting, hr⟩ := h fuel
  refine ⟨s', waiting ++ behind, ?_⟩
  rw [run_append (by simp [hr]), hr]
  rfl

theorem endless_of_next (ht : turn s task = .next s' tasks) {waiting : List τ}
    (h : Endless turn s' (tasks ++ waiting)) : Endless turn s (task :: waiting) := by
  intro fuel
  cases fuel with
  | zero => exact ⟨_, _, rfl⟩
  | succ fuel =>
    rw [run_cons_next ht]
    exact h fuel

/-- A walk is endless if it is neither halted nor comes to an end. -/
theorem endless_of_ne (hdone : ∀ fuel s', run turn fuel s tasks ≠ .done s')
    (hhalted : ∀ fuel s' answer waiting, run turn fuel s tasks ≠ .halted s' answer waiting) :
    Endless turn s tasks := by
  intro fuel
  cases hr : run turn fuel s tasks with
  | done s' => exact absurd hr (hdone fuel s')
  | halted s' answer waiting => exact absurd hr (hhalted fuel s' answer waiting)
  | spent s' waiting => exact ⟨s', waiting, rfl⟩

end Endless

/-! ## Tasks that need others -/

/-- Whatever a task needs has been seen, or a task before it sees to it. -/
def Ready (enters : τ → Option NodeId) (needs : τ → List NodeId) : (NodeId → Prop) → List τ → Prop
  | _, [] => True
  | seen, task :: rest =>
    (∀ n ∈ needs task, seen n) ∧ Ready enters needs (fun n => seen n ∨ enters task = some n) rest

section Ready

variable {enters : τ → Option NodeId} {needs : τ → List NodeId} {seen seen' : NodeId → Prop}

theorem Ready.mono {tasks : List τ} (h : Ready enters needs seen tasks)
    (hseen : ∀ n, seen n → seen' n) : Ready enters needs seen' tasks := by
  induction tasks generalizing seen seen' with
  | nil => trivial
  | cons task rest ih =>
    exact ⟨fun n hn => hseen n (h.1 n hn), ih h.2 fun n => Or.imp_left (hseen n)⟩

/-- Tasks that need nothing see to what they enter. -/
theorem ready_append {first rest : List τ} (hneeds : ∀ task ∈ first, needs task = [])
    (h : Ready enters needs (fun n => seen n ∨ ∃ task ∈ first, enters task = some n) rest) :
    Ready enters needs seen (first ++ rest) := by
  induction first generalizing seen with
  | nil => exact h.mono fun n hn => hn.elim id (by simp)
  | cons task first ih =>
    refine ⟨by simp [hneeds task (by simp)], ih (fun t ht => hneeds t (by simp [ht])) ?_⟩
    refine h.mono fun n hn => ?_
    simpa [or_assoc] using hn

end Ready

end Agenda

/-! ## The weight of a graph -/

namespace Graph

theorem foldl_weight (list : List Node) (w : Nat) :
    list.foldl (fun w node => w + 1 + node.edges.length + node.slots.pending.length) w =
      w + ∑ n ∈ Finset.range list.length, (1 + (list.getD n default).edges.length +
        (list.getD n default).slots.pending.length) := by
  induction list generalizing w with
  | nil => simp
  | cons node rest ih =>
    rw [List.foldl_cons, ih, List.length_cons, Finset.sum_range_succ']
    simp only [List.getD_cons_succ, List.getD_cons_zero]
    omega

theorem weight_eq (g : Graph) : g.weight = 1 + ∑ n ∈ Finset.range g.size,
    (1 + (g.edges n).length + (g.node n).slots.pending.length) := by
  rw [weight, ← Array.foldl_toList, foldl_weight]
  simp only [Array.length_toList, List.getD_eq_getElem?_getD, Array.getElem?_toList, size, edges,
    node, Array.getD_eq_getD_getElem?]

/-- A walk that has as much work with a node as the node has edges, and one turn more, is within
the weight of the graph. -/
theorem leftOver_lt_weight (g : Graph) (work : NodeId → Nat) (marked : NodeId → Prop)
    (hwork : ∀ n, work n ≤ 1 + (g.edges n).length + (g.node n).slots.pending.length) :
    1 + Agenda.leftOver g.size work marked ≤ g.weight := by
  rw [weight_eq]
  refine Nat.add_le_add_left ?_ 1
  exact (Agenda.leftOver_le_sum ..).trans (Finset.sum_le_sum fun n _ => hwork n)

end Graph

end FeatureLogic
