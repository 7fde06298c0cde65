import FeatureLogic.Proofs.Unify.Simulation

/-!
Unification comes to an end where no prototype has features: a step takes up its task, asks for less
work than it does, or leaves one class less.
-/

namespace FeatureLogic

/-- How much work a task may bring, as long as no class is taken into another. -/
def UnifyTask.weight : UnifyTask → Nat
  | .pair _ _ => 1
  | .merge _ _ _ incoming => 1 + 2 * incoming.length
  | .resume _ _ _ _ => 2

namespace Web

/-- The number of classes. -/
def classes (W : Web) : Nat := ((Finset.range W.size).filter fun n => W.rep n = n).card

/-- There are fewer classes after a union. -/
theorem Union.classes_lt {W W' : Web} {survivor absorbed : Nat} {type : TypeId}
    (h : W.Union survivor absorbed type W') (hne : survivor ≠ absorbed)
    (hsurvivor : W.rep survivor = survivor) (hself : W.rep absorbed = absorbed)
    (hlt : absorbed < W.size) : W'.classes < W.classes := by
  refine Finset.card_lt_card (Finset.ssubset_iff_of_subset ?_ |>.2 ⟨absorbed, ?_, ?_⟩)
  · intro n hn
    obtain ⟨hn, hrep⟩ := Finset.mem_filter.1 hn
    refine Finset.mem_filter.2 ⟨h.size_eq ▸ hn, ?_⟩
    rw [h.rep_eq] at hrep
    split at hrep
    · rw [← hrep]
      exact hsurvivor
    · exact hrep
  · exact Finset.mem_filter.2 ⟨Finset.mem_range.2 hlt, hself⟩
  · intro hmem
    have hrep := (Finset.mem_filter.1 hmem).2
    rw [h.rep_of_mem (.inr hself)] at hrep
    exact hne hrep

end Web

/-- The measure that falls: first the classes, then the work of the tasks. -/
def Web.measure (W : Web) (tasks : List UnifyTask) : Nat × Nat :=
  (W.classes, (tasks.map UnifyTask.weight).sum)

/-- A step by which nothing comes in makes the measure fall. -/
theorem UnifyStep.measure_lt {g : Grammar} {W W' : Web} {task : UnifyTask}
    {tasks waiting : List UnifyTask} (hs : UnifyStep g W task W' tasks) (hsize : W'.size = W.size)
    (hW : W.Sound) (hin : task.Within W.size) :
    WellFoundedRelation.rel (W'.measure (tasks ++ waiting)) (W.measure (task :: waiting)) := by
  have hsame : ∀ {W' : Web}, W'.classes = W.classes →
      (tasks.map UnifyTask.weight).sum < task.weight →
      WellFoundedRelation.rel (W'.measure (tasks ++ waiting)) (W.measure (task :: waiting)) := by
    intro W' hclasses hlt
    rw [Web.measure, Web.measure, hclasses]
    refine Prod.Lex.right _ ?_
    simp only [List.map_append, List.sum_append, List.map_cons, List.sum_cons]
    exact Nat.add_lt_add_right hlt _
  cases hs with
  | absorb hreps hne htype hbottom hcovered hunion htasks =>
    refine Prod.Lex.left _ _ ?_
    obtain ⟨⟨hsurvivor, -⟩, habsorbed, hlt⟩ :=
      Web.sides (P := fun z : Nat => W.rep z = z ∧ z < W.size) hreps
        ⟨hW.rep_rep _, hW.rep_lt hin.1⟩ ⟨hW.rep_rep _, hW.rep_lt hin.2⟩
    exact hunion.classes_lt hne hsurvivor habsorbed hlt
  | complete hne htype hbottom hroot hmissed himport =>
    exact absurd hsize himport.size_lt.ne'
  | gained hnone hgain =>
    refine hsame ?_ ?_
    · rw [Web.classes, hgain.size_eq, hgain.rep_eq, Web.classes]
    · simp [UnifyTask.weight]
  | met => exact hsame rfl (by simp [UnifyTask.weight])
  | merged => exact hsame rfl (by simp [UnifyTask.weight])
  | shared => exact hsame rfl (by simp [UnifyTask.weight]; omega)
  | resume => exact hsame rfl (by simp [UnifyTask.weight])

/-- A unification by which nothing comes in comes to its end, if enough turns are allowed. -/
theorem Session.exists_fuel_of_size_eq {s₀ s : Session} {tasks : List UnifyTask}
    (Inv : Web → List UnifyTask → Prop)
    (hk : Agenda.Keeps unifyTurn fun s tasks => Unifying s₀ s tasks ∧ Inv s.graph.web tasks)
    (hsize : ∀ {W task W' tasks waiting}, W.Sound → Inv W (task :: waiting) →
      UnifyStep s₀.grammar W task W' tasks → W'.size = W.size)
    (h : Unifying s₀ s tasks) (hinv : Inv s.graph.web tasks) :
    ∃ fuel, ∀ s' waiting, Agenda.run unifyTurn fuel s tasks ≠ .spent s' waiting := by
  refine hk.exists_fuel (fun s tasks => s.graph.web.measure tasks) (fun ⟨h, hinv⟩ ht => ?_)
    ⟨h, hinv⟩
  have hW := h.graph.web_sound
  have hstep := (unifyTurn_next h ht).1
  exact hstep.measure_lt (hsize hW hinv hstep) hW (h.within _ (List.mem_cons_self ..))

/-- Where no prototype has features, nothing comes in. -/
theorem UnifyStep.size_eq_of_unfeatured {g : Grammar} {W W' : Web} {task : UnifyTask}
    {tasks : List UnifyTask} (hs : UnifyStep g W task W' tasks)
    (hproto : ∀ t, g.featuredPrototype? t = none) : W'.size = W.size := by
  rcases hs.size_eq_or with hsize | ⟨_, _, _, _, _, -, -, -, hroot, -⟩
  · exact hsize
  · rw [hproto] at hroot
    cases hroot

/-- Where no prototype has features, a unification comes to its end, if enough turns are allowed. -/
theorem Session.exists_fuel_unifyTurn {s : Session} (hs : s.Sound) (he : s.graph.Entangled)
    (hproto : ∀ t, s.grammar.featuredPrototype? t = none) {left right : Nat}
    (hl : left < s.graph.size) (hright : right < s.graph.size) :
    ∃ fuel, ∀ s' waiting,
      Agenda.run unifyTurn fuel s [.pair left right] ≠ .spent s' waiting := by
  exact exists_fuel_of_size_eq (fun _ _ => True)
    ⟨fun h ht => ⟨(unifyTurn_next h.1 ht).2, trivial⟩⟩
    (fun _ _ hstep => hstep.size_eq_of_unfeatured hproto) (unifying_start hs he hl hright) trivial

end FeatureLogic
