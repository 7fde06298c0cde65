import FeatureLogic.Proofs.Graph.Sharing
import FeatureLogic.Proofs.Session.Printed
import FeatureLogic.Proofs.Session.Surveys
import FeatureLogic.Proofs.Session.Unvisited

/-!
What counts come to. A count that goes on from every node the first so many times comes to a node
once as the root and once for each edge at each time (`Layout.Tally`). With one time the nodes that
it comes to again are the shared ones; with two times they are those that are reached in two ways,
however many ways there are.
-/

open Relation

namespace FeatureLogic

/-! ## Arrivals -/

namespace Layout

/-- How often a node is come to if every node is come to `arrived` times and goes on the first
`times` times: once for the root `x`, and once for each edge at each time. -/
def expected (L : Layout) (x : NodeId) (size times : Nat) (arrived : NodeId → Nat) (m : NodeId) :
    Nat :=
  (if m = x then 1 else 0) + ∑ n ∈ Finset.range size,
    min times (arrived n) * ((L.edges n).map Edge.target).count m

/-- To come to a node once more lets its edges be taken once more, while it still goes on. -/
theorem expected_update (L : Layout) (x : NodeId) {size : Nat} (times : Nat)
    (arrived : NodeId → Nat) {n : Nat} (hn : n < size) (m : NodeId) :
    L.expected x size times (Function.update arrived n (arrived n + 1)) m =
      L.expected x size times arrived m +
        if arrived n < times then ((L.edges n).map Edge.target).count m else 0 := by
  have hmem := Finset.mem_range.2 hn
  unfold expected
  rw [← Finset.add_sum_erase _ _ hmem, ← Finset.add_sum_erase _ _ hmem]
  have hrest : ∑ k ∈ (Finset.range size).erase n,
      min times (Function.update arrived n (arrived n + 1) k) *
        ((L.edges k).map Edge.target).count m =
      ∑ k ∈ (Finset.range size).erase n,
        min times (arrived k) * ((L.edges k).map Edge.target).count m :=
    Finset.sum_congr rfl fun k hk => by rw [Function.update_of_ne (Finset.ne_of_mem_erase hk)]
  rw [hrest, Function.update_self]
  by_cases hlt : arrived n < times
  · rw [if_pos hlt, Nat.min_eq_right (Nat.succ_le_of_lt hlt), Nat.min_eq_right (Nat.le_of_lt hlt),
      Nat.succ_mul]
    omega
  · rw [if_neg hlt, Nat.min_eq_left (by omega), Nat.min_eq_left (by omega)]
    omega

/-- Every node is come to as often as is expected, and nothing that is not below `x`. -/
structure Tally (L : Layout) (x : NodeId) (size times : Nat) (arrived : NodeId → Nat) : Prop where
  reach : ∀ {m}, 0 < arrived m → L.Reach x m
  eq_expected : ∀ m, arrived m = L.expected x size times arrived m

section Tally

variable {L : Layout} {x m : NodeId} {size times : Nat} {arrived : NodeId → Nat}
  (hsize : ∀ ⦃n : Nat⦄, L.Reach x n → n < size) (htimes : 0 < times)
  (h : L.Tally x size times arrived)
include hsize htimes h

omit htimes in
theorem Tally.of_step {n : NodeId} (hn : 0 < arrived n) (hs : L.Step n m) :
    min times (arrived n) ≤ arrived m := by
  obtain ⟨e, he, rfl⟩ := hs
  have hmem : n ∈ Finset.range size := Finset.mem_range.2 (hsize (h.reach hn))
  have hcount : 0 < ((L.edges n).map Edge.target).count e.target :=
    List.count_pos_iff.2 (List.mem_map_of_mem he)
  calc min times (arrived n)
      ≤ min times (arrived n) * ((L.edges n).map Edge.target).count e.target :=
        Nat.le_mul_of_pos_right _ hcount
    _ ≤ ∑ k ∈ Finset.range size,
          min times (arrived k) * ((L.edges k).map Edge.target).count e.target :=
        Finset.single_le_sum (f := fun k => min times (arrived k) *
          ((L.edges k).map Edge.target).count e.target) (fun _ _ => Nat.zero_le _) hmem
    _ ≤ arrived e.target := by
        rw [h.eq_expected e.target]
        exact Nat.le_add_left ..

/-- All that is below the root is come to. -/
theorem Tally.pos_iff : 0 < arrived m ↔ L.Reach x m := by
  refine ⟨h.reach, fun hm => ?_⟩
  induction hm with
  | refl =>
    rw [h.eq_expected, expected, if_pos rfl]
    omega
  | tail _ hs ih => exact Nat.lt_of_lt_of_le (by omega) (h.of_step hsize ih hs)

/-- Where no node with an edge to `m` goes on twice, `m` is come to once for each edge. -/
theorem Tally.eq_incoming (hone : ∀ n, L.Reach x n → L.Step n m → min times (arrived n) ≤ 1) :
    arrived m = (L.incoming x m).ncard + if m = x then 1 else 0 := by
  classical
  rw [ncard_incoming hsize, Agenda.leftOver_not, h.eq_expected, expected, Nat.add_comm]
  congr 1
  refine Finset.sum_congr rfl fun n _ => ?_
  by_cases hcount : ((L.edges n).map Edge.target).count m = 0
  · simp [hcount]
  · obtain ⟨e, he, hm⟩ := List.mem_map.1 (List.count_pos_iff.1 (Nat.pos_of_ne_zero hcount))
    have hpos := h.pos_iff hsize htimes (m := n)
    split
    · rename_i hn
      have := hone n hn ⟨e, he, hm⟩
      have := hpos.2 hn
      rw [show min times (arrived n) = 1 by omega, Nat.one_mul]
    · rename_i hn
      rw [show arrived n = 0 by have := mt hpos.1 hn; omega, Nat.min_zero, Nat.zero_mul]

/-- A node is come to at least once for each edge to it. -/
theorem Tally.incoming_le : (L.incoming x m).ncard + (if m = x then 1 else 0) ≤ arrived m := by
  classical
  rw [ncard_incoming hsize, Agenda.leftOver_not, h.eq_expected, expected, Nat.add_comm]
  refine Nat.add_le_add_left (Finset.sum_le_sum fun n _ => ?_) _
  split
  · rename_i hn
    have := (h.pos_iff hsize htimes).2 hn
    exact Nat.le_mul_of_pos_left _ (by omega)
  · exact Nat.zero_le _

/-- What is below no shared node is come to once. -/
theorem Tally.eq_one (hm : L.Reach x m) (hnot : ∀ k, L.Shared x k → ¬ L.Reach k m) :
    arrived m = 1 := by
  induction hm with
  | refl =>
    have hx : ¬ L.Shared x x := fun hx => hnot x hx ReflTransGen.refl
    have hempty : (L.incoming x x).ncard = 0 := by
      by_contra hne
      exact hx ⟨ReflTransGen.refl, by rw [if_pos rfl]; omega⟩
    rw [h.eq_incoming hsize htimes fun n hn hs => absurd hs ?_, hempty, if_pos rfl]
    rintro ⟨e, he, heq⟩
    obtain ⟨i, hi⟩ := List.getElem?_of_mem he
    have hmem : (n, i) ∈ L.incoming x x := ⟨hn, by simp [hi, heq]⟩
    rw [(Set.ncard_eq_zero (finite_incoming hsize x)).1 hempty] at hmem
    exact hmem
  | @tail n m hn hs ih =>
    have hbefore : ∀ k, L.Shared x k → ¬ L.Reach k n := fun k hk hreach =>
      hnot k hk (ReflTransGen.tail hreach hs)
    have hm : ¬ L.Shared x m := fun hm => hnot m hm ReflTransGen.refl
    have honly := mt (shared_iff hsize).2 hm
    have hreach : L.Reach x m := ReflTransGen.tail hn hs
    simp only [hreach, true_and, not_or, not_exists, not_and] at honly
    obtain ⟨e, he, heq⟩ := hs
    obtain ⟨i, hi⟩ := List.getElem?_of_mem he
    have hedge : (n, i) ∈ L.incoming x m := ⟨hn, by simp [hi, heq]⟩
    have hsingle : L.incoming x m = {(n, i)} := Set.eq_singleton_iff_unique_mem.2
      ⟨hedge, fun p hp => by_contra fun hne => honly.1 p hp _ hedge hne⟩
    rw [h.eq_incoming hsize htimes fun k hk hs => ?_, hsingle, Set.ncard_singleton,
      if_neg fun hx => honly.2 hx _ hedge]
    obtain ⟨d, hd, hdeq⟩ := hs
    obtain ⟨j, hj⟩ := List.getElem?_of_mem hd
    have hother : (k, j) ∈ L.incoming x m := ⟨hk, by simp [hj, hdeq]⟩
    rw [hsingle] at hother
    cases hother
    rw [ih hbefore]
    exact Nat.min_le_right ..

/-- A count that goes on once comes again to the shared nodes. -/
theorem Tally.shared_iff (hone : times = 1) : 2 ≤ arrived m ↔ L.Shared x m := by
  rw [h.eq_incoming hsize htimes fun _ _ _ => hone ▸ Nat.min_le_left ..]
  refine ⟨fun htwo => ⟨(h.pos_iff hsize htimes).1 ?_, htwo⟩, fun hm => hm.2⟩
  rw [h.eq_incoming hsize htimes fun _ _ _ => hone ▸ Nat.min_le_left ..]
  omega

/-- A count that goes on twice comes again to what is reached in two ways. -/
theorem Tally.twoWays_iff (htwo : times = 2) : 2 ≤ arrived m ↔ L.TwoWays x m := by
  rw [Layout.twoWays_iff hsize]
  constructor
  · intro hm
    by_contra hnot
    have := h.eq_one hsize htimes (h.reach (m := m) (by omega)) fun k hk hreach =>
      hnot ⟨k, hk, hreach⟩
    omega
  · rintro ⟨k, hk, hreach⟩
    induction hreach with
    | refl => exact Nat.le_trans hk.2 (h.incoming_le hsize htimes)
    | tail _ hs ih =>
      refine Nat.le_trans ?_ (h.of_step hsize (by omega) hs)
      omega

end Tally

end Layout

/-! ## The walk -/

namespace Session

open FeatureLogic.Graph

/-- A turn of a count notes one more visit, of at most two, and counts a node at the second. -/
theorem countTurn_next {times : Nat} (htimes : times ≤ 2) {g : Graph} {count n : Nat}
    (hn : g.deref n < g.size) (hvisits : g.visits (g.deref n) ≤ 2) {state' : Graph × Nat}
    {tasks : List NodeId} (ht : countTurn times (g, count) n = .next state' tasks) :
    (∀ m, state'.1.visits m =
      if g.deref n = m then min 2 (g.visits m + 1) else g.visits m) ∧
    state'.2 = (if g.visits (g.deref n) = 1 then count + 1 else count) ∧
    tasks = if g.visits (g.deref n) < times then (g.currentEdges (g.deref n)).map Edge.target
      else [] := by
  simp only [countTurn] at ht
  split at ht
  · rename_i htwo
    have htwo : 2 ≤ g.visits (g.deref n) := htwo
    cases ht
    refine ⟨fun m => ?_, by rw [if_neg (by omega)], by rw [if_neg (by omega)]⟩
    show g.visits m = _
    split
    · rename_i hm
      rw [← hm]
      omega
    · rfl
  · rename_i hless
    cases ht
    refine ⟨fun m => ?_, rfl, rfl⟩
    rw [visits_setVisits hn]
    split
    · rename_i hm
      rw [← hm]
      omega
    · rfl

/-- To come to a node once more makes it one that is come to again, if it had been come to once. -/
theorem ncard_again_update {arrived : NodeId → Nat} (hfinite : {m | 2 ≤ arrived m}.Finite)
    (n : NodeId) : {m | 2 ≤ Function.update arrived n (arrived n + 1) m}.ncard =
      {m | 2 ≤ arrived m}.ncard + if arrived n = 1 then 1 else 0 := by
  by_cases hone : arrived n = 1
  · have hinsert : {m | 2 ≤ Function.update arrived n (arrived n + 1) m} =
        insert n {m | 2 ≤ arrived m} := by
      ext m
      simp only [Function.update_apply, Set.mem_ofPred_eq, Set.mem_insert_iff]
      split <;> simp [*]
    rw [hinsert, if_pos hone, Set.ncard_insert_of_notMem (by simp [hone]) hfinite]
  · rw [if_neg hone, Nat.add_zero]
    congr 1
    ext m
    simp only [Function.update_apply, Set.mem_ofPred_eq]
    split
    · rename_i hm
      rw [hm]
      omega
    · rfl

/-- What holds of a count when every node has been come to `arrived` times. -/
structure Arriving (g₀ : Graph) (x : NodeId) (times : Nat) (arrived : NodeId → Nat)
    (state : Graph × Nat) (tasks : List NodeId) : Prop where
  counting : Counting g₀ state tasks
  visits_eq : ∀ m : Nat, state.1.visits m = min 2 (arrived m)
  count_eq : state.2 = {m | 2 ≤ arrived m}.ncard
  reach : ∀ {m}, 0 < arrived m ∨ m ∈ tasks.map g₀.deref → g₀.view.Reach x m
  /-- What is expected has been come to or waits. -/
  expected : ∀ m, arrived m + (tasks.map g₀.deref).count m =
    g₀.view.expected x g₀.size times arrived m

section Arriving

variable {g₀ : Graph} (h₀ : g₀.Linked) {times : Nat} (htimes : times ≤ 2) {root : Nat}
  (hroot : root < g₀.size)
include h₀ htimes hroot

omit h₀ htimes in
theorem arriving_start (hvisits : g₀.Unvisited) :
    Arriving g₀ (g₀.deref root) times (fun _ => 0) (g₀, 0) [root] where
  counting := counting_start hroot
  visits_eq m := by simp [hvisits m]
  count_eq := by simp
  reach hm := by
    rcases hm with hm | hm
    · cases hm
    · rw [List.map_singleton, List.mem_singleton] at hm
      rw [hm]
      exact ReflTransGen.refl
  expected m := by
    by_cases hm : m = g₀.deref root
    · simp [Layout.expected, hm]
    · simp [Layout.expected, hm, Ne.symm hm]

/-- A node is come to once more. -/
theorem Arriving.turn {arrived : NodeId → Nat} {state state' : Graph × Nat} {n : NodeId}
    {waiting tasks : List NodeId}
    (h : Arriving g₀ (g₀.deref root) times arrived state (n :: waiting))
    (ht : countTurn times state n = .next state' tasks) :
    Arriving g₀ (g₀.deref root) times
      (Function.update arrived (g₀.deref n) (arrived (g₀.deref n) + 1)) state'
      (tasks ++ waiting) := by
  have hcounting := (keeps_counting h₀ times).next h.counting ht
  obtain ⟨g, count⟩ := state
  obtain ⟨hsurveyed, hwithin⟩ := h.counting
  have hderef : g.deref n = g₀.deref n := hsurveyed.deref_eq n
  have hlt : g₀.deref n < g₀.size := h₀.deref_lt (hwithin n (List.mem_cons_self ..))
  have hvisits : g.visits (g₀.deref n) = min 2 (arrived (g₀.deref n)) := h.visits_eq _
  obtain ⟨hvisits', hcount', htasks⟩ := countTurn_next htimes
    (by rw [hderef, hsurveyed.size_eq]; exact hlt) (by rw [hderef, hvisits]; omega) ht
  rw [hderef, hvisits] at hcount' htasks
  rw [hderef] at hvisits'
  have hreach : g₀.view.Reach (g₀.deref root) (g₀.deref n) := h.reach (.inr (by simp))
  have hnew : tasks.map g₀.deref = if arrived (g₀.deref n) < times
      then (g₀.view.edges (g₀.deref n)).map Edge.target else [] := by
    rw [htasks, hsurveyed.currentEdges_eq, ← currentTargets_eq]
    by_cases hless : arrived (g₀.deref n) < times
    · rw [if_pos hless, if_pos (by omega), currentTargets, List.map_map]
      rfl
    · rw [if_neg hless, if_neg (by omega)]
      rfl
  refine ⟨hcounting, fun m => ?_, ?_, fun {m} hm => ?_, fun m => ?_⟩
  · rw [hvisits', Function.update_apply, h.visits_eq m]
    by_cases hm : g₀.deref n = m
    · subst hm
      rw [if_pos rfl, if_pos rfl]
      omega
    · rw [if_neg hm, if_neg (Ne.symm hm)]
  · have hfinite : {m | 2 ≤ arrived m}.Finite := (Set.finite_lt_nat g₀.size).subset
      fun m (hm : 2 ≤ arrived m) => h₀.reach_lt hroot (h.reach (.inl (by omega)))
    have hcount : count = {m | 2 ≤ arrived m}.ncard := h.count_eq
    rw [hcount', ncard_again_update hfinite, hcount]
    split <;> split <;> omega
  · rw [List.map_append, List.mem_append, hnew] at hm
    rcases hm with hm | hm | hm
    · by_cases heq : m = g₀.deref n
      · exact heq ▸ hreach
      · rw [Function.update_of_ne heq] at hm
        exact h.reach (.inl hm)
    · split at hm
      · obtain ⟨e, he, rfl⟩ := List.mem_map.1 hm
        exact hreach.edge he
      · cases hm
    · exact h.reach (.inr (List.mem_cons_of_mem _ hm))
  · have hbefore := h.expected m
    simp only [List.map_cons, List.count_cons, beq_iff_eq] at hbefore
    rw [Layout.expected_update _ _ _ _ hlt, ← hbefore, List.map_append, List.count_append, hnew,
      Function.update_apply, apply_ite (List.count m), List.count_nil]
    by_cases hm : g₀.deref n = m
    · subst hm
      simp only [if_true]
      omega
    · rw [if_neg hm, if_neg (Ne.symm hm)]
      omega

theorem keeps_arriving : Agenda.Keeps (countTurn times)
    fun state tasks => ∃ arrived, Arriving g₀ (g₀.deref root) times arrived state tasks :=
  ⟨fun ⟨_, h⟩ ht => ⟨_, h.turn h₀ htimes hroot ht⟩⟩

end Arriving

/-- A count comes to its end and has counted the nodes that it came to more than once. -/
theorem exists_tally {s : Session} (hs : s.Arises) {root : Nat} (hroot : root < s.graph.size)
    {times : Nat} (hpos : 0 < times) (htimes : times ≤ 2) : ∃ state arrived,
      Agenda.run (countTurn times) (times * s.graph.weight) (s.graph, 0) [root] = .done state ∧
      s.graph.view.Tally (s.graph.deref root) s.graph.size times arrived ∧
      (s.countRepeated times root).1 = {m | 2 ≤ arrived m}.ncard := by
  have hlinked := hs.closed.graph
  have hstart : Arriving s.graph (s.graph.deref root) times (fun _ => 0) (s.graph, 0) [root] :=
    arriving_start hroot hs.reached.unvisited
  have hcount : (s.countRepeated times root).1 =
      (Agenda.run (countTurn times) (times * s.graph.weight) (s.graph, 0) [root]).state.2 := rfl
  rw [hcount]
  cases hrun : Agenda.run (countTurn times) (times * s.graph.weight) (s.graph, 0) [root] with
  | spent state waiting => exact absurd hrun (run_countTurn_ne_spent hlinked hpos hroot _ _)
  | halted state answer waiting => exact answer.elim
  | done state =>
    obtain ⟨arrived, h⟩ := (keeps_arriving hlinked htimes hroot).done ⟨_, hstart⟩ hrun
    exact ⟨state, arrived, rfl, ⟨fun hm => h.reach (.inl hm), h.expected⟩, h.count_eq⟩

/-- The nodes that are counted when everything is gone through once are the shared ones. -/
theorem sharedCount_eq_ncard {s : Session} (hs : s.Arises) {root : Nat}
    (hroot : root < s.graph.size) : (s.sharedCount root).1 =
      {m | s.graph.view.Shared (s.graph.deref root) m}.ncard := by
  obtain ⟨-, arrived, -, htally, hcount⟩ :=
    exists_tally hs hroot Nat.one_pos (Nat.le_succ 1)
  refine hcount.trans (congrArg Set.ncard (Set.ext fun m => ?_))
  exact htally.shared_iff (fun _ => hs.closed.graph.reach_lt hroot) Nat.one_pos rfl

/-- The nodes that are counted when everything is gone through twice are those that are reached in
two ways. -/
theorem rigidCount_eq_ncard {s : Session} (hs : s.Arises) {root : Nat}
    (hroot : root < s.graph.size) : (s.rigidCount root).1 =
      {m | s.graph.view.TwoWays (s.graph.deref root) m}.ncard := by
  obtain ⟨-, arrived, -, htally, hcount⟩ := exists_tally hs hroot Nat.two_pos (Nat.le_refl 2)
  refine hcount.trans (congrArg Set.ncard (Set.ext fun m => ?_))
  exact htally.twoWays_iff (fun _ => hs.closed.graph.reach_lt hroot) Nat.two_pos rfl

end Session

end FeatureLogic
