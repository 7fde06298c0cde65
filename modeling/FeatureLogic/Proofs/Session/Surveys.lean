import Mathlib.Algebra.Order.BigOperators.Group.Finset
import FeatureLogic.Proofs.Agenda
import FeatureLogic.Proofs.Graph.Alike
import FeatureLogic.Session.Survey

/-!
Surveys: the walks that look for a cycle or count the nodes that are come to again. What they note
leaves the structure of the episode as it is (`Graph.Surveyed`). They end within their bounds, also
while an episode is open, and below nodes that correspond they find the same (`Session.cyclic_eq`,
`Session.countRepeated_eq`).
-/

namespace FeatureLogic

/-- The node of a task. -/
def CycleTask.node : CycleTask → NodeId
  | enter n | leave n => n

namespace Graph

variable {g₀ g : Graph}

theorem deref_congr {g' : Graph} (hsize : g'.size = g.size)
    (hforward : ∀ n, g'.forward? n = g.forward? n) (n : NodeId) : g'.deref n = g.deref n := by
  unfold deref
  rw [hsize]
  generalize g.size = fuel
  induction fuel generalizing n with
  | zero => rfl
  | succ fuel ih =>
    simp only [derefIn, hforward]
    split
    · rfl
    · split
      · rfl
      · exact ih _

theorem visits_setVisits {n : Nat} (hn : n < g.size) (visits : Nat) (m : Nat) :
    (g.setVisits n visits).visits m = if n = m then visits else g.visits m := by
  rw [Graph.visits, setVisits, slots_note_of_lt hn]
  · split <;> rfl
  · intro _
    rfl

@[simp] theorem visits_setCopyMark (g : Graph) (n m : Nat) (mark : CopyMark) :
    (g.setCopyMark n mark).visits m = g.visits m := by
  unfold visits setCopyMark
  exact read_note Slots.visits (by intro _; rfl) (by intro _; rfl) m

@[simp] theorem copyMark_setVisits (g : Graph) (n m : Nat) (visits : Nat) :
    (g.setVisits n visits).copyMark m = g.copyMark m := by
  unfold copyMark setVisits
  exact read_note Slots.copy (by intro _; rfl) (by intro _; rfl) m

/-- The structure of the episode is the same. -/
structure Surveyed (g₀ g : Graph) : Prop where
  size_eq : g.size = g₀.size
  deref_eq : ∀ n, g.deref n = g₀.deref n
  currentEdges_eq : ∀ n, g.currentEdges n = g₀.currentEdges n

theorem Surveyed.refl (g : Graph) : g.Surveyed g := ⟨rfl, fun _ => rfl, fun _ => rfl⟩

/-- A note that is neither a pointer nor an edge. -/
theorem Surveyed.note (h : g₀.Surveyed g) (n : NodeId) {f : Slots → Slots}
    (hf : ∀ s, (f s).stamp = s.stamp) (hforward : ∀ s, (f s).forward = s.forward)
    (hpending : ∀ s, (f s).pending = s.pending) : g₀.Surveyed (g.note n f) where
  size_eq := (size_note ..).trans h.size_eq
  deref_eq m := by
    refine (deref_congr (size_note ..) (fun i => ?_) m).trans (h.deref_eq m)
    exact read_note Slots.forward hf hforward i
  currentEdges_eq m := by
    have hsame : (g.note n f).pending m = g.pending m := read_note Slots.pending hf hpending m
    rw [← h.currentEdges_eq, currentEdges, currentEdges, hsame, edges_note]

theorem Surveyed.setVisits (h : g₀.Surveyed g) (n : NodeId) (visits : Nat) :
    g₀.Surveyed (g.setVisits n visits) :=
  h.note n (by intro _; rfl) (by intro _; rfl) (by intro _; rfl)

theorem Surveyed.setCopyMark (h : g₀.Surveyed g) (n : NodeId) (mark : CopyMark) :
    g₀.Surveyed (g.setCopyMark n mark) :=
  h.note n (by intro _; rfl) (by intro _; rfl) (by intro _; rfl)

end Graph

namespace Session

open FeatureLogic.Graph

variable {g₀ g g' : Graph}

/-! ## The search for a cycle -/

/-- What holds of a search with tasks left to do. -/
structure Searching (g₀ g : Graph) (tasks : List CycleTask) : Prop where
  surveyed : g₀.Surveyed g
  within : ∀ task ∈ tasks, task.node < g₀.size

theorem searching_start {root : Nat} (hroot : root < g₀.size) :
    Searching g₀ g₀ [.enter root] :=
  ⟨.refl _, fun task ht => by rw [List.mem_singleton.1 ht]; exact hroot⟩

/-- A turn that goes on leaves a node, or comes to one again, or comes to one for the first time. -/
theorem cycleTurn_next {task : CycleTask} {tasks : List CycleTask}
    (h : cycleTurn g task = .next g' tasks) :
    (∃ n, task = .leave n ∧ g' = g.setCopyMark n .blank ∧ tasks = []) ∨
    (∃ n, task = .enter n ∧ g' = g ∧ tasks = []) ∨
    ∃ n, task = .enter n ∧ g.visits (g.deref n) = 0 ∧
      g' = (g.setVisits (g.deref n) 1).setCopyMark (g.deref n) .underway ∧
      tasks =
        (g.currentEdges (g.deref n)).map (fun e => .enter e.target) ++ [CycleTask.leave (g.deref n)] := by
  cases task with
  | leave n =>
    cases h
    exact .inl ⟨n, rfl, rfl, rfl⟩
  | enter n =>
    simp only [cycleTurn, List.foldr_cons_eq_append] at h
    split at h
    · rename_i hnew
      cases h
      exact .inr (.inr ⟨n, rfl, hnew, rfl, rfl⟩)
    · split at h
      · cases h
      · cases h
        exact .inr (.inl ⟨n, rfl, rfl, rfl⟩)

theorem keeps_searching (h₀ : g₀.Linked) : Agenda.Keeps cycleTurn (Searching g₀) := by
  refine ⟨fun {g task waiting g' tasks} h ht => ?_⟩
  have hwaiting : ∀ t ∈ waiting, t.node < g₀.size :=
    fun t ht => h.within t (List.mem_cons_of_mem _ ht)
  have htask := h.within task (List.mem_cons_self ..)
  rcases cycleTurn_next ht with ⟨n, rfl, rfl, rfl⟩ | ⟨n, rfl, rfl, rfl⟩ | ⟨n, rfl, -, rfl, rfl⟩
  · exact ⟨h.surveyed.setCopyMark .., hwaiting⟩
  · exact ⟨h.surveyed, hwaiting⟩
  · refine ⟨(h.surveyed.setVisits ..).setCopyMark .., fun t ht => ?_⟩
    rw [h.surveyed.deref_eq, h.surveyed.currentEdges_eq] at ht
    simp only [List.mem_append, List.mem_map, List.mem_singleton] at ht
    rcases ht with (⟨e, he, rfl⟩ | rfl) | ht
    · exact h₀.currentEdges_lt he
    · exact h₀.deref_lt htask
    · exact hwaiting t ht

/-- A search comes to every node at most once with something to do, and ends within its bound. -/
theorem run_cycleTurn_ne_spent (h₀ : g₀.Linked) {root : Nat} (hroot : root < g₀.size) (g : Graph)
    (waiting : List CycleTask) :
    Agenda.run cycleTurn g₀.weight g₀ [.enter root] ≠ .spent g waiting := by
  refine (keeps_searching h₀).run_ne_spent_of_marks g₀.size
    (fun n => (g₀.currentEdges n).length + 1) (fun g n => g.visits n ≠ 0) ?_
    (searching_start hroot) ?_ g waiting
  · intro g task waiting g' tasks h ht
    rcases cycleTurn_next ht with ⟨n, rfl, rfl, rfl⟩ | ⟨n, rfl, rfl, rfl⟩ | ⟨n, rfl, hnew, rfl, rfl⟩
    · exact .inl ⟨rfl, fun m => by rw [visits_setCopyMark]⟩
    · exact .inl ⟨rfl, fun m => .rfl⟩
    · have hn := h₀.deref_lt (h.within _ (List.mem_cons_self ..) : n < g₀.size)
      rw [← h.surveyed.deref_eq] at hn
      refine .inr ⟨g.deref n, hn, not_not.2 hnew, fun m => ?_, ?_⟩
      · rw [visits_setCopyMark, visits_setVisits (h.surveyed.size_eq ▸ hn)]
        by_cases hm : g.deref n = m
        · simp [hm]
        · simp [hm, Ne.symm hm]
      · simp [h.surveyed.currentEdges_eq]
  · have := g₀.leftOver_lt_weight (fun n => (g₀.currentEdges n).length + 1)
      (fun n => g₀.visits n ≠ 0) fun n => by
        have := Entangled.length_currentEdges_le g₀ n
        omega
    simpa using this

/-- The same task for nodes that correspond. -/
inductive CycleAlike (ρ : Correspondence) : CycleTask → CycleTask → Prop
  | enter {n m : NodeId} (h : ρ n m) : CycleAlike ρ (.enter n) (.enter m)
  | leave {n m : NodeId} (h : ρ n m) : CycleAlike ρ (.leave n) (.leave m)

section Alike

variable {ρ : Correspondence} {k₀ : Graph} (hρ : g₀.Alike ρ k₀) (hg : g₀.Linked) (hk : k₀.Linked)
include hρ hg hk

/-- Searches below nodes that correspond are in step. -/
theorem inStep_cycleTurn : Agenda.InStep cycleTurn cycleTurn
    (Agenda.Abreast (Searching g₀) (Searching k₀) (fun _ => Graph.Alike ρ)
      (fun _ => CycleAlike ρ) ()) := by
  refine Agenda.inStep_of_abreast (keeps_searching hg) (keeps_searching hk) (fun _ h => h) ()
    fun {_ g task waiting k task' waiting'} h htask hinv hinv' => ?_
  cases htask with
  | leave hn => exact .next ⟨(), le_rfl, h.setCopyMark hn .blank, .nil⟩
  | @enter n m hn =>
    have hnode : ρ (g.deref n) (k.deref m) := by
      rw [hinv.surveyed.deref_eq, hinv'.surveyed.deref_eq]
      exact hρ.deref hn hg hk
    have hmark := h.copyMark hnode
    simp only [cycleTurn, List.foldr_cons_eq_append, h.visits_eq hnode]
    split
    · refine .next ⟨(), le_rfl, (h.setVisits hnode 1).setCopyMark hnode .underway, ?_⟩
      refine List.rel_append ?_ (.cons (.leave hnode) .nil)
      rw [List.forall₂_map_left_iff, List.forall₂_map_right_iff]
      exact (h.currentEdges hnode).imp fun _ _ hde => .enter hde.2
    · generalize g.copyMark (g.deref n) = mark, k.copyMark (k.deref m) = mark' at hmark
      cases hmark with
      | underway => exact .halt
      | blank => exact .next ⟨(), le_rfl, h, .nil⟩
      | copied => exact .next ⟨(), le_rfl, h, .nil⟩

end Alike

/-- Below nodes that correspond there is a cycle in both graphs or in none. -/
theorem cyclic_eq {s t : Session} {ρ : Correspondence} (hρ : s.graph.Alike ρ t.graph)
    (hs : s.graph.Linked) (ht : t.graph.Linked) {a a' : NodeId} (ha : ρ a a') :
    (s.cyclic a).1 = (t.cyclic a').1 := by
  obtain ⟨hlt, hlt'⟩ := hρ.lt ha
  have hends := (inStep_cycleTurn hρ hs ht).run_of_ne_spent
    ⟨searching_start hlt, searching_start hlt', (), le_rfl, hρ, .cons (.enter ha) .nil⟩
    (run_cycleTurn_ne_spent hs hlt) (run_cycleTurn_ne_spent ht hlt')
  simp only [cyclic]
  revert hends
  generalize Agenda.run cycleTurn s.graph.weight s.graph [.enter a] = ending
  generalize Agenda.run cycleTurn t.graph.weight t.graph [.enter a'] = ending'
  intro hends
  cases hends <;> rfl

/-! ## Counting -/

/-- What holds of a count with nodes left to come to. -/
structure Counting (g₀ : Graph) (state : Graph × Nat) (tasks : List NodeId) : Prop where
  surveyed : g₀.Surveyed state.1
  within : ∀ n ∈ tasks, n < g₀.size

theorem counting_start {root : Nat} (hroot : root < g₀.size) : Counting g₀ (g₀, 0) [root] :=
  ⟨.refl _, List.forall_mem_singleton.2 hroot⟩

theorem keeps_counting (h₀ : g₀.Linked) (times : Nat) :
    Agenda.Keeps (countTurn times) (Counting g₀) := by
  refine ⟨fun {state n waiting state' tasks} h ht => ?_⟩
  obtain ⟨g, count⟩ := state
  have hwaiting : ∀ m ∈ waiting, m < g₀.size := fun m hm => h.within m (List.mem_cons_of_mem _ hm)
  simp only [countTurn] at ht
  split at ht
  · cases ht
    exact ⟨h.surveyed, hwaiting⟩
  · cases ht
    refine ⟨h.surveyed.setVisits .., fun m hm => ?_⟩
    rcases List.mem_append.1 hm with hm | hm
    · split at hm
      · obtain ⟨e, he, rfl⟩ := List.mem_map.1 hm
        exact h₀.currentEdges_lt (h.surveyed.currentEdges_eq _ ▸ he)
      · cases hm
    · exact hwaiting m hm

/-- The work that is left: what is below a node is gone through once more for each time that is left
to it. -/
def remaining (g : Graph) (times : Nat) (visits : NodeId → Nat) : Nat :=
  ∑ n ∈ Finset.range g.size, (times - visits n) * (g.currentEdges n).length

/-- To come to a node once more takes what follows it from the work that is left. -/
theorem remaining_update (g : Graph) (times : Nat) (visits : NodeId → Nat) {n : Nat}
    (hn : n < g.size) :
    (if visits n < times then (g.currentEdges n).length else 0) +
      remaining g times (fun m => if n = m then visits n + 1 else visits m) =
        remaining g times visits := by
  have hmem := Finset.mem_range.2 hn
  unfold remaining
  rw [← Finset.add_sum_erase _ _ hmem, ← Finset.add_sum_erase _ _ hmem, ← Nat.add_assoc]
  congr 1
  · simp only [if_true]
    split
    · rename_i hlt
      obtain ⟨d, rfl⟩ := Nat.exists_eq_add_of_lt hlt
      rw [show visits n + d + 1 - visits n = d + 1 by omega,
        show visits n + d + 1 - (visits n + 1) = d by omega, Nat.succ_mul, Nat.add_comm]
    · rename_i hge
      rw [show times - visits n = 0 by omega, show times - (visits n + 1) = 0 by omega,
        Nat.zero_mul]
  · refine Finset.sum_congr rfl fun m hm => ?_
    simp only [if_neg (Finset.ne_of_mem_erase hm).symm]

theorem remaining_lt (g : Graph) {times : Nat} (htimes : 0 < times) (visits : NodeId → Nat) :
    1 + remaining g times visits ≤ times * g.weight := by
  have hsum : remaining g times visits ≤ times * ∑ n ∈ Finset.range g.size,
      (1 + (g.edges n).length + (g.node n).slots.pending.length) := by
    unfold remaining
    rw [Finset.mul_sum]
    refine Finset.sum_le_sum fun n _ => Nat.mul_le_mul (Nat.sub_le ..) ?_
    have := Entangled.length_currentEdges_le g n
    omega
  rw [g.weight_eq, Nat.mul_add, Nat.mul_one]
  omega

/-- A count ends within its bound. -/
theorem run_countTurn_ne_spent (h₀ : g₀.Linked) {times : Nat} (htimes : 0 < times) {root : Nat}
    (hroot : root < g₀.size) (state : Graph × Nat) (waiting : List NodeId) :
    Agenda.run (countTurn times) (times * g₀.weight) (g₀, 0) [root] ≠ .spent state waiting := by
  refine Agenda.run_ne_spent_of_left
    (fun visits state tasks => Counting g₀ state tasks ∧ ∀ n, state.1.visits n = visits n)
    (remaining g₀ times)
    (fun {visits state n waiting state' tasks} h ht => ?_)
    ⟨counting_start hroot, fun n => rfl⟩ ?_ state waiting
  · have hkept := (keeps_counting h₀ times).next h.1 ht
    obtain ⟨g, count⟩ := state
    obtain ⟨⟨hsurveyed, hwithin⟩, hvisits⟩ := h
    simp only [countTurn] at ht
    split at ht
    · cases ht
      exact ⟨visits, ⟨hkept, hvisits⟩, by simp⟩
    · cases ht
      have hn : g₀.deref n < g₀.size := h₀.deref_lt (hwithin n (List.mem_cons_self ..))
      refine ⟨fun m => if g.deref n = m then visits (g.deref n) + 1 else visits m,
        ⟨hkept, fun m => ?_⟩, Nat.le_of_eq ?_⟩
      · rw [visits_setVisits (by rwa [hsurveyed.size_eq, hsurveyed.deref_eq]), hvisits, hvisits]
      · rw [← remaining_update g₀ times visits (hsurveyed.deref_eq n ▸ hn), ← hvisits,
          hsurveyed.currentEdges_eq]
        split <;> simp
  · exact remaining_lt g₀ htimes _

section Alike

variable {ρ : Correspondence} {k₀ : Graph} (hρ : g₀.Alike ρ k₀) (hg : g₀.Linked) (hk : k₀.Linked)
include hρ hg hk

/-- Counts below nodes that correspond are in step. -/
theorem inStep_countTurn (times : Nat) : Agenda.InStep (countTurn times) (countTurn times)
    (Agenda.Abreast (Counting g₀) (Counting k₀)
      (fun _ state state' => Graph.Alike ρ state.1 state'.1 ∧ state.2 = state'.2)
      (fun _ => ρ) ()) := by
  refine Agenda.inStep_of_abreast (keeps_counting hg times) (keeps_counting hk times)
    (fun _ h => h) () fun {_ state n waiting state' m waiting'} h hn hinv hinv' => ?_
  obtain ⟨g, count⟩ := state
  obtain ⟨k, count'⟩ := state'
  obtain ⟨halike, rfl⟩ := h
  have hnode : ρ (g.deref n) (k.deref m) := by
    rw [hinv.surveyed.deref_eq, hinv'.surveyed.deref_eq]
    exact hρ.deref hn hg hk
  have hvisits := halike.visits_eq hnode
  simp only [countTurn, hvisits]
  split
  · exact .next ⟨(), le_rfl, ⟨halike, rfl⟩, .nil⟩
  · refine .next ⟨(), le_rfl, ⟨halike.setVisits hnode _, rfl⟩, ?_⟩
    split
    · rw [List.forall₂_map_left_iff, List.forall₂_map_right_iff]
      exact (halike.currentEdges hnode).imp fun _ _ hde => hde.2
    · exact .nil

end Alike

/-- Below nodes that correspond as many nodes are come to again. -/
theorem countRepeated_eq {s t : Session} {ρ : Correspondence} (hρ : s.graph.Alike ρ t.graph)
    (hs : s.graph.Linked) (ht : t.graph.Linked) {times : Nat} (htimes : 0 < times) {a a' : NodeId}
    (ha : ρ a a') : (s.countRepeated times a).1 = (t.countRepeated times a').1 := by
  obtain ⟨hlt, hlt'⟩ := hρ.lt ha
  have hstart : Agenda.Abreast (Counting s.graph) (Counting t.graph)
      (fun _ state state' => Graph.Alike ρ state.1 state'.1 ∧ state.2 = state'.2) (fun _ => ρ) ()
      (s.graph, 0) [a] (t.graph, 0) [a'] :=
    ⟨counting_start hlt, counting_start hlt', (), le_rfl, ⟨hρ, rfl⟩, .cons ha .nil⟩
  have hends := (inStep_countTurn hρ hs ht times).run_of_ne_spent hstart
    (run_countTurn_ne_spent hs htimes hlt) (run_countTurn_ne_spent ht htimes hlt')
  obtain ⟨-, -, -, -, ⟨-, hcount⟩, -⟩ := hends.state (run_countTurn_ne_spent hs htimes hlt)
  exact hcount

end Session

end FeatureLogic
